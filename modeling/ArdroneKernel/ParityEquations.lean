import ArdroneKernel.BitPolynomial

/-!
# Linear equations over the two-element field as words

A word is an equation: its bits select the unknowns, which are the bits of
another word, and the sum of the selected unknowns is to be zero. A
constant term is an unknown that is fixed to one. Exclusive or adds
equations and adds solutions. A triangular system has at most one solution
for each choice of the lowest unknown.
-/

namespace ArdroneKernel.ParityEquations

open BitPolynomial

/-- The sum of the unknowns `v` that the equation `a` selects. -/
def dot (a v : ℕ) : ZMod 2 := bitSum 1 (a&&&v)

theorem dot_comm (a v : ℕ) : dot a v=dot v a := by rw [dot,dot,Nat.and_comm]

@[simp]
theorem dot_zero (a : ℕ) : dot a 0=0 := by rw [dot,Nat.and_zero,bitSum_zero]

theorem dot_xor (a v w : ℕ) : dot a (v^^^w)=dot a v+dot a w := by
  rw [dot,dot,dot,Nat.and_xor_distrib_left,bitSum_xor]

theorem xor_dot (a b v : ℕ) : dot (a^^^b) v=dot a v+dot b v := by
  rw [dot_comm,dot_xor,dot_comm v,dot_comm v]

/-- A single selected unknown. -/
theorem dot_two_pow (a k : ℕ) : dot a (2^k)=if a.testBit k then 1 else 0 := by
  rw [dot,Nat.and_two_pow]
  cases a.testBit k <;> simp

/-- An equation of `k` bits only looks at the low `k` unknowns. -/
theorem dot_mod {a k : ℕ} (ha : a<2^k) (v : ℕ) : dot a (v%2^k)=dot a v := by
  rw [dot,dot]
  congr 1
  apply Nat.eq_of_testBit_eq
  intro i
  rw [Nat.testBit_and,Nat.testBit_and,Nat.testBit_mod_two_pow]
  by_cases hi : i<k
  · simp [hi]
  · rw [Nat.testBit_lt_two_pow (lt_of_lt_of_le ha (Nat.pow_le_pow_right (by omega) (by omega)))]
    simp

/-- The solutions of a system with `m` equations. -/
def Solves (T : ℕ → ℕ) (m v : ℕ) : Prop := ∀ j < m, dot (T j) v=0

/-- The equation `j` of a triangular system looks at the unknowns up to
number `m-j` and does look at that one. -/
def Triangular (T : ℕ → ℕ) (m : ℕ) : Prop := ∀ j < m, T j<2^(m-j+1) ∧ (T j).testBit (m-j)=true

section Triangular

variable {T : ℕ → ℕ} {m : ℕ}

/-- A triangular system without a constant term has only the zero solution. -/
theorem Triangular.eq_zero (hT : Triangular T m) {u : ℕ} (hu : u<2^(m+1)) (h0 : u.testBit 0=false)
    (h : Solves T m u) : u=0 := by
  have hlow : ∀ i, i ≤ m → u%2^(i+1)=0 := by
    intro i
    induction i with
    | zero =>
      intro _
      have : ¬u%2=1 := by simpa using h0
      omega
    | succ i ih =>
      intro hi
      have hz := ih (by omega)
      obtain ⟨hlt,hbit⟩ := hT (m-(i+1)) (by omega)
      have hs := h (m-(i+1)) (by omega)
      have hexp : m-(m-(i+1))=i+1 := by omega
      rw [hexp] at hlt hbit
      have hsplit := Nat.mod_pow_succ (x := u) (b := 2) (k := i+1)
      rw [hz,Nat.zero_add] at hsplit
      rcases Nat.mod_two_eq_zero_or_one (u/2^(i+1)) with h0 | h1
      · rw [hsplit,h0,Nat.mul_zero]
      · rw [h1,Nat.mul_one] at hsplit
        rw [←dot_mod hlt,hsplit,dot_two_pow,if_pos hbit] at hs
        exact absurd hs one_ne_zero
  rw [←hlow m (le_refl m),Nat.mod_eq_of_lt hu]

/-- Solutions with the same constant term are equal. -/
theorem Triangular.unique (hT : Triangular T m) {v w : ℕ} (hv : v<2^(m+1)) (hw : w<2^(m+1))
    (h0 : v.testBit 0=w.testBit 0) (h : Solves T m v) (h' : Solves T m w) : v=w := by
  have hx : v^^^w=0 := by
    apply hT.eq_zero (Nat.xor_lt_two_pow hv hw)
    · rw [Nat.testBit_xor,h0,Bool.xor_self]
    · intro j hj
      rw [dot_xor,h j hj,h' j hj,add_zero]
  have hxx : (v^^^w)^^^w=w := by rw [hx,Nat.zero_xor]
  rwa [Nat.xor_assoc,Nat.xor_self,Nat.xor_zero] at hxx

end Triangular

/-- The bits of a number add up to it. -/
theorem sum_bits {n k : ℕ} (h : n<2^k) :
    ∑ i ∈ Finset.range k, (if n.testBit i then 2^i else 0)=n := by
  induction k generalizing n with
  | zero =>
    rw [Finset.sum_range_zero]
    omega
  | succ k ih =>
    rw [Finset.sum_range_succ']
    have hh : n/2<2^k := by
      omega
    have hs : ∑ i ∈ Finset.range k, (if n.testBit (i+1) then 2^(i+1) else 0)=2*(n/2) := by
      conv_rhs => rw [←ih hh,Finset.mul_sum]
      apply Finset.sum_congr rfl
      intro i _
      rw [Nat.testBit_succ]
      split
      · rw [pow_succ,Nat.mul_comm]
      · rfl
    rw [hs,Nat.testBit_zero,pow_zero]
    rcases Nat.mod_two_eq_zero_or_one n with h0 | h1
    · rw [h0]
      simp
      omega
    · rw [h1]
      simp
      omega

end ArdroneKernel.ParityEquations
