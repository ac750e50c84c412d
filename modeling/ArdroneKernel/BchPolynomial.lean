import ArdroneKernel.ArrayList
import ArdroneKernel.BchDecode
import ArdroneKernel.BchField

/-!
# Coefficient arrays of the decoder

An array of table elements is the polynomial whose coefficients, from the
constant term up, are the field elements the entries stand for. The cells
past the end of an array count as zero.
-/

namespace ArdroneKernel.BchPolynomial

open Polynomial BitPolynomial ArrayList BchDecode

section Arrays

variable {F : Type*} [Field F] {α : F} {m : ℕ} {c : List ℕ}

/-- The polynomial of an array. -/
noncomputable def listPoly (α : F) (c : List ℕ) : F[X] :=
  ∑ i ∈ Finset.range c.length, C (bitSum α (c.getD i 0))*X^i

@[simp]
theorem coeff_listPoly (α : F) (c : List ℕ) (i : ℕ) :
    (listPoly α c).coeff i=bitSum α (c.getD i 0) := by
  rw [listPoly,finsetSum_coeff]
  simp only [coeff_C_mul_X_pow]
  rcases Nat.lt_or_ge i c.length with hi | hi
  · rw [Finset.sum_eq_single i]
    · rw [if_pos rfl]
    · intro j _ hj
      rw [if_neg (Ne.symm hj)]
    · intro h
      exact absurd (Finset.mem_range.mpr hi) h
  · rw [getD_of_length_le _ hi,bitSum_zero]
    apply Finset.sum_eq_zero
    intro j hj
    have := Finset.mem_range.mp hj
    rw [if_neg (by omega)]

/-- All entries are elements of the field. -/
def Small (m : ℕ) (c : List ℕ) : Prop := ∀ i, c.getD i 0<2^m

theorem small_of_mem (h : ∀ x ∈ c, x<2^m) : Small m c :=
  fun i => forall_getD (P := fun x => x<2^m) (Nat.two_pow_pos m) h i

theorem Small.mem (h : Small m c) {x : ℕ} (hx : x ∈ c) : x<2^m := by
  obtain ⟨i,hi,rfl⟩ := List.getElem_of_mem hx
  have := h i
  rwa [List.getD_eq_getElem _ _ hi] at this

theorem small_replicate (m k : ℕ) : Small m (List.replicate k 0) := by
  apply small_of_mem
  intro x hx
  rw [(List.mem_replicate.mp hx).2]
  exact Nat.two_pow_pos m

theorem Small.take (h : Small m c) (k : ℕ) : Small m (c.take k) :=
  small_of_mem fun _ hx => h.mem (List.mem_of_mem_take hx)

theorem Small.drop (h : Small m c) (k : ℕ) : Small m (c.drop k) :=
  small_of_mem fun _ hx => h.mem (List.mem_of_mem_drop hx)

theorem Small.set (h : Small m c) (i : ℕ) {v : ℕ} (hv : v<2^m) : Small m (c.set i v) := by
  intro j
  rw [getD_set]
  split
  · exact hv
  · exact h j

theorem getD_xorAt {i j v : ℕ} (hi : i<c.length) :
    (xorAt c i v).getD j 0=if i=j then c.getD j 0^^^v else c.getD j 0 := by
  unfold xorAt
  by_cases h : i=j
  · subst h
    rw [getD_set_self _ _ hi,if_pos rfl]
  · rw [getD_set_ne _ _ _ h,if_neg h]

theorem length_xorAt (c : List ℕ) (i v : ℕ) : (xorAt c i v).length=c.length := List.length_set

end Arrays

section Windows

/-- Add a value to one cell, or nothing. -/
def addAt (c : List ℕ) (i : ℕ) : Option ℕ → List ℕ
  | some v => xorAt c i v
  | none => c

theorem length_addAt (c : List ℕ) (i : ℕ) (o : Option ℕ) : (addAt c i o).length=c.length := by
  cases o with
  | none => rfl
  | some v => exact length_xorAt c i v

theorem getD_addAt {c : List ℕ} {i j : ℕ} (o : Option ℕ) (hi : i<c.length) :
    (addAt c i o).getD j 0=if i=j then c.getD j 0^^^o.getD 0 else c.getD j 0 := by
  cases o with
  | none =>
    rw [addAt,Option.getD_none,Nat.xor_zero]
    split <;> rfl
  | some v => exact getD_xorAt hi

/-- Additions into a window of an array: the cell `s+i` gets the value
`f i`, for every `i` below `k` that is not skipped. -/
theorem getD_addWindow (s : ℕ) (f : ℕ → Option ℕ) (c : List ℕ) (k : ℕ) (hk : s+k≤c.length) :
    ((List.range k).foldl (fun c i => addAt c (s+i) (f i)) c).length=c.length ∧
      ∀ j, ((List.range k).foldl (fun c i => addAt c (s+i) (f i)) c).getD j 0=
        if s≤j ∧ j<s+k then c.getD j 0^^^(f (j-s)).getD 0 else c.getD j 0 := by
  induction k with
  | zero =>
    refine ⟨rfl,?_⟩
    intro j
    rw [if_neg (by omega)]
    rfl
  | succ k ih =>
    obtain ⟨hl,hg⟩ := ih (by omega)
    rw [List.range_succ,List.foldl_append,List.foldl_cons,List.foldl_nil]
    refine ⟨by rw [length_addAt,hl],?_⟩
    intro j
    rw [getD_addAt _ (by rw [hl]; omega),hg]
    by_cases hj : s+k=j
    · subst hj
      rw [if_pos rfl,if_neg (by omega),if_pos (by omega),Nat.add_sub_cancel_left]
    · rw [if_neg hj]
      by_cases hw : s≤j ∧ j<s+k
      · rw [if_pos hw,if_pos (by omega)]
      · rw [if_neg hw,if_neg (by omega)]

end Windows

end ArdroneKernel.BchPolynomial
