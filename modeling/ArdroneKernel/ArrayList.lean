import Mathlib

/-!
# Lists read and written as arrays

A C array is a list that is read with a default outside its bounds and
written in place. The lemmas here say what one write, one mapped pass or
one loop of writes leaves in every cell.
-/

namespace ArdroneKernel.ArrayList

variable {α : Type*} (l : List α)

/-- A cell after a write. -/
theorem getD_set (i j : ℕ) (v d : α) :
    (l.set i v).getD j d=if i=j ∧ j<l.length then v else l.getD j d := by
  by_cases hij : i=j
  · subst hij
    by_cases hi : i<l.length
    · simp [hi]
    · simp [hi]
  · simp [hij]

theorem getD_set_self {l : List α} {i : ℕ} (v d : α) (h : i<l.length) : (l.set i v).getD i d=v := by
  rw [getD_set,if_pos ⟨rfl,h⟩]

theorem getD_set_ne {i j : ℕ} (v d : α) (h : i≠j) :
    (l.set i v).getD j d=l.getD j d := by
  rw [getD_set,if_neg fun hc => h hc.1]

theorem getD_of_length_le {l : List α} {i : ℕ} (d : α) (h : l.length≤ i) : l.getD i d=d :=
  List.getD_eq_default _ _ h

theorem getD_range_map (f : ℕ → α) (d : α) {n i : ℕ} (h : i<n) : ((List.range n).map f).getD i d=f i := by
  simp [h]

theorem getD_mapIdx (f : ℕ → α → α) (l : List α) (d : α) {i : ℕ} (h : i<l.length) :
    (l.mapIdx f).getD i d=f i (l.getD i d) := by
  simp [h]

theorem getD_take (d : α) {n i : ℕ} (h : i<n) : (l.take n).getD i d=l.getD i d := by
  rw [List.getD_eq_getElem?_getD,List.getD_eq_getElem?_getD,List.getElem?_take,if_pos h]

theorem getD_drop (n i : ℕ) (d : α) : (l.drop n).getD i d=l.getD (n+i) d := by
  rw [List.getD_eq_getElem?_getD,List.getD_eq_getElem?_getD,List.getElem?_drop]

/-- Lists of one length with the same cells are equal. -/
theorem ext_getD {l l' : List α} (d : α) (hlen : l.length=l'.length)
    (h : ∀ i<l.length, l.getD i d=l'.getD i d) : l=l' := by
  apply List.ext_getElem hlen
  intro i hi hi'
  have := h i hi
  rwa [List.getD_eq_getElem _ _ hi,List.getD_eq_getElem _ _ hi'] at this

/-- A predicate on the cells, with the default outside. -/
theorem forall_getD {P : α → Prop} {l : List α} {d : α} (hd : P d) (h : ∀ x ∈ l, P x) (i : ℕ) :
    P (l.getD i d) := by
  rcases Nat.lt_or_ge i l.length with hi | hi
  · rw [List.getD_eq_getElem _ _ hi]
    exact h _ (List.getElem_mem hi)
  · rwa [getD_of_length_le d hi]

end ArdroneKernel.ArrayList
