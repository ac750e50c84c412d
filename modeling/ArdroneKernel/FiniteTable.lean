import Mathlib.Algebra.Order.BigOperators.Group.Finset
import Mathlib.Data.Fintype.EquivFin

/-!
# Finite tables

A map with finitely many keys, and totals of what its entries are worth.
-/

namespace ArdroneKernel.FiniteTable

variable {κ ν M : Type}

/-- A map with the finite set of its keys. -/
structure Table (κ ν : Type) where
  keys : Finset κ
  get : κ → Option ν
  mem_keys : ∀ k,k∈keys↔(get k).isSome=true

namespace Table

/-- No entries. -/
def empty : Table κ ν where
  keys := ∅
  get _ := none
  mem_keys k := by simp

variable [DecidableEq κ]

/-- An entry added or replaced. -/
def put (t : Table κ ν) (k : κ) (v : ν) : Table κ ν where
  keys := insert k t.keys
  get := Function.update t.get k (some v)
  mem_keys k' := by
    by_cases h : k'=k
    · rw [h,Function.update_self]
      exact ⟨fun _ => rfl,fun _ => Finset.mem_insert_self k t.keys⟩
    · rw [Function.update_of_ne h,← t.mem_keys k',Finset.mem_insert,or_iff_right h]

/-- An entry removed. -/
def erase (t : Table κ ν) (k : κ) : Table κ ν where
  keys := t.keys.erase k
  get := Function.update t.get k none
  mem_keys k' := by
    by_cases h : k'=k
    · rw [h,Function.update_self]
      exact ⟨fun hmem => absurd hmem (Finset.notMem_erase k t.keys),nofun⟩
    · rw [Function.update_of_ne h,← t.mem_keys k',Finset.mem_erase,and_iff_right h]

variable (t : Table κ ν) (k : κ) (v : ν)

@[simp] theorem get_put : (t.put k v).get k=some v := Function.update_self _ _ _

@[simp] theorem get_erase : (t.erase k).get k=none := Function.update_self _ _ _

variable {t k v} {k' : κ}

theorem get_put_of_ne (h : k'≠k) : (t.put k v).get k'=t.get k' := Function.update_of_ne h _ _

theorem get_erase_of_ne (h : k'≠k) : (t.erase k).get k'=t.get k' := Function.update_of_ne h _ _

omit [DecidableEq κ] in
theorem ext_get {t t' : Table κ ν} (h : t.get=t'.get) : t=t' := by
  have hkeys : t.keys=t'.keys := by
    ext k
    rw [t.mem_keys,t'.mem_keys,h]
  cases t
  cases t'
  cases h
  cases hkeys
  rfl

theorem erase_put (t : Table κ ν) (v : ν) (h : k'≠k) :
    (t.put k v).erase k'=(t.erase k').put k v := ext_get (Function.update_comm h _ _ _).symm

/-! ## Totals -/

variable [AddCommGroup M] {f g : κ → ν → M}

/-- What the entry of a key is worth. -/
def worth (t : Table κ ν) (f : κ → ν → M) (k : κ) : M := (t.get k).elim 0 (f k)

/-- What all entries are worth. -/
def total (t : Table κ ν) (f : κ → ν → M) : M := ∑ k∈t.keys,t.worth f k

omit [DecidableEq κ] in
theorem worth_some (h : t.get k=some v) : t.worth f k=f k v := by
  unfold worth
  rw [h]
  rfl

omit [DecidableEq κ] in
theorem worth_none (h : t.get k=none) : t.worth f k=0 := by
  unfold worth
  rw [h]
  rfl

/-- An entry that is not there adds nothing. -/
theorem total_eq (t : Table κ ν) (f : κ → ν → M) (k : κ) :
    t.total f=∑ k'∈t.keys.erase k,t.worth f k'+t.worth f k := by
  unfold total
  by_cases h : k∈t.keys
  · rw [Finset.sum_erase_add t.keys (t.worth f) h]
  · rw [Finset.erase_eq_of_notMem h]
    have hnone : t.get k=none := by
      have hsome := (not_congr (t.mem_keys k)).mp h
      rwa [Option.not_isSome_iff_eq_none] at hsome
    rw [worth_none hnone,add_zero]

/-- A total in which all other entries are worth the same. -/
theorem total_other {t' : Table κ ν} (hget : ∀ k',k'≠k → t'.get k'=t.get k')
    (hworth : ∀ k' v,k'≠k → t.get k'=some v → g k' v=f k' v) :
    t'.total g=t.total f-t.worth f k+t'.worth g k := by
  have hkeys : t'.keys.erase k=t.keys.erase k := by
    ext k'
    rw [Finset.mem_erase,Finset.mem_erase,t.mem_keys,t'.mem_keys]
    exact and_congr_right fun hne => by rw [hget k' hne]
  rw [total_eq t' g k,total_eq t f k,add_sub_cancel_right,hkeys]
  congr 1
  refine Finset.sum_congr rfl fun k' hk' => ?_
  have hne := Finset.ne_of_mem_erase hk'
  unfold worth
  rw [hget k' hne]
  cases hv : t.get k' with
  | none => rfl
  | some v => exact hworth k' v hne hv

theorem total_put (t : Table κ ν) (f : κ → ν → M) (k : κ) (v : ν) :
    (t.put k v).total f=t.total f-t.worth f k+f k v := by
  rw [total_other (t := t) (f := f) (g := f) (k := k) (fun _ h => get_put_of_ne h)
    fun _ _ _ _ => rfl,worth_some (get_put t k v)]

theorem total_erase (t : Table κ ν) (f : κ → ν → M) (k : κ) :
    (t.erase k).total f=t.total f-t.worth f k := by
  rw [total_other (t := t) (f := f) (g := f) (k := k) (fun _ h => get_erase_of_ne h)
    fun _ _ _ _ => rfl,worth_none (get_erase t k),add_zero]

omit [DecidableEq κ] in
theorem total_congr (h : ∀ k v,t.get k=some v → g k v=f k v) : t.total g=t.total f := by
  refine Finset.sum_congr rfl fun k _ => ?_
  unfold worth
  cases hget : t.get k with
  | none => rfl
  | some v => exact h k v hget

omit [DecidableEq κ] in
/-- A total as a sum over the keys. -/
theorem total_eq_sum {w : κ → M} (h : ∀ k v,t.get k=some v → f k v=w k) :
    t.total f=∑ k∈t.keys,w k := by
  refine Finset.sum_congr rfl fun k hk => ?_
  have ⟨v,hv⟩ := Option.isSome_iff_exists.mp ((t.mem_keys k).mp hk)
  rw [worth_some hv]
  exact h k v hv

omit [DecidableEq κ] in
theorem total_nonneg [PartialOrder M] [IsOrderedAddMonoid M] (t : Table κ ν)
    (h : ∀ k v,0≤f k v) : 0≤t.total f := by
  refine Finset.sum_nonneg fun k _ => ?_
  unfold worth
  cases t.get k with
  | none => exact le_refl _
  | some v => exact h k v

omit [DecidableEq κ] in
theorem total_eq_zero (h : ∀ k v,t.get k=some v → f k v=0) : t.total f=0 := by
  refine Finset.sum_eq_zero fun k _ => ?_
  unfold worth
  cases hget : t.get k with
  | none => rfl
  | some v => exact h k v hget

/-- The number of entries of a kind. -/
def count (t : Table κ ν) (p : ν → Bool) : ℕ := (t.keys.filter fun k => (t.get k).any p).card

omit [DecidableEq κ] in
/-- A total in which the entries of a kind are worth the same, and the others nothing. -/
theorem total_ite (t : Table κ ν) (p : ν → Bool) (a : M) :
    t.total (fun _ v => if p v then a else 0)=t.count p•a := by
  unfold total count
  rw [← Finset.sum_const,Finset.sum_filter]
  refine Finset.sum_congr rfl fun k _ => ?_
  unfold worth
  cases t.get k with
  | none => rfl
  | some v => rfl

end Table

end ArdroneKernel.FiniteTable
