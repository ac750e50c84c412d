import ArdroneKernel.BitPolynomial

/-!
# Primitive elements of binary fields

A finite field of characteristic two with a primitive element whose first
powers form a basis. Field elements are written as bit patterns in that
basis. The trace is the sum of the conjugates; it is additive, takes the
values zero and one, is not constantly zero, and decides which equations
`x^2+x=u` can be solved.
-/

namespace ArdroneKernel.PrimitiveElement

open BitPolynomial Polynomial

/-- `α` generates the nonzero elements of a field of `2^m` elements, and the
bit patterns below `2^m` are different elements in the basis of its powers. -/
structure IsPrimitive {F : Type*} [Field F] (α : F) (m : ℕ) : Prop where
  /-- The field has no other elements than the bit patterns. -/
  card : Nat.card F=2^m
  /-- The powers of `α` run through all nonzero elements. -/
  order : orderOf α=2^m-1
  /-- The first `m` powers are independent. -/
  indep : ∀ a<2^m, bitSum α a=0 → a=0

section Powers

variable {F : Type*} [Field F] {α : F} {m : ℕ}

/-- The generator is not zero. -/
theorem IsPrimitive.ne_zero (h : IsPrimitive α m) (h2 : 2 ≤ m) : α≠0 := by
  rintro rfl
  have hi := h.indep 2 (lt_of_lt_of_le (by norm_num) (Nat.pow_le_pow_right (by omega) h2))
  have hz : bitSum (0 : F) 2=0 := by
    have h2 := bitSum_two_pow (0 : F) 1
    simpa using h2
  exact absurd (hi hz) (by norm_num)

/-- Powers below the order are different. -/
theorem IsPrimitive.pow_inj (h : IsPrimitive α m) {i j : ℕ} (hi : i<2^m-1) (hj : j<2^m-1)
    (he : α^i=α^j) : i=j :=
  pow_injOn_Iio_orderOf (by rw [Set.mem_Iio,h.order]; exact hi)
    (by rw [Set.mem_Iio,h.order]; exact hj) he

/-- Exponents count modulo the order. -/
theorem IsPrimitive.pow_mod (h : IsPrimitive α m) (i : ℕ) : α^(i%(2^m-1))=α^i := by
  rw [←h.order,pow_mod_orderOf]

theorem IsPrimitive.pow_order (h : IsPrimitive α m) : α^(2^m-1)=1 := by
  rw [←h.order,pow_orderOf_eq_one]

variable [Finite F]

/-- Every nonzero element is a power of the generator below the order. -/
theorem IsPrimitive.exists_pow (h : IsPrimitive α m) (h2 : 2 ≤ m) {x : F} (hx : x≠0) :
    ∃ i<2^m-1, α^i=x := by
  have hα := h.ne_zero h2
  have hu : orderOf (Units.mk0 α hα)=2^m-1 := by
    rw [←orderOf_units,Units.val_mk0,h.order]
  have htop : Subgroup.zpowers (Units.mk0 α hα)=⊤ := by
    rw [←Subgroup.card_eq_iff_eq_top,Nat.card_zpowers,hu,Nat.card_units,h.card]
  have hmem : Units.mk0 x hx ∈ Subgroup.zpowers (Units.mk0 α hα) := by
    rw [htop]
    exact Subgroup.mem_top _
  obtain ⟨i,hi⟩ := mem_powers_iff_mem_zpowers.mpr hmem
  have hv : α^i=x := by simpa using congrArg Units.val hi
  refine ⟨i%(2^m-1),Nat.mod_lt _ ?_,by rw [h.pow_mod,hv]⟩
  have hp : 0<orderOf (Units.mk0 α hα) := orderOf_pos _
  omega

/-- Every element is fixed by the `m`-fold Frobenius map. -/
theorem IsPrimitive.frobenius (h : IsPrimitive α m) (x : F) : x^2^m=x := by
  have := Fintype.ofFinite F
  have hc := FiniteField.pow_card x
  rwa [←Nat.card_eq_fintype_card,h.card] at hc

end Powers

section Bits

variable {F : Type*} [Field F] [CharP F 2] {α : F} {m : ℕ}

/-- Bit patterns below `2^m` are equal when their elements are. -/
theorem IsPrimitive.inj (h : IsPrimitive α m) {a b : ℕ} (ha : a<2^m) (hb : b<2^m)
    (he : bitSum α a=bitSum α b) : a=b := by
  have hx : a^^^b=0 := by
    apply h.indep _ (Nat.xor_lt_two_pow ha hb)
    rw [bitSum_xor,he,CharTwo.add_self_eq_zero]
  have hc : (a^^^b)^^^b=b := by rw [hx,Nat.zero_xor]
  rwa [Nat.xor_assoc,Nat.xor_self,Nat.xor_zero] at hc

/-- Every element of the field is written as a bit pattern. -/
theorem IsPrimitive.exists_bits [Finite F] (h : IsPrimitive α m) (x : F) :
    ∃ a<2^m, bitSum α a=x := by
  have hinj : Function.Injective (fun a : Fin (2^m) => bitSum α a.val) := by
    intro a b hab
    exact Fin.ext (h.inj a.isLt b.isLt hab)
  have := Fintype.ofFinite F
  have hbij : Function.Bijective (fun a : Fin (2^m) => bitSum α a.val) := by
    rw [Fintype.bijective_iff_injective_and_card]
    refine ⟨hinj,?_⟩
    rw [Fintype.card_fin,←Nat.card_eq_fintype_card,h.card]
  obtain ⟨a,ha⟩ := hbij.2 x
  exact ⟨a.val,a.isLt,ha⟩

end Bits

section Trace

variable {F : Type*} [Field F] {m : ℕ}

/-- The trace to the two-element field, as a sum of conjugates. -/
def tr (m : ℕ) (x : F) : F := ∑ i ∈ Finset.range m, x^2^i

@[simp]
theorem tr_zero (m : ℕ) : tr m (0 : F)=0 := by simp [tr]

/-- Squaring only rotates the conjugates. -/
theorem tr_sq {x : F} (hx : x^2^m=x) : tr m (x^2)=tr m x := by
  have hs : ∀ i, (x^2)^2^i=x^2^(i+1) := by
    intro i
    rw [←pow_mul,←pow_succ']
  have h1 := Finset.sum_range_succ (fun i => x^2^i) m
  have h2 := Finset.sum_range_succ' (fun i => x^2^i) m
  rw [h1] at h2
  simp only [pow_zero,pow_one,hx] at h2
  unfold tr
  simp only [hs]
  exact (add_right_cancel h2).symm

/-- The trace as a polynomial of degree `2^(m-1)`. -/
theorem tr_poly (hm : 0 < m) : (∑ i ∈ Finset.range m, (X : F[X])^2^i).natDegree=2^(m-1) := by
  obtain ⟨k,rfl⟩ := Nat.exists_eq_succ_of_ne_zero (Nat.ne_of_gt hm)
  rw [Finset.sum_range_succ,Nat.succ_sub_one]
  have hl : (∑ i ∈ Finset.range k, (X : F[X])^2^i).natDegree<2^k := by
    apply lt_of_le_of_lt (natDegree_sum_le_of_forall_le (n := 2^k-1) _ _ ?_)
    · have := Nat.two_pow_pos k
      omega
    · intro i hi
      have hlt := Nat.pow_lt_pow_right (a := 2) (by omega) (Finset.mem_range.mp hi)
      simp only [natDegree_X_pow]
      omega
  rw [natDegree_add_eq_right_of_natDegree_lt,natDegree_X_pow]
  rwa [natDegree_X_pow]

/-- At most half of the elements have trace zero. -/
theorem card_tr_zero (hm : 0 < m) :
    Nat.card {x : F // tr m x=0} ≤ 2^(m-1) := by
  classical
  set p : F[X] := ∑ i ∈ Finset.range m, X^2^i with hp
  have hd : p.natDegree=2^(m-1) := tr_poly hm
  have h0 : p≠0 := by
    intro hz
    rw [hz,natDegree_zero] at hd
    exact absurd hd.symm (Nat.two_pow_pos _).ne'
  have he : ∀ x : F, tr m x=0 ↔ x ∈ p.roots.toFinset := by
    intro x
    rw [Multiset.mem_toFinset,mem_roots h0,IsRoot,hp,eval_finsetSum]
    simp [tr]
  rw [Nat.card_congr (Equiv.subtypeEquivRight he),Nat.card_eq_fintype_card,Fintype.card_coe]
  calc p.roots.toFinset.card ≤ Multiset.card p.roots := Multiset.toFinset_card_le _
    _ ≤ p.natDegree := card_roots' p
    _ = 2^(m-1) := hd

variable [CharP F 2]

theorem tr_add (m : ℕ) (x y : F) : tr m (x+y)=tr m x+tr m y := by
  simp only [tr,add_pow_char_pow,Finset.sum_add_distrib]

theorem tr_sum {ι : Type*} (m : ℕ) (s : Finset ι) (f : ι → F) :
    tr m (∑ i ∈ s, f i)=∑ i ∈ s, tr m (f i) := by
  classical
  induction s using Finset.induction_on with
  | empty => simp
  | insert a s ha ih => rw [Finset.sum_insert ha,tr_add,ih,Finset.sum_insert ha]

/-- The trace is the square of itself. -/
theorem tr_pow_two {x : F} (hx : x^2^m=x) : (tr m x)^2=tr m x := by
  conv_rhs => rw [←tr_sq hx]
  unfold tr
  rw [sum_pow_char 2]
  apply Finset.sum_congr rfl
  intro i _
  rw [←pow_mul,←pow_mul,Nat.mul_comm]

/-- The trace takes no other values than zero and one. -/
theorem tr_zero_or_one {x : F} (hx : x^2^m=x) : tr m x=0 ∨ tr m x=1 := by
  have h := tr_pow_two hx
  rw [pow_two] at h
  by_cases h0 : tr m x=0
  · exact Or.inl h0
  · exact Or.inr (mul_left_cancel₀ h0 (by rw [h,mul_one]))

variable [Finite F] {α : F} {m : ℕ}

omit [CharP F 2] [Finite F] in
/-- Some element has a trace. -/
theorem IsPrimitive.exists_tr_ne_zero (h : IsPrimitive α m) (hm : 0 < m) : ∃ x : F, tr m x≠0 := by
  by_contra hc
  push Not at hc
  have hcard := card_tr_zero (F := F) hm
  rw [Nat.card_congr (Equiv.subtypeUnivEquiv hc),h.card] at hcard
  have hlt := Nat.pow_lt_pow_right (a := 2) (by omega) (show m-1 < m by omega)
  omega

/-- An element is zero when the traces of its products with the first `m`
positive powers of the generator are. -/
theorem IsPrimitive.eq_zero_of_tr (h : IsPrimitive α m) (h2 : 2 ≤ m) {y : F}
    (hy : ∀ k, 1 ≤ k → k ≤ m → tr m (α^k*y)=0) : y=0 := by
  have hα := h.ne_zero h2
  by_contra hy0
  obtain ⟨w,hw⟩ := h.exists_tr_ne_zero (by omega)
  obtain ⟨a,ha,he⟩ := h.exists_bits (w*(α*y)⁻¹)
  have hx : w=∑ i ∈ Finset.range m, if a.testBit i then α^(i+1)*y else 0 := by
    have hc : w=bitSum α a*(α*y) := by
      rw [he]
      field_simp
    rw [hc,bitSum_eq_sum α ha,Finset.sum_mul]
    apply Finset.sum_congr rfl
    intro i _
    split
    · ring
    · rw [zero_mul]
  apply hw
  rw [hx,tr_sum]
  apply Finset.sum_eq_zero
  intro i hi
  split
  · exact hy (i+1) (by omega) (by have := Finset.mem_range.mp hi; omega)
  · exact tr_zero m

/-- The additive map `x^2+x`. -/
def artinSchreier : F →+ F where
  toFun x := x^2+x
  map_zero' := by simp
  map_add' x y := by
    rw [add_pow_char]
    ring

/-- An equation `x^2+x=u` has a solution when the trace of `u` is zero. -/
theorem IsPrimitive.exists_sq_add (h : IsPrimitive α m) (hm : 0 < m) {u : F} (hu : tr m u=0) :
    ∃ x : F, x^2+x=u := by
  have hsub : ((artinSchreier : F →+ F).range : Set F) ⊆ {x | tr m x=0} := by
    rintro _ ⟨x,rfl⟩
    change tr m (x^2+x)=0
    rw [tr_add,tr_sq (h.frobenius x),CharTwo.add_self_eq_zero]
  have hker : Nat.card (artinSchreier : F →+ F).ker ≤ 2 := by
    have hle : ((artinSchreier : F →+ F).ker : Set F) ⊆ {0,1} := by
      intro x hx
      have hx2 : x^2+x=0 := hx
      have hf : x*(x+1)=0 := by rw [←hx2]; ring
      rcases mul_eq_zero.mp hf with h0 | h1
      · exact Or.inl h0
      · exact Or.inr (by simpa using CharTwo.add_eq_zero.mp h1)
    calc Nat.card (artinSchreier : F →+ F).ker ≤ Nat.card ({0,1} : Set F) :=
          Nat.card_mono (Set.toFinite _) hle
      _ ≤ 2 := by
        rw [Nat.card_coe_set_eq]
        exact Set.ncard_insert_le _ _ |>.trans (by simp)
  have hprod : Nat.card (artinSchreier : F →+ F).ker*Nat.card (artinSchreier : F →+ F).range=2^m := by
    rw [←AddSubgroup.index_ker,AddSubgroup.card_mul_index,h.card]
  have hbig : 2^(m-1) ≤ Nat.card (artinSchreier : F →+ F).range := by
    have hm2 : 2^m=2*2^(m-1) := by rw [←pow_succ']; congr 1; omega
    by_contra hlt
    push Not at hlt
    have := Nat.mul_le_mul_right (Nat.card (artinSchreier : F →+ F).range) hker
    omega
  have hsmall := card_tr_zero (F := F) hm
  have heq : ((artinSchreier : F →+ F).range : Set F)={x | tr m x=0} := by
    apply Set.eq_of_subset_of_ncard_le hsub _ (Set.toFinite _)
    rw [←Nat.card_coe_set_eq,←Nat.card_coe_set_eq]
    exact hsmall.trans hbig
  have hmem : u ∈ ((artinSchreier : F →+ F).range : Set F) := by
    rw [heq]
    exact hu
  obtain ⟨x,hx⟩ := hmem
  exact ⟨x,hx⟩

end Trace
end ArdroneKernel.PrimitiveElement
