import ArdroneKernel.PrimitiveElement

/-!
# Primitive polynomials over the two-element field

A polynomial is primitive when it is irreducible and its root generates the
multiplicative group of the field it defines. For a polynomial with
nonzero constant term it is enough that no power of the root below the
size of that group is one: the powers are then as many as the nonzero
elements, so every nonzero element has an inverse.
-/

namespace ArdroneKernel.PrimitivePolynomial

open Polynomial BitPolynomial PrimitiveElement

/-- Primitive polynomials over the two-element field. -/
def IsPrimitivePoly (p : (ZMod 2)[X]) : Prop :=
  Irreducible p ∧ orderOf (AdjoinRoot.root p)=2^p.natDegree-1

section Quotient

variable {p : (ZMod 2)[X]}

theorem nontrivial_adjoinRoot (hd : 0<p.natDegree) : Nontrivial (AdjoinRoot p) :=
  AdjoinRoot.nontrivial p (by
    intro h
    rw [natDegree_eq_zero_iff_degree_le_zero.mpr h.le] at hd
    exact absurd hd (Nat.lt_irrefl 0))

theorem charP_adjoinRoot (hd : 0<p.natDegree) : CharP (AdjoinRoot p) 2 := by
  have := nontrivial_adjoinRoot hd
  exact charP_of_injective_algebraMap (algebraMap (ZMod 2) (AdjoinRoot p)).injective 2

/-- Bit patterns are classes of polynomials. -/
theorem bitSum_root (p : (ZMod 2)[X]) (a : ℕ) :
    bitSum (AdjoinRoot.root p) a=AdjoinRoot.mk p (bitPoly a) := by
  rw [bitPoly,map_bitSum,AdjoinRoot.mk_X]

/-- Patterns of lower degree than the polynomial are different classes. -/
theorem bitSum_root_indep (hp : p.Monic) {a : ℕ} (ha : a<2^p.natDegree)
    (h : bitSum (AdjoinRoot.root p) a=0) : a=0 := by
  rw [bitSum_root,AdjoinRoot.mk_eq_zero] at h
  have hd : (bitPoly a).degree<p.degree := by
    rw [degree_eq_natDegree hp.ne_zero]
    exact degree_bitPoly_lt.mpr ha
  apply bitPoly_injective
  rw [eq_zero_of_dvd_of_degree_lt h hd]
  exact (bitSum_zero X).symm

theorem card_adjoinRoot (hp : p.Monic) : Nat.card (AdjoinRoot p)=2^p.natDegree := by
  have := (AdjoinRoot.powerBasis' hp).finite
  rw [Module.natCard_eq_pow_finrank (K := ZMod 2),(AdjoinRoot.powerBasis' hp).finrank,
    AdjoinRoot.powerBasis'_dim,Nat.card_zmod]

theorem finite_adjoinRoot (hp : p.Monic) : Finite (AdjoinRoot p) := by
  apply Nat.finite_of_card_ne_zero
  rw [card_adjoinRoot hp]
  exact (Nat.two_pow_pos _).ne'

/-- With a nonzero constant term the root is a unit. -/
theorem isUnit_root (h0 : p.coeff 0=1) : IsUnit (AdjoinRoot.root p) := by
  have hx : p=X*divX p+1 := by
    conv_lhs => rw [←X_mul_divX_add p,h0,C_1]
  have hm := congrArg (AdjoinRoot.mk p) hx
  rw [AdjoinRoot.mk_self,map_add,map_mul,AdjoinRoot.mk_X,map_one] at hm
  apply IsUnit.of_mul_eq_one (-AdjoinRoot.mk p (divX p))
  linear_combination hm

/-- The powers of a root that do not come back to one too early are all
the nonzero elements. -/
theorem forall_isUnit (hp : p.Monic) (hd : 0<p.natDegree) (hu : IsUnit (AdjoinRoot.root p))
    (h : ∀ j, 0<j → j<2^p.natDegree-1 → AdjoinRoot.root p^j≠1) {x : AdjoinRoot p} (hx : x≠0) :
    ∃ j<2^p.natDegree-1, AdjoinRoot.root p^j=x := by
  have hfin := finite_adjoinRoot hp
  have hnt := nontrivial_adjoinRoot hd
  classical
  have := Fintype.ofFinite (AdjoinRoot p)
  let f : Fin (2^p.natDegree-1) → {y : AdjoinRoot p // y≠0} :=
    fun j => ⟨AdjoinRoot.root p^j.val,(hu.pow j.val).ne_zero⟩
  have hinj : Function.Injective f := by
    intro i j hij
    have he : AdjoinRoot.root p^i.val=AdjoinRoot.root p^j.val := congrArg Subtype.val hij
    rcases lt_trichotomy i.val j.val with hlt | heq | hgt
    · exfalso
      apply h (j.val-i.val) (by omega) (by omega)
      apply (hu.pow i.val).mul_left_cancel
      rw [←pow_add,show i.val+(j.val-i.val)=j.val by omega,mul_one,he]
    · exact Fin.ext heq
    · exfalso
      apply h (i.val-j.val) (by omega) (by omega)
      apply (hu.pow j.val).mul_left_cancel
      rw [←pow_add,show j.val+(i.val-j.val)=i.val by omega,mul_one,he]
  have hcard : Fintype.card {y : AdjoinRoot p // y≠0}=2^p.natDegree-1 := by
    rw [Fintype.card_subtype_compl,Fintype.card_subtype_eq,←Nat.card_eq_fintype_card,
      card_adjoinRoot hp]
  have hbij : Function.Bijective f := by
    rw [Fintype.bijective_iff_injective_and_card]
    exact ⟨hinj,by rw [Fintype.card_fin,hcard]⟩
  obtain ⟨j,hj⟩ := hbij.2 ⟨x,hx⟩
  exact ⟨j.val,j.isLt,congrArg Subtype.val hj⟩

/-- For a nonzero constant term, a late return to one is primitivity. -/
theorem isPrimitivePoly_iff (hp : p.Monic) (hd : 0<p.natDegree) (h0 : p.coeff 0=1) :
    (∀ j, 0<j → j<2^p.natDegree-1 → AdjoinRoot.root p^j≠1) ↔ IsPrimitivePoly p := by
  have hu := isUnit_root h0
  have hnt := nontrivial_adjoinRoot hd
  constructor
  · intro h
    have hfield : IsField (AdjoinRoot p) := by
      refine ⟨⟨0,1,zero_ne_one⟩,mul_comm,?_⟩
      intro a ha
      obtain ⟨j,_,rfl⟩ := forall_isUnit hp hd hu h ha
      obtain ⟨b,hb⟩ := (hu.pow j).exists_right_inv
      exact ⟨b,hb⟩
    have hirr : Irreducible p := by
      have hmax : (Ideal.span {p}).IsMaximal := Ideal.Quotient.maximal_of_isField _ hfield
      exact ((Ideal.span_singleton_prime hp.ne_zero).mp hmax.isPrime).irreducible
    refine ⟨hirr,?_⟩
    have hn : 0<2^p.natDegree-1 := by
      have := Nat.le_self_pow (Nat.ne_of_gt hd) 2
      omega
    rw [orderOf_eq_iff hn]
    refine ⟨?_,fun j hj hj0 => h j hj0 hj⟩
    obtain ⟨j,hj,he⟩ := forall_isUnit hp hd hu h (hu.pow (2^p.natDegree-1)).ne_zero
    have hone : AdjoinRoot.root p^(2^p.natDegree-1-j)=1 := by
      apply (hu.pow j).mul_left_cancel
      rw [←pow_add,show j+(2^p.natDegree-1-j)=2^p.natDegree-1 by omega,mul_one,he]
    rcases Nat.eq_zero_or_pos j with rfl | hj0
    · exact hone
    · exact absurd hone (h _ (by omega) (by omega))
  · rintro ⟨_,ho⟩ j hj hjn he
    have hdvd := orderOf_dvd_of_pow_eq_one he
    exact absurd (Nat.le_of_dvd hj hdvd) (by omega)

theorem IsPrimitivePoly.monic (h : IsPrimitivePoly p) : p.Monic := by
  have hne := leadingCoeff_ne_zero.mpr h.1.ne_zero
  rw [Monic]
  revert hne
  generalize p.leadingCoeff=c
  revert c
  decide

/-- A primitive polynomial of degree at least two has a constant term. -/
theorem IsPrimitivePoly.coeff_zero (h : IsPrimitivePoly p) (hd : 2 ≤ p.natDegree) : p.coeff 0=1 := by
  have hne : p.coeff 0≠0 := by
    intro hz
    have hx : X ∣ p := X_dvd_iff.mpr hz
    obtain ⟨q,hq⟩ := hx
    have hunit := (h.1.isUnit_or_isUnit hq).resolve_left not_isUnit_X
    have hq0 : q.natDegree=0 := natDegree_eq_zero_of_isUnit hunit
    have hqne : q≠0 := hunit.ne_zero
    rw [hq,natDegree_mul X_ne_zero hqne,natDegree_X,hq0] at hd
    omega
  revert hne
  generalize p.coeff 0=c
  revert c
  decide

/-- The root of a primitive polynomial is a primitive element. -/
theorem IsPrimitivePoly.isPrimitive [Fact (Irreducible p)] (h : IsPrimitivePoly p) (hp : p.Monic) :
    IsPrimitive (AdjoinRoot.root p) p.natDegree where
  card := card_adjoinRoot hp
  order := h.2
  indep := fun _ ha => bitSum_root_indep hp ha

end Quotient
end ArdroneKernel.PrimitivePolynomial
