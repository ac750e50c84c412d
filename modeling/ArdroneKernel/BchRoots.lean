import ArdroneKernel.BchGenerator
import ArdroneKernel.BchPolynomial

/-!
# The roots of the generator polynomial

The exponents that `compute_generator_polynomial` marks are those of the
conjugates of the first odd powers, a set closed under doubling. So the
product of the marked linear factors has its coefficients in the
two-element field, and a polynomial over that field is a multiple of the
generator exactly when the powers one to `2t` are roots of it.
-/

namespace ArdroneKernel.BchRoots

open Polynomial BitPolynomial ArrayList BchInit BchField BchPolynomial BchGenerator

variable {F : Type*} [Field F] {α : F} {bch : BchControl}

section Marked

/-- The exponent `i` is marked as that of a root. -/
def Marked (bch : BchControl) (i : ℕ) : Prop := (markRoots bch).getD i 0≠0

instance (bch : BchControl) : DecidablePred (Marked bch) := fun _ => inferInstanceAs (Decidable (_≠_))

/-- Doubling below the order. -/
theorem modS_double {r : ℕ} (hr : r<bch.n) : modS bch (2*r)=2*r%bch.n ∧ 2*r%bch.n<bch.n := by
  refine ⟨?_,Nat.mod_lt _ (by omega)⟩
  unfold modS
  split
  · next h => rw [Nat.mod_eq_of_lt h]
  · next h => rw [Nat.mod_eq_sub_mod (by omega),Nat.mod_eq_of_lt (by omega)]

/-- One coset. -/
theorem getD_markCoset (fuel : ℕ) {r : ℕ} (hr : r<bch.n) (roots : List ℕ) (hl : roots.length=bch.n+1) (i : ℕ) :
    (markCoset bch fuel r roots).getD i 0≠0 ↔ roots.getD i 0≠0 ∨ ∃ e<fuel, i=r*2^e%bch.n := by
  induction fuel generalizing r roots with
  | zero => simp [markCoset]
  | succ fuel ih =>
    obtain ⟨hm,hlt⟩ := modS_double hr
    have hdouble : ∀ e, 2*r%bch.n*2^e%bch.n=r*2^(e+1)%bch.n := by
      intro e
      rw [Nat.mod_mul_mod,pow_succ']
      congr 1
      ring
    rw [markCoset,hm,ih hlt (roots.set r 1) (by rw [List.length_set,hl])]
    have hset : (roots.set r 1).getD i 0≠0 ↔ roots.getD i 0≠0 ∨ i=r := by
      by_cases h : r=i
      · subst h
        rw [getD_set_self _ _ (by omega)]
        simp
      · rw [getD_set_ne _ _ _ h]
        simp [Ne.symm h]
    rw [hset]
    constructor
    · rintro ((h | rfl) | ⟨e,he,rfl⟩)
      · exact Or.inl h
      · exact Or.inr ⟨0,by omega,by rw [pow_zero,mul_one,Nat.mod_eq_of_lt hr]⟩
      · exact Or.inr ⟨e+1,by omega,hdouble e⟩
    · rintro (h | ⟨e,he,rfl⟩)
      · exact Or.inl (Or.inl h)
      · cases e with
        | zero => exact Or.inl (Or.inr (by rw [pow_zero,mul_one,Nat.mod_eq_of_lt hr]))
        | succ e => exact Or.inr ⟨e,by omega,(hdouble e).symm⟩

/-- Marking a coset keeps the marks. -/
theorem markCoset_keeps (fuel r : ℕ) {roots : List ℕ} {i : ℕ} (h : roots.getD i 0≠0) :
    (markCoset bch fuel r roots).getD i 0≠0 := by
  induction fuel generalizing r roots with
  | zero => exact h
  | succ fuel ih =>
    apply ih
    by_cases hir : r=i
    · subst hir
      have hlt : r<roots.length := by
        by_contra hge
        exact h (getD_of_length_le _ (by omega))
      rw [getD_set_self _ _ hlt]
      exact one_ne_zero
    · rwa [getD_set_ne _ _ _ hir]

/-- The primitive element itself is always marked, so there are parity bits. -/
theorem eccBits_pos (ht : 1≤bch.t) (hm : 1≤bch.m) (hn : 1<bch.n) : 0<(computeGeneratorPolynomial bch).2 := by
  have hloop : ∀ k, 1≤k → ((List.range k).foldl (fun roots i => markCoset bch bch.m (2*i+1) roots)
      (List.replicate (bch.n+1) 0)).getD 1 0≠0 := by
    intro k hk
    induction k with
    | zero => omega
    | succ k ih =>
      rw [List.range_succ,List.foldl_append,List.foldl_cons,List.foldl_nil]
      by_cases h0 : k=0
      · subst h0
        rw [getD_markCoset _ (by omega) _ (by simp)]
        exact Or.inr ⟨0,by omega,by rw [pow_zero,Nat.mul_zero,Nat.zero_add,Nat.mul_one,Nat.mod_eq_of_lt hn]⟩
      · exact markCoset_keeps _ _ (ih (by omega))
  obtain ⟨hl,-⟩ := generatorLoop bch bch.n
  have hlen : (generatorCoeffs bch).length=
    (List.range bch.n).countP (fun i => (markRoots bch).getD i 0≠0)+1 := hl
  have hpos : 0<(List.range bch.n).countP (fun i => (markRoots bch).getD i 0≠0) :=
    List.countP_pos_iff.mpr ⟨1,List.mem_range.mpr hn,decide_eq_true (hloop bch.t ht)⟩
  change 0<(generatorCoeffs bch).length-1
  omega

/-- The marked exponents are the conjugates of the odd ones below `2t`. -/
theorem marked_iff (hsize : 2*bch.t≤bch.n) (i : ℕ) :
    Marked bch i ↔ ∃ j<bch.t, ∃ e < bch.m, i=(2*j+1)*2^e%bch.n := by
  have hloop : ∀ k≤bch.t, ((List.range k).foldl (fun roots i => markCoset bch bch.m (2*i+1) roots)
      (List.replicate (bch.n+1) 0)).length=bch.n+1 ∧
      (((List.range k).foldl (fun roots i => markCoset bch bch.m (2*i+1) roots)
        (List.replicate (bch.n+1) 0)).getD i 0≠0 ↔ ∃ j<k, ∃ e < bch.m, i=(2*j+1)*2^e%bch.n) := by
    intro k
    induction k with
    | zero =>
      intro _
      refine ⟨List.length_replicate,?_⟩
      have hz : (List.replicate (bch.n+1) 0).getD i 0=0 :=
        forall_getD (P := (·=0)) rfl (fun x hx => (List.mem_replicate.mp hx).2) i
      simp
    | succ k ih =>
      intro hk
      obtain ⟨hl,hiff⟩ := ih (by omega)
      rw [List.range_succ,List.foldl_append,List.foldl_cons,List.foldl_nil]
      refine ⟨by rw [length_markCoset,hl],?_⟩
      rw [getD_markCoset bch.m (by omega) _ hl,hiff]
      constructor
      · rintro (⟨j,hj,e,he,rfl⟩ | ⟨e,he,rfl⟩)
        · exact ⟨j,by omega,e,he,rfl⟩
        · exact ⟨k,by omega,e,he,rfl⟩
      · rintro ⟨j,hj,e,he,rfl⟩
        by_cases hjk : j=k
        · exact Or.inr ⟨e,he,by rw [hjk]⟩
        · exact Or.inl ⟨j,by omega,e,he,rfl⟩
  exact (hloop bch.t le_rfl).2

/-- The marked exponents are below the order and closed under doubling. -/
theorem marked_closed (hn : bch.n=2^bch.m-1) (hm : 1≤bch.m) (hpos : 0<bch.n) (hsize : 2*bch.t≤bch.n) {i : ℕ}
    (h : Marked bch i) : i<bch.n ∧ Marked bch (2*i%bch.n) := by
  obtain ⟨j,hj,e,he,rfl⟩ := (marked_iff hsize i).mp h
  refine ⟨Nat.mod_lt _ hpos,(marked_iff hsize _).mpr ?_⟩
  have hdouble : 2*((2*j+1)*2^e%bch.n)%bch.n=(2*j+1)*2^(e+1)%bch.n := by
    rw [Nat.mul_mod_mod,pow_succ]
    congr 1
    ring
  by_cases hlast : e+1=bch.m
  · refine ⟨j,hj,0,by omega,?_⟩
    have h2 : 2^bch.m=1+bch.n := by omega
    rw [hdouble,hlast,h2,Nat.mul_add,Nat.mul_one,Nat.add_mul_mod_self_right,pow_zero,Nat.mul_one]
  · exact ⟨j,hj,e+1,by omega,hdouble⟩

/-- The powers of `α` that have to be roots have marked exponents. -/
theorem marked_power (hn : bch.n=2^bch.m-1) (hm : 1≤bch.m) (hpos : 0<bch.n) (hsize : 2*bch.t≤bch.n) {j : ℕ}
    (h1 : 1≤j) (hj : j≤2*bch.t) : Marked bch (j%bch.n) := by
  obtain ⟨e,q,hq,rfl⟩ := Nat.exists_eq_two_pow_mul_odd (Nat.ne_of_gt h1)
  obtain ⟨i,rfl⟩ := hq
  have hle : 2*i+1≤2^e*(2*i+1) := Nat.le_mul_of_pos_left _ (Nat.two_pow_pos e)
  have hi : i<bch.t := by omega
  clear hj hle h1
  induction e with
  | zero => exact (marked_iff hsize _).mpr ⟨i,hi,0,by omega,by rw [pow_zero,one_mul,mul_one]⟩
  | succ e ih =>
    have h2 := (marked_closed hn hm hpos hsize ih).2
    rw [Nat.mul_mod_mod] at h2
    rwa [pow_succ',Nat.mul_assoc]

end Marked

section Product

theorem listPoly_cons (α : F) (a : ℕ) (l : List ℕ) : listPoly α (a::l)=C (bitSum α a)+X*listPoly α l := by
  ext i
  rw [coeff_listPoly,coeff_add,coeff_C]
  cases i with
  | zero => rw [if_pos rfl,coeff_X_mul_zero,add_zero,List.getD_cons_zero]
  | succ i => rw [if_neg (Nat.succ_ne_zero i),zero_add,coeff_X_mul,coeff_listPoly,List.getD_cons_succ]

/-- Multiplication by a linear factor. -/
theorem mulRoot_spec [CharP F 2] (h : FieldTables α bch) {r prev : ℕ} (hr : r<2^bch.m) (hp : prev<2^bch.m)
    {c : List ℕ} (h0 : c≠[]) (htop : c.getD (c.length-1) 0=1) (hs : Small bch.m c) :
    Small bch.m (mulRoot bch r prev c) ∧
      listPoly α (mulRoot bch r prev c)=(X+C (bitSum α r))*listPoly α c+C (bitSum α prev) := by
  induction c generalizing prev with
  | nil => exact absurd rfl h0
  | cons x c ih =>
    have hx : x<2^bch.m := hs.mem List.mem_cons_self
    have hhead : gfMul bch x r^^^prev<2^bch.m := Nat.xor_lt_two_pow (h.gfMul_lt hx hr) hp
    have htail : Small bch.m (mulRoot bch r x c) ∧ listPoly α (mulRoot bch r x c)=
        (X+C (bitSum α r))*listPoly α c+C (bitSum α x) := by
      cases c with
      | nil =>
        have hx1 : x=1 := htop
        refine ⟨small_of_mem (by
          intro y hy
          rw [List.mem_singleton.mp hy]
          exact Nat.one_lt_two_pow (by have := h.range; omega)),?_⟩
        have hnil : listPoly α []=0 := by simp [listPoly]
        rw [mulRoot,listPoly_cons,hnil,hx1]
        simp
      | cons y c =>
        exact ih hx (by simp) (by simpa using htop) (small_of_mem fun z hz => hs.mem (List.mem_cons_of_mem _ hz))
    refine ⟨small_of_mem ?_,?_⟩
    · intro y hy
      rcases List.mem_cons.mp hy with rfl | hy
      · exact hhead
      · exact htail.1.mem hy
    · rw [mulRoot,listPoly_cons,htail.2,listPoly_cons,bitSum_xor,h.bitSum_gfMul hx hr,C_add,C_mul]
      ring

/-- The product of the linear factors with marked exponents. -/
noncomputable def rootProduct (α : F) (bch : BchControl) : F[X] :=
  ∏ i ∈ (Finset.range bch.n).filter (Marked bch), (X+C (α^i))

/-- The computed coefficients are those of the product. -/
theorem generatorCoeffs_spec [CharP F 2] (h : FieldTables α bch) :
    Small bch.m (generatorCoeffs bch) ∧ listPoly α (generatorCoeffs bch)=rootProduct α bch := by
  classical
  have hloop : ∀ k≤bch.n, Small bch.m ((List.range k).foldl (fun c i =>
      if (markRoots bch).getD i 0≠0 then mulRoot bch (bch.aPowTab.getD i 0) 0 c else c) [1]) ∧
      listPoly α ((List.range k).foldl (fun c i =>
        if (markRoots bch).getD i 0≠0 then mulRoot bch (bch.aPowTab.getD i 0) 0 c else c) [1])=
        ∏ i ∈ (Finset.range k).filter (Marked bch), (X+C (α^i)) := by
    intro k
    induction k with
    | zero =>
      intro _
      refine ⟨small_of_mem ?_,?_⟩
      · intro x hx
        rw [List.mem_singleton.mp hx]
        exact Nat.one_lt_two_pow (by have := h.range; omega)
      · have hnil : listPoly α []=0 := by simp [listPoly]
        rw [List.range_zero,List.foldl_nil,listPoly_cons,hnil]
        simp
    | succ k ih =>
      intro hk
      obtain ⟨hs,he⟩ := ih (by omega)
      obtain ⟨hlen,htop⟩ := generatorLoop bch k
      rw [List.range_succ,List.foldl_append,List.foldl_cons,List.foldl_nil,Finset.range_add_one,
        Finset.filter_insert]
      by_cases hm : Marked bch k
      · have hm' : (markRoots bch).getD k 0≠0 := hm
        obtain ⟨hs',he'⟩ := mulRoot_spec h (h.pow_lt (by omega)) (Nat.two_pow_pos _)
          (by intro hz; rw [hz] at hlen; simp at hlen) htop hs (r := bch.aPowTab.getD k 0)
        rw [if_pos hm',if_pos hm,Finset.prod_insert (by simp)]
        refine ⟨hs',?_⟩
        rw [he',he,h.bitSum_pow (by omega),bitSum_zero,map_zero,add_zero]
      · have hm' : ¬(markRoots bch).getD k 0≠0 := hm
        rw [if_neg hm',if_neg hm]
        exact ⟨hs,he⟩
  exact hloop bch.n le_rfl

/-- Squaring the coefficients of the product does not change it. -/
theorem rootProduct_frobenius [CharP F 2] (h : FieldTables α bch) (hsize : 2*bch.t≤bch.n) :
    (rootProduct α bch).map (frobenius F 2)=rootProduct α bch := by
  classical
  have hr := h.range
  have hodd : bch.n%2=1 := by
    have hp : 2^bch.m=2*2^(bch.m-1) := by rw [←pow_succ']; congr 1; omega
    have hp1 := Nat.two_pow_pos (bch.m-1)
    rw [h.n_eq,hp]
    omega
  set M := (Finset.range bch.n).filter (Marked bch) with hM
  have hclosed : ∀ i ∈ M, 2*i%bch.n ∈ M := by
    intro i hi
    obtain ⟨h1,h2⟩ := marked_closed h.n_eq (by omega) (by omega) hsize (Finset.mem_filter.mp hi).2
    exact Finset.mem_filter.mpr ⟨Finset.mem_range.mpr (Nat.mod_lt _ (by omega)),h2⟩
  have hinj : Set.InjOn (fun i => 2*i%bch.n) (M : Set ℕ) := by
    intro i hi j hj hij
    have hi' := Finset.mem_range.mp (Finset.mem_filter.mp hi).1
    have hj' := Finset.mem_range.mp (Finset.mem_filter.mp hj).1
    dsimp only at hij
    have hcases : ∀ i<bch.n, 2*i%bch.n=if 2*i<bch.n then 2*i else 2*i-bch.n := by
      intro i hi
      have := (modS_double hi).1
      rw [←this]
      rfl
    rw [hcases i hi',hcases j hj'] at hij
    split at hij <;> split at hij <;> omega
  have himg : M.image (fun i => 2*i%bch.n)=M := by
    apply Finset.eq_of_subset_of_card_le
    · intro x hx
      obtain ⟨i,hi,rfl⟩ := Finset.mem_image.mp hx
      exact hclosed i hi
    · rw [Finset.card_image_of_injOn hinj]
  have hfactor : ∀ i, (X+C (α^i)).map (frobenius F 2)=X+C (α^(2*i%bch.n)) := by
    intro i
    rw [Polynomial.map_add,map_X,map_C,frobenius_def,←pow_mul,Nat.mul_comm i 2]
    congr 2
    rw [h.n_eq,h.prim.pow_mod]
  rw [rootProduct,Polynomial.map_prod]
  simp only [hfactor]
  conv_rhs => rw [←hM,←himg,Finset.prod_image hinj]

end Product

section Divisibility

variable [CharP F 2] [Algebra (ZMod 2) F]

/-- Over tables of a field the generator is the product of its factors. -/
theorem map_generator (h : FieldTables α bch) (hsize : 2*bch.t≤bch.n) :
    (generator bch).map (algebraMap (ZMod 2) F)=rootProduct α bch := by
  obtain ⟨hs,he⟩ := generatorCoeffs_spec h
  have hfrob := rootProduct_frobenius h hsize
  rw [←he] at hfrob ⊢
  ext i
  rw [coeff_map,coeff_generator,coeff_listPoly]
  have hc := congrArg (fun p => p.coeff i) hfrob
  rw [coeff_map,coeff_listPoly,frobenius_def] at hc
  by_cases hz : (generatorCoeffs bch).getD i 0=0
  · rw [if_neg (not_not.mpr hz),hz,map_zero,bitSum_zero]
  · have hne := h.bitSum_ne_zero hz (hs i)
    have h1 : bitSum α ((generatorCoeffs bch).getD i 0)=1 := by
      rw [pow_two] at hc
      exact mul_left_cancel₀ hne (by rw [hc,mul_one])
    rw [if_pos hz,map_one,h1]

omit [CharP F 2] in
/-- Powers of two of the point go through a polynomial over the two-element field. -/
theorem aeval_pow_two_pow (V : (ZMod 2)[X]) (x : F) (e : ℕ) : aeval (x^2^e) V=aeval x V^2^e := by
  induction e with
  | zero => rw [pow_zero,pow_one,pow_one]
  | succ e ih =>
    rw [pow_succ,pow_mul,pow_mul,←ih]
    have hx := congrArg (aeval (x^2^e)) (ZMod.expand_card V)
    rwa [expand_aeval,map_pow] at hx

/-- A polynomial over the two-element field is a multiple of the generator
exactly when it vanishes at the first `2t` powers. -/
theorem generator_dvd_iff (h : FieldTables α bch) (hsize : 2*bch.t≤bch.n) (V : (ZMod 2)[X]) :
    generator bch ∣ V ↔ ∀ j, 1≤j → j≤2*bch.t → aeval (α^j) V=0 := by
  classical
  have hr := h.range
  have hmap := map_generator h hsize
  constructor
  · rintro ⟨Q,rfl⟩ j h1 hj
    have hmarked := marked_power h.n_eq (by omega) (by omega) hsize h1 hj
    have hroot : aeval (α^j) (generator bch)=0 := by
      rw [aeval_def,eval₂_eq_eval_map,hmap,rootProduct,eval_prod]
      apply Finset.prod_eq_zero (i := j%bch.n)
      · exact Finset.mem_filter.mpr ⟨Finset.mem_range.mpr (Nat.mod_lt _ (by omega)),hmarked⟩
      · rw [eval_add,eval_X,eval_C,h.n_eq,h.prim.pow_mod,CharTwo.add_self_eq_zero]
    rw [map_mul,hroot,zero_mul]
  · intro hV
    rw [←map_dvd_map' (algebraMap (ZMod 2) F),hmap,rootProduct]
    have hroot : ∀ i ∈ (Finset.range bch.n).filter (Marked bch), (X+C (α^i) : F[X]) ∣ V.map (algebraMap (ZMod 2) F) := by
      intro i hi
      obtain ⟨j,hj,e,he,hije⟩ := (marked_iff hsize i).mp (Finset.mem_filter.mp hi).2
      have hz : aeval (α^i) V=0 := by
        rw [hije,h.n_eq,h.prim.pow_mod,pow_mul,aeval_pow_two_pow,hV (2*j+1) (by omega) (by omega),
          zero_pow (Nat.two_pow_pos e).ne']
      rw [←CharTwo.sub_eq_add,dvd_iff_isRoot,IsRoot,eval_map_algebraMap]
      exact hz
    apply Finset.prod_dvd_of_coprime _ hroot
    intro i hi j hj hij
    have hi' := Finset.mem_range.mp (Finset.mem_filter.mp hi).1
    have hj' := Finset.mem_range.mp (Finset.mem_filter.mp hj).1
    rw [Function.onFun,←CharTwo.sub_eq_add,←CharTwo.sub_eq_add]
    apply isCoprime_X_sub_C_of_isUnit_sub
    rw [isUnit_iff_ne_zero,sub_ne_zero]
    intro he
    rw [h.n_eq] at hi' hj'
    exact hij (h.prim.pow_inj hi' hj' he)

end Divisibility

end ArdroneKernel.BchRoots
