import ArdroneKernel.BchLocator
import ArdroneKernel.BchSmallDegree

/-!
# Division, greatest common divisor and traces of coefficient arrays

`gf_poly_mod` divides in place by the monic form of its divisor and leaves
the quotient above the remainder. `gf_poly_gcd` computes a greatest common
divisor when there is one of positive degree; for coprime arguments it
returns some other polynomial, because it takes every remainder of degree
zero for the end of the algorithm.
-/

namespace ArdroneKernel.BchDivision

open Polynomial BitPolynomial PrimitiveElement ArrayList BchInit BchField BchDecode BchPolynomial

variable {F : Type*} [Field F] {α : F} {bch : BchControl}

/-- The degree of a structure is an index of its array. -/
def WellFormed (f : GfPoly) : Prop := f.deg<f.c.length

/-- A structure stands for a polynomial. The cells above the degree are
not part of it. -/
structure Represents (α : F) (m : ℕ) (f : GfPoly) (P : F[X]) : Prop where
  /-- The degree is an index of the array. -/
  wf : WellFormed f
  /-- The cells are field elements. -/
  small : Small m f.c
  /-- The cells up to the degree are the coefficients. -/
  poly : listPoly α (f.c.take (f.deg+1))=P
  /-- The degree is that of the polynomial. -/
  degree : P.natDegree=f.deg

theorem coeff_take (α : F) (c : List ℕ) (k i : ℕ) :
    (listPoly α (c.take k)).coeff i=if i<k then bitSum α (c.getD i 0) else 0 := by
  rw [coeff_listPoly]
  split
  · next h => rw [getD_take _ _ h]
  · next h =>
    rw [getD_of_length_le,bitSum_zero]
    exact (List.length_take_le k c).trans (by omega)

theorem Represents.coeff {f : GfPoly} {P : F[X]} (hf : Represents α bch.m f P) {i : ℕ} (hi : i≤f.deg) :
    P.coeff i=bitSum α (f.c.getD i 0) := by
  rw [←hf.poly,coeff_take,if_pos (by omega)]

/-- The leading coefficient stands in the last cell. -/
theorem Represents.lead {f : GfPoly} {P : F[X]} (hf : Represents α bch.m f P) :
    P.leadingCoeff=bitSum α (f.c.getD f.deg 0) := by
  rw [leadingCoeff,hf.degree,hf.coeff le_rfl]

theorem Represents.lead_ne {f : GfPoly} {P : F[X]} (hf : Represents α bch.m f P) (h0 : P≠0) :
    f.c.getD f.deg 0≠0 := by
  intro hz
  have hl := hf.lead
  rw [hz,bitSum_zero] at hl
  exact h0 (leadingCoeff_eq_zero.mp hl)

/-- The monic form that the division works with. -/
noncomputable def monic (B : F[X]) : F[X] := B*C B.leadingCoeff⁻¹

theorem monic_monic {B : F[X]} (h0 : B≠0) : (monic B).Monic := monic_mul_leadingCoeff_inv h0

theorem natDegree_monic {B : F[X]} (h0 : B≠0) : (monic B).natDegree=B.natDegree :=
  natDegree_mul_leadingCoeff_inv B h0

section Step

variable [CharP F 2]

omit [CharP F 2] in
/-- The logarithm representation of the divisor. -/
theorem logrep_spec (h : FieldTables α bch) {b : GfPoly} {B : F[X]} (hb : Represents α bch.m b B)
    (h0 : B≠0) {i la : ℕ} (hi : i<b.deg) (hla : la<bch.n) :
    (((gfPolyLogrep bch b).getD i none).map fun m => bch.aPowTab.getD (modS bch (m+la)) 0).getD 0<2^bch.m ∧
      bitSum α ((((gfPolyLogrep bch b).getD i none).map fun m =>
        bch.aPowTab.getD (modS bch (m+la)) 0).getD 0)=(monic B).coeff i*α^la := by
  have hlead := hb.lead_ne h0
  have hll := h.aLog_lt (hb.small b.deg)
  have hli := h.aLog_lt (hb.small i)
  rw [gfPolyLogrep,getD_range_map _ _ hi,monic,coeff_mul_C,hb.coeff hi.le,hb.lead]
  by_cases hz : b.c.getD i 0=0
  · rw [if_neg (not_not.mpr hz),hz,bitSum_zero,zero_mul,zero_mul]
    exact ⟨Nat.two_pow_pos _,bitSum_zero α⟩
  · rw [if_pos hz]
    have h1 : modS bch (aLog bch (b.c.getD i 0)+(bch.n-aLog bch (b.c.getD b.deg 0)))<bch.n :=
      FieldTables.modS_lt (by omega)
    have h2 := @FieldTables.modS_lt bch
      (modS bch (aLog bch (b.c.getD i 0)+(bch.n-aLog bch (b.c.getD b.deg 0)))+la) (by omega)
    have h3 : α^(bch.n-aLog bch (b.c.getD b.deg 0))=(bitSum α (b.c.getD b.deg 0))⁻¹ := by
      apply eq_inv_of_mul_eq_one_left
      rw [←h.pow_aLog hlead (hb.small _),←pow_add,
        show bch.n-aLog bch (b.c.getD b.deg 0)+aLog bch (b.c.getD b.deg 0)=bch.n by omega,h.pow_n]
    refine ⟨h.pow_lt h2.le,?_⟩
    rw [Option.map_some,Option.getD_some,h.bitSum_pow h2.le,h.pow_modS,pow_add,h.pow_modS,pow_add,
      h.pow_aLog hz (hb.small i),h3]

omit [Field F] [CharP F 2] in
/-- A round of the division as additions into a window. -/
theorem gfPolyModStep_eq (d : ℕ) (rep : List (Option ℕ)) (c : List ℕ) (j : ℕ) :
    gfPolyModStep bch d rep c j=if c.getD j 0≠0 then (List.range d).foldl (fun c' i =>
      addAt c' (j-d+i) ((rep.getD i none).map fun m =>
        bch.aPowTab.getD (modS bch (m+aLog bch (c.getD j 0))) 0)) c else c := by
  unfold gfPolyModStep
  split
  · dsimp only
    congr 1
    funext c' i
    cases rep.getD i none <;> rfl
  · rfl

/-- One round of the division cancels one coefficient. -/
theorem gfPolyModStep_spec (h : FieldTables α bch) {b : GfPoly} {B : F[X]} (hb : Represents α bch.m b B)
    (h0 : B≠0) {c : List ℕ} (hs : Small bch.m c) {j : ℕ} (hj : j<c.length) (hd : b.deg≤j) :
    (gfPolyModStep bch b.deg (gfPolyLogrep bch b) c j).length=c.length ∧
      Small bch.m (gfPolyModStep bch b.deg (gfPolyLogrep bch b) c j) ∧
      (∀ i, j≤ i → (gfPolyModStep bch b.deg (gfPolyLogrep bch b) c j).getD i 0=c.getD i 0) ∧
      listPoly α (c.take (j+1))=C (bitSum α (c.getD j 0))*X^(j-b.deg)*monic B+
        listPoly α ((gfPolyModStep bch b.deg (gfPolyLogrep bch b) c j).take j) := by
  have hdeg := natDegree_monic h0
  rw [hb.degree] at hdeg
  have hlead : (monic B).coeff b.deg=1 := by
    rw [←hdeg]
    exact (monic_monic h0).coeff_natDegree
  rw [gfPolyModStep_eq]
  by_cases hz : c.getD j 0=0
  · rw [if_neg (not_not.mpr hz),hz,bitSum_zero,map_zero,zero_mul,zero_mul,zero_add]
    refine ⟨rfl,hs,fun _ _ => rfl,?_⟩
    ext i
    rw [coeff_take,coeff_take]
    by_cases hij : i=j
    · rw [hij,if_pos (by omega),if_neg (by omega),hz,bitSum_zero]
    · by_cases hlt : i<j
      · rw [if_pos (by omega),if_pos hlt]
      · rw [if_neg (by omega),if_neg hlt]
  · rw [if_pos hz]
    have hla := h.aLog_lt (hs j)
    have hval := fun i (hi : i<b.deg) => logrep_spec h hb h0 hi hla
    obtain ⟨hl,hg⟩ := getD_addWindow (j-b.deg) (fun i => ((gfPolyLogrep bch b).getD i none).map fun m =>
      bch.aPowTab.getD (modS bch (m+aLog bch (c.getD j 0))) 0) c b.deg (by omega)
    refine ⟨hl,?_,?_,?_⟩
    · intro i
      rw [hg]
      split
      · exact Nat.xor_lt_two_pow (hs i) (hval _ (by omega)).1
      · exact hs i
    · intro i hi
      rw [hg,if_neg (by omega)]
    · ext i
      rw [coeff_take,coeff_add,coeff_take,mul_assoc,coeff_C_mul,coeff_X_pow_mul',hg]
      by_cases hwin : j-b.deg≤ i
      · rw [if_pos hwin]
        by_cases hij : i<j
        · rw [if_pos (by omega),if_pos hij,if_pos (by omega),bitSum_xor,(hval _ (by omega)).2,
            h.pow_aLog hz (hs j)]
          have h2 : (2 : F)=0 := CharTwo.two_eq_zero
          linear_combination -(bitSum α (c.getD j 0)*(monic B).coeff (i-(j-b.deg)))*h2
        · by_cases heq : i=j
          · rw [heq,if_pos (by omega),if_neg (by omega),add_zero,show j-(j-b.deg)=b.deg by omega,hlead,mul_one]
          · rw [if_neg (by omega),if_neg hij,add_zero,coeff_eq_zero_of_natDegree_lt (by rw [hdeg]; omega),
              mul_zero]
      · rw [if_neg hwin,mul_zero,zero_add,if_pos (by omega),if_pos (by omega),if_neg (by omega)]

omit [CharP F 2] in
theorem coeff_window (α : F) (c : List ℕ) (s e i : ℕ) :
    (listPoly α ((c.take e).drop s)).coeff i=if s+i<e then bitSum α (c.getD (s+i) 0) else 0 := by
  rw [coeff_listPoly,getD_drop,←coeff_listPoly,coeff_take]

omit [CharP F 2] in
/-- A window grows by one cell at its low end. -/
theorem window_succ (α : F) (c : List ℕ) {s e : ℕ} (hs : s<e) :
    listPoly α ((c.take e).drop s)=C (bitSum α (c.getD s 0))+X*listPoly α ((c.take e).drop (s+1)) := by
  ext i
  rw [coeff_window,coeff_add,coeff_C]
  cases i with
  | zero => rw [if_pos (by omega),if_pos rfl,coeff_X_mul_zero,Nat.add_zero,add_zero]
  | succ i => rw [if_neg (Nat.succ_ne_zero i),zero_add,coeff_X_mul,coeff_window,Nat.add_right_comm s 1 i,Nat.add_assoc s i 1]

/-- The division loop after `k` rounds. -/
theorem gfPolyMod_loop (h : FieldTables α bch) {a b : GfPoly} {A B : F[X]} (ha : Represents α bch.m a A)
    (hb : Represents α bch.m b B) (h0 : B≠0) (hd : b.deg≤a.deg) (k : ℕ) (hk : k≤a.deg+1-b.deg) :
    let c := (List.range k).foldl (fun c i =>
      gfPolyModStep bch b.deg (gfPolyLogrep bch b) c (a.deg-i)) a.c
    c.length=a.c.length ∧ Small bch.m c ∧
      A=listPoly α ((c.take (a.deg+1)).drop (a.deg+1-k))*X^(a.deg+1-k-b.deg)*monic B+
        listPoly α (c.take (a.deg+1-k)) := by
  intro c
  have hwf : a.deg<a.c.length := ha.wf
  induction k with
  | zero =>
    refine ⟨rfl,ha.small,?_⟩
    have hz : listPoly α ((a.c.take (a.deg+1)).drop (a.deg+1-0))=0 := by
      ext i
      rw [coeff_window,if_neg (by omega),coeff_zero]
    change A=listPoly α ((a.c.take (a.deg+1)).drop (a.deg+1-0))*_*_+listPoly α (a.c.take (a.deg+1-0))
    rw [hz,zero_mul,zero_mul,zero_add]
    exact ha.poly.symm
  | succ k ih =>
    obtain ⟨hl,hs,he⟩ := ih (by omega)
    have hc : c=gfPolyModStep bch b.deg (gfPolyLogrep bch b) ((List.range k).foldl (fun c i =>
        gfPolyModStep bch b.deg (gfPolyLogrep bch b) c (a.deg-i)) a.c) (a.deg-k) := by
      change (List.range (k+1)).foldl _ _=_
      rw [List.range_succ,List.foldl_append,List.foldl_cons,List.foldl_nil]
    generalize (List.range k).foldl (fun c i =>
      gfPolyModStep bch b.deg (gfPolyLogrep bch b) c (a.deg-i)) a.c=c' at hl hs he hc
    obtain ⟨hl',hs',hsame,hstep⟩ := gfPolyModStep_spec h hb h0 hs (j := a.deg-k) (by omega) (by omega)
    rw [←hc] at hl' hs' hsame hstep
    refine ⟨by omega,hs',?_⟩
    have e1 : a.deg+1-(k+1)=a.deg-k := by omega
    have e2 : a.deg+1-k=a.deg-k+1 := by omega
    have hw : listPoly α ((c'.take (a.deg+1)).drop (a.deg-k+1))=listPoly α ((c.take (a.deg+1)).drop (a.deg-k+1)) := by
      ext i
      rw [coeff_window,coeff_window,hsame _ (by omega)]
    rw [e1,window_succ α c (by omega),hsame _ le_rfl,he,e2,hstep,hw,
      show a.deg-k+1-b.deg=a.deg-k-b.deg+1 by omega,pow_succ]
    ring

omit [CharP F 2] in
/-- Leading zeros do not count. -/
theorem trimDeg_spec (α : F) {m : ℕ} (hα : ∀ v<2^m, bitSum α v=0 → v=0) {c : List ℕ} (hs : Small m c) (d : ℕ) :
    trimDeg c d≤d ∧ listPoly α (c.take (trimDeg c d+1))=listPoly α (c.take (d+1)) ∧
      (listPoly α (c.take (d+1))).natDegree=trimDeg c d := by
  induction d with
  | zero =>
    refine ⟨le_rfl,rfl,?_⟩
    rw [trimDeg]
    rw [←Nat.le_zero,natDegree_le_iff_coeff_eq_zero]
    intro i hi
    rw [coeff_take,if_neg (by omega)]
  | succ d ih =>
    rw [trimDeg]
    by_cases hz : c.getD (d+1) 0=0
    · obtain ⟨h1,h2,h3⟩ := ih
      have hsame : listPoly α (c.take (d+1+1))=listPoly α (c.take (d+1)) := by
        ext i
        rw [coeff_take,coeff_take]
        by_cases hi : i=d+1
        · rw [hi,if_pos (by omega),if_neg (by omega),hz,bitSum_zero]
        · by_cases hlt : i<d+1
          · rw [if_pos (by omega),if_pos hlt]
          · rw [if_neg (by omega),if_neg hlt]
      rw [if_pos hz,hsame]
      exact ⟨h1.trans (Nat.le_succ d),h2,h3⟩
    · rw [if_neg hz]
      refine ⟨le_rfl,rfl,?_⟩
      apply natDegree_eq_of_le_of_coeff_ne_zero
      · rw [natDegree_le_iff_coeff_eq_zero]
        intro i hi
        rw [coeff_take,if_neg (by omega)]
      · rw [coeff_take,if_pos (by omega)]
        exact fun hb => hz (hα _ (hs _) hb)

/-- `gf_poly_mod` computes the remainder and leaves the quotient by the
monic form of the divisor. -/
theorem gfPolyMod_spec (h : FieldTables α bch) {a b : GfPoly} {A B : F[X]} (ha : Represents α bch.m a A)
    (hb : Represents α bch.m b B) (hd : 0<b.deg) :
    Represents α bch.m (gfPolyMod bch a b) (A%B) ∧ (gfPolyMod bch a b).c.length=a.c.length ∧
      (b.deg≤a.deg → listPoly α (((gfPolyMod bch a b).c.drop b.deg).take (1+(a.deg-b.deg)))=
        A /ₘ monic B) := by
  have h0 : B≠0 := by
    rintro rfl
    have := hb.degree
    rw [natDegree_zero] at this
    omega
  have hwf : a.deg<a.c.length := ha.wf
  unfold gfPolyMod
  dsimp only
  by_cases hlt : a.deg<b.deg
  · rw [if_pos hlt]
    have hmod : A%B=A := (mod_eq_self_iff h0).mpr (by
      apply degree_lt_degree
      rw [ha.degree,hb.degree]
      exact hlt)
    rw [hmod]
    exact ⟨ha,rfl,fun hle => absurd hlt (by omega)⟩
  · rw [if_neg hlt]
    obtain ⟨hl,hs,he⟩ := gfPolyMod_loop h ha hb h0 (by omega) (a.deg+1-b.deg) le_rfl
    generalize (List.range (a.deg+1-b.deg)).foldl (fun c i =>
      gfPolyModStep bch b.deg (gfPolyLogrep bch b) c (a.deg-i)) a.c=c at hl hs he ⊢
    rw [show a.deg+1-(a.deg+1-b.deg)=b.deg by omega,Nat.sub_self,pow_zero,mul_one] at he
    have hmon := monic_monic h0
    have hdeg : (listPoly α (c.take b.deg)).degree<(monic B).degree := by
      rw [degree_eq_natDegree hmon.ne_zero,natDegree_monic h0,hb.degree,degree_lt_iff_coeff_zero]
      intro i hi
      rw [coeff_take,if_neg (by exact_mod_cast Nat.not_lt.mpr hi)]
    obtain ⟨hq,hr⟩ := div_modByMonic_unique (f := A) (listPoly α ((c.take (a.deg+1)).drop b.deg)) _ hmon
      ⟨by rw [add_comm,mul_comm]; exact he.symm,hdeg⟩
    obtain ⟨h1,h2,h3⟩ := trimDeg_spec α h.prim.indep hs (b.deg-1)
    rw [show b.deg-1+1=b.deg by omega] at h2 h3
    refine ⟨⟨?_,hs,?_,?_⟩,hl,fun _ => ?_⟩
    · change trimDeg c (b.deg-1)<c.length
      omega
    · rw [h2,mod_def]
      exact hr.symm
    · rw [mod_def]
      rw [show A %ₘ (B*C B.leadingCoeff⁻¹)=A %ₘ monic B from rfl,hr,h3]
    · rw [hq,List.drop_take,show a.deg+1-b.deg=1+(a.deg-b.deg) by omega]

end Step

section Shape

/-- A division keeps the size of the array and lowers the degree. -/
theorem gfPolyMod_shape {a b : GfPoly} (ha : WellFormed a) (hb : 0<b.deg) :
    (gfPolyMod bch a b).c.length=a.c.length ∧ WellFormed (gfPolyMod bch a b) ∧
      (gfPolyMod bch a b).deg<b.deg ∧ (gfPolyMod bch a b).deg≤a.deg := by
  have hwf : a.deg<a.c.length := ha
  have hfold : ∀ (l : List ℕ) (f : ℕ → List ℕ → List ℕ), (∀ i c, (f i c).length=c.length) → ∀ c,
      (l.foldl (fun c i => f i c) c).length=c.length := by
    intro l f hf
    induction l with
    | nil => exact fun _ => rfl
    | cons i l ih => exact fun c => (ih (f i c)).trans (hf i c)
  have hstep : ∀ (c : List ℕ) (j : ℕ), (gfPolyModStep bch b.deg (gfPolyLogrep bch b) c j).length=c.length := by
    intro c j
    rw [gfPolyModStep_eq]
    split
    · exact hfold _ (fun i c' => addAt c' _ _) (fun _ c' => length_addAt c' _ _) c
    · rfl
  have htrim : ∀ (c : List ℕ) (d : ℕ), trimDeg c d≤d := by
    intro c d
    induction d with
    | zero => exact le_rfl
    | succ d ih =>
      rw [trimDeg]
      split <;> omega
  unfold gfPolyMod
  dsimp only
  split
  · next hlt => exact ⟨rfl,ha,hlt,le_rfl⟩
  · next hge =>
    have hl := hfold (List.range (a.deg+1-b.deg)) (fun i c => gfPolyModStep bch b.deg (gfPolyLogrep bch b) c (a.deg-i))
      (fun i c => hstep c _) a.c
    generalize (List.range (a.deg+1-b.deg)).foldl (fun c i =>
      gfPolyModStep bch b.deg (gfPolyLogrep bch b) c (a.deg-i)) a.c=c at hl ⊢
    have ht := htrim c (b.deg-1)
    refine ⟨hl,?_,?_,?_⟩
    · change trimDeg c (b.deg-1)<c.length
      omega
    · change trimDeg c (b.deg-1)<b.deg
      omega
    · change trimDeg c (b.deg-1)≤a.deg
      omega

/-- The loop of `gf_poly_gcd` returns a polynomial of positive degree,
bounded by that of its first argument. -/
theorem gcdLoop_shape (fuel : ℕ) {a b : GfPoly} (ha : WellFormed a) (hb : WellFormed b) (h0 : 0<a.deg)
    (hle : b.deg≤a.deg) :
    WellFormed (gcdLoop bch fuel a b) ∧ 0<(gcdLoop bch fuel a b).deg ∧ (gcdLoop bch fuel a b).deg≤a.deg := by
  induction fuel generalizing a b with
  | zero => exact ⟨ha,h0,le_rfl⟩
  | succ fuel ih =>
    rw [gcdLoop]
    split
    · next hb0 =>
      obtain ⟨-,h2,h3,-⟩ := @gfPolyMod_shape bch _ _ ha hb0
      obtain ⟨h4,h5,h6⟩ := ih hb h2 hb0 h3.le
      exact ⟨h4,h5,h6.trans hle⟩
    · exact ⟨ha,h0,le_rfl⟩

end Shape

section Gcd

variable [CharP F 2]

/-- `gf_poly_div` computes the quotient by the monic form of the divisor. -/
theorem gfPolyDiv_spec (h : FieldTables α bch) {a b : GfPoly} {A B : F[X]} (ha : Represents α bch.m a A)
    (hb : Represents α bch.m b B) (hd : 0<b.deg) (hle : b.deg≤a.deg) :
    Represents α bch.m (gfPolyDiv bch a b).1 (A /ₘ monic B) := by
  have hwf : a.deg<a.c.length := ha.wf
  have h0 : B≠0 := by
    rintro rfl
    have := hb.degree
    rw [natDegree_zero] at this
    omega
  obtain ⟨hr,hl,hq⟩ := gfPolyMod_spec h ha hb hd
  unfold gfPolyDiv
  rw [if_pos hle]
  generalize gfPolyMod bch a b=r at hr hl hq ⊢
  have hlen : ((r.c.drop b.deg).take (1+(a.deg-b.deg))).length=1+(a.deg-b.deg) := by
    rw [List.length_take,List.length_drop]
    omega
  refine ⟨?_,(hr.small.drop _).take _,?_,?_⟩
  · change a.deg-b.deg<((r.c.drop b.deg).take (1+(a.deg-b.deg))).length
    omega
  · change listPoly α (((r.c.drop b.deg).take (1+(a.deg-b.deg))).take (a.deg-b.deg+1))=_
    rw [List.take_of_length_le (by omega)]
    exact hq hle
  · rw [natDegree_divByMonic _ (monic_monic h0),natDegree_monic h0,ha.degree,hb.degree]

/-- The loop of `gf_poly_gcd` is right when there is a common divisor of
positive degree. -/
theorem gcdLoop_spec (h : FieldTables α bch) (fuel : ℕ) {a b : GfPoly} {A B : F[X]}
    (ha : Represents α bch.m a A) (hb : Represents α bch.m b B) (hf : b.deg<fuel)
    (hD : ∃ D, D ∣ A ∧ D ∣ B ∧ 0<D.natDegree) :
    ∃ G, Represents α bch.m (gcdLoop bch fuel a b) G ∧ G ∣ A ∧ G ∣ B ∧ ∀ D, D ∣ A → D ∣ B → D ∣ G := by
  induction fuel generalizing a b A B with
  | zero => omega
  | succ fuel ih =>
    rw [gcdLoop]
    by_cases hb0 : 0<b.deg
    · rw [if_pos hb0]
      obtain ⟨hr,-,-⟩ := gfPolyMod_spec h ha hb hb0
      obtain ⟨-,-,hlt,-⟩ := @gfPolyMod_shape bch _ b ha.wf hb0
      have hmod : ∀ {D : F[X]}, D ∣ B → (D ∣ A%B ↔ D ∣ A) := fun hDB => EuclideanDomain.dvd_mod_iff hDB
      obtain ⟨D,hDA,hDB,hDpos⟩ := hD
      obtain ⟨G,hG,hGB,hGR,hmax⟩ := ih hb hr (by omega) ⟨D,hDB,(hmod hDB).mpr hDA,hDpos⟩
      exact ⟨G,hG,(hmod hGB).mp hGR,hGB,fun D hDA hDB => hmax D hDB ((hmod hDB).mpr hDA)⟩
    · rw [if_neg hb0]
      -- a constant with a divisor of positive degree is zero
      have hB : B=0 := by
        by_contra hB0
        obtain ⟨D,-,hDB,hDpos⟩ := hD
        have := natDegree_le_of_dvd hDB hB0
        rw [hb.degree] at this
        omega
      exact ⟨A,ha,dvd_rfl,by rw [hB]; exact dvd_zero A,fun D hDA _ => hDA⟩

/-- `gf_poly_gcd` is right when there is a common divisor of positive degree. -/
theorem gfPolyGcd_spec (h : FieldTables α bch) {a b : GfPoly} {A B : F[X]}
    (ha : Represents α bch.m a A) (hb : Represents α bch.m b B)
    (hD : ∃ D, D ∣ A ∧ D ∣ B ∧ 0<D.natDegree) :
    ∃ G, Represents α bch.m (gfPolyGcd bch a b) G ∧ G ∣ A ∧ G ∣ B ∧ ∀ D, D ∣ A → D ∣ B → D ∣ G := by
  unfold gfPolyGcd
  split
  · obtain ⟨D,hDA,hDB,hDpos⟩ := hD
    obtain ⟨G,hG,hGB,hGA,hmax⟩ := gcdLoop_spec h (a.deg+1) hb ha (by omega) ⟨D,hDB,hDA,hDpos⟩
    exact ⟨G,hG,hGA,hGB,fun D hDA hDB => hmax D hDB hDA⟩
  · exact gcdLoop_spec h (b.deg+1) ha hb (by omega) hD

end Gcd

section TraceMod

/-- The trace of `α^k*X` as a polynomial. -/
noncomputable def tracePoly (α : F) (m k : ℕ) : F[X] := ∑ i ∈ Finset.range m, (C (α^k)*X)^2^i

theorem eval_tracePoly (α : F) (m k : ℕ) (x : F) : (tracePoly α m k).eval x=tr m (α^k*x) := by
  simp only [tracePoly,tr,eval_finsetSum,eval_pow,eval_mul,eval_C,eval_X]

/-- An array with zeros between its entries. -/
theorem getD_interleave (g : ℕ → ℕ) (d : ℕ) :
    ((List.range d).flatMap fun j => [g j,0]).length=2*d ∧ ∀ i,
      ((List.range d).flatMap fun j => [g j,0]).getD i 0=if i%2=0 ∧ i/2<d then g (i/2) else 0 := by
  induction d with
  | zero => exact ⟨rfl,fun i => by simp⟩
  | succ d ih =>
    obtain ⟨hl,hg⟩ := ih
    rw [List.range_succ,List.flatMap_append]
    refine ⟨by rw [List.length_append,hl]; simp; omega,fun i => ?_⟩
    by_cases hi : i<2*d
    · rw [List.getD_append _ _ _ _ (by omega),hg]
      by_cases he : i%2=0
      · rw [if_pos ⟨he,by omega⟩,if_pos ⟨he,by omega⟩]
      · rw [if_neg (fun hc => he hc.1),if_neg (fun hc => he hc.1)]
    · rw [List.getD_append_right _ _ _ _ (by omega),hl]
      by_cases h0 : i=2*d
      · have hd : i/2=d := by omega
        rw [if_pos ⟨by omega,by omega⟩,hd,h0,Nat.sub_self]
        rfl
      · rw [if_neg (by omega)]
        rcases Nat.eq_or_lt_of_le (show 2*d+1≤ i by omega) with h1 | h1
        · rw [←h1,Nat.add_sub_cancel_left]
          rfl
        · exact getD_of_length_le _ (by simp; omega)

variable [CharP F 2]

/-- The square of a polynomial, computed coefficient by coefficient. -/
theorem represents_sq (h : FieldTables α bch) {z : GfPoly} {Z : F[X]} (hz : Represents α bch.m z Z) :
    Represents α bch.m ⟨2*z.deg,(List.range (z.deg+1)).flatMap fun j => [gfSqr bch (z.c.getD j 0),0]⟩ (Z^2) := by
  obtain ⟨hl,hg⟩ := getD_interleave (fun j => gfSqr bch (z.c.getD j 0)) (z.deg+1)
  refine ⟨?_,?_,?_,?_⟩
  · change 2*z.deg<((List.range (z.deg+1)).flatMap fun j => [gfSqr bch (z.c.getD j 0),0]).length
    omega
  · intro i
    rw [hg]
    split
    · exact h.gfSqr_lt (hz.small _)
    · exact Nat.two_pow_pos _
  · ext i
    change (listPoly α (((List.range (z.deg+1)).flatMap fun j =>
      [gfSqr bch (z.c.getD j 0),0]).take (2*z.deg+1))).coeff i=_
    rw [coeff_take,hg,BchLocator.coeff_sq,←hz.poly,coeff_take]
    by_cases hi : i%2=0
    · rw [if_pos (show 2 ∣ i by omega)]
      by_cases hle : i/2<z.deg+1
      · rw [if_pos (by omega),if_pos ⟨hi,hle⟩,if_pos hle,h.bitSum_gfSqr (hz.small _)]
      · rw [if_neg (by omega),if_neg hle,zero_pow two_ne_zero]
    · rw [if_neg (show ¬2 ∣ i by omega)]
      split
      · rw [if_neg (fun hc => hi hc.1),bitSum_zero]
      · rfl
  · rw [natDegree_pow,hz.degree]

omit [CharP F 2] in
/-- The trace modulo a polynomial stays inside the array and below the degree. -/
theorem computeTraceBkMod_shape {k : ℕ} {f : GfPoly} (hd : 1≤f.deg) :
    WellFormed (computeTraceBkMod bch k f) ∧ (computeTraceBkMod bch k f).deg≤f.deg ∧
      (2≤f.deg → (computeTraceBkMod bch k f).deg<f.deg) := by
  have htrim : ∀ (c : List ℕ) (d : ℕ), trimDeg c d≤d := by
    intro c d
    induction d with
    | zero => exact le_rfl
    | succ d ih =>
      rw [trimDeg]
      split <;> omega
  -- a bound above the degree of the first term bounds all of them
  have hloop : ∀ b n, 1<b → f.deg≤b → b≤f.deg+1 → ((List.range n).foldl (traceStep bch f)
      (⟨1,[0,bch.aPowTab.getD k 0]⟩,⟨0,List.replicate (f.deg+1) 0⟩)).1.deg<b ∧
      ((List.range n).foldl (traceStep bch f)
        (⟨1,[0,bch.aPowTab.getD k 0]⟩,⟨0,List.replicate (f.deg+1) 0⟩)).2.c.length=f.deg+1 ∧
      ((List.range n).foldl (traceStep bch f)
        (⟨1,[0,bch.aPowTab.getD k 0]⟩,⟨0,List.replicate (f.deg+1) 0⟩)).2.deg<b := by
    intro b n h1b hfb hbf
    induction n with
    | zero =>
      refine ⟨?_,List.length_replicate,?_⟩
      · change 1<b
        omega
      · change 0<b
        omega
    | succ n ih =>
      rw [List.range_succ,List.foldl_append,List.foldl_cons,List.foldl_nil]
      generalize (List.range n).foldl (traceStep bch f)
        (⟨1,[0,bch.aPowTab.getD k 0]⟩,⟨0,List.replicate (f.deg+1) 0⟩)=st at ih ⊢
      obtain ⟨z,out⟩ := st
      obtain ⟨h1,h2,h3⟩ := ih
      unfold traceStep
      dsimp only
      have hmax : max out.deg z.deg<b := max_lt h3 h1
      split
      · refine ⟨lt_of_lt_of_le (@gfPolyMod_shape bch _ f ?_ (by omega)).2.2.1 hfb,by
          rw [List.length_mapIdx,h2],hmax⟩
        change 2*z.deg<_
        rw [(getD_interleave (fun j => gfSqr bch (z.c.getD j 0)) (z.deg+1)).1]
        omega
      · exact ⟨h1,by rw [List.length_mapIdx,h2],hmax⟩
  obtain ⟨-,h2,h3⟩ := hloop (f.deg+1) bch.m (by omega) (by omega) (Nat.le_refl _)
  have hlow := fun h => (hloop f.deg bch.m h (Nat.le_refl _) (by omega)).2.2
  unfold computeTraceBkMod WellFormed
  dsimp only
  have := htrim ((List.range bch.m).foldl (traceStep bch f)
    (⟨1,[0,bch.aPowTab.getD k 0]⟩,⟨0,List.replicate (f.deg+1) 0⟩)).2.c ((List.range bch.m).foldl (traceStep bch f)
    (⟨1,[0,bch.aPowTab.getD k 0]⟩,⟨0,List.replicate (f.deg+1) 0⟩)).2.deg
  exact ⟨by omega,by omega,fun h => lt_of_le_of_lt this (hlow h)⟩

/-- The state of the trace loop after `i` rounds. -/
structure TraceInv (α : F) (bch : BchControl) (f : GfPoly) (P : F[X]) (k i : ℕ) (st : GfPoly×GfPoly) :
    Prop where
  /-- The next conjugate, reduced. -/
  power : i < bch.m → Represents α bch.m st.1 ((C (α^k)*X)^2^i%P) ∧ st.1.deg<f.deg
  /-- The sum has room for every remainder. -/
  length : st.2.c.length=f.deg+1
  /-- The cells of the sum are field elements. -/
  small : Small bch.m st.2.c
  /-- The sum of the conjugates so far, reduced. -/
  sum : listPoly α st.2.c=(∑ j ∈ Finset.range i, (C (α^k)*X)^2^j)%P
  /-- Above the recorded degree there are zeros. -/
  high : ∀ j, st.2.deg<j → st.2.c.getD j 0=0

theorem TraceInv.step (h : FieldTables α bch) {f : GfPoly} {P : F[X]} {k i : ℕ} {st : GfPoly×GfPoly}
    (hf : Represents α bch.m f P) (hd : 2≤f.deg) (hi : i < bch.m) (hinv : TraceInv α bch f P k i st) :
    TraceInv α bch f P k (i+1) (traceStep bch f st i) := by
  obtain ⟨z,out⟩ := st
  obtain ⟨hz,hzd⟩ := hinv.power hi
  have hlen := hinv.length
  have hsmall := hinv.small
  have hsum := hinv.sum
  have hhigh := hinv.high
  dsimp only at hz hzd hlen hsmall hsum hhigh
  -- the new sum
  have hnew : ∀ j, (out.c.mapIdx fun j v => if j≤z.deg then v^^^z.c.getD j 0 else v).getD j 0=
      if j≤z.deg then out.c.getD j 0^^^z.c.getD j 0 else out.c.getD j 0 := by
    intro j
    rcases Nat.lt_or_ge j out.c.length with hj | hj
    · rw [getD_mapIdx _ _ _ hj]
    · rw [getD_of_length_le _ (by rw [List.length_mapIdx]; exact hj),if_neg (by omega),getD_of_length_le _ hj]
  have hpow : i+1 < bch.m → Represents α bch.m (gfPolyMod bch ⟨2*z.deg,(List.range (z.deg+1)).flatMap fun j =>
      [gfSqr bch (z.c.getD j 0),0]⟩ f) ((C (α^k)*X)^2^(i+1)%P) ∧ (gfPolyMod bch ⟨2*z.deg,
        (List.range (z.deg+1)).flatMap fun j => [gfSqr bch (z.c.getD j 0),0]⟩ f).deg<f.deg := by
    intro _
    have hsq := represents_sq h hz
    obtain ⟨hr,-,-⟩ := gfPolyMod_spec h hsq hf (by omega)
    refine ⟨?_,(gfPolyMod_shape hsq.wf (by omega)).2.2.1⟩
    have he : ((C (α^k)*X)^2^i%P)^2%P=(C (α^k)*X)^2^(i+1)%P := by
      rw [pow_two,←mul_mod,pow_succ 2 i,pow_mul,pow_two]
    rw [←he]
    exact hr
  have hout : Small bch.m (out.c.mapIdx fun j v => if j≤z.deg then v^^^z.c.getD j 0 else v) ∧
      listPoly α (out.c.mapIdx fun j v => if j≤z.deg then v^^^z.c.getD j 0 else v)=
        (∑ j ∈ Finset.range (i+1), (C (α^k)*X)^2^j)%P ∧
      ∀ j, max out.deg z.deg<j → (out.c.mapIdx fun j v => if j≤z.deg then v^^^z.c.getD j 0 else v).getD j 0=0 := by
    refine ⟨?_,?_,?_⟩
    · intro j
      rw [hnew]
      split
      · exact Nat.xor_lt_two_pow (hsmall j) (hz.small j)
      · exact hsmall j
    · rw [Finset.sum_range_succ,add_mod,←hsum,←hz.poly]
      ext j
      rw [coeff_listPoly,hnew,coeff_add,coeff_listPoly,coeff_take]
      by_cases hj : j≤z.deg
      · rw [if_pos hj,if_pos (by omega),bitSum_xor]
      · rw [if_neg hj,if_neg (by omega),add_zero]
    · intro j hj
      rw [hnew,if_neg (by omega)]
      exact hhigh j (by omega)
  unfold traceStep
  dsimp only
  split
  · next hlast =>
    exact ⟨fun hi' => hpow hi',by rw [List.length_mapIdx,hlen],hout.1,hout.2.1,hout.2.2⟩
  · next hlast =>
    exact ⟨fun hi' => absurd hi' (by omega),by rw [List.length_mapIdx,hlen],hout.1,hout.2.1,hout.2.2⟩

/-- `compute_trace_bk_mod` computes the trace of `α^k*X` modulo its argument. -/
theorem computeTraceBkMod_spec (h : FieldTables α bch) {f : GfPoly} {P : F[X]} {k : ℕ}
    (hf : Represents α bch.m f P) (hd : 2≤f.deg) (hk : k≤bch.n) :
    Represents α bch.m (computeTraceBkMod bch k f) (tracePoly α bch.m k%P) := by
  have hpk := h.bitSum_pow hk
  have hα := pow_ne_zero k h.ne_zero
  have hinit : TraceInv α bch f P k 0 (⟨1,[0,bch.aPowTab.getD k 0]⟩,⟨0,List.replicate (f.deg+1) 0⟩) := by
    have hdegX : (C (α^k)*X : F[X]).natDegree=1 := natDegree_C_mul_X _ hα
    refine ⟨fun _ => ⟨?_,?_⟩,List.length_replicate,small_replicate _ _,?_,?_⟩
    · have hmod : (C (α^k)*X)^2^0%P=C (α^k)*X := by
        rw [pow_zero,pow_one]
        have hP : P≠0 := by
          rintro rfl
          have := hf.degree
          rw [natDegree_zero] at this
          omega
        apply (mod_eq_self_iff hP).mpr
        apply degree_lt_degree
        rw [hdegX,hf.degree]
        omega
      rw [hmod]
      refine ⟨Nat.lt_succ_self 1,?_,?_,hdegX⟩
      · apply small_of_mem
        intro x hx
        simp only [List.mem_cons,List.not_mem_nil,or_false] at hx
        rcases hx with rfl | rfl
        · exact Nat.two_pow_pos _
        · exact h.pow_lt hk
      · ext j
        change (listPoly α ([0,bch.aPowTab.getD k 0].take (1+1))).coeff j=_
        rw [coeff_take,coeff_C_mul,coeff_X]
        rcases j with _ | _ | j
        · simp
        · simpa using hpk
        · rw [if_neg (by omega),if_neg (by omega),mul_zero]
    · change 1<f.deg
      omega
    · rw [Finset.sum_range_zero,EuclideanDomain.zero_mod]
      ext j
      rw [coeff_listPoly,coeff_zero,forall_getD (P := (·=0)) rfl (fun x hx => (List.mem_replicate.mp hx).2) j,bitSum_zero]
    · intro j _
      exact forall_getD (P := (·=0)) rfl (fun x hx => (List.mem_replicate.mp hx).2) j
  have hloop : ∀ n, n≤bch.m → TraceInv α bch f P k n ((List.range n).foldl (traceStep bch f)
      (⟨1,[0,bch.aPowTab.getD k 0]⟩,⟨0,List.replicate (f.deg+1) 0⟩)) := by
    intro n
    induction n with
    | zero => exact fun _ => hinit
    | succ n ih =>
      intro hn
      rw [List.range_succ,List.foldl_append,List.foldl_cons,List.foldl_nil]
      exact (ih (by omega)).step h hf hd (by omega)
  have hend := hloop bch.m le_rfl
  have hshape := (@computeTraceBkMod_shape bch k f (by omega)).1
  unfold computeTraceBkMod at hshape ⊢
  dsimp only at hshape ⊢
  generalize (List.range bch.m).foldl (traceStep bch f)
    (⟨1,[0,bch.aPowTab.getD k 0]⟩,⟨0,List.replicate (f.deg+1) 0⟩)=st at hend hshape ⊢
  obtain ⟨z,out⟩ := st
  obtain ⟨h1,h2,h3⟩ := trimDeg_spec α h.prim.indep hend.small out.deg
  have hfull : listPoly α (out.c.take (out.deg+1))=tracePoly α bch.m k%P := by
    rw [tracePoly,←hend.sum]
    ext j
    rw [coeff_take,coeff_listPoly]
    split
    · rfl
    · rw [hend.high j (by change out.deg<j; omega),bitSum_zero]
  exact ⟨hshape,hend.small,h2.trans hfull,by rw [←hfull]; exact h3⟩

end TraceMod

end ArdroneKernel.BchDivision
