import ArdroneKernel.BchAffine

/-!
# The root finders of the degrees one to four

Each finder returns as many logarithms as the degree exactly when the
polynomial has that many different nonzero roots, and they are then the
logarithms of the inverses of the roots. The degrees three and four are
reduced to affine polynomials of degree four.
-/

namespace ArdroneKernel.BchSmallDegree

open Polynomial BitPolynomial PrimitiveElement BchInit BchField BchDecode BchPolynomial BchTables
  BchAffine

variable {F : Type*} [Field F] {α : F} {bch : BchControl} {c : List ℕ} {d : ℕ}

/-- A list of logarithms tells exactly whether a polynomial of degree `d`
has `d` different nonzero roots, and then which. -/
structure ExactRoots (α : F) (n d : ℕ) (P : F[X]) (L : List ℕ) : Prop where
  /-- There are not more values than roots. -/
  le : L.length≤d
  /-- A full list holds different logarithms of inverse roots. -/
  sound : L.length=d → L.Nodup ∧ ∀ l ∈ L, l<n ∧ P.eval (α^l)⁻¹=0
  /-- The list is full when the roots exist. -/
  complete : ∀ S : Finset F, S.card=d → 0 ∉ S → (∀ x ∈ S, P.eval x=0) → L.length=d

/-- A polynomial of degree `d` does not vanish on more than `d` points. -/
theorem card_le_of_roots {P : F[X]} (hd : P.degree=d) (S : Finset F) (hS : ∀ x ∈ S, P.eval x=0) :
    S.card≤d := by
  classical
  have h0 : P≠0 := by
    rintro rfl
    cases hd
  have hsub : S ⊆ P.roots.toFinset := by
    intro x hx
    rw [Multiset.mem_toFinset,mem_roots h0,IsRoot]
    exact hS x hx
  calc S.card≤P.roots.toFinset.card := Finset.card_le_card hsub
    _≤Multiset.card P.roots := Multiset.toFinset_card_le _
    _≤P.natDegree := card_roots' P
    _=d := natDegree_eq_of_degree_eq_some hd

/-- With as many nonzero roots as the degree, zero is not a root. -/
theorem coeff_zero_ne {P : F[X]} (hd : P.degree=d) {S : Finset F} (hcard : S.card=d) (h0 : 0 ∉ S)
    (hS : ∀ x ∈ S, P.eval x=0) : P.coeff 0≠0 := by
  classical
  intro hz
  have hle := card_le_of_roots hd (insert 0 S) (by
    intro x hx
    rcases Finset.mem_insert.mp hx with rfl | hx
    · rw [←coeff_zero_eq_eval_zero,hz]
    · exact hS x hx)
  rw [Finset.card_insert_of_notMem h0] at hle
  omega

/-- The value of a polynomial of an array of known degree. -/
theorem eval_listPoly (hd : (listPoly α c).degree=d) (x : F) :
    (listPoly α c).eval x=∑ i ∈ Finset.range (d+1), bitSum α (c.getD i 0)*x^i := by
  rw [eval_eq_sum_range,natDegree_eq_of_degree_eq_some hd]
  simp only [coeff_listPoly]

/-- The leading entry is not zero. -/
theorem lead_ne (hd : (listPoly α c).degree=d) : c.getD d 0≠0 := by
  intro hz
  have hl : (listPoly α c).coeff d≠0 := by
    have := coeff_ne_zero_of_eq_degree hd
    exact this
  apply hl
  rw [coeff_listPoly,hz,bitSum_zero]

variable [CharP F 2]

/-- `find_poly_deg1_roots` is exact. -/
theorem findPolyDeg1Roots_exact (h : FieldTables α bch) (hs : Small bch.m c)
    (hd : (listPoly α c).degree=(1 : ℕ)) :
    ExactRoots α bch.n 1 (listPoly α c) (findPolyDeg1Roots bch c) := by
  have h1 := lead_ne hd
  unfold findPolyDeg1Roots
  by_cases h0 : c.getD 0 0=0
  · rw [if_neg (not_not.mpr h0)]
    refine ⟨Nat.zero_le _,fun hc => absurd hc (by simp),fun S hcard hS0 hS => ?_⟩
    have := coeff_zero_ne hd hcard hS0 hS
    rw [coeff_listPoly,h0,bitSum_zero] at this
    exact absurd rfl this
  · rw [if_pos h0]
    have hl0 := h.aLog_lt (hs 0)
    have hl1 := h.aLog_lt (hs 1)
    have hb0 := h.bitSum_ne_zero h0 (hs 0)
    refine ⟨le_rfl,fun _ => ⟨List.nodup_singleton _,?_⟩,fun _ _ _ _ => rfl⟩
    intro l hl
    rw [List.mem_singleton.mp hl]
    refine ⟨FieldTables.modS_lt (by omega),?_⟩
    have hpow : α^(bch.n-aLog bch (c.getD 0 0)+aLog bch (c.getD 1 0))=
        bitSum α (c.getD 1 0)/bitSum α (c.getD 0 0) := by
      rw [eq_div_iff hb0,←h.pow_aLog h0 (hs 0),←pow_add,
        show bch.n-aLog bch (c.getD 0 0)+aLog bch (c.getD 1 0)+aLog bch (c.getD 0 0)=
          bch.n+aLog bch (c.getD 1 0) by omega,pow_add,h.pow_n,one_mul,h.pow_aLog h1 (hs 1)]
    have hb1 := h.bitSum_ne_zero h1 (hs 1)
    rw [h.pow_modS,hpow,eval_listPoly hd,Finset.sum_range_succ,Finset.sum_range_one,pow_zero,mul_one,
      pow_one,inv_div,mul_div_cancel₀ _ hb1,CharTwo.add_self_eq_zero]

/-- The root finder of degree two adds up entries of the base. -/
theorem xiSum_spec {κ : F}
    (hbase : ∀ r < bch.m, SolvesDeg2 α κ bch.m r (bch.xiTab.getD r 0)) (fuel k : ℕ) (hk : k≤fuel)
    (hkm : k ≤ bch.m) (v r : ℕ) (hv : v<2^k) (hr : r<2^bch.m) :
    xiSum bch fuel v r<2^bch.m ∧ bitSum α (xiSum bch fuel v r)^2+bitSum α (xiSum bch fuel v r)=
      bitSum α r^2+bitSum α r+bitSum α v+tr bch.m (bitSum α v)*κ := by
  induction fuel generalizing k v r with
  | zero =>
    obtain rfl : k=0 := by omega
    obtain rfl : v=0 := by omega
    rw [xiSum]
    exact ⟨hr,by simp⟩
  | succ fuel ih =>
    rw [xiSum]
    by_cases h0 : v=0
    · subst h0
      exact ⟨hr,by simp⟩
    · rw [if_pos h0]
      have hlog := (Nat.log2_eq_iff h0).mp (rfl : Nat.log2 v=deg v)
      have hdk : deg v<k := (Nat.pow_lt_pow_iff_right (by omega)).mp (lt_of_le_of_lt hlog.1 hv)
      obtain ⟨hx,he⟩ := hbase (deg v) (by omega)
      have hlow : v^^^(1<<<deg v)<2^deg v := by
        rw [Nat.shiftLeft_eq,Nat.one_mul]
        exact xor_lt_of_top hlog.1 hlog.2 (Nat.le_refl _) (Nat.pow_lt_pow_right (by omega) (by omega))
      obtain ⟨h1,h2⟩ := ih (deg v) (by omega) (by omega) _ (r^^^bch.xiTab.getD (deg v) 0) hlow
        (Nat.xor_lt_two_pow hr hx)
      refine ⟨h1,?_⟩
      have hsplit : bitSum α v=bitSum α (v^^^(1<<<deg v))+α^deg v := by
        rw [bitSum_xor,Nat.shiftLeft_eq,Nat.one_mul,bitSum_two_pow,add_assoc,CharTwo.add_self_eq_zero,add_zero]
      rw [h2,bitSum_xor,hsplit,tr_add,CharTwo.add_sq,
        show bitSum α r^2+bitSum α (bch.xiTab.getD (deg v) 0)^2+(bitSum α r+bitSum α (bch.xiTab.getD (deg v) 0))=
          bitSum α r^2+bitSum α r+(bitSum α (bch.xiTab.getD (deg v) 0)^2+bitSum α (bch.xiTab.getD (deg v) 0)) by
          ring,he]
      ring

/-- A solution of `r^2+r=u` gives a root of a quadratic polynomial. -/
theorem quadratic_root {c0 c1 c2 r : F} (h1 : c1≠0) (h2 : c2≠0) (hr : r^2+r=c0*c2/c1^2) :
    c0+c1*(c1*r/c2)+c2*(c1*r/c2)^2=0 := by
  have he : c1*(c1*r/c2)+c2*(c1*r/c2)^2=c1^2/c2*(r^2+r) := by
    field_simp
    ring
  rw [add_assoc,he,hr]
  have hc : c1^2/c2*(c0*c2/c1^2)=c0 := by field_simp
  rw [hc,CharTwo.add_self_eq_zero]

/-- A root of a quadratic polynomial gives a solution of `r^2+r=u`. -/
theorem quadratic_reduce {c0 c1 c2 x : F} (h1 : c1≠0) (hx : c0+c1*x+c2*x^2=0) :
    (c2*x/c1)^2+c2*x/c1=c0*c2/c1^2 := by
  have h0 : c0=c1*x+c2*x^2 := by
    rw [add_assoc] at hx
    exact CharTwo.add_eq_zero.mp hx
  rw [h0]
  field_simp
  ring

omit [CharP F 2] in
/-- The logarithm computed for a solution `s` is that of an inverse root. -/
theorem pow_deg2 (h : FieldTables α bch) {c1 c2 s : ℕ} (h1 : c1≠0) (hc1 : c1<2^bch.m) (h2 : c2≠0)
    (hc2 : c2<2^bch.m) (h3 : s≠0) (hs : s<2^bch.m) :
    (α^modulo bch (2*bch.n-aLog bch c1-aLog bch s+aLog bch c2))⁻¹=
      bitSum α c1*bitSum α s/bitSum α c2 := by
  have hl1 := h.aLog_lt hc1
  have hl3 := h.aLog_lt hs
  have hb1 := h.bitSum_ne_zero h1 hc1
  have hb3 := h.bitSum_ne_zero h3 hs
  rw [inv_eq_iff_eq_inv,inv_div,eq_div_iff (mul_ne_zero hb1 hb3),h.pow_modulo,←h.pow_aLog h1 hc1,
    ←h.pow_aLog h3 hs,←h.pow_aLog h2 hc2,←pow_add,←pow_add,
    show 2*bch.n-aLog bch c1-aLog bch s+aLog bch c2+(aLog bch c1+aLog bch s)=
      bch.n+bch.n+aLog bch c2 by omega,pow_add,pow_add,h.pow_n,one_mul,one_mul]

omit [CharP F 2] in
/-- The parameter `u` of the equation of degree two. -/
theorem bitSum_deg2 (h : FieldTables α bch) {c0 c1 c2 : ℕ} (h0 : c0≠0) (hc0 : c0<2^bch.m) (h1 : c1≠0)
    (hc1 : c1<2^bch.m) (h2 : c2≠0) (hc2 : c2<2^bch.m) :
    bitSum α (aPow bch (aLog bch c0+aLog bch c2+2*(bch.n-aLog bch c1)))=
      bitSum α c0*bitSum α c2/bitSum α c1^2 := by
  have hl1 := h.aLog_lt hc1
  have hb1 := h.bitSum_ne_zero h1 hc1
  rw [h.bitSum_aPow,eq_div_iff (pow_ne_zero 2 hb1),←h.pow_aLog h1 hc1,←h.pow_aLog h0 hc0,
    ←h.pow_aLog h2 hc2,←pow_mul,←pow_add,←pow_add,
    show aLog bch c0+aLog bch c2+2*(bch.n-aLog bch c1)+aLog bch c1*2=
      aLog bch c0+aLog bch c2+(bch.n+bch.n) by omega,pow_add,pow_add α bch.n,h.pow_n,one_mul,mul_one]

variable [Finite F]

/-- `find_poly_deg2_roots` is exact. -/
theorem findPolyDeg2Roots_exact (h : FieldTables α bch) (hb : Deg2Base α bch) (hs : Small bch.m c)
    (hd : (listPoly α c).degree=(2 : ℕ)) :
    ExactRoots α bch.n 2 (listPoly α c) (findPolyDeg2Roots bch c) := by
  classical
  have hm := h.range
  have h2 := lead_ne hd
  have heval : ∀ x, (listPoly α c).eval x=
      bitSum α (c.getD 0 0)+bitSum α (c.getD 1 0)*x+bitSum α (c.getD 2 0)*x^2 := by
    intro x
    rw [eval_listPoly hd,Finset.sum_range_succ,Finset.sum_range_succ,Finset.sum_range_one,pow_zero,
      mul_one,pow_one]
  unfold findPolyDeg2Roots
  by_cases hc : c.getD 0 0≠0 ∧ c.getD 1 0≠0
  · rw [if_pos hc]
    obtain ⟨h0,h1⟩ := hc
    obtain ⟨κ,-,hbase⟩ := hb.base
    dsimp only
    have hu := bitSum_deg2 h h0 (hs 0) h1 (hs 1) h2 (hs 2)
    have hult := h.aPow_lt (aLog bch (c.getD 0 0)+aLog bch (c.getD 2 0)+2*(bch.n-aLog bch (c.getD 1 0)))
    generalize aPow bch (aLog bch (c.getD 0 0)+aLog bch (c.getD 2 0)+2*(bch.n-aLog bch (c.getD 1 0)))=u
      at hu hult ⊢
    obtain ⟨hrlt,hre⟩ := xiSum_spec hbase 32 bch.m (by omega) le_rfl u 0 hult (Nat.two_pow_pos _)
    rw [bitSum_zero,zero_pow two_ne_zero,zero_add,zero_add] at hre
    generalize xiSum bch 32 u 0=r at hrlt hre ⊢
    have hb0 := h.bitSum_ne_zero h0 (hs 0)
    have hb1 := h.bitSum_ne_zero h1 (hs 1)
    have hb2 := h.bitSum_ne_zero h2 (hs 2)
    have htest : gfSqr bch r^^^r=u ↔ bitSum α r^2+bitSum α r=bitSum α u := by
      have hlt := Nat.xor_lt_two_pow (h.gfSqr_lt hrlt) hrlt
      rw [←h.bitSum_gfSqr hrlt,←bitSum_xor]
      exact ⟨fun he => by rw [he],fun he => h.prim.inj hlt hult he⟩
    by_cases ht : gfSqr bch r^^^r=u
    · rw [if_pos ht]
      refine ⟨le_rfl,fun _ => ?_,fun _ _ _ _ => rfl⟩
      have hsol := htest.mp ht
      rw [hu] at hsol
      have hu0 : bitSum α (c.getD 0 0)*bitSum α (c.getD 2 0)/bitSum α (c.getD 1 0)^2≠0 :=
        div_ne_zero (mul_ne_zero hb0 hb2) (pow_ne_zero 2 hb1)
      have hr1lt : r^^^1<2^bch.m := Nat.xor_lt_two_pow hrlt (Nat.one_lt_two_pow (by omega))
      have hsol1 : bitSum α (r^^^1)^2+bitSum α (r^^^1)=
          bitSum α (c.getD 0 0)*bitSum α (c.getD 2 0)/bitSum α (c.getD 1 0)^2 := by
        rw [bitSum_xor,bitSum_one,CharTwo.add_sq,one_pow,←hsol]
        have h2 : (2 : F)=0 := CharTwo.two_eq_zero
        linear_combination h2
      have hr0 : r≠0 := by
        rintro rfl
        rw [bitSum_zero,zero_pow two_ne_zero,add_zero] at hsol
        exact hu0 hsol.symm
      have hr1 : r^^^1≠0 := by
        intro hz
        rw [hz,bitSum_zero,zero_pow two_ne_zero,add_zero] at hsol1
        exact hu0 hsol1.symm
      have p0 := pow_deg2 h h1 (hs 1) h2 (hs 2) hr0 hrlt
      have p1 := pow_deg2 h h1 (hs 1) h2 (hs 2) hr1 hr1lt
      constructor
      · rw [List.nodup_cons]
        refine ⟨?_,List.nodup_singleton _⟩
        rw [List.mem_singleton]
        intro he
        rw [he,p1] at p0
        have hcancel := mul_left_cancel₀ hb1 ((div_left_inj' hb2).mp p0)
        rw [bitSum_xor,bitSum_one] at hcancel
        exact one_ne_zero (left_eq_add.mp hcancel.symm)
      · intro l hl
        rw [heval]
        rcases List.mem_cons.mp hl with rfl | hl
        · exact ⟨h.modulo_lt _,by rw [p0]; exact quadratic_root hb1 hb2 hsol⟩
        · rw [List.mem_singleton.mp hl]
          exact ⟨h.modulo_lt _,by rw [p1]; exact quadratic_root hb1 hb2 hsol1⟩
    · rw [if_neg ht]
      refine ⟨Nat.zero_le _,fun hc => absurd hc (by simp),fun S hcard hS0 hS => absurd ?_ ht⟩
      obtain ⟨x,hx⟩ := Finset.card_pos.mp (show 0<S.card by omega)
      have hx0 := hS x hx
      rw [heval] at hx0
      have hred := quadratic_reduce hb1 hx0
      rw [htest,hre,hu,←hred,tr_add,tr_sq (h.prim.frobenius _),CharTwo.add_self_eq_zero,zero_mul,add_zero]
  · rw [if_neg hc]
    refine ⟨Nat.zero_le _,fun hc => absurd hc (by simp),fun S hcard hS0 hS => absurd ?_ hc⟩
    have hc0 := coeff_zero_ne hd hcard hS0 hS
    rw [coeff_listPoly] at hc0
    refine ⟨fun hz => hc0 (by rw [hz,bitSum_zero]),fun hz => ?_⟩
    -- without a linear term there is only one square root
    have hle : S.card≤1 := by
      apply Finset.card_le_one.mpr
      intro x hx y hy
      have hx0 := hS x hx
      have hy0 := hS y hy
      rw [heval,hz,bitSum_zero,zero_mul,add_zero] at hx0 hy0
      have hxy := (CharTwo.add_eq_zero.mp hx0).symm.trans (CharTwo.add_eq_zero.mp hy0)
      have hsq := mul_left_cancel₀ (h.bitSum_ne_zero h2 (hs 2)) hxy
      have : (x+y)^2=0 := by rw [CharTwo.add_sq,hsq,CharTwo.add_self_eq_zero]
      exact CharTwo.add_eq_zero.mp (pow_eq_zero_iff two_ne_zero |>.mp this)
    omega

omit [CharP F 2] [Finite F] in
/-- The monic coefficients of a polynomial of known degree. -/
theorem bitSum_monic (h : FieldTables α bch) (hs : Small bch.m c) (hd : (listPoly α c).degree=d)
    (i : ℕ) :
    gfDiv bch (c.getD i 0) (c.getD d 0)<2^bch.m ∧
      bitSum α (c.getD d 0)*bitSum α (gfDiv bch (c.getD i 0) (c.getD d 0))=bitSum α (c.getD i 0) := by
  have hl := lead_ne hd
  refine ⟨h.gfDiv_lt (hs i) (hs d),?_⟩
  rw [h.bitSum_gfDiv (hs i) hl (hs d),mul_div_cancel₀ _ (h.bitSum_ne_zero hl (hs d))]

omit [CharP F 2] [Finite F] in
/-- The logarithm stored for a root. -/
theorem pow_aIlog_inv (h : FieldTables α bch) {a : ℕ} (h0 : a≠0) (ha : a<2^bch.m) :
    (α^aIlog bch a)⁻¹=bitSum α a := by rw [h.pow_aIlog h0 ha,inv_inv]

omit [Finite F] in
/-- Different nonzero elements have different logarithms. -/
theorem nodup_map_aIlog (h : FieldTables α bch) {L : List ℕ} (hn : L.Nodup)
    (hL : ∀ a ∈ L, a≠0 ∧ a<2^bch.m) : (L.map (aIlog bch)).Nodup := by
  apply List.Nodup.map_on _ hn
  intro a ha b hb he
  obtain ⟨ha0,hal⟩ := hL a ha
  obtain ⟨hb0,hbl⟩ := hL b hb
  apply h.prim.inj hal hbl
  rw [←pow_aIlog_inv h ha0 hal,he,pow_aIlog_inv h hb0 hbl]

omit [Finite F] in
/-- A cubic times a linear factor is affine. -/
theorem cubic_affine (a2 b2 c2 x : F) :
    (x+a2)*(x^3+a2*x^2+b2*x+c2)=affine4 (a2^2+b2) (a2*b2+c2) (a2*c2) x := by
  have h2 : (2 : F)=0 := CharTwo.two_eq_zero
  unfold affine4
  linear_combination a2*x^3*h2

omit [Finite F] in
/-- Three different roots of a cubic add up to its quadratic coefficient. -/
theorem cubic_roots_sum {a2 b2 c2 x y z : F} (hxy : x≠y) (hxz : x≠z) (hyz : y≠z)
    (hx : x^3+a2*x^2+b2*x+c2=0) (hy : y^3+a2*y^2+b2*y+c2=0) (hz : z^3+a2*z^2+b2*z+c2=0) :
    x+y+z=a2 := by
  have h1 : (x-y)*(x^2+x*y+y^2+a2*(x+y)+b2)=0 := by linear_combination hx-hy
  have h2 : (x-z)*(x^2+x*z+z^2+a2*(x+z)+b2)=0 := by linear_combination hx-hz
  have h3 := (mul_eq_zero.mp h1).resolve_left (sub_ne_zero.mpr hxy)
  have h4 := (mul_eq_zero.mp h2).resolve_left (sub_ne_zero.mpr hxz)
  have h5 : (y-z)*(x+y+z+a2)=0 := by linear_combination h3-h4
  have h6 := (mul_eq_zero.mp h5).resolve_left (sub_ne_zero.mpr hyz)
  exact CharTwo.add_eq_zero.mp h6

/-- `find_poly_deg3_roots` is exact. -/
theorem findPolyDeg3Roots_exact (h : FieldTables α bch) (hs : Small bch.m c)
    (hd : (listPoly α c).degree=(3 : ℕ)) :
    ExactRoots α bch.n 3 (listPoly α c) (findPolyDeg3Roots bch c) := by
  classical
  have hl := lead_ne hd
  have hbl := h.bitSum_ne_zero hl (hs 3)
  unfold findPolyDeg3Roots
  by_cases h0 : c.getD 0 0=0
  · rw [if_neg (not_not.mpr h0)]
    refine ⟨Nat.zero_le _,fun hc => absurd hc (by simp),fun S hcard hS0 hS => ?_⟩
    have := coeff_zero_ne hd hcard hS0 hS
    rw [coeff_listPoly,h0,bitSum_zero] at this
    exact absurd rfl this
  · rw [if_pos h0]
    dsimp only
    obtain ⟨hc2,ec2⟩ := bitSum_monic h hs hd 0
    obtain ⟨hb2,eb2⟩ := bitSum_monic h hs hd 1
    obtain ⟨ha2,ea2⟩ := bitSum_monic h hs hd 2
    have heval : ∀ x, (listPoly α c).eval x=bitSum α (c.getD 3 0)*
        (x^3+bitSum α (gfDiv bch (c.getD 2 0) (c.getD 3 0))*x^2+
          bitSum α (gfDiv bch (c.getD 1 0) (c.getD 3 0))*x+bitSum α (gfDiv bch (c.getD 0 0) (c.getD 3 0))) := by
      intro x
      rw [eval_listPoly hd,Finset.sum_range_succ,Finset.sum_range_succ,Finset.sum_range_succ,
        Finset.sum_range_one,←ec2,←eb2,←ea2]
      ring
    have hc20 : bitSum α (gfDiv bch (c.getD 0 0) (c.getD 3 0))≠0 := by
      intro hz
      rw [hz,mul_zero] at ec2
      exact h.bitSum_ne_zero h0 (hs 0) ec2.symm
    clear ec2 eb2 ea2
    generalize gfDiv bch (c.getD 0 0) (c.getD 3 0)=c2 at hc2 hc20 heval ⊢
    generalize gfDiv bch (c.getD 1 0) (c.getD 3 0)=b2 at hb2 heval ⊢
    generalize gfDiv bch (c.getD 2 0) (c.getD 3 0)=a2 at ha2 heval ⊢
    have hspec := findAffine4Roots_spec (a := gfSqr bch a2^^^b2) (b := gfMul bch a2 b2^^^c2)
      (c := gfMul bch a2 c2) h (Nat.xor_lt_two_pow (h.gfSqr_lt ha2) hb2)
      (Nat.xor_lt_two_pow (h.gfMul_lt ha2 hb2) hc2) (h.gfMul_lt ha2 hc2)
    rw [bitSum_xor,bitSum_xor,h.bitSum_gfSqr ha2,h.bitSum_gfMul ha2 hb2,h.bitSum_gfMul ha2 hc2] at hspec
    simp only [←cubic_affine] at hspec
    generalize findAffine4Roots bch (gfSqr bch a2^^^b2) (gfMul bch a2 b2^^^c2) (gfMul bch a2 c2)=L at hspec ⊢
    rcases hspec with ⟨hlen,hnd,hmem⟩ | ⟨rfl,hnone⟩
    · have ha2L : a2 ∈ L := (hmem a2).mpr ⟨ha2,by rw [CharTwo.add_self_eq_zero,zero_mul]⟩
      have hfilter : (L.filter (·≠a2)).length=3 := by
        have he := List.length_erase_of_mem ha2L
        have hfun : (fun s : ℕ => decide (s≠a2))=(·!=a2) := by
          funext s
          by_cases hsa : s=a2 <;> simp [hsa]
        rw [hnd.erase_eq_filter,hlen] at he
        rw [hfun,he]
      have hroot : ∀ s ∈ L.filter (·≠a2), (s≠0 ∧ s<2^bch.m) ∧ (listPoly α c).eval (bitSum α s)=0 := by
        intro s hsL
        obtain ⟨hsL,hne⟩ := List.mem_filter.mp hsL
        obtain ⟨hlt,hz⟩ := (hmem s).mp hsL
        have hcub := (mul_eq_zero.mp hz).resolve_left (by
          intro hz'
          exact of_decide_eq_true hne (h.prim.inj hlt ha2 (CharTwo.add_eq_zero.mp hz')))
        refine ⟨⟨?_,hlt⟩,by rw [heval,hcub,mul_zero]⟩
        rintro rfl
        rw [bitSum_zero,zero_pow three_ne_zero,zero_pow two_ne_zero,mul_zero,mul_zero,zero_add,zero_add,
          zero_add] at hcub
        exact hc20 hcub
      rw [if_pos hlen]
      have hmaplen : ((L.filter (·≠a2)).map (aIlog bch)).length=3 := by rw [List.length_map,hfilter]
      refine ⟨hmaplen.le,fun _ => ⟨?_,?_⟩,fun _ _ _ _ => hmaplen⟩
      · exact nodup_map_aIlog h (hnd.filter _) fun s hsL => (hroot s hsL).1
      · intro l hlL
        obtain ⟨s,hsL,rfl⟩ := List.mem_map.mp hlL
        obtain ⟨⟨hs0,hslt⟩,hev⟩ := hroot s hsL
        exact ⟨h.aIlog_lt s,by rw [pow_aIlog_inv h hs0 hslt]; exact hev⟩
    · rw [if_neg (by simp)]
      refine ⟨Nat.zero_le _,fun hc => absurd hc (by simp),fun S hcard hS0 hS => ?_⟩
      have hcub : ∀ x ∈ S, x^3+bitSum α a2*x^2+bitSum α b2*x+bitSum α c2=0 := by
        intro x hx
        have := hS x hx
        rw [heval] at this
        exact (mul_eq_zero.mp this).resolve_left hbl
      -- the added root is not one of the three
      have hnot : bitSum α a2 ∉ S := by
        intro hin
        obtain ⟨x,y,z,hxy,hxz,hyz,rfl⟩ := Finset.card_eq_three.mp hcard
        have hsum := cubic_roots_sum hxy hxz hyz (hcub x (by simp)) (hcub y (by simp)) (hcub z (by simp))
        rw [←hsum,Finset.mem_insert,Finset.mem_insert,Finset.mem_singleton] at hin
        have hadd : ∀ u v w : F, u+v+w=u → v=w := by
          intro u v w he
          rw [add_assoc] at he
          exact CharTwo.add_eq_zero.mp (add_eq_left.mp he)
        rcases hin with he | he | he
        · exact hyz (hadd x y z he)
        · exact hxz (hadd y x z (by rw [add_comm y x]; exact he))
        · exact hxy (hadd z x y (by rw [add_assoc,add_comm]; exact he))
      obtain ⟨x,hx,hne⟩ := hnone (insert (bitSum α a2) S) (by rw [Finset.card_insert_of_notMem hnot,hcard])
      rcases Finset.mem_insert.mp hx with rfl | hx
      · exact absurd (by rw [CharTwo.add_self_eq_zero,zero_mul]) hne
      · exact absurd (by rw [hcub x hx,mul_zero]) hne

omit [Finite F] in
/-- The quartic around the point `e`, where its linear term vanishes. -/
theorem quartic_shift {a b c d e : F} (he : a*e^2=c) (x : F) :
    x^4+a*x^3+b*x^2+c*x+d=(x+e)^4+a*(x+e)^3+(a*e+b)*(x+e)^2+(e^4+b*e^2+d) := by
  have h2 : (2 : F)=0 := CharTwo.two_eq_zero
  subst he
  linear_combination -(e^4+b*e^2+2*a*e*x^2+2*a*e^2*x+a*e^3+b*e*x+2*x^3*e+3*x^2*e^2+2*x*e^3)*h2

omit [CharP F 2] [Finite F] in
/-- Reversing a quartic without a linear term makes it affine. -/
theorem quartic_reverse {a b d y : F} (hd : d≠0) (hy : y≠0) :
    y^4+a*y^3+b*y^2+d=d*y^4*affine4 (b/d) (a/d) d⁻¹ y⁻¹ := by
  unfold affine4
  field_simp
  ring

omit [Finite F] in
/-- The affine polynomial that the finder of degree four solves, and how
its roots are mapped back. -/
theorem deg4Affine_spec (h : FieldTables α bch) {a b c d : ℕ} (ha : a<2^bch.m) (hb : b<2^bch.m)
    (hc : c<2^bch.m) (hd : d<2^bch.m) :
    (deg4Affine bch a b c d=none → ∀ S : Finset F, S.card=4 → ∃ x ∈ S,
      x^4+bitSum α a*x^3+bitSum α b*x^2+bitSum α c*x+bitSum α d≠0) ∧
    ∀ a2 b2 c2 e, deg4Affine bch a b c d=some (a2,b2,c2,e) → bitSum α d≠0 →
      (a2<2^bch.m ∧ b2<2^bch.m ∧ c2<2^bch.m ∧ e<2^bch.m ∧ bitSum α c2≠0) ∧ ∀ y : F,
        (affine4 (bitSum α a2) (bitSum α b2) (bitSum α c2) y=0 ↔
          ((if a≠0 then y⁻¹ else y)+bitSum α e)^4+bitSum α a*((if a≠0 then y⁻¹ else y)+bitSum α e)^3+
            bitSum α b*((if a≠0 then y⁻¹ else y)+bitSum α e)^2+
            bitSum α c*((if a≠0 then y⁻¹ else y)+bitSum α e)+bitSum α d=0) := by
  classical
  unfold deg4Affine
  by_cases ha0 : a=0
  · rw [if_neg (not_not.mpr ha0)]
    refine ⟨fun hn => absurd hn (by simp),?_⟩
    rintro a2 b2 c2 e he hd0
    cases he
    refine ⟨⟨hb,hc,hd,Nat.two_pow_pos _,hd0⟩,fun y => ?_⟩
    rw [if_neg (not_not.mpr ha0),ha0,bitSum_zero,add_zero,zero_mul,add_zero,affine4]
  · rw [if_pos ha0]
    have hba := h.bitSum_ne_zero ha0 ha
    have hnodd : bch.n%2=1 := by
      have hm := h.range
      have hp : 2^bch.m=2*2^(bch.m-1) := by rw [←pow_succ']; congr 1; omega
      rw [h.n_eq,hp]
      omega
    set f := gfDiv bch c a with hf
    have hflt : f<2^bch.m := h.gfDiv_lt hc ha
    have hfb : bitSum α f=bitSum α c/bitSum α a := h.bitSum_gfDiv hc ha0 ha
    -- an even logarithm of `f`
    set l := aLog bch f+(if aLog bch f&&&1≠0 then bch.n else 0) with hl
    have hleven : l%2=0 := by
      rw [hl,Nat.and_one_is_mod]
      split <;> omega
    have hlpow : f≠0 → α^l=bitSum α f := by
      intro hf0
      rw [hl]
      split
      · rw [pow_add,h.pow_n,mul_one,h.pow_aLog hf0 hflt]
      · rw [add_zero,h.pow_aLog hf0 hflt]
    set e := if c≠0 then aPow bch (l/2) else 0 with he
    have helt : e<2^bch.m := by
      rw [he]
      split
      · exact h.aPow_lt _
      · exact Nat.two_pow_pos _
    have hf0 : c≠0 → f≠0 := by
      intro hc0 hz
      rw [hz,bitSum_zero] at hfb
      exact div_ne_zero (h.bitSum_ne_zero hc0 hc) hba hfb.symm
    have hesq : bitSum α e^2=bitSum α f := by
      rw [he]
      by_cases hc0 : c=0
      · rw [if_neg (not_not.mpr hc0),hfb,hc0,bitSum_zero,zero_div,zero_pow two_ne_zero]
      · rw [if_pos hc0,h.bitSum_aPow,←pow_mul,show l/2*2=l by omega,hlpow (hf0 hc0)]
    have hce : bitSum α a*bitSum α e^2=bitSum α c := by rw [hesq,hfb,mul_div_cancel₀ _ hba]
    set d' := if c≠0 then aPow bch (2*l)^^^gfMul bch b f^^^d else d with hd'
    have hd'lt : d'<2^bch.m := by
      rw [hd']
      split
      · exact Nat.xor_lt_two_pow (Nat.xor_lt_two_pow (h.aPow_lt _) (h.gfMul_lt hb hflt)) hd
      · exact hd
    have hd'b : bitSum α d'=bitSum α e^4+bitSum α b*bitSum α e^2+bitSum α d := by
      rw [show bitSum α e^4=(bitSum α e^2)^2 by ring,hesq,hd']
      by_cases hc0 : c=0
      · rw [if_neg (not_not.mpr hc0),hfb,hc0,bitSum_zero,zero_div,zero_pow two_ne_zero,mul_zero,zero_add,
          zero_add]
      · rw [if_pos hc0,bitSum_xor,bitSum_xor,h.bitSum_aPow,h.bitSum_gfMul hb hflt,Nat.mul_comm 2,pow_mul,
          hlpow (hf0 hc0)]
    set b' := if c≠0 then gfMul bch a e^^^b else b with hb'
    have hb'lt : b'<2^bch.m := by
      rw [hb']
      split
      · exact Nat.xor_lt_two_pow (h.gfMul_lt ha helt) hb
      · exact hb
    have hb'b : bitSum α b'=bitSum α a*bitSum α e+bitSum α b := by
      rw [hb']
      by_cases hc0 : c=0
      · rw [if_neg (not_not.mpr hc0),he,if_neg (not_not.mpr hc0),bitSum_zero,mul_zero,zero_add]
      · rw [if_pos hc0,bitSum_xor,h.bitSum_gfMul ha helt]
    have hshift := fun x => quartic_shift (b := bitSum α b) (d := bitSum α d) hce x
    rw [←hd'b,←hb'b] at hshift
    by_cases hd0 : d'=0
    · rw [if_pos hd0]
      refine ⟨fun _ S hcard => ?_,fun _ _ _ _ hs => absurd hs (by simp)⟩
      by_contra hcon
      push Not at hcon
      -- the shifted quartic has a double root at zero
      have hle := card_le_of_roots (d := 3) (P := X^3+C (bitSum α a)*X^2+C (bitSum α b')*X)
        (by compute_degree!) (S.image (·+bitSum α e)) (by
          intro y hy
          obtain ⟨x,hx,rfl⟩ := Finset.mem_image.mp hy
          have hx0 := hcon x hx
          rw [hshift,hd0,bitSum_zero,add_zero] at hx0
          have hmul : (x+bitSum α e)*((x+bitSum α e)^3+bitSum α a*(x+bitSum α e)^2+
              bitSum α b'*(x+bitSum α e))=0 := by
            rw [←hx0]
            ring
          simp only [eval_add,eval_mul,eval_pow,eval_X,eval_C]
          rcases mul_eq_zero.mp hmul with hz | hz
          · rw [hz]
            ring
          · exact hz)
      rw [Finset.card_image_of_injective _ (add_left_injective _)] at hle
      omega
    · rw [if_neg hd0]
      refine ⟨fun hn => absurd hn (by simp),?_⟩
      rintro a2 b2 c2 e' hsome hdne
      cases hsome
      have hbd := h.bitSum_ne_zero hd0 hd'lt
      refine ⟨⟨h.gfDiv_lt hb'lt hd'lt,h.gfDiv_lt ha hd'lt,h.gfInv_lt _,helt,?_⟩,fun y => ?_⟩
      · rw [h.bitSum_gfInv hd0 hd'lt]
        exact inv_ne_zero hbd
      by_cases hy : y=0
      · rw [hy,if_pos ha0,inv_zero,zero_add,hshift,CharTwo.add_self_eq_zero,affine4,h.bitSum_gfInv hd0 hd'lt]
        simp [hbd]
      · rw [h.bitSum_gfDiv hb'lt hd0 hd'lt,h.bitSum_gfDiv ha hd0 hd'lt,h.bitSum_gfInv hd0 hd'lt,if_pos ha0,
          hshift,add_assoc y⁻¹,CharTwo.add_self_eq_zero,add_zero,quartic_reverse hbd (inv_ne_zero hy),inv_inv,
          mul_eq_zero,or_iff_right (mul_ne_zero hbd (pow_ne_zero 4 (inv_ne_zero hy)))]

/-- `find_poly_deg4_roots` is exact. -/
theorem findPolyDeg4Roots_exact (h : FieldTables α bch) (hs : Small bch.m c)
    (hd : (listPoly α c).degree=(4 : ℕ)) :
    ExactRoots α bch.n 4 (listPoly α c) (findPolyDeg4Roots bch c) := by
  classical
  have hl := lead_ne hd
  have hbl := h.bitSum_ne_zero hl (hs 4)
  unfold findPolyDeg4Roots
  by_cases h0 : c.getD 0 0=0
  · rw [if_pos h0]
    refine ⟨Nat.zero_le _,fun hc => absurd hc (by simp),fun S hcard hS0 hS => ?_⟩
    have := coeff_zero_ne hd hcard hS0 hS
    rw [coeff_listPoly,h0,bitSum_zero] at this
    exact absurd rfl this
  · rw [if_neg h0]
    dsimp only
    obtain ⟨hdlt,ed⟩ := bitSum_monic h hs hd 0
    obtain ⟨hclt,ec⟩ := bitSum_monic h hs hd 1
    obtain ⟨hblt,eb⟩ := bitSum_monic h hs hd 2
    obtain ⟨halt,ea⟩ := bitSum_monic h hs hd 3
    have heval : ∀ x, (listPoly α c).eval x=bitSum α (c.getD 4 0)*
        (x^4+bitSum α (gfDiv bch (c.getD 3 0) (c.getD 4 0))*x^3+
          bitSum α (gfDiv bch (c.getD 2 0) (c.getD 4 0))*x^2+
          bitSum α (gfDiv bch (c.getD 1 0) (c.getD 4 0))*x+bitSum α (gfDiv bch (c.getD 0 0) (c.getD 4 0))) := by
      intro x
      rw [eval_listPoly hd,Finset.sum_range_succ,Finset.sum_range_succ,Finset.sum_range_succ,
        Finset.sum_range_succ,Finset.sum_range_one,←ed,←ec,←eb,←ea]
      ring
    have hd0 : bitSum α (gfDiv bch (c.getD 0 0) (c.getD 4 0))≠0 := by
      intro hz
      rw [hz,mul_zero] at ed
      exact h.bitSum_ne_zero h0 (hs 0) ed.symm
    clear ed ec eb ea
    generalize gfDiv bch (c.getD 0 0) (c.getD 4 0)=d at hdlt hd0 heval ⊢
    generalize gfDiv bch (c.getD 1 0) (c.getD 4 0)=c1 at hclt heval ⊢
    generalize gfDiv bch (c.getD 2 0) (c.getD 4 0)=b at hblt heval ⊢
    generalize gfDiv bch (c.getD 3 0) (c.getD 4 0)=a at halt heval ⊢
    obtain ⟨hnone,hsome⟩ := deg4Affine_spec h halt hblt hclt hdlt
    have hquartic : ∀ S : Finset F, (∀ x ∈ S, (listPoly α c).eval x=0) → ∀ x ∈ S,
        x^4+bitSum α a*x^3+bitSum α b*x^2+bitSum α c1*x+bitSum α d=0 := by
      intro S hS x hx
      have := hS x hx
      rw [heval] at this
      exact (mul_eq_zero.mp this).resolve_left hbl
    cases haff : deg4Affine bch a b c1 d with
    | none =>
      refine ⟨Nat.zero_le _,fun hc => absurd hc (by simp),fun S hcard hS0 hS => ?_⟩
      obtain ⟨x,hx,hne⟩ := hnone haff S hcard
      exact absurd (hquartic S hS x hx) hne
    | some p =>
      obtain ⟨a2,b2,c2,e⟩ := p
      obtain ⟨⟨ha2,hb2,hc2,he,hc20⟩,hiff⟩ := hsome a2 b2 c2 e haff hd0
      dsimp only
      have hspec := findAffine4Roots_spec h ha2 hb2 hc2
      generalize findAffine4Roots bch a2 b2 c2=L at hspec ⊢
      rcases hspec with ⟨hlen,hnd,hmem⟩ | ⟨rfl,hempty⟩
      · rw [if_pos hlen]
        -- what is stored for a solution `r`
        have hval : ∀ r ∈ L, ((if a≠0 then gfInv bch r else r)^^^e<2^bch.m ∧
            (if a≠0 then gfInv bch r else r)^^^e≠0) ∧
            bitSum α ((if a≠0 then gfInv bch r else r)^^^e)=
              (if a≠0 then (bitSum α r)⁻¹ else bitSum α r)+bitSum α e ∧
            (listPoly α c).eval ((if a≠0 then (bitSum α r)⁻¹ else bitSum α r)+bitSum α e)=0 := by
          intro r hrL
          obtain ⟨hrlt,hrz⟩ := (hmem r).mp hrL
          have hr0 : r≠0 := by
            rintro rfl
            rw [affine4,bitSum_zero,zero_pow four_ne_zero,zero_pow two_ne_zero,mul_zero,mul_zero,zero_add,
              zero_add,zero_add] at hrz
            exact hc20 hrz
          have hb : bitSum α ((if a≠0 then gfInv bch r else r)^^^e)=
              (if a≠0 then (bitSum α r)⁻¹ else bitSum α r)+bitSum α e := by
            rw [bitSum_xor]
            split
            · rw [h.bitSum_gfInv hr0 hrlt]
            · rfl
          have hroot := (hiff (bitSum α r)).mp hrz
          refine ⟨⟨Nat.xor_lt_two_pow (by split; exact h.gfInv_lt _; exact hrlt) he,?_⟩,hb,?_⟩
          · intro hz
            rw [hz,bitSum_zero] at hb
            rw [←hb,zero_pow four_ne_zero,zero_pow three_ne_zero,zero_pow two_ne_zero,mul_zero,mul_zero,mul_zero,
              zero_add,zero_add,zero_add,zero_add] at hroot
            exact hd0 hroot
          · rw [heval,hroot,mul_zero]
        have hmaplen : (L.map fun r => aIlog bch ((if a≠0 then gfInv bch r else r)^^^e)).length=4 := by
          rw [List.length_map,hlen]
        refine ⟨hmaplen.le,fun _ => ⟨?_,?_⟩,fun _ _ _ _ => hmaplen⟩
        · apply List.Nodup.map_on _ hnd
          intro r hr s hs hrs
          obtain ⟨⟨hr1,hr2⟩,hr3,-⟩ := hval r hr
          obtain ⟨⟨hs1,hs2⟩,hs3,-⟩ := hval s hs
          have heq := congrArg (fun l => (α^l)⁻¹) hrs
          rw [pow_aIlog_inv h hr2 hr1,pow_aIlog_inv h hs2 hs1,hr3,hs3] at heq
          apply h.prim.inj ((hmem r).mp hr).1 ((hmem s).mp hs).1
          have hcan := add_right_cancel heq
          split at hcan
          · exact inv_injective hcan
          · exact hcan
        · intro l hlL
          obtain ⟨r,hrL,rfl⟩ := List.mem_map.mp hlL
          obtain ⟨⟨hr1,hr2⟩,hr3,hr4⟩ := hval r hrL
          refine ⟨h.aIlog_lt _,?_⟩
          rw [pow_aIlog_inv h hr2 hr1,hr3]
          exact hr4
      · rw [if_neg (by simp)]
        refine ⟨Nat.zero_le _,fun hc => absurd hc (by simp),fun S hcard hS0 hS => ?_⟩
        set back : F → F := fun x => if a≠0 then (x+bitSum α e)⁻¹ else x+bitSum α e with hback
        have hinj : Function.Injective back := by
          intro x y hxy
          simp only [hback] at hxy
          split at hxy
          · exact add_right_cancel (inv_injective hxy)
          · exact add_right_cancel hxy
        obtain ⟨y,hy,hne⟩ := hempty (S.image back) (by rw [Finset.card_image_of_injective _ hinj,hcard])
        obtain ⟨x,hx,rfl⟩ := Finset.mem_image.mp hy
        have hx' : (if a≠0 then (back x)⁻¹ else back x)+bitSum α e=x := by
          simp only [hback]
          split
          · rw [inv_inv,add_assoc,CharTwo.add_self_eq_zero,add_zero]
          · rw [add_assoc,CharTwo.add_self_eq_zero,add_zero]
        exact absurd ((hiff (back x)).mpr (by rw [hx']; exact hquartic S hS x hx)) hne

end ArdroneKernel.BchSmallDegree
