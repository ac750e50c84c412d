import ArdroneKernel.BchDivision

/-!
# Factoring by traces

`find_poly_roots` keeps a polynomial and its factors in one array. The
first part of this module shows that the in-place recursion computes what
the same recursion on separate polynomials computes, whatever the array
holds elsewhere. The second part follows the recursion over the field. It
is right as long as no polynomial is split by a trace polynomial that is
coprime to it; polynomials that are products of different linear factors
are always split correctly and down to the last factor.
-/

namespace ArdroneKernel.BchFactor

open Polynomial PrimitiveElement ArrayList BchInit BchField BchDecode BchPolynomial BchTables
  BchSmallDegree BchDivision

variable {bch : BchControl}

section Storage

theorem length_storeWords {mem ws : List ℕ} {o : ℕ} (h : o+ws.length≤ mem.length) :
    (storeWords mem o ws).length=mem.length := by
  simp only [storeWords,List.length_append,List.length_take,List.length_drop]
  omega

theorem getD_storeWords {mem ws : List ℕ} {o : ℕ} (h : o+ws.length≤ mem.length) (i : ℕ) :
    (storeWords mem o ws).getD i 0=if o≤ i ∧ i<o+ws.length then ws.getD (i-o) 0 else mem.getD i 0 := by
  have hlen : (mem.take o).length=o := by
    rw [List.length_take]
    omega
  unfold storeWords
  rw [List.append_assoc]
  by_cases h1 : i<o
  · rw [List.getD_append _ _ _ _ (by omega),getD_take _ _ h1,if_neg (by omega)]
  · rw [List.getD_append_right _ _ _ _ (by omega),hlen]
    by_cases h2 : i<o+ws.length
    · rw [List.getD_append _ _ _ _ (by omega),if_pos (by omega)]
    · rw [List.getD_append_right _ _ _ _ (by omega),getD_drop,if_neg (by omega)]
      congr 1
      omega

/-- Two arrays that differ at most in the cells from `o` up to `o+k`. -/
def SameOutside (o k : ℕ) (mem mem' : List ℕ) : Prop :=
  mem'.length=mem.length ∧ ∀ i, ¬(o≤ i ∧ i<o+k) → mem'.getD i 0=mem.getD i 0

theorem SameOutside.refl (o k : ℕ) (mem : List ℕ) : SameOutside o k mem mem := ⟨rfl,fun _ _ => rfl⟩

theorem SameOutside.trans {o k : ℕ} {mem mem' mem'' : List ℕ} (h : SameOutside o k mem mem')
    (h' : SameOutside o k mem' mem'') : SameOutside o k mem mem'' :=
  ⟨h'.1.trans h.1,fun i hi => (h'.2 i hi).trans (h.2 i hi)⟩

theorem SameOutside.mono {o k o' k' : ℕ} {mem mem' : List ℕ} (h : SameOutside o k mem mem') (ho : o'≤o)
    (hk : o+k≤o'+k') : SameOutside o' k' mem mem' :=
  ⟨h.1,fun i hi => h.2 i (by omega)⟩

theorem sameOutside_storeWords {mem ws : List ℕ} {o k : ℕ} (h : o+ws.length≤ mem.length)
    (hk : ws.length≤k) : SameOutside o k mem (storeWords mem o ws) :=
  ⟨length_storeWords h,fun i hi => by rw [getD_storeWords h,if_neg (by omega)]⟩

/-- A polynomial is loaded from its own cells. -/
theorem loadPoly_congr {mem mem' : List ℕ} {o : ℕ} (hl : mem'.length=mem.length)
    (h : ∀ i, o≤ i → i<o+((loadPoly mem o).deg+2) → mem'.getD i 0=mem.getD i 0) :
    loadPoly mem' o=loadPoly mem o := by
  have hd : mem'.getD o 0=mem.getD o 0 := h o le_rfl (by omega)
  unfold loadPoly
  rw [hd]
  congr 1
  apply ext_getD 0
  · simp only [List.length_take,List.length_drop,hl]
  · intro i hi
    have hi' : i< mem.getD o 0+1 := lt_of_lt_of_le hi (List.length_take_le _ _)
    rw [getD_take _ _ hi',getD_take _ _ hi',getD_drop,getD_drop]
    exact h _ (by omega) (by change o+1+i<o+(mem.getD o 0+2); omega)

theorem wellFormed_loadPoly {mem : List ℕ} {o : ℕ} (h : o+(loadPoly mem o).deg+2≤ mem.length) :
    (loadPoly mem o).c.length=(loadPoly mem o).deg+1 := by
  have hle : o+mem.getD o 0+2≤ mem.length := h
  change ((mem.drop (o+1)).take (mem.getD o 0+1)).length=mem.getD o 0+1
  rw [List.length_take,List.length_drop]
  omega

/-- What is stored is loaded. -/
theorem loadPoly_storePoly {mem : List ℕ} {o : ℕ} {p : GfPoly} (hp : WellFormed p)
    (h : o+p.deg+2≤ mem.length) : loadPoly (storePoly mem o p) o=⟨p.deg,p.c.take (p.deg+1)⟩ := by
  have hwf : p.deg<p.c.length := hp
  have hlen : (p.deg::p.c.take (p.deg+1)).length=p.deg+2 := by
    rw [List.length_cons,List.length_take]
    omega
  have hg := fun i => @getD_storeWords mem (p.deg::p.c.take (p.deg+1)) o (by omega) i
  have hd : (storePoly mem o p).getD o 0=p.deg := by
    rw [storePoly,hg,if_pos (by omega),Nat.sub_self]
    rfl
  unfold loadPoly
  rw [hd]
  congr 1
  apply ext_getD 0
  · rw [List.length_take,List.length_drop,storePoly,length_storeWords (by omega),List.length_take]
    omega
  · intro i hi
    have hi' : i<p.deg+1 := lt_of_lt_of_le hi (List.length_take_le _ _)
    rw [getD_take _ _ hi',getD_drop,storePoly,hg,if_pos (by omega),show o+1+i-o=i+1 by omega]
    rfl

end Storage

section Recursion

/-- `factor_polynomial` on a polynomial of its own. -/
def factorSplit (bch : BchControl) (k : ℕ) (f : GfPoly) : Option (GfPoly×GfPoly) :=
  let tk := computeTraceBkMod bch k f
  if 0<tk.deg then
    let gcd := gfPolyGcd bch f tk
    if gcd.deg<f.deg then some (⟨gcd.deg,gcd.c.take (gcd.deg+1)⟩,(gfPolyDiv bch f gcd).1) else none
  else none

/-- `find_poly_roots` on polynomials of their own. -/
def polyRoots (bch : BchControl) : ℕ → ℕ → GfPoly → List ℕ
  | 0,_,_ => []
  | fuel+1,k,f =>
    match f.deg with
    | 1 => findPolyDeg1Roots bch f.c
    | 2 => findPolyDeg2Roots bch f.c
    | 3 => findPolyDeg3Roots bch f.c
    | 4 => findPolyDeg4Roots bch f.c
    | 0 => []
    | _ =>
      if k≤bch.m then
        match factorSplit bch k f with
        | some (g,q) => polyRoots bch fuel (k+1) g++polyRoots bch fuel (k+1) q
        | none => polyRoots bch fuel (k+1) f
      else []

theorem polyRoots_factor {fuel k : ℕ} {f : GfPoly} (hd : 5≤f.deg) : polyRoots bch (fuel+1) k f=
    if k≤bch.m then
      match factorSplit bch k f with
      | some (g,q) => polyRoots bch fuel (k+1) g++polyRoots bch fuel (k+1) q
      | none => polyRoots bch fuel (k+1) f
    else [] := by
  rw [polyRoots]
  split <;> first | omega | rfl

/-- The shape of the factors of a split. -/
theorem factorSplit_shape {k : ℕ} {f g q : GfPoly} (hwf : f.c.length=f.deg+1) (hd : 1≤f.deg)
    (h : factorSplit bch k f=some (g,q)) :
    0<g.deg ∧ g.deg<f.deg ∧ g.deg+q.deg=f.deg ∧ g.c.length=g.deg+1 ∧ q.c.length=q.deg+1 := by
  obtain ⟨htk,htd,-⟩ := @computeTraceBkMod_shape bch k f (by omega)
  unfold factorSplit at h
  dsimp only at h
  split at h
  · split at h
    · next hlt =>
      have hwff : WellFormed f := by
        change f.deg<f.c.length
        omega
      have hgcd : WellFormed (gfPolyGcd bch f (computeTraceBkMod bch k f)) ∧
          0<(gfPolyGcd bch f (computeTraceBkMod bch k f)).deg := by
        unfold gfPolyGcd
        rw [if_neg (by omega)]
        obtain ⟨h1,h2,-⟩ := @gcdLoop_shape bch ((computeTraceBkMod bch k f).deg+1) _ _ hwff htk (by omega)
          htd
        exact ⟨h1,h2⟩
      obtain ⟨hw,hpos⟩ := hgcd
      generalize gfPolyGcd bch f (computeTraceBkMod bch k f)=G at h hlt hw hpos
      have hw' : G.deg<G.c.length := hw
      obtain ⟨hl,-,-,-⟩ := @gfPolyMod_shape bch _ _ hwff hpos
      unfold gfPolyDiv at h
      rw [if_pos hlt.le] at h
      cases h
      refine ⟨hpos,hlt,?_,?_,?_⟩
      · change G.deg+(f.deg-G.deg)=f.deg
        omega
      · change (G.c.take (G.deg+1)).length=G.deg+1
        rw [List.length_take]
        omega
      · change (((gfPolyMod bch f G).c.drop G.deg).take (1+(f.deg-G.deg))).length=f.deg-G.deg+1
        rw [List.length_take,List.length_drop,hl,hwf]
        omega
    · cases h
  · cases h

/-- `factor_polynomial` without a split leaves everything as it is. -/
theorem factorPolynomial_none {k : ℕ} {mem : List ℕ} {o : ℕ}
    (h : factorSplit bch k (loadPoly mem o)=none) : factorPolynomial bch k mem o=(mem,none) := by
  unfold factorSplit at h
  unfold factorPolynomial
  dsimp only at h ⊢
  split at h
  · next h1 =>
    rw [if_pos h1]
    split at h
    · cases h
    · next h2 => rw [if_neg h2]
  · next h1 => rw [if_neg h1]

/-- `factor_polynomial` stores the two factors in different parts of the
cells of the polynomial. -/
theorem factorPolynomial_some {k : ℕ} {mem : List ℕ} {o : ℕ} {g q : GfPoly}
    (hd : 1≤(loadPoly mem o).deg) (hfit : o+3*(loadPoly mem o).deg≤ mem.length)
    (h : factorSplit bch k (loadPoly mem o)=some (g,q)) :
    ∃ mem', factorPolynomial bch k mem o=(mem',some (o+3*g.deg)) ∧
      SameOutside o (3*(loadPoly mem o).deg) mem mem' ∧ loadPoly mem' o=g ∧ loadPoly mem' (o+3*g.deg)=q := by
  have hwf := @wellFormed_loadPoly mem o (by omega)
  obtain ⟨hg0,hgd,hsum,hgl,hql⟩ := factorSplit_shape hwf hd h
  generalize hf : loadPoly mem o=f at h hd hfit hwf hgd hsum ⊢
  unfold factorSplit at h
  unfold factorPolynomial
  dsimp only at h ⊢
  rw [hf]
  split at h
  · next h1 =>
    rw [if_pos h1]
    split at h
    · next h2 =>
      rw [if_pos h2]
      generalize hG : gfPolyGcd bch f (computeTraceBkMod bch k f)=G at h h2 ⊢
      obtain ⟨h3,h4⟩ := Prod.mk.inj (Option.some.inj h)
      have hGd : G.deg=g.deg := by rw [←h3]
      have hr : (gfPolyDiv bch f G).2.c.length=f.deg+1 := by
        unfold gfPolyDiv
        rw [if_pos h2.le]
        have hl := (@gfPolyMod_shape bch f G (by change f.deg<f.c.length; omega) (by omega)).1
        exact hl.trans hwf
      rw [hGd,h4]
      generalize (gfPolyDiv bch f G).2=r at hr
      have hrl : (r.deg::r.c).length=f.deg+2 := by rw [List.length_cons,hr]
      have s1 := @sameOutside_storeWords mem (r.deg::r.c) o (3*f.deg) (by omega) (by omega)
      generalize storeWords mem o (r.deg::r.c)=mem1 at s1 ⊢
      have hl1 := s1.1
      have hGwf : WellFormed G := by
        have hcl := congrArg (fun p => p.c.length) h3
        rw [List.length_take,hgl] at hcl
        change G.deg<G.c.length
        omega
      have hGl : (G.deg::G.c.take (G.deg+1)).length=g.deg+2 := by
        rw [List.length_cons,List.length_take]
        have : G.deg<G.c.length := hGwf
        omega
      have s2 := @sameOutside_storeWords mem1 (G.deg::G.c.take (G.deg+1)) o (3*f.deg)
        (by omega) (by omega)
      have l2 := @loadPoly_storePoly mem1 o _ hGwf (by omega)
      change SameOutside o (3*f.deg) mem1 (storePoly mem1 o G) at s2
      rw [h3] at l2
      generalize storePoly mem1 o G=mem2 at s2 l2 ⊢
      have hl2 := s2.1
      have hqwf : WellFormed q := by
        change q.deg<q.c.length
        omega
      have hqt : q.c.take (q.deg+1)=q.c := List.take_of_length_le (by omega)
      have hqlen : (q.deg::q.c.take (q.deg+1)).length=q.deg+2 := by rw [hqt,List.length_cons,hql]
      have s3 := @sameOutside_storeWords mem2 (q.deg::q.c.take (q.deg+1))
        (o+3*g.deg) (q.deg+2) (by omega) (by omega)
      have l3 := @loadPoly_storePoly mem2 (o+3*g.deg) _ hqwf (by omega)
      rw [hqt] at l3
      -- the second factor starts behind the first one
      have hkeep : loadPoly (storePoly mem2 (o+3*g.deg) q) o=loadPoly mem2 o := by
        apply loadPoly_congr s3.1
        intro i hi hlt
        rw [l2] at hlt
        exact s3.2 i (by omega)
      exact ⟨_,rfl,(s1.trans s2).trans (s3.mono (by omega) (by omega)),hkeep.trans l2,l3⟩
    · cases h
  · cases h

theorem findPolyRoots_factor {fuel k o : ℕ} {mem : List ℕ} (hd : 5≤(loadPoly mem o).deg) :
    findPolyRoots bch (fuel+1) k mem o=
      if k≤bch.m then
        let (mem,h) := factorPolynomial bch k mem o
        let (mem,roots) := findPolyRoots bch fuel (k+1) mem o
        match h with
        | some o2 =>
          let (mem,more) := findPolyRoots bch fuel (k+1) mem o2
          (mem,roots++more)
        | none => (mem,roots)
      else (mem,[]) := by
  rw [findPolyRoots]
  split <;> first | omega | rfl

/-- The recursion in place finds what the recursion on separate
polynomials finds, and does not touch cells outside its own. -/
theorem findPolyRoots_eq (fuel k : ℕ) (mem : List ℕ) (o : ℕ) (hfit : o+3*(loadPoly mem o).deg≤ mem.length) :
    (findPolyRoots bch fuel k mem o).2=polyRoots bch fuel k (loadPoly mem o) ∧
      SameOutside o (3*(loadPoly mem o).deg) mem (findPolyRoots bch fuel k mem o).1 := by
  induction fuel generalizing k mem o with
  | zero => exact ⟨rfl,SameOutside.refl _ _ _⟩
  | succ fuel ih =>
    by_cases hd : 5≤(loadPoly mem o).deg
    · rw [findPolyRoots_factor hd,polyRoots_factor hd]
      by_cases hk : k≤bch.m
      · rw [if_pos hk,if_pos hk]
        cases hs : factorSplit bch k (loadPoly mem o) with
        | none =>
          rw [factorPolynomial_none hs]
          exact ih (k+1) mem o hfit
        | some p =>
          obtain ⟨g,q⟩ := p
          obtain ⟨mem',he,hsame,hg,hq⟩ := factorPolynomial_some (by omega) hfit hs
          obtain ⟨hg0,hgd,hsum,-,-⟩ := factorSplit_shape (wellFormed_loadPoly (by omega)) (by omega) hs
          rw [he]
          dsimp only
          have hl := hsame.1
          obtain ⟨r1,t1⟩ := ih (k+1) mem' o (by rw [hg]; omega)
          rw [hg] at r1 t1
          have hl1 := t1.1
          -- the second factor is still there
          have hq1 : loadPoly (findPolyRoots bch fuel (k+1) mem' o).1 (o+3*g.deg)=q := by
            rw [←hq]
            apply loadPoly_congr hl1
            intro i hi _
            exact t1.2 i (by omega)
          obtain ⟨r2,t2⟩ := ih (k+1) (findPolyRoots bch fuel (k+1) mem' o).1 (o+3*g.deg)
            (by rw [hq1]; omega)
          rw [hq1] at r2 t2
          refine ⟨by rw [r1,r2],?_⟩
          exact (hsame.trans (t1.mono le_rfl (by omega))).trans (t2.mono (by omega) (by omega))
      · rw [if_neg hk,if_neg hk]
        exact ⟨rfl,SameOutside.refl _ _ _⟩
    · have hsmall : ∀ f : GfPoly, f.deg<5 → polyRoots bch (fuel+1) k f=(match f.deg with
          | 1 => findPolyDeg1Roots bch f.c
          | 2 => findPolyDeg2Roots bch f.c
          | 3 => findPolyDeg3Roots bch f.c
          | 4 => findPolyDeg4Roots bch f.c
          | _ => []) := by
        rintro ⟨d,c⟩ hlt
        interval_cases d <;> rfl
      have hlt := Nat.not_le.mp hd
      rw [hsmall _ hlt,findPolyRoots]
      generalize loadPoly mem o=f at hlt ⊢
      obtain ⟨d,c⟩ := f
      interval_cases d <;> exact ⟨rfl,SameOutside.refl _ _ _⟩

end Recursion

section Splitting

variable {F : Type*} [Field F] {α : F} {m : ℕ}

/-- A greatest common divisor. -/
structure IsGcd (G A B : F[X]) : Prop where
  /-- It divides the first polynomial. -/
  left : G ∣ A
  /-- It divides the second polynomial. -/
  right : G ∣ B
  /-- Every common divisor divides it. -/
  greatest : ∀ D, D ∣ A → D ∣ B → D ∣ G

/-- Splitting by traces never meets a polynomial of degree above four
whose reduced trace polynomial is not constant and yet coprime to it. -/
def CleanSplit (α : F) (m : ℕ) : ℕ → ℕ → F[X] → Prop
  | 0,_,_ => True
  | fuel+1,k,P => 4<P.natDegree → k ≤ m →
    if 0<(tracePoly α m k%P).natDegree then
      ∀ G Q, IsGcd G P (tracePoly α m k%P) → Associated P (G*Q) →
        0<G.natDegree ∧ CleanSplit α m fuel (k+1) G ∧ CleanSplit α m fuel (k+1) Q
    else CleanSplit α m fuel (k+1) P

/-- Degrees add up in a factorization. -/
theorem natDegree_of_associated {P G Q : F[X]} (hP : P≠0) (h : Associated P (G*Q)) :
    G≠0 ∧ Q≠0 ∧ G.natDegree+Q.natDegree=P.natDegree := by
  have hne : G*Q≠0 := fun hz => hP (h.eq_zero_iff.mpr hz)
  obtain ⟨hG,hQ⟩ := mul_ne_zero_iff.mp hne
  refine ⟨hG,hQ,?_⟩
  rw [←natDegree_mul hG hQ]
  exact (natDegree_eq_of_degree_eq (degree_eq_degree_of_associated h)).symm

/-- A root of a product is a root of a factor. -/
theorem eval_of_associated {P G Q : F[X]} (h : Associated P (G*Q)) {x : F} (hx : P.eval x=0) :
    G.eval x=0 ∨ Q.eval x=0 := by
  have hd : P ∣ G*Q := h.dvd
  have hz := eval_dvd hd (x := x)
  rw [hx,zero_dvd_iff,eval_mul] at hz
  exact mul_eq_zero.mp hz

/-- At a root of the modulus the remainder has the same value. -/
theorem eval_mod_of_root {A P : F[X]} {x : F} (hx : P.eval x=0) : (A%P).eval x=A.eval x := by
  conv_rhs => rw [←EuclideanDomain.div_add_mod A P,eval_add,eval_mul,hx,zero_mul,zero_add]

/-- All roots of a polynomial are known, different and not zero. -/
structure Splits (P : F[X]) (S : Finset F) : Prop where
  /-- There are as many as the degree. -/
  card : S.card=P.natDegree
  /-- None is zero. -/
  nonzero : 0 ∉ S
  /-- They are roots. -/
  root : ∀ x ∈ S, P.eval x=0

/-- The known roots have had the same traces so far. -/
def SameTraces (α : F) (m k : ℕ) (S : Finset F) : Prop :=
  ∀ x ∈ S, ∀ y ∈ S, ∀ i, 1≤ i → i<k → tr m (α^i*x)=tr m (α^i*y)

variable [CharP F 2] [Finite F] {S : Finset F}

omit [CharP F 2] [Finite F] in
/-- A polynomial whose degree is smaller than the number of its roots is zero. -/
theorem eq_zero_of_roots {P : F[X]} (hS : ∀ x ∈ S, P.eval x=0) (h : P.natDegree<S.card) :
    P=0 := by
  by_contra h0
  have := card_le_of_roots (degree_eq_natDegree h0) S hS
  omega

omit [CharP F 2] [Finite F] in
/-- A trace polynomial separates the roots or has the same value at all of them. -/
theorem splits_constant {P : F[X]} (hS : Splits P S) {k : ℕ} (hsame : SameTraces α m k S)
    (hT : (tracePoly α m k%P).natDegree=0) : SameTraces α m (k+1) S := by
  obtain ⟨c,hc⟩ := natDegree_eq_zero.mp hT
  intro x hx y hy i hi hik
  rcases Nat.lt_or_ge i k with h | h
  · exact hsame x hx y hy i hi h
  · obtain rfl : i=k := by omega
    rw [←eval_tracePoly,←eval_tracePoly,←eval_mod_of_root (hS.root x hx),←eval_mod_of_root (hS.root y hy),←hc,
      eval_C,eval_C]

/-- When the reduced trace polynomial is not constant, both factors are
products of different linear factors, with fewer roots each. -/
theorem splits_factor (hα : IsPrimitive α m) {P : F[X]} (hP : P≠0) (hS : Splits P S) {k : ℕ}
    (hsame : SameTraces α m k S) (hT : 0<(tracePoly α m k%P).natDegree) {G Q : F[X]}
    (hG : IsGcd G P (tracePoly α m k%P)) (ha : Associated P (G*Q)) :
    0<G.natDegree ∧ ∃ S0 S1, Splits G S0 ∧ Splits Q S1 ∧ SameTraces α m (k+1) S0 ∧ SameTraces α m (k+1) S1 := by
  classical
  set T := tracePoly α m k%P with hTdef
  have hdeg : T.natDegree<P.natDegree := by
    apply natDegree_mod_lt
    intro hz
    obtain ⟨c,hc⟩ := natDegree_eq_zero.mp hz
    have hc0 : c≠0 := by
      rintro rfl
      rw [map_zero] at hc
      exact hP hc.symm
    have : T=0 := by
      rw [hTdef,EuclideanDomain.mod_eq_zero,←hc]
      exact (isUnit_C.mpr hc0.isUnit).dvd
    rw [this,natDegree_zero] at hT
    omega
  have heval : ∀ x ∈ S, T.eval x=tr m (α^k*x) := by
    intro x hx
    rw [hTdef,eval_mod_of_root (hS.root x hx),eval_tracePoly]
  have htr : ∀ x : F, tr m (α^k*x)=0 ∨ tr m (α^k*x)=1 := fun x => tr_zero_or_one (hα.frobenius _)
  obtain ⟨hG0,hQ0,hsum⟩ := natDegree_of_associated hP ha
  set S0 := S.filter fun x => T.eval x=0 with hS0
  set S1 := S.filter fun x => ¬T.eval x=0 with hS1
  have hcard : S0.card+S1.card=S.card := Finset.card_filter_add_card_filter_not _
  -- the roots of trace zero are common roots
  have hroot0 : ∀ x ∈ S0, G.eval x=0 := by
    intro x hx
    obtain ⟨hxS,hxT⟩ := Finset.mem_filter.mp hx
    exact dvd_iff_isRoot.mp (hG.greatest _ (dvd_iff_isRoot.mpr (hS.root x hxS)) (dvd_iff_isRoot.mpr hxT))
  have hroot1 : ∀ x ∈ S1, Q.eval x=0 := by
    intro x hx
    obtain ⟨hxS,hxT⟩ := Finset.mem_filter.mp hx
    rcases eval_of_associated ha (hS.root x hxS) with hz | hz
    · have hdvd := eval_dvd hG.right (x := x)
      rw [hz,zero_dvd_iff] at hdvd
      exact absurd hdvd hxT
    · exact hz
  have hle0 := card_le_of_roots (degree_eq_natDegree hG0) S0 hroot0
  have hle1 := card_le_of_roots (degree_eq_natDegree hQ0) S1 hroot1
  have hSc := hS.card
  have hpos : 0<S0.card := by
    by_contra hz
    have hempty : S0=∅ := Finset.card_eq_zero.mp (by omega)
    -- otherwise the trace is one at all roots
    have hone : T-C 1=0 := by
      apply eq_zero_of_roots (S := S)
      · intro x hx
        have hne : T.eval x≠0 := by
          intro hzero
          have : x ∈ S0 := Finset.mem_filter.mpr ⟨hx,hzero⟩
          rw [hempty] at this
          exact Finset.notMem_empty x this
        rw [heval x hx] at hne
        rw [eval_sub,eval_C,heval x hx,(htr x).resolve_left hne,sub_self]
      · rw [natDegree_sub_C]
        omega
    rw [sub_eq_zero.mp hone,natDegree_C] at hT
    omega
  have hsame' : ∀ S' ⊆ S, (∀ x ∈ S', ∀ y ∈ S', T.eval x=T.eval y) → SameTraces α m (k+1) S' := by
    intro S' hsub hconst x hx y hy i hi hik
    rcases Nat.lt_or_ge i k with h | h
    · exact hsame x (hsub hx) y (hsub hy) i hi h
    · obtain rfl : i=k := by omega
      rw [←heval x (hsub hx),←heval y (hsub hy)]
      exact hconst x hx y hy
  refine ⟨by omega,S0,S1,⟨by omega,?_,hroot0⟩,⟨by omega,?_,hroot1⟩,?_,?_⟩
  · exact fun h => hS.nonzero (Finset.mem_filter.mp h).1
  · exact fun h => hS.nonzero (Finset.mem_filter.mp h).1
  · apply hsame' S0 (Finset.filter_subset _ _)
    intro x hx y hy
    rw [(Finset.mem_filter.mp hx).2,(Finset.mem_filter.mp hy).2]
  · apply hsame' S1 (Finset.filter_subset _ _)
    intro x hx y hy
    obtain ⟨hxS,hxT⟩ := Finset.mem_filter.mp hx
    obtain ⟨hyS,hyT⟩ := Finset.mem_filter.mp hy
    rw [heval x hxS] at hxT ⊢
    rw [heval y hyS] at hyT ⊢
    rw [(htr x).resolve_left hxT,(htr y).resolve_left hyT]

/-- Elements with the same traces throughout are equal. -/
theorem SameTraces.card_le_one (hα : IsPrimitive α m) (h2 : 2 ≤ m) (h : SameTraces α m (m+1) S) :
    S.card≤1 := by
  apply Finset.card_le_one.mpr
  intro x hx y hy
  have hz : x+y=0 := by
    apply hα.eq_zero_of_tr h2
    intro k hk hkm
    rw [mul_add,tr_add,h x hx y hy k hk (by omega),CharTwo.add_self_eq_zero]
  exact CharTwo.add_eq_zero.mp hz

/-- Products of different linear factors are split cleanly. -/
theorem cleanSplit_of_splits (hα : IsPrimitive α m) (fuel k : ℕ) {P : F[X]} (hP : P≠0)
    (hS : Splits P S) (hsame : SameTraces α m k S) : CleanSplit α m fuel k P := by
  induction fuel generalizing k P S with
  | zero => exact trivial
  | succ fuel ih =>
    intro _ _
    split
    · next hT =>
      intro G Q hG ha
      obtain ⟨hpos,S0,S1,h0,h1,t0,t1⟩ := splits_factor hα hP hS hsame hT hG ha
      obtain ⟨hG0,hQ0,-⟩ := natDegree_of_associated hP ha
      exact ⟨hpos,ih (k+1) hG0 h0 t0,ih (k+1) hQ0 h1 t1⟩
    · next hT => exact ih (k+1) hP hS (splits_constant hS hsame (by omega))

end Splitting

section Roots

variable {F : Type*} [Field F] [CharP F 2] {α : F}

/-- The polynomial with the given logarithms of inverse roots. -/
noncomputable def linProd (α : F) (L : List ℕ) : F[X] := (L.map fun l => 1+C (α^l)*X).prod

omit [CharP F 2] in
theorem linProd_append (α : F) (L L' : List ℕ) : linProd α (L++L')=linProd α L*linProd α L' := by
  rw [linProd,List.map_append,List.prod_append]
  rfl

omit [CharP F 2] in
theorem natDegree_linProd (hα : α≠0) (L : List ℕ) : linProd α L≠0 ∧ (linProd α L).natDegree=L.length := by
  induction L with
  | nil => exact ⟨one_ne_zero,natDegree_one⟩
  | cons l L ih =>
    have hd : (1+C (α^l)*X : F[X]).degree=(1 : ℕ) := KeyEquation.factor_degree (pow_ne_zero l hα)
    have h0 : (1+C (α^l)*X : F[X])≠0 := by
      intro hz
      rw [hz,degree_zero] at hd
      cases hd
    have he : linProd α (l::L)=(1+C (α^l)*X)*linProd α L := List.prod_cons
    rw [he]
    refine ⟨mul_ne_zero h0 ih.1,?_⟩
    rw [natDegree_mul h0 ih.1,ih.2,natDegree_eq_of_degree_eq_some hd,List.length_cons,Nat.add_comm]

theorem eval_linProd (hα : α≠0) {L : List ℕ} {l : ℕ} (hl : l ∈ L) : (linProd α L).eval (α^l)⁻¹=0 := by
  rw [linProd,eval_list_prod]
  apply List.prod_eq_zero
  rw [List.map_map,List.mem_map]
  refine ⟨l,hl,?_⟩
  simp [mul_inv_cancel₀ (pow_ne_zero l hα),CharTwo.add_self_eq_zero]

/-- A full list of roots factors the polynomial. -/
theorem exactRoots_factor (h : FieldTables α bch) {d : ℕ} {P : F[X]} {L : List ℕ}
    (he : ExactRoots α bch.n d P L) (hd : P.degree=d) (hL : L.length=d) :
    (∀ l ∈ L, l<bch.n) ∧ ∃ a, P=C a*linProd α L := by
  classical
  obtain ⟨hnd,hroot⟩ := he.sound hL
  refine ⟨fun l hl => (hroot l hl).1,?_⟩
  obtain ⟨hp0,hpd⟩ := natDegree_linProd h.ne_zero L
  have hinj : Set.InjOn (fun l => (α^l)⁻¹) (L.toFinset : Set ℕ) := by
    intro i hi j hj hij
    have hi' := (hroot i (List.mem_toFinset.mp hi)).1
    have hj' := (hroot j (List.mem_toFinset.mp hj)).1
    rw [h.n_eq] at hi' hj'
    exact h.prim.pow_inj hi' hj' (inv_injective hij)
  have hcard : (L.toFinset.image fun l => (α^l)⁻¹).card=d := by
    rw [Finset.card_image_of_injOn hinj,List.toFinset_card_of_nodup hnd,hL]
  refine ⟨P.leadingCoeff/(linProd α L).leadingCoeff,?_⟩
  have hlc : (linProd α L).leadingCoeff≠0 := leadingCoeff_ne_zero.mpr hp0
  have hP0 : P≠0 := by
    rintro rfl
    cases hd
  have ha : P.leadingCoeff/(linProd α L).leadingCoeff≠0 := div_ne_zero (leadingCoeff_ne_zero.mpr hP0) hlc
  have hdiff : (P-C (P.leadingCoeff/(linProd α L).leadingCoeff)*linProd α L).degree<P.degree := by
    apply degree_sub_lt_left _ hP0
    · rw [leadingCoeff_mul,leadingCoeff_C,div_mul_cancel₀ _ hlc]
    · rw [degree_C_mul ha,hd,degree_eq_natDegree hp0,hpd,hL]
  by_contra hne
  have hsub0 : P-C (P.leadingCoeff/(linProd α L).leadingCoeff)*linProd α L≠0 := sub_ne_zero.mpr hne
  rw [degree_eq_natDegree hsub0,hd] at hdiff
  apply hsub0
  apply eq_zero_of_roots (S := L.toFinset.image fun l => (α^l)⁻¹)
  · intro x hx
    obtain ⟨l,hl,rfl⟩ := Finset.mem_image.mp hx
    have hlL := List.mem_toFinset.mp hl
    rw [eval_sub,eval_mul,(hroot l hlL).2,eval_linProd h.ne_zero hlL,mul_zero,sub_zero]
  · rw [hcard]
    exact_mod_cast hdiff

section Leaves

variable [Finite F]

/-- The leaves of the recursion are exact. -/
theorem polyRoots_small (h : FieldTables α bch) (hb : Deg2Base α bch) {f : GfPoly} {P : F[X]}
    (hf : Represents α bch.m f P) (hwf : f.c.length=f.deg+1) (hP : P≠0) (hd : f.deg<5) (fuel k : ℕ) :
    P.degree=f.deg ∧ ExactRoots α bch.n f.deg P (polyRoots bch (fuel+1) k f) := by
  have hlist : listPoly α f.c=P := by
    rw [←hf.poly,List.take_of_length_le (by omega)]
  have hdeg : P.degree=f.deg := by rw [degree_eq_natDegree hP,hf.degree]
  refine ⟨hdeg,?_⟩
  have hsm := hf.small
  obtain ⟨d,c⟩ := f
  dsimp only at hlist hdeg hsm hd ⊢
  subst hlist
  rcases d with _ | _ | _ | _ | _ | d
  · exact ⟨Nat.zero_le _,fun _ => ⟨List.nodup_nil,by simp [polyRoots]⟩,fun _ _ _ _ => rfl⟩
  · exact findPolyDeg1Roots_exact h hsm hdeg
  · exact findPolyDeg2Roots_exact h hb hsm hdeg
  · exact findPolyDeg3Roots_exact h hsm hdeg
  · exact findPolyDeg4Roots_exact h hsm hdeg
  · omega

end Leaves

/-- A split of a polynomial of degree above four. -/
theorem factorSplit_spec (h : FieldTables α bch) {f : GfPoly} {P : F[X]} {k : ℕ}
    (hf : Represents α bch.m f P) (hP : P≠0) (hd : 5≤f.deg) (hk : k≤bch.m) :
    ((tracePoly α bch.m k%P).natDegree=0 → factorSplit bch k f=none) ∧
      (0<(tracePoly α bch.m k%P).natDegree → (∀ G Q, IsGcd G P (tracePoly α bch.m k%P) →
        Associated P (G*Q) → 0<G.natDegree) → ∃ g q G Q, factorSplit bch k f=some (g,q) ∧
          Represents α bch.m g G ∧ Represents α bch.m q Q ∧ IsGcd G P (tracePoly α bch.m k%P) ∧
          Associated P (G*Q)) := by
  classical
  have hmn : bch.m≤bch.n := by
    have := h.n_eq
    have := Nat.lt_two_pow_self (n := bch.m)
    omega
  have htk := computeTraceBkMod_spec h (k := k) hf (by omega) (by omega)
  have htd := (@computeTraceBkMod_shape bch k f (by omega)).2.2 (by omega)
  have hdeg := htk.degree
  set T := tracePoly α bch.m k%P with hT
  unfold factorSplit
  constructor
  · intro h0
    rw [if_neg (by omega)]
  · intro h0 hclean
    rw [if_pos (by omega)]
    have hD : ∃ D, D ∣ P ∧ D ∣ T ∧ 0<D.natDegree := by
      have hdvd := EuclideanDomain.gcd_dvd_left P T
      obtain ⟨Q,hQ⟩ := hdvd
      refine ⟨_,EuclideanDomain.gcd_dvd_left P T,EuclideanDomain.gcd_dvd_right P T,?_⟩
      exact hclean _ Q ⟨EuclideanDomain.gcd_dvd_left P T,EuclideanDomain.gcd_dvd_right P T,
        fun D h1 h2 => EuclideanDomain.dvd_gcd h1 h2⟩ (by rw [←hQ])
    obtain ⟨G,hG,hGP,hGT,hmax⟩ := gfPolyGcd_spec h hf htk hD
    obtain ⟨D,hDP,hDT,hDpos⟩ := hD
    have hG0 : G≠0 := fun hz => hP (zero_dvd_iff.mp (hz ▸ hGP))
    have hGpos : 0<G.natDegree := lt_of_lt_of_le hDpos (natDegree_le_of_dvd (hmax D hDP hDT) hG0)
    have hT0 : T≠0 := by
      intro hz
      rw [hz,natDegree_zero] at h0
      omega
    have hGle := natDegree_le_of_dvd hGT hT0
    have hGd := hG.degree
    generalize gfPolyGcd bch f (computeTraceBkMod bch k f)=g at hG hGd ⊢
    rw [if_pos (by omega)]
    have hQ := gfPolyDiv_spec h hf hG (by omega) (by omega)
    have hgwf : g.deg<g.c.length := hG.wf
    refine ⟨_,_,G,P /ₘ monic G,rfl,⟨?_,hG.small.take _,?_,hGd⟩,hQ,⟨hGP,hGT,hmax⟩,?_⟩
    · change g.deg<(g.c.take (g.deg+1)).length
      rw [List.length_take]
      omega
    · rw [List.take_take,min_self]
      exact hG.poly
    · -- the monic form of the divisor is associated to it
      have hassoc : Associated (monic G) G :=
        (associated_mul_unit_left G _ (isUnit_C.mpr (inv_ne_zero (leadingCoeff_ne_zero.mpr hG0)).isUnit))
      have hdvd : monic G ∣ P := hassoc.dvd.trans hGP
      have hPe : P=monic G*(P /ₘ monic G) := by
        have hmod := (modByMonic_eq_zero_iff_dvd (monic_monic hG0)).mpr hdvd
        have hfull := modByMonic_add_div P (monic G)
        rw [hmod,zero_add] at hfull
        exact hfull.symm
      conv_lhs => rw [hPe]
      exact hassoc.mul_right _

variable [Finite F]

/-- The recursion finds at most as many roots as the degree, and when the
splitting is clean a full list of roots factors the polynomial. -/
theorem polyRoots_sound (h : FieldTables α bch) (hb : Deg2Base α bch) (fuel k : ℕ) {f : GfPoly} {P : F[X]}
    (hf : Represents α bch.m f P) (hwf : f.c.length=f.deg+1) (hP : P≠0) (hc : CleanSplit α bch.m fuel k P) :
    (polyRoots bch fuel k f).length≤P.natDegree ∧ ((polyRoots bch fuel k f).length=P.natDegree →
      (∀ l ∈ polyRoots bch fuel k f, l<bch.n) ∧ ∃ a, P=C a*linProd α (polyRoots bch fuel k f)) := by
  induction fuel generalizing k f P with
  | zero =>
    refine ⟨Nat.zero_le _,fun hz => ⟨by simp [polyRoots],?_⟩⟩
    obtain ⟨a,ha⟩ := natDegree_eq_zero.mp hz.symm
    exact ⟨a,by rw [←ha]; exact (mul_one _).symm⟩
  | succ fuel ih =>
    by_cases hd : 5≤f.deg
    · rw [polyRoots_factor hd]
      have hPd := hf.degree
      by_cases hk : k≤bch.m
      · rw [if_pos hk]
        have hc' := hc (by omega) hk
        obtain ⟨hnone,hsome⟩ := factorSplit_spec h hf hP hd hk
        by_cases hT : 0<(tracePoly α bch.m k%P).natDegree
        · rw [if_pos hT] at hc'
          obtain ⟨g,q,G,Q,he,hG,hQ,hgcd,hass⟩ := hsome hT fun G Q h1 h2 => (hc' G Q h1 h2).1
          obtain ⟨-,-,-,hgl,hql⟩ := factorSplit_shape hwf (by omega) he
          obtain ⟨-,hcG,hcQ⟩ := hc' G Q hgcd hass
          obtain ⟨hG0,hQ0,hsum⟩ := natDegree_of_associated hP hass
          rw [he]
          dsimp only
          obtain ⟨l1,s1⟩ := ih (k+1) hG hgl hG0 hcG
          obtain ⟨l2,s2⟩ := ih (k+1) hQ hql hQ0 hcQ
          rw [List.length_append]
          refine ⟨by omega,fun hl => ?_⟩
          obtain ⟨n1,a1,e1⟩ := s1 (by omega)
          obtain ⟨n2,a2,e2⟩ := s2 (by omega)
          refine ⟨fun l hl => (List.mem_append.mp hl).elim (n1 l) (n2 l),?_⟩
          obtain ⟨u,hu⟩ := hass.symm
          obtain ⟨c,-,hc⟩ := isUnit_iff.mp u.isUnit
          refine ⟨a1*a2*c,?_⟩
          conv_lhs => rw [←hu,e1,e2,←hc]
          rw [linProd_append,C_mul,C_mul]
          ring
        · rw [if_neg hT] at hc'
          rw [hnone (by omega)]
          exact ih (k+1) hf hwf hP hc'
      · rw [if_neg hk]
        exact ⟨Nat.zero_le _,fun hz => absurd hz.symm (by rw [List.length_nil]; omega)⟩
    · obtain ⟨hdeg,hex⟩ := polyRoots_small h hb hf hwf hP (by omega) fuel k
      rw [hf.degree]
      exact ⟨hex.le,fun hl => exactRoots_factor h hex hdeg hl⟩

/-- The recursion finds all roots of a product of different linear factors. -/
theorem polyRoots_complete (h : FieldTables α bch) (hb : Deg2Base α bch) (fuel k : ℕ) {f : GfPoly} {P : F[X]}
    (hf : Represents α bch.m f P) (hwf : f.c.length=f.deg+1) (hP : P≠0) {S : Finset F} (hS : Splits P S)
    (hsame : SameTraces α bch.m k S) (hk : k≤bch.m+1) (hfuel : bch.m+1<fuel+k) :
    (polyRoots bch fuel k f).length=P.natDegree := by
  have hm := h.range
  induction fuel generalizing k f P S with
  | zero => omega
  | succ fuel ih =>
    by_cases hd : 5≤f.deg
    · rw [polyRoots_factor hd]
      have hPd := hf.degree
      have hSc := hS.card
      have hkm : k≤bch.m := by
        by_contra hgt
        obtain rfl : k=bch.m+1 := by omega
        have := hsame.card_le_one h.prim (by omega)
        omega
      rw [if_pos hkm]
      obtain ⟨hnone,hsome⟩ := factorSplit_spec h hf hP hd hkm
      by_cases hT : 0<(tracePoly α bch.m k%P).natDegree
      · obtain ⟨g,q,G,Q,he,hG,hQ,hgcd,hass⟩ := hsome hT fun G Q h1 h2 =>
          (splits_factor h.prim hP hS hsame hT h1 h2).1
        obtain ⟨-,-,-,hgl,hql⟩ := factorSplit_shape hwf (by omega) he
        obtain ⟨-,S0,S1,h0,h1,t0,t1⟩ := splits_factor h.prim hP hS hsame hT hgcd hass
        obtain ⟨hG0,hQ0,hsum⟩ := natDegree_of_associated hP hass
        rw [he]
        dsimp only
        rw [List.length_append,ih (k+1) hG hgl hG0 h0 t0 (by omega) (by omega),
          ih (k+1) hQ hql hQ0 h1 t1 (by omega) (by omega),hsum]
      · rw [hnone (by omega)]
        exact ih (k+1) hf hwf hP hS (splits_constant hS hsame (by omega)) (by omega) (by omega)
    · obtain ⟨-,hex⟩ := polyRoots_small h hb hf hwf hP (by omega) fuel k
      rw [hf.degree]
      exact hex.complete S (by rw [hS.card,hf.degree]) hS.nonzero hS.root

end Roots

end ArdroneKernel.BchFactor
