import ArdroneKernel.ArrayList
import ArdroneKernel.BchField
import ArdroneKernel.PrimitivePolynomial

/-!
# The field tables and the base for degree two

The table loop of `build_gf_tables` writes the successive powers of the
root of the polynomial. It succeeds exactly when no power before the last
is one again, which for a polynomial with a constant term is primitivity.
For a primitive polynomial the search of `build_deg2_base` finds every
entry, whatever the allocator left in the tables.
-/

namespace ArdroneKernel.BchTables

open BitPolynomial PrimitiveElement PrimitivePolynomial ArrayList BchInit BchField

/-- The values of `x` in the table loop. -/
def powSeq (k poly : ℕ) : ℕ → ℕ
  | 0 => 1
  | i+1 =>
    let x := powSeq k poly i<<<1
    if x&&&k≠0 then x^^^poly else x

/-- The top bit test on a number of at most `m+1` bits. -/
theorem and_two_pow_ne_zero {y m : ℕ} (hy : y<2^(m+1)) : y&&&2^m≠0 ↔ 2^m≤y := by
  rw [Nat.and_two_pow]
  rcases Nat.lt_or_ge y (2^m) with hlt | hge
  · rw [Nat.testBit_lt_two_pow hlt]
    simp [hlt]
  · have hb : y.testBit m=true := by
      rw [Nat.testBit_eq_decide_div_mod_eq]
      have hd : y/2^m=1 := by
        rw [Nat.div_eq_of_lt_le] <;> omega
      simp [hd]
    simp [hb,hge]

/-- Two numbers of exactly `m+1` bits cancel their top bits. -/
theorem xor_lt_of_top {a b m : ℕ} (ha : 2^m≤a) (ha' : a<2^(m+1)) (hb : 2^m≤b) (hb' : b<2^(m+1)) :
    a^^^b<2^m := by
  have htop : ∀ c, 2^m≤c → c<2^(m+1) → c.testBit m=true := by
    intro c hc hc'
    by_contra hne
    have h := (and_two_pow_ne_zero hc').mpr hc
    rw [Nat.and_two_pow] at h
    simp [hne] at h
  apply Nat.lt_pow_two_of_testBit
  intro i hi
  rcases Nat.eq_or_lt_of_le hi with rfl | hlt
  · rw [Nat.testBit_xor,htop a ha ha',htop b hb hb']
    rfl
  · have hle : 2^(m+1)≤2^i := Nat.pow_le_pow_right (by omega) hlt
    rw [Nat.testBit_xor,Nat.testBit_lt_two_pow (by omega),Nat.testBit_lt_two_pow (by omega)]
    rfl

section Sequence

variable {poly m : ℕ}

theorem powSeq_lt (hm : 0 < m) (hl : 2^m≤poly) (hu : poly<2^(m+1)) (i : ℕ) :
    powSeq (2^m) poly i<2^m := by
  induction i with
  | zero => exact Nat.one_lt_two_pow (Nat.ne_of_gt hm)
  | succ i ih =>
    have h2 : powSeq (2^m) poly i<<<1<2^(m+1) := by
      omega
    rw [powSeq]
    split
    · next hne => exact xor_lt_of_top ((and_two_pow_ne_zero h2).mp hne) h2 hl hu
    · next he =>
      have := (and_two_pow_ne_zero h2).not.mp he
      omega

/-- The sequence runs through the powers of any root of the polynomial. -/
theorem bitSum_powSeq {R : Type*} [CommRing R] [CharP R 2] {α : R} (hα : bitSum α poly=0) (i : ℕ) :
    bitSum α (powSeq (2^m) poly i)=α^i := by
  induction i with
  | zero => simp [powSeq]
  | succ i ih =>
    rw [powSeq]
    split
    · rw [bitSum_xor,hα,add_zero,bitSum_shiftLeft,ih,pow_one,pow_succ']
    · rw [bitSum_shiftLeft,ih,pow_one,pow_succ']

/-- Without a constant term only the first value is odd. -/
theorem powSeq_even (hp : poly%2=0) (i : ℕ) : powSeq (2^m) poly (i+1)%2=0 := by
  have h2 : (powSeq (2^m) poly i<<<1)%2=0 := by
    omega
  rw [powSeq]
  split
  · rw [Nat.xor_mod_two_eq,Nat.add_mod,h2,hp]
  · exact h2

end Sequence

/-- What the table loop leaves when it is not stopped by an early one. -/
structure TablesFrom (k poly i fuel : ℕ) (pow log pow' log' : List ℕ) : Prop where
  /-- The exponentiation table keeps its size. -/
  powLength : pow'.length=pow.length
  /-- The logarithm table keeps its size. -/
  logLength : log'.length=log.length
  /-- Entries before the first round are kept. -/
  powKept : ∀ j< i, pow'.getD j 0=pow.getD j 0
  /-- Entries of the rounds are the values of the sequence. -/
  powNew : ∀ j, i ≤ j → j< i+fuel → j<pow.length → pow'.getD j 0=powSeq k poly j
  /-- Values that do not occur keep what was stored for them. -/
  logKept : ∀ y, (∀ j, i ≤ j → j< i+fuel → powSeq k poly j≠y) → log'.getD y 0=log.getD y 0
  /-- The last round with a value stores its number. -/
  logNew : ∀ j, i ≤ j → j< i+fuel → powSeq k poly j<log.length →
    (∀ j', j<j' → j'< i+fuel → powSeq k poly j'≠powSeq k poly j) →
      log'.getD (powSeq k poly j) 0=j

/-- The table loop runs to its end when no later value is one. -/
theorem gfTablesLoop_some (k poly fuel i : ℕ) (pow log : List ℕ)
    (h : ∀ j, i ≤ j → j< i+fuel → j≠0 → powSeq k poly j≠1) :
    ∃ pow' log', gfTablesLoop k poly fuel i (powSeq k poly i) pow log=some (pow',log') ∧
      TablesFrom k poly i fuel pow log pow' log' := by
  induction fuel generalizing i pow log with
  | zero =>
    refine ⟨pow,log,rfl,rfl,rfl,?_,?_,?_,?_⟩ <;> intros <;> first | rfl | omega
  | succ fuel ih =>
    obtain ⟨pow',log',he,ht⟩ := ih (i+1) (pow.set i (powSeq k poly i)) (log.set (powSeq k poly i) i)
      (fun j hj hjf => h j (by omega) (by omega))
    refine ⟨pow',log',?_,?_,?_,?_,?_,?_,?_⟩
    · rw [gfTablesLoop,if_neg (by rintro ⟨hi,h1⟩; exact h i le_rfl (by omega) hi h1)]
      exact he
    · rw [ht.powLength,List.length_set]
    · rw [ht.logLength,List.length_set]
    · intro j hj
      rw [ht.powKept j (by omega),getD_set_ne _ _ _ (by omega)]
    · intro j hij hjf hjl
      rcases Nat.eq_or_lt_of_le hij with rfl | hlt
      · rw [ht.powKept i (by omega),getD_set_self _ _ hjl]
      · exact ht.powNew j (by omega) (by omega) (by rwa [List.length_set])
    · intro y hy
      rw [ht.logKept y fun j hj hjf => hy j (by omega) (by omega),
        getD_set_ne _ _ _ (hy i le_rfl (by omega))]
    · intro j hij hjf hjl hlast
      rcases Nat.eq_or_lt_of_le hij with rfl | hlt
      · rw [ht.logKept _ fun j' hj hj' => hlast j' (by omega) (by omega),getD_set_self _ _ hjl]
      · exact ht.logNew j (by omega) (by omega) (by rwa [List.length_set])
          fun j' hj hj' => hlast j' hj (by omega)

/-- The table loop stops at a later one. -/
theorem gfTablesLoop_none (k poly fuel i j : ℕ) (pow log : List ℕ) (hij : i ≤ j) (hjf : j< i+fuel)
    (hj0 : j≠0) (hj : powSeq k poly j=1) :
    gfTablesLoop k poly fuel i (powSeq k poly i) pow log=none := by
  induction fuel generalizing i pow log with
  | zero => omega
  | succ fuel ih =>
    rw [gfTablesLoop]
    split
    · rfl
    · next hne =>
      have hlt : i<j := by
        rcases Nat.eq_or_lt_of_le hij with rfl | hlt
        · exact absurd ⟨hj0,hj⟩ hne
        · exact hlt
      exact ih (i+1) _ _ hlt (by omega)

/-- The members of a fresh structure that the field tables depend on. -/
structure Fresh (bch : BchControl) : Prop where
  /-- The field orders that the library accepts. -/
  range : 5 ≤ bch.m ∧ bch.m ≤ 15
  /-- The codeword size. -/
  n_eq : bch.n=2^bch.m-1
  /-- The exponentiation table has an entry for the exponent `n`. -/
  powLength : bch.aPowTab.length=2^bch.m
  /-- The logarithm table has an entry for every pattern. -/
  logLength : bch.aLogTab.length=2^bch.m

theorem deg_eq_iff {poly m : ℕ} (hm : 0 < m) : 1<<<deg poly=1<<<m ↔ 2^m≤poly ∧ poly<2^(m+1) := by
  rw [Nat.shiftLeft_eq,Nat.shiftLeft_eq,Nat.one_mul,Nat.one_mul,
    Nat.pow_right_inj (by omega : 1<2),deg]
  constructor
  · intro h
    have h0 : poly≠0 := by
      rintro rfl
      rw [Nat.log2_zero] at h
      omega
    exact (Nat.log2_eq_iff h0).mp h
  · intro h
    have h0 : poly≠0 := by
      omega
    exact (Nat.log2_eq_iff h0).mpr h

section Build

variable {bch : BchControl} {poly : ℕ}

/-- The tables of a polynomial of another degree are refused. -/
theorem buildGfTables_degree (hf : Fresh bch) (h : ¬(2^bch.m≤poly ∧ poly<2^(bch.m+1))) :
    buildGfTables bch poly=none := by
  have hr := hf.range
  unfold buildGfTables
  rw [if_pos ((deg_eq_iff (by omega)).not.mpr h)]

/-- The tables are refused when the sequence comes back to one. -/
theorem buildGfTables_none (hf : Fresh bch) {j : ℕ} (hj0 : 0<j) (hjn : j<bch.n)
    (hl : 2^bch.m≤poly) (hu : poly<2^(bch.m+1)) (hj : powSeq (2^bch.m) poly j=1) :
    buildGfTables bch poly=none := by
  have hr := hf.range
  have hk := (deg_eq_iff (by omega)).mpr ⟨hl,hu⟩
  unfold buildGfTables
  rw [if_neg (not_not.mpr hk),hk,Nat.shiftLeft_eq,Nat.one_mul]
  have hn := gfTablesLoop_none (2^bch.m) poly bch.n 0 j bch.aPowTab bch.aLogTab (by omega) (by omega)
    (by omega) hj
  rw [powSeq] at hn
  rw [hn]

/-- The tables are built when it does not. -/
theorem buildGfTables_some (hf : Fresh bch) (hl : 2^bch.m≤poly) (hu : poly<2^(bch.m+1))
    (h : ∀ j, 0<j → j<bch.n → powSeq (2^bch.m) poly j≠1) :
    ∃ pow' log', buildGfTables bch poly=
        some {bch with aPowTab := pow'.set bch.n 1,aLogTab := log'.set 0 0} ∧
      TablesFrom (2^bch.m) poly 0 bch.n bch.aPowTab bch.aLogTab pow' log' := by
  have hr := hf.range
  have hk := (deg_eq_iff (by omega)).mpr ⟨hl,hu⟩
  obtain ⟨pow',log',he,ht⟩ := gfTablesLoop_some (2^bch.m) poly bch.n 0 bch.aPowTab bch.aLogTab
    (fun j _ hj hj0 => h j (by omega) (by omega))
  refine ⟨pow',log',?_,ht⟩
  rw [powSeq] at he
  unfold buildGfTables
  rw [if_neg (not_not.mpr hk),hk,Nat.shiftLeft_eq,Nat.one_mul,he]

end Build

section Primitive

variable {bch : BchControl} {poly : ℕ} [Fact (Irreducible (bitPoly poly))]

instance : CharP (AdjoinRoot (bitPoly poly)) 2 :=
  charP_of_injective_algebraMap (algebraMap (ZMod 2) (AdjoinRoot (bitPoly poly))).injective 2

theorem bitSum_root_self (poly : ℕ) : bitSum (AdjoinRoot.root (bitPoly poly)) poly=0 := by
  rw [bitSum_root,AdjoinRoot.mk_self]

/-- The tables of a primitive polynomial are those of its root. -/
theorem fieldTables_of_primitive (hf : Fresh bch) (hl : 2^bch.m≤poly) (hu : poly<2^(bch.m+1))
    (hp : IsPrimitivePoly (bitPoly poly)) :
    ∃ pow log, buildGfTables bch poly=some {bch with aPowTab := pow,aLogTab := log} ∧
      FieldTables (AdjoinRoot.root (bitPoly poly)) {bch with aPowTab := pow,aLogTab := log} := by
  have hr := hf.range
  have hn := hf.n_eq
  have hm2 : 32≤2^bch.m := Nat.pow_le_pow_right (n := 2) (by omega) hr.1
  obtain ⟨hmon,hdeg⟩ := monic_bitPoly hl hu
  have hprim : IsPrimitive (AdjoinRoot.root (bitPoly poly)) bch.m := hdeg ▸ hp.isPrimitive hmon
  have := finite_adjoinRoot hmon
  set α := AdjoinRoot.root (bitPoly poly)
  have hroot : bitSum α poly=0 := bitSum_root_self poly
  have hseq := bitSum_powSeq (m := bch.m) hroot
  have hlt := powSeq_lt (by omega) hl hu
  have hinj : ∀ i j, i<bch.n → j<bch.n → powSeq (2^bch.m) poly i=powSeq (2^bch.m) poly j → i=j := by
    intro i j hi hj he
    apply hprim.pow_inj (by omega) (by omega)
    rw [←hseq i,he,hseq j]
  have hone : ∀ j, 0<j → j<bch.n → powSeq (2^bch.m) poly j≠1 := by
    intro j hj0 hjn he
    exact absurd (hinj j 0 hjn (by omega) he) (by omega)
  obtain ⟨pow',log',he,ht⟩ := buildGfTables_some hf hl hu hone
  refine ⟨_,_,he,hr,hn,hprim,?_,?_,?_⟩
  · intro j hj
    dsimp only at hj ⊢
    rcases Nat.eq_or_lt_of_le hj with rfl | hjn
    · rw [getD_set_self _ _ (by rw [ht.powLength,hf.powLength]; omega)]
      refine ⟨by omega,?_⟩
      rw [bitSum_one,hn,hprim.pow_order]
    · rw [getD_set_ne _ _ _ (by omega),ht.powNew j (by omega) (by omega) (by rw [hf.powLength]; omega)]
      exact ⟨hlt j,hseq j⟩
  · intro a ha0 ha
    dsimp only at ha ⊢
    obtain ⟨j,hj,hje⟩ := hprim.exists_pow (by omega) (x := bitSum α a)
      (fun hz => absurd (hprim.indep a ha hz) (by omega))
    have haj : powSeq (2^bch.m) poly j=a := hprim.inj (hlt j) ha (by rw [hseq,hje])
    have hlog : aLog {bch with aPowTab := pow'.set bch.n 1,aLogTab := log'.set 0 0} a=j := by
      unfold aLog
      rw [getD_set_ne _ _ _ (by omega),←haj]
      apply ht.logNew j (by omega) (by omega) (by rw [hf.logLength]; exact hlt j)
      intro j' hjj' hj' heq
      exact absurd (hinj j' j (by omega) (by omega) heq) (by omega)
    rw [hlog]
    exact ⟨by omega,hje⟩
  · unfold aLog
    rw [getD_set_self _ _ (by rw [ht.logLength,hf.logLength]; omega)]

end Primitive

/-- A polynomial with a constant term that is not primitive is refused. -/
theorem buildGfTables_not_primitive {bch : BchControl} {poly : ℕ} (hf : Fresh bch)
    (hl : 2^bch.m≤poly) (hu : poly<2^(bch.m+1)) (hodd : poly%2=1)
    (hp : ¬IsPrimitivePoly (bitPoly poly)) : buildGfTables bch poly=none := by
  have hr := hf.range
  obtain ⟨hmon,hdeg⟩ := monic_bitPoly hl hu
  have hd : 0<(bitPoly poly).natDegree := by omega
  have hc : (bitPoly poly).coeff 0=1 := by
    rw [coeff_bitPoly,Nat.testBit_zero,hodd]
    simp
  have := charP_adjoinRoot hd
  have hroot : bitSum (AdjoinRoot.root (bitPoly poly)) poly=0 := by
    rw [bitSum_root,AdjoinRoot.mk_self]
  rw [←isPrimitivePoly_iff hmon hd hc] at hp
  push Not at hp
  obtain ⟨j,hj0,hjn,hj⟩ := hp
  rw [hdeg] at hjn
  apply buildGfTables_none hf hj0 (by rw [hf.n_eq]; exact hjn) hl hu
  have hz : powSeq (2^bch.m) poly j^^^1=0 := by
    apply bitSum_root_indep hmon
    · rw [hdeg]
      exact Nat.xor_lt_two_pow (powSeq_lt (by omega) hl hu j) (Nat.one_lt_two_pow (by omega))
    · rw [bitSum_xor,bitSum_powSeq hroot,hj,bitSum_one,CharTwo.add_self_eq_zero]
  have hx : (powSeq (2^bch.m) poly j^^^1)^^^1=1 := by rw [hz,Nat.zero_xor]
  rwa [Nat.xor_assoc,Nat.xor_self,Nat.xor_zero] at hx

section Search

variable {bch : BchControl} {S : ℕ → ℕ → Prop} {st : Deg2State}

/-- The invariant of the search loop: entry `r` is only ever filled with
an `x` for which `S r x` holds. -/
structure Deg2Inv (S : ℕ → ℕ → Prop) (bch : BchControl) (st : Deg2State) : Prop where
  /-- One flag for every entry. -/
  flags : st.xi.length=bch.m
  /-- One cell for every entry. -/
  cells : st.xiTab.length=bch.m
  /-- The counter counts the flags that are not set. -/
  count : st.xi.count 0=st.remaining
  /-- Flagged entries are right. -/
  good : ∀ r < bch.m, st.xi.getD r 0≠0 → S r (st.xiTab.getD r 0)

/-- When the counter is at zero every entry is filled. -/
theorem Deg2Inv.full (hi : Deg2Inv S bch st) (h0 : st.remaining=0) {r : ℕ} (hr : r < bch.m) :
    st.xi.getD r 0≠0 := by
  intro hz
  have hlen : r<st.xi.length := by rw [hi.flags]; exact hr
  have hc := hi.count
  rw [h0,List.count_eq_zero] at hc
  apply hc
  rw [List.getD_eq_getElem _ _ hlen] at hz
  rw [←hz]
  exact List.getElem_mem hlen

/-- When every entry is filled the counter is at zero. -/
theorem Deg2Inv.remaining_zero (hi : Deg2Inv S bch st) (h : ∀ r < bch.m, st.xi.getD r 0≠0) :
    st.remaining=0 := by
  rw [←hi.count,List.count_eq_zero]
  intro hmem
  obtain ⟨r,hr,he⟩ := List.getElem_of_mem hmem
  apply h r (by rw [←hi.flags]; exact hr)
  rw [List.getD_eq_getElem _ _ hr,he]

/-- A successful test keeps the invariant and sets the flag of `y`. -/
theorem deg2Try_some {st st' : Deg2State} {x y : ℕ} (hi : Deg2Inv S bch st)
    (hs : y≠0 → S (aLog bch y) x) (h : deg2Try bch x y st=some st') :
    Deg2Inv S bch st' ∧ st'.xi=st.xi.set (aLog bch y) 1 ∧ aLog bch y < bch.m := by
  unfold deg2Try at h
  dsimp only at h
  split at h
  · next hc =>
    obtain ⟨hy,hlt,hz⟩ := hc
    cases h
    have hlen : aLog bch y<st.xi.length := by rw [hi.flags]; exact hlt
    refine ⟨⟨by rw [List.length_set,hi.flags],by rw [List.length_set,hi.cells],?_,?_⟩,rfl,hlt⟩
    · have hz' : st.xi[aLog bch y]=0 := by rwa [List.getD_eq_getElem _ _ hlen] at hz
      rw [List.count_set hlen,hz',hi.count]
      simp
    · intro r hr hne
      by_cases he : aLog bch y=r
      · subst he
        rw [getD_set_self _ _ (by rw [hi.cells]; exact hlt)]
        exact hs hy
      · rw [getD_set_ne _ _ _ he] at hne ⊢
        exact hi.good r hr hne
  · cases h

/-- A test that fails on a wanted `y` finds its flag set. -/
theorem deg2Try_none {x y : ℕ} (h : deg2Try bch x y st=none) (hy : y≠0) (hr : aLog bch y < bch.m) :
    st.xi.getD (aLog bch y) 0≠0 := by
  unfold deg2Try at h
  dsimp only at h
  split at h
  · cases h
  · next hc =>
    intro hz
    exact hc ⟨hy,hr,hz⟩

/-- The entry of `y` is filled, if it is one of those looked for. -/
def Found (bch : BchControl) (st : Deg2State) (y : ℕ) : Prop :=
  y≠0 → aLog bch y < bch.m → st.xi.getD (aLog bch y) 0≠0

/-- No flag is taken back. -/
def Grows (st st' : Deg2State) : Prop := ∀ r, st.xi.getD r 0≠0 → st'.xi.getD r 0≠0

theorem Found.grows {st st' : Deg2State} {y : ℕ} (h : Found bch st y) (hg : Grows st st') :
    Found bch st' y := fun hy hr => hg _ (h hy hr)

theorem grows_set {st st' : Deg2State} {r : ℕ} (h : st'.xi=st.xi.set r 1) : Grows st st' := by
  intro r' hr'
  rw [h,getD_set]
  split
  · exact one_ne_zero
  · exact hr'

/-- One round keeps the invariant, fills the entry of `x^2+x`, and when
that one was filled before, also the entry of `x^2+x+ak`. -/
theorem deg2Step_spec {x ak : ℕ} (hi : Deg2Inv S bch st)
    (h1 : gfSqr bch x^^^x≠0 → S (aLog bch (gfSqr bch x^^^x)) x)
    (h2 : gfSqr bch x^^^x^^^ak≠0 → S (aLog bch (gfSqr bch x^^^x^^^ak)) x) :
    Deg2Inv S bch (deg2Step bch ak st x) ∧ Grows st (deg2Step bch ak st x) ∧
      Found bch (deg2Step bch ak st x) (gfSqr bch x^^^x) ∧
      (Found bch st (gfSqr bch x^^^x) → Found bch (deg2Step bch ak st x) (gfSqr bch x^^^x^^^ak)) := by
  unfold deg2Step
  split
  · next h0 =>
    exact ⟨hi,fun _ h => h,fun _ hr => hi.full h0 hr,fun _ _ hr => hi.full h0 hr⟩
  · dsimp only
    cases ht : deg2Try bch x (gfSqr bch x^^^x) st with
    | some st' =>
      obtain ⟨hi',hset,hr⟩ := deg2Try_some hi h1 ht
      have hz : gfSqr bch x^^^x≠0 ∧ st.xi.getD (aLog bch (gfSqr bch x^^^x)) 0=0 := by
        by_contra hc
        unfold deg2Try at ht
        rw [if_neg fun h => hc ⟨h.1,h.2.2⟩] at ht
        cases ht
      refine ⟨hi',grows_set hset,?_,fun hf => absurd hz.2 (hf hz.1 hr)⟩
      intro _ _
      rw [hset,getD_set_self _ _ (by rw [hi.flags]; exact hr)]
      exact one_ne_zero
    | none =>
      have hf1 : Found bch st (gfSqr bch x^^^x) := deg2Try_none ht
      cases ht2 : deg2Try bch x (gfSqr bch x^^^x^^^ak) st with
      | some st' =>
        obtain ⟨hi',hset,hr⟩ := deg2Try_some hi h2 ht2
        refine ⟨hi',grows_set hset,hf1.grows (grows_set hset),fun _ _ _ => ?_⟩
        rw [Option.getD_some,hset,getD_set_self _ _ (by rw [hi.flags]; exact hr)]
        exact one_ne_zero
      | none => exact ⟨hi,fun _ h => h,hf1,fun _ => deg2Try_none ht2⟩

/-- What the search has found after its first `k` rounds. -/
structure Deg2Run (S : ℕ → ℕ → Prop) (bch : BchControl) (ak k : ℕ) (st : Deg2State) : Prop where
  /-- The invariant of the rounds. -/
  inv : Deg2Inv S bch st
  /-- The entries of the values `x^2+x`. -/
  first : ∀ x<k, Found bch st (gfSqr bch x^^^x)
  /-- The entries of the values `x^2+x+ak` that have come up twice. -/
  second : ∀ x<k, ∀ x'<x, gfSqr bch x'^^^x'=gfSqr bch x^^^x → Found bch st (gfSqr bch x^^^x^^^ak)

theorem deg2Run {ak : ℕ} (hcells : bch.xiTab.length=bch.m) (k : ℕ)
    (h1 : ∀ x<k, gfSqr bch x^^^x≠0 → S (aLog bch (gfSqr bch x^^^x)) x)
    (h2 : ∀ x<k, gfSqr bch x^^^x^^^ak≠0 → S (aLog bch (gfSqr bch x^^^x^^^ak)) x) :
    Deg2Run S bch ak k ((List.range k).foldl (deg2Step bch ak)
      ⟨bch.xiTab,List.replicate bch.m 0,bch.m⟩) := by
  induction k with
  | zero =>
    refine ⟨⟨List.length_replicate,hcells,by simp,?_⟩,by simp,by simp⟩
    intro r hr hne
    simp [hr] at hne
  | succ k ih =>
    have hk := ih (fun x hx => h1 x (by omega)) (fun x hx => h2 x (by omega))
    rw [List.range_succ,List.foldl_append,List.foldl_cons,List.foldl_nil]
    obtain ⟨hi,hg,hf,hf2⟩ := deg2Step_spec hk.inv (h1 k (by omega)) (h2 k (by omega))
    refine ⟨hi,fun x hx => ?_,fun x hx x' hx' he => ?_⟩
    · rcases Nat.lt_succ_iff_lt_or_eq.mp hx with hlt | rfl
      · exact (hk.first x hlt).grows hg
      · exact hf
    · rcases Nat.lt_succ_iff_lt_or_eq.mp hx with hlt | rfl
      · exact (hk.second x hlt x' hx' he).grows hg
      · exact hf2 (he ▸ hk.first x' hx')

/-- The base is built when every entry comes up, either as `x^2+x` or
twice as `x^2+x+ak`. -/
theorem buildDeg2Base_some (hcells : bch.xiTab.length=bch.m)
    (h1 : ∀ x≤bch.n, gfSqr bch x^^^x≠0 → S (aLog bch (gfSqr bch x^^^x)) x)
    (h2 : ∀ x≤bch.n, gfSqr bch x^^^x^^^deg2Ak bch≠0 → S (aLog bch (gfSqr bch x^^^x^^^deg2Ak bch)) x)
    (hall : ∀ r < bch.m, (∃ x≤bch.n, gfSqr bch x^^^x≠0 ∧ aLog bch (gfSqr bch x^^^x)=r) ∨
      ∃ x≤bch.n, ∃ x'<x, gfSqr bch x'^^^x'=gfSqr bch x^^^x ∧
        gfSqr bch x^^^x^^^deg2Ak bch≠0 ∧ aLog bch (gfSqr bch x^^^x^^^deg2Ak bch)=r) :
    ∃ xi, buildDeg2Base bch=some {bch with xiTab := xi} ∧ ∀ r < bch.m, S r (xi.getD r 0) := by
  have hrun := deg2Run (S := S) hcells (bch.n+1)
    (fun x hx => h1 x (by omega)) (fun x hx => h2 x (by omega))
  have hfull : ∀ r < bch.m, ((List.range (bch.n+1)).foldl (deg2Step bch (deg2Ak bch))
      ⟨bch.xiTab,List.replicate bch.m 0,bch.m⟩).xi.getD r 0≠0 := by
    intro r hr
    rcases hall r hr with ⟨x,hx,hy,rfl⟩ | ⟨x,hx,x',hx',he,hy,rfl⟩
    · exact hrun.first x (by omega) hy hr
    · exact hrun.second x (by omega) x' hx' he hy hr
  refine ⟨_,?_,fun r hr => hrun.inv.good r hr (hfull r hr)⟩
  unfold buildDeg2Base
  rw [if_neg (not_not.mpr (hrun.inv.remaining_zero hfull))]

end Search

section Deg2

variable {F : Type*} [Field F] [CharP F 2] {α : F} {bch : BchControl}

/-- The entry `x` solves `x^2+x=a^r` when that has trace zero, and the
same with `κ` added when it has trace one. -/
def SolvesDeg2 (α κ : F) (m r x : ℕ) : Prop :=
  x<2^m ∧ bitSum α x^2+bitSum α x=α^r+tr m (α^r)*κ

/-- The base for equations of degree two. -/
structure Deg2Base (α : F) (bch : BchControl) : Prop where
  /-- One element of trace one serves all entries. -/
  base : ∃ κ, tr bch.m κ=1 ∧ ∀ r < bch.m, SolvesDeg2 α κ bch.m r (bch.xiTab.getD r 0)

/-- A loop of additions adds up the elements. -/
theorem bitSum_foldl_xor (α : F) (f : ℕ → ℕ) (k s : ℕ) :
    bitSum α ((List.range k).foldl (fun sum j => sum^^^f j) s)=
      bitSum α s+∑ j ∈ Finset.range k, bitSum α (f j) := by
  induction k with
  | zero => simp
  | succ k ih =>
    rw [List.range_succ,List.foldl_append,List.foldl_cons,List.foldl_nil,bitSum_xor,ih,
      Finset.sum_range_succ,add_assoc]

omit [CharP F 2] in
theorem foldl_xor_lt {m : ℕ} (f : ℕ → ℕ) (k s : ℕ) (hs : s<2^m) (hf : ∀ j<k, f j<2^m) :
    (List.range k).foldl (fun sum j => sum^^^f j) s<2^m := by
  induction k with
  | zero => exact hs
  | succ k ih =>
    rw [List.range_succ,List.foldl_append,List.foldl_cons,List.foldl_nil]
    exact Nat.xor_lt_two_pow (ih fun j hj => hf j (by omega)) (hf k (by omega))

/-- The sum of conjugates computed by the library is the trace. -/
theorem bitSum_traceSum (h : FieldTables α bch) (i : ℕ) : bitSum α (traceSum bch i)=tr bch.m (α^i) := by
  rw [traceSum,bitSum_foldl_xor,bitSum_zero,zero_add,tr]
  apply Finset.sum_congr rfl
  intro j _
  rw [h.bitSum_aPow,Nat.shiftLeft_eq,Nat.one_mul,pow_mul]

variable [Finite F]

/-- Some power of the generator below `m` has a trace, and `ak` is the first such. -/
theorem deg2Ak_spec (h : FieldTables α bch) :
    deg2Ak bch<2^bch.m ∧ tr bch.m (bitSum α (deg2Ak bch))=1 := by
  have hr := h.range
  have hn := h.n_ge
  have hmn : bch.m<bch.n := by
    have := h.n_eq
    have := Nat.lt_two_pow_self (n := bch.m-1)
    have h2 : 2^bch.m=2*2^(bch.m-1) := by rw [←pow_succ']; congr 1; omega
    omega
  have hex : ∃ i < bch.m, traceSum bch i≠0 := by
    by_contra hc
    push Not at hc
    obtain ⟨x,hx⟩ := h.prim.exists_tr_ne_zero (by omega)
    obtain ⟨a,ha,rfl⟩ := h.prim.exists_bits x
    apply hx
    rw [bitSum_eq_sum α ha,tr_sum]
    apply Finset.sum_eq_zero
    intro i hi
    split
    · rw [←bitSum_traceSum h,hc i (Finset.mem_range.mp hi),bitSum_zero]
    · exact tr_zero _
  unfold deg2Ak
  cases hf : (List.range bch.m).find? (fun i => traceSum bch i≠0) with
  | none =>
    obtain ⟨i,hi,hne⟩ := hex
    have := List.find?_eq_none.mp hf i (List.mem_range.mpr hi)
    simp [hne] at this
  | some i =>
    have hi := List.mem_range.mp (List.mem_of_find?_eq_some hf)
    have hne : traceSum bch i≠0 := by simpa using List.find?_some hf
    dsimp only
    rw [h.bitSum_pow (by omega)]
    refine ⟨h.pow_lt (by omega),?_⟩
    have hlt : traceSum bch i<2^bch.m :=
      foldl_xor_lt _ _ _ (Nat.two_pow_pos _) fun j _ => h.aPow_lt _
    rcases tr_zero_or_one (h.prim.frobenius (α^i)) with h0 | h1
    · rw [←bitSum_traceSum h] at h0
      exact absurd ((h.bitSum_eq_zero hlt).mp h0) hne
    · exact h1

/-- A value `x^2+x` that is a power of the generator solves its own entry. -/
theorem solves_first (h : FieldTables α bch) {κ : F} {x : ℕ} (hx : x<2^bch.m) (r : ℕ)
    (hr : aLog bch (gfSqr bch x^^^x)=r) (hy : gfSqr bch x^^^x≠0) : SolvesDeg2 α κ bch.m r x := by
  have hlt : gfSqr bch x^^^x<2^bch.m := Nat.xor_lt_two_pow (h.gfSqr_lt hx) hx
  have he : bitSum α x^2+bitSum α x=α^r := by
    rw [←hr,h.pow_aLog hy hlt,bitSum_xor,h.bitSum_gfSqr hx]
  refine ⟨hx,?_⟩
  rw [he,←he,tr_add,tr_sq (h.prim.frobenius _),CharTwo.add_self_eq_zero,zero_mul,add_zero]

/-- A value `x^2+x+κ` that is a power of the generator solves its own entry. -/
theorem solves_second (h : FieldTables α bch) {x ak : ℕ} (hx : x<2^bch.m) (hak : ak<2^bch.m)
    (htr : tr bch.m (bitSum α ak)=1) (r : ℕ) (hr : aLog bch (gfSqr bch x^^^x^^^ak)=r)
    (hy : gfSqr bch x^^^x^^^ak≠0) : SolvesDeg2 α (bitSum α ak) bch.m r x := by
  have hlt : gfSqr bch x^^^x^^^ak<2^bch.m :=
    Nat.xor_lt_two_pow (Nat.xor_lt_two_pow (h.gfSqr_lt hx) hx) hak
  have he : bitSum α x^2+bitSum α x+bitSum α ak=α^r := by
    rw [←hr,h.pow_aLog hy hlt,bitSum_xor,bitSum_xor,h.bitSum_gfSqr hx]
  have ht : tr bch.m (α^r)=1 := by
    rw [←he,tr_add,tr_add,tr_sq (h.prim.frobenius _),CharTwo.add_self_eq_zero,zero_add,htr]
  refine ⟨hx,?_⟩
  rw [ht,one_mul,←he,add_assoc,CharTwo.add_self_eq_zero,add_zero]

/-- The search finds a base for every field. -/
theorem buildDeg2Base_field (h : FieldTables α bch) (hcells : bch.xiTab.length=bch.m) :
    ∃ xi, buildDeg2Base bch=some {bch with xiTab := xi} ∧ Deg2Base α {bch with xiTab := xi} := by
  have hr := h.range
  have hn := h.n_eq
  have hlt := h.n_lt
  have hp := Nat.two_pow_pos bch.m
  obtain ⟨hak,htr⟩ := deg2Ak_spec h
  have hbs : ∀ x<2^bch.m, bitSum α (gfSqr bch x^^^x)=bitSum α x^2+bitSum α x := by
    intro x hx
    rw [bitSum_xor,h.bitSum_gfSqr hx]
  have hyl : ∀ x<2^bch.m, gfSqr bch x^^^x<2^bch.m := fun x hx => Nat.xor_lt_two_pow (h.gfSqr_lt hx) hx
  have hall : ∀ r < bch.m, (∃ x≤bch.n, gfSqr bch x^^^x≠0 ∧ aLog bch (gfSqr bch x^^^x)=r) ∨
      ∃ x≤bch.n, ∃ x'<x, gfSqr bch x'^^^x'=gfSqr bch x^^^x ∧
        gfSqr bch x^^^x^^^deg2Ak bch≠0 ∧ aLog bch (gfSqr bch x^^^x^^^deg2Ak bch)=r := by
    intro r hrm
    have hrn : r<bch.n := by
      have := Nat.lt_two_pow_self (n := bch.m-1)
      have h2 : 2^bch.m=2*2^(bch.m-1) := by rw [←pow_succ']; congr 1; omega
      omega
    have hne : ∀ y<2^bch.m, bitSum α y=α^r → y≠0 ∧ aLog bch y=r := by
      intro y hy he
      refine ⟨?_,h.aLog_eq hy hrn he⟩
      rintro rfl
      rw [bitSum_zero] at he
      exact pow_ne_zero r h.ne_zero he.symm
    rcases tr_zero_or_one (h.prim.frobenius (α^r)) with h0 | h1
    · obtain ⟨z,hz⟩ := h.prim.exists_sq_add (by omega) h0
      obtain ⟨x,hx,rfl⟩ := h.prim.exists_bits z
      exact Or.inl ⟨x,by omega,hne _ (hyl x hx) (by rw [hbs x hx,hz])⟩
    · -- both solutions of the shifted equation are tried, the second one last
      obtain ⟨z,hz⟩ := h.prim.exists_sq_add (by omega) (u := α^r+bitSum α (deg2Ak bch))
        (by rw [tr_add,h1,htr,CharTwo.add_self_eq_zero])
      obtain ⟨a,ha,rfl⟩ := h.prim.exists_bits z
      have hb : a^^^1<2^bch.m := Nat.xor_lt_two_pow ha (by omega)
      have hab : bitSum α (gfSqr bch (a^^^1)^^^(a^^^1))=bitSum α (gfSqr bch a^^^a) := by
        rw [hbs _ hb,hbs a ha,bitSum_xor,bitSum_one,add_pow_char,one_pow]
        calc bitSum α a^2+1+(bitSum α a+1)=bitSum α a^2+bitSum α a+(1+1) := by ring
          _=bitSum α a^2+bitSum α a := by rw [CharTwo.add_self_eq_zero,add_zero]
      have heq := h.prim.inj (hyl _ hb) (hyl a ha) hab
      have hsol : gfSqr bch a^^^a^^^deg2Ak bch≠0 ∧ aLog bch (gfSqr bch a^^^a^^^deg2Ak bch)=r := by
        apply hne _ (Nat.xor_lt_two_pow (hyl a ha) hak)
        rw [bitSum_xor,hbs a ha,hz,add_assoc,CharTwo.add_self_eq_zero,add_zero]
      right
      have hcase : a^^^1<a ∨ a<a^^^1 := by
        rcases Nat.lt_trichotomy (a^^^1) a with hl | he | hl
        · exact Or.inl hl
        · have : a^^^(a^^^1)=a^^^a := by rw [he]
          rw [←Nat.xor_assoc,Nat.xor_self,Nat.zero_xor] at this
          omega
        · exact Or.inr hl
      rcases hcase with hl | hl
      · exact ⟨a,by omega,a^^^1,hl,heq,hsol⟩
      · exact ⟨a^^^1,by omega,a,hl,heq.symm,by rw [heq]; exact hsol⟩
  obtain ⟨xi,he,hs⟩ := buildDeg2Base_some (S := SolvesDeg2 α (bitSum α (deg2Ak bch)) bch.m) hcells
    (fun x hx hy => solves_first h (by omega) _ rfl hy)
    (fun x hx hy => solves_second h (by omega) hak htr _ rfl hy) hall
  exact ⟨xi,he,⟨_,htr,hs⟩⟩

end Deg2

end ArdroneKernel.BchTables
