import ArdroneKernel.BchTables

/-!
# Which parameters `init_bch` accepts

For a primitive polynomial every builder succeeds. A polynomial with a
constant term that is not primitive is refused by `build_gf_tables`. A
polynomial without a constant term passes that test, because its powers
never come back to one, and whether `build_deg2_base` then refuses it
depends on what the allocator left in the logarithm table. The product
`m*t` of the size test is a C `int` and wraps around.
-/

namespace ArdroneKernel.BchAcceptance

open BitPolynomial PrimitivePolynomial ArrayList BchInit BchField BchTables

/-- What every control structure returned by `init_bch` satisfies,
whatever the polynomial. -/
structure Built (bch : BchControl) : Prop where
  /-- The field orders that the library accepts. -/
  range : 5 ≤ bch.m ∧ bch.m ≤ 15
  /-- At least one error is corrected. -/
  t_pos : 1≤bch.t
  /-- The codeword size. -/
  n_eq : bch.n=2^bch.m-1
  /-- The parity size is the degree of the generator. -/
  eccBits_eq : bch.eccBits=(computeGeneratorPolynomial bch).2
  /-- The remainder tables are those of the generator. -/
  mod8_eq : bch.mod8Tab=(buildMod8Tables bch (computeGeneratorPolynomial bch).1).mod8Tab
  /-- The parity bytes hold `m*t` bits. -/
  eccBytes_eq : bch.eccBytes=(bch.m*bch.t+7)/8
  /-- Size of the first parity buffer. -/
  eccBufLength : bch.eccBuf.length=eccWords bch
  /-- Size of the second parity buffer. -/
  eccBuf2Length : bch.eccBuf2.length=eccWords bch
  /-- Size of the syndrome buffer. -/
  synLength : bch.syn.length=2*bch.t
  /-- Size of the storage for the locator and its factors. -/
  elpLength : bch.elp.length=3*(bch.t+1)

theorem length_bchAlloc (uninit : ℕ → ℕ → ℕ) (slot width size : ℕ) :
    (bchAlloc uninit slot width size).length=size := by
  rw [bchAlloc,List.length_map,List.length_range]

theorem getD_bchAlloc (uninit : ℕ → ℕ → ℕ) (slot width : ℕ) {size i : ℕ} (h : i<size) :
    (bchAlloc uninit slot width size).getD i 0=uninit slot i%2^width :=
  getD_range_map _ _ h

theorem paramsAccepted_iff (m t : ℤ) :
    paramsAccepted m t=true ↔ 5 ≤ m ∧ m ≤ 15 ∧ 1≤t ∧ (m*t).bmod (2^32)<2^m.toNat-1 := by
  simp [paramsAccepted]

section Congr

variable {b b' : BchControl} (hm : b'.m=b.m) (hn : b'.n=b.n) (hpow : b'.aPowTab=b.aPowTab)
  (hlog : b'.aLogTab=b.aLogTab)

include hn

theorem modS_congr (v : ℕ) : modS b' v=modS b v := by rw [modS,modS,hn]

theorem markCoset_congr (fuel r : ℕ) (roots : List ℕ) :
    markCoset b' fuel r roots=markCoset b fuel r roots := by
  induction fuel generalizing r roots with
  | zero => rfl
  | succ fuel ih => rw [markCoset,markCoset,modS_congr hn,ih]

include hpow hlog

theorem gfMul_congr (x y : ℕ) : gfMul b' x y=gfMul b x y := by
  rw [gfMul,gfMul,modS_congr hn,aLog,aLog,aLog,aLog,hpow,hlog]

theorem mulRoot_congr (r prev : ℕ) (c : List ℕ) : mulRoot b' r prev c=mulRoot b r prev c := by
  induction c generalizing prev with
  | nil => rfl
  | cons x c ih => rw [mulRoot,mulRoot,gfMul_congr hn hpow hlog,ih]

include hm in
/-- The generator only depends on the parameters and the field tables. -/
theorem generatorCoeffs_congr (ht : b'.t=b.t) : generatorCoeffs b'=generatorCoeffs b := by
  have hmark : markRoots b'=markRoots b := by
    simp only [markRoots,markCoset_congr hn,ht,hn,hm]
  simp only [generatorCoeffs,mulRoot_congr hn hpow hlog,hmark,hn,hpow]

include hm in
theorem computeGeneratorPolynomial_congr (ht : b'.t=b.t) :
    computeGeneratorPolynomial b'=computeGeneratorPolynomial b := by
  rw [computeGeneratorPolynomial,computeGeneratorPolynomial,generatorCoeffs_congr hm hn hpow hlog ht]

end Congr

section Alloc

variable (uninit : ℕ → ℕ → ℕ) {m t : ℕ}

theorem fresh_allocBch (h5 : 5 ≤ m) (h15 : m ≤ 15) : Fresh (allocBch uninit m t) where
  range := ⟨h5,h15⟩
  n_eq := by
    change (1<<<m)-1=2^m-1
    rw [Nat.shiftLeft_eq,Nat.one_mul]
  powLength := by
    change (bchAlloc _ _ _ _).length=2^m
    rw [length_bchAlloc,Nat.shiftLeft_eq,Nat.one_mul]
  logLength := by
    change (bchAlloc _ _ _ _).length=2^m
    rw [length_bchAlloc,Nat.shiftLeft_eq,Nat.one_mul]

/-- The builders only write their own tables. -/
theorem buildBch_inv {bch bch' : BchControl} {poly : ℕ} (h : buildBch bch poly=some bch') :
    ∃ pow log b1 xi, b1={bch with aPowTab := pow,aLogTab := log} ∧ buildGfTables bch poly=some b1 ∧
      ∃ g, g=computeGeneratorPolynomial b1 ∧ bch'={b1 with
        eccBits := g.2
        mod8Tab := (List.range 1024).flatMap fun q =>
          mod8Row {b1 with eccBits := g.2} g.1 (q/256) (q%256)
        xiTab := xi} := by
  unfold buildBch at h
  split at h
  · cases h
  · next b1 hb =>
    have hb1 : ∃ pow log, b1={bch with aPowTab := pow,aLogTab := log} := by
      unfold buildGfTables at hb
      dsimp only at hb
      split at hb
      · cases hb
      · split at hb
        · cases hb
        · cases hb
          exact ⟨_,_,rfl⟩
    obtain ⟨pow,log,he⟩ := hb1
    obtain ⟨g,hg⟩ : ∃ g, g=computeGeneratorPolynomial b1 := ⟨_,rfl⟩
    rw [←hg] at h
    unfold buildDeg2Base buildMod8Tables at h
    dsimp only at h
    split at h
    · cases h
    · injection h with h
      exact ⟨pow,log,b1,_,he,hb,g,hg,h.symm⟩

/-- The structure returned by `init_bch`, read back. -/
theorem initBch_built {bch : BchControl} {m t : ℤ} {primPoly : ℕ}
    (h : initBch uninit m t primPoly=some bch) :
    Built bch ∧ bch.m=m.toNat ∧ bch.t=t.toNat ∧ paramsAccepted m t=true ∧
      buildBch (allocBch uninit m.toNat t.toNat) (choosePoly m.toNat primPoly)=some bch := by
  unfold initBch at h
  split at h
  · next hp =>
    obtain ⟨h5,h15,ht,-⟩ := (paramsAccepted_iff m t).mp hp
    have hf := fresh_allocBch uninit (m := m.toNat) (t := t.toNat) (by omega) (by omega)
    obtain ⟨pow,log,b1,xi,hb1,-,g,hgd,hbch⟩ := buildBch_inv h
    have hm : bch.m=m.toNat := by rw [hbch,hb1]; rfl
    have htt : bch.t=t.toNat := by rw [hbch,hb1]; rfl
    have hg : computeGeneratorPolynomial bch=g := by
      rw [hgd]
      apply computeGeneratorPolynomial_congr <;> rw [hbch]
    refine ⟨?_,hm,htt,hp,h⟩
    refine ⟨?_,by omega,?_,?_,?_,?_,?_,?_,?_,?_⟩
    · rw [hm]
      exact hf.range
    · rw [hm,hbch,hb1]
      exact hf.n_eq
    · rw [hg,hbch]
    · rw [hg,hbch,buildMod8Tables]
      simp only [mod8Row,eccWords]
    · rw [hbch,hb1]
      rfl
    · rw [hbch,hb1]
      exact length_bchAlloc _ _ _ _
    · rw [hbch,hb1]
      exact length_bchAlloc _ _ _ _
    · rw [hbch,hb1]
      exact length_bchAlloc _ _ _ _
    · rw [hbch,hb1]
      exact length_bchAlloc _ _ _ _
  · cases h

end Alloc

section Primitive

variable {bch : BchControl} {poly : ℕ}

theorem fieldTables_congr {F : Type*} [Field F] [CharP F 2] {α : F} {b b' : BchControl}
    (h : FieldTables α b) (hm : b'.m=b.m) (hn : b'.n=b.n) (hpow : b'.aPowTab=b.aPowTab)
    (hlog : b'.aLogTab=b.aLogTab) : FieldTables α b' := by
  have hal : ∀ x, aLog b' x=aLog b x := by
    intro x
    rw [aLog,aLog,hlog]
  refine ⟨hm ▸ h.range,by rw [hn,hm,h.n_eq],hm ▸ h.prim,?_,?_,?_⟩
  · intro i hi
    rw [hm,hpow]
    exact h.pow i (by omega)
  · intro a ha ha'
    rw [hal,hn]
    exact h.log a ha (by rwa [hm] at ha')
  · rw [hal]
    exact h.log_zero

/-- For a primitive polynomial all builders succeed. -/
theorem buildBch_primitive [Fact (Irreducible (bitPoly poly))] (hf : Fresh bch)
    (hcells : bch.xiTab.length=bch.m) (hl : 2^bch.m≤poly) (hu : poly<2^(bch.m+1))
    (hp : IsPrimitivePoly (bitPoly poly)) :
    ∃ bch', buildBch bch poly=some bch' ∧ FieldTables (AdjoinRoot.root (bitPoly poly)) bch' ∧
      Deg2Base (AdjoinRoot.root (bitPoly poly)) bch' := by
  have := finite_adjoinRoot (monic_bitPoly hl hu).1
  obtain ⟨pow,log,he,ht⟩ := fieldTables_of_primitive hf hl hu hp
  unfold buildBch
  rw [he]
  dsimp only
  set b := buildMod8Tables _ _ with hb
  have htb : FieldTables (AdjoinRoot.root (bitPoly poly)) b := fieldTables_congr ht rfl rfl rfl rfl
  obtain ⟨xi,hxi,hbase⟩ := buildDeg2Base_field htb hcells
  exact ⟨_,hxi,fieldTables_congr htb rfl rfl rfl rfl,hbase⟩

end Primitive

section NoConstantTerm

/-- Contents of the logarithm table that make every entry of the base
come up when the odd patterns are never written. -/
def leftover (slot i : ℕ) : ℕ :=
  if slot=1 then if i%8=5 then 2*(i/8)-1 else if i%8=7 then 2*(i/8) else 1 else 0

/-- The pattern whose leftover logarithm is `r`. -/
def leftoverArg (r : ℕ) : ℕ := if r%2=1 then 8*((r+1)/2)+5 else 8*(r/2)+7

theorem leftover_arg (r : ℕ) : leftover 1 (leftoverArg r)=r ∧ leftover 1 (leftoverArg r^^^4)=1 ∧
    leftoverArg r%2=1 ∧ (leftoverArg r^^^4)%2=1 := by
  have hx : ∀ k b, b<8 → (8*k+b)^^^4=8*k+(b^^^4) := by
    intro k b hb
    have h1 := Nat.two_pow_add_eq_or_of_lt (i := 3) (b := b) (by omega) k
    have hb4 : b^^^4<2^3 := Nat.xor_lt_two_pow (by omega) (by omega)
    have h2 := Nat.two_pow_add_eq_or_of_lt (i := 3) (b := b^^^4) hb4 k
    rw [h1,h2]
    apply Nat.eq_of_testBit_eq
    intro i
    rcases Nat.lt_or_ge i 3 with hi | hi
    · have h8 : (8*k).testBit i=false := by
        have : 8*k=2^3*k := by ring
        rw [this,Nat.testBit_two_pow_mul]
        simp; omega
      simp [h8]
    · have hb' : b.testBit i=false := Nat.testBit_lt_two_pow
        (lt_of_lt_of_le (by omega : b<2^3) (Nat.pow_le_pow_right (by omega) hi))
      have h4' : (4 : ℕ).testBit i=false := Nat.testBit_lt_two_pow
        (lt_of_lt_of_le (by omega : 4<2^3) (Nat.pow_le_pow_right (by omega) hi))
      simp [hb',h4']
  unfold leftoverArg
  split
  · have h5 : (5 : ℕ)^^^4=1 := rfl
    rw [hx _ _ (by omega),h5,leftover,leftover]
    refine ⟨?_,?_,by omega,by omega⟩
    · rw [if_pos rfl,if_pos (by omega)]
      omega
    · rw [if_pos rfl,if_neg (by omega),if_neg (by omega)]
  · have h7 : (7 : ℕ)^^^4=3 := rfl
    rw [hx _ _ (by omega),h7,leftover,leftover]
    refine ⟨?_,?_,by omega,by omega⟩
    · rw [if_pos rfl,if_neg (by omega),if_pos (by omega)]
      omega
    · rw [if_pos rfl,if_neg (by omega),if_neg (by omega)]

theorem leftoverArg_lt {r m : ℕ} (h5 : 5 ≤ m) (hr : r < m) : leftoverArg r<2^m := by
  have h32 : ∀ k, 8*(k+5)≤2^(k+5)+8*3 := by
    intro k
    induction k with
    | zero => norm_num
    | succ k ih =>
      have hk : 2^(k+1+5)=2*2^(k+5) := by ring
      omega
  have hm := h32 (m-5)
  have hp : 2^5≤2^m := Nat.pow_le_pow_right (by omega) h5
  rw [Nat.sub_add_cancel h5] at hm
  unfold leftoverArg
  split <;> omega

/-- With these leftovers a polynomial without a constant term is accepted. -/
theorem buildBch_even {m t poly : ℕ} (h5 : 5 ≤ m) (h15 : m ≤ 15) (hl : 2^m≤poly)
    (hu : poly<2^(m+1)) (heven : poly%2=0) :
    ∃ bch, buildBch (allocBch leftover m t) poly=some bch := by
  have hf := fresh_allocBch leftover (t := t) h5 h15
  have h32 : 2^5≤2^m := Nat.pow_le_pow_right (by omega) h5
  have hnm : (allocBch leftover m t).n=2^m-1 := hf.n_eq
  have hseq : ∀ j, 0<j → powSeq (2^m) poly j%2=0 := by
    intro j hj
    obtain ⟨i,rfl⟩ := Nat.exists_eq_succ_of_ne_zero (Nat.ne_of_gt hj)
    exact powSeq_even heven i
  obtain ⟨pow,log,he,ht⟩ := buildGfTables_some hf hl hu (by
    intro j hj _ hone
    have h0 : powSeq (2^m) poly j%2=0 := hseq j hj
    rw [show powSeq (2^m) poly j=1 from hone] at h0
    omega)
  unfold buildBch
  rw [he]
  dsimp only
  set b := buildMod8Tables _ _ with hb
  have hbm : b.m=m := rfl
  have hbn : b.n=2^m-1 := hnm
  -- odd patterns other than one are never written
  have hlog : ∀ x, x<2^m → x%2=1 → 1<x → aLog b x=leftover 1 x%2^16 := by
    intro x hx hodd h1
    have hset : aLog b x=(log.set 0 0).getD x 0 := rfl
    have hfirst : (allocBch leftover m t).aLogTab.getD x 0=leftover 1 x%2^16 :=
      getD_bchAlloc _ _ _ (by rwa [Nat.shiftLeft_eq,Nat.one_mul])
    rw [hset,getD_set_ne _ _ _ (by omega),ht.logKept,hfirst]
    intro j _ _ hj
    rcases Nat.eq_zero_or_pos j with rfl | hpos
    · rw [powSeq] at hj
      omega
    · have h0 := hseq j hpos
      rw [show powSeq (2^m) poly j=x from hj] at h0
      omega
  have hpow2 : b.aPowTab.getD 2 0=4 := by
    have hset : b.aPowTab.getD 2 0=(pow.set (allocBch leftover m t).n 1).getD 2 0 := rfl
    have hstep : ∀ i, powSeq (2^m) poly i<<<1<2^m → powSeq (2^m) poly (i+1)=powSeq (2^m) poly i<<<1 := by
      intro i hi
      have hand := (and_two_pow_ne_zero (m := m) (y := powSeq (2^m) poly i<<<1) (by omega)).not.mpr (by omega)
      exact if_neg hand
    have hs1 : powSeq (2^m) poly 1=2 := hstep 0 (by change 2<2^m; omega)
    have hs : powSeq (2^m) poly 2=4 := by
      rw [hstep 1 (by rw [hs1]; change 4<2^m; omega),hs1]
      rfl
    rw [hset,getD_set_ne _ _ _ (by omega),
      ht.powNew 2 (by omega) (by omega) (by rw [hf.powLength]; change 2<2^m; omega)]
    exact hs
  obtain ⟨xi,hxi,-⟩ := @buildDeg2Base_some b (fun _ _ => True)
    (length_bchAlloc leftover 5 32 m) (fun _ _ _ => trivial) (fun _ _ _ => trivial) (by
      intro r hr
      left
      obtain ⟨hr1,hr2,hodd,hodd'⟩ := leftover_arg r
      have hlt := leftoverArg_lt h5 hr
      have hlt' : leftoverArg r^^^4<2^m := Nat.xor_lt_two_pow hlt (by omega)
      have hgt : 1<leftoverArg r := by
        unfold leftoverArg
        split <;> omega
      have hgt' : 1<leftoverArg r^^^4 := by
        by_contra hc
        have h1 : leftoverArg r^^^4=1 := by omega
        have h5' : leftoverArg r=5 := by
          have := congrArg (·^^^4) h1
          simpa [Nat.xor_assoc] using this
        unfold leftoverArg at h5'
        split at h5' <;> omega
      have hsq : gfSqr b (leftoverArg r^^^4)=4 := by
        rw [gfSqr,if_pos (by omega),hlog _ hlt' hodd' hgt',hr2,modS,if_pos (by omega)]
        exact hpow2
      have hx : gfSqr b (leftoverArg r^^^4)^^^(leftoverArg r^^^4)=leftoverArg r := by
        rw [hsq,Nat.xor_comm (leftoverArg r),←Nat.xor_assoc,Nat.xor_self,Nat.zero_xor]
      refine ⟨leftoverArg r^^^4,by omega,by omega,?_⟩
      rw [hx,hlog _ hlt hodd hgt,hr1]
      exact Nat.mod_eq_of_lt (by omega))
  exact ⟨_,hxi⟩

end NoConstantTerm

/-- The parameters that the library is documented for. -/
structure ValidParams (m t : ℤ) (poly : ℕ) : Prop where
  /-- The field order. -/
  range : 5 ≤ m ∧ m ≤ 15
  /-- At least one error is to be corrected. -/
  t_pos : 1≤t
  /-- The parity is smaller than a codeword. -/
  size : m*t<2^m.toNat-1
  /-- The polynomial has the degree of the field. -/
  degree : ((bitPoly poly).natDegree : ℤ)=m
  /-- The polynomial is primitive. -/
  primitive : IsPrimitivePoly (bitPoly poly)

/-- The class of a bit pattern modulo the polynomial. -/
noncomputable def element (poly a : ℕ) : AdjoinRoot (bitPoly poly) := AdjoinRoot.mk _ (bitPoly a)

/-- The tables and the functions over them are those of the quotient by
the polynomial. -/
structure FieldOps (bch : BchControl) (poly : ℕ) : Prop where
  /-- The logarithm table inverts the exponentiation table. -/
  powLog : ∀ i<bch.n, 0<bch.aPowTab.getD i 0 ∧ bch.aPowTab.getD i 0<2^bch.m ∧
    aLog bch (bch.aPowTab.getD i 0)=i
  /-- The exponentiation table inverts the logarithm table. -/
  logPow : ∀ a, 0<a → a<2^bch.m → aLog bch a<bch.n ∧ bch.aPowTab.getD (aLog bch a) 0=a
  /-- Multiplication. -/
  mul : ∀ a b, a<2^bch.m → b<2^bch.m → gfMul bch a b<2^bch.m ∧
    element poly (gfMul bch a b)=element poly a*element poly b
  /-- Squaring. -/
  sqr : ∀ a, a<2^bch.m → gfSqr bch a<2^bch.m ∧ element poly (gfSqr bch a)=element poly a^2
  /-- Division. -/
  div : ∀ a b, a<2^bch.m → 0<b → b<2^bch.m → gfDiv bch a b<2^bch.m ∧
    element poly (gfDiv bch a b)*element poly b=element poly a
  /-- Inversion. -/
  inv : ∀ a, 0<a → a<2^bch.m → gfInv bch a<2^bch.m ∧ element poly (gfInv bch a)*element poly a=1

/-- `init_bch` accepts exactly the documented parameters, whatever the
allocator left in memory, and what it returns computes in the field. -/
def AcceptsExactly (m t : ℤ) (primPoly : ℕ) : Prop :=
  ∀ uninit, ((∃ bch, initBch uninit m t primPoly=some bch) ↔ ValidParams m t (choosePoly m.toNat primPoly)) ∧
    ∀ bch, initBch uninit m t primPoly=some bch → FieldOps bch (choosePoly m.toNat primPoly)

/-- Tables of the root of the polynomial compute in the quotient. -/
theorem fieldOps_of_tables {bch : BchControl} {poly : ℕ} [Fact (Irreducible (bitPoly poly))]
    (h : FieldTables (AdjoinRoot.root (bitPoly poly)) bch) : FieldOps bch poly := by
  have hel : ∀ a, element poly a=bitSum (AdjoinRoot.root (bitPoly poly)) a :=
    fun a => (bitSum_root _ a).symm
  refine ⟨?_,?_,?_,?_,?_,?_⟩
  · intro i hi
    have hlt := h.pow_lt hi.le
    refine ⟨Nat.pos_of_ne_zero ?_,hlt,h.aLog_eq hlt hi (h.bitSum_pow hi.le)⟩
    intro hz
    have hb := h.bitSum_pow hi.le
    rw [hz,bitSum_zero] at hb
    exact pow_ne_zero i h.ne_zero hb.symm
  · intro a ha0 ha
    have hl := h.aLog_lt ha
    refine ⟨hl,h.prim.inj (h.pow_lt hl.le) ha ?_⟩
    rw [h.bitSum_pow hl.le,h.pow_aLog (by omega) ha]
  · intro a b ha hb
    rw [hel,hel,hel,h.bitSum_gfMul ha hb]
    exact ⟨h.gfMul_lt ha hb,rfl⟩
  · intro a ha
    rw [hel,hel,h.bitSum_gfSqr ha]
    exact ⟨h.gfSqr_lt ha,rfl⟩
  · intro a b ha hb0 hb
    rw [hel,hel,hel,h.bitSum_gfDiv ha (by omega) hb,
      div_mul_cancel₀ _ (h.bitSum_ne_zero (by omega) hb)]
    exact ⟨h.gfDiv_lt ha hb,rfl⟩
  · intro a ha0 ha
    rw [hel,hel,h.bitSum_gfInv (by omega) ha,inv_mul_cancel₀ (h.bitSum_ne_zero (by omega) ha)]
    exact ⟨h.gfInv_lt a,rfl⟩

section Accept

variable {m t : ℤ} {primPoly : ℕ} {uninit : ℕ → ℕ → ℕ}

/-- The degree of a bit pattern as a range of numbers. -/
theorem natDegree_bitPoly_iff {p k : ℕ} (hk : 0<k) :
    (bitPoly p).natDegree=k ↔ 2^k≤p ∧ p<2^(k+1) := by
  constructor
  · intro h
    have hlt : (bitPoly p).degree<(k+1 : ℕ) :=
      lt_of_le_of_lt Polynomial.degree_le_natDegree (by rw [h]; exact_mod_cast Nat.lt_succ_self k)
    refine ⟨?_,degree_bitPoly_lt.mp hlt⟩
    by_contra hc
    have hd := degree_bitPoly_lt.mpr (Nat.not_le.mp hc)
    have hne : bitPoly p≠0 := by
      rintro hz
      rw [hz,Polynomial.natDegree_zero] at h
      omega
    have hn := (Polynomial.natDegree_lt_iff_degree_lt hne).mpr hd
    omega
  · intro h
    exact (monic_bitPoly h.1 h.2).2

/-- A primitive polynomial of degree two or more has a constant term. -/
theorem odd_of_primitive {poly : ℕ} (hd : 2≤(bitPoly poly).natDegree)
    (h : IsPrimitivePoly (bitPoly poly)) : poly%2=1 := by
  have hc := h.coeff_zero hd
  rw [coeff_bitPoly,Nat.testBit_zero] at hc
  by_contra hne
  rw [if_neg (by simpa using hne)] at hc
  exact zero_ne_one hc

/-- Documented parameters pass the size test, which cannot wrap around for them. -/
theorem ValidParams.accepted {poly : ℕ} (h : ValidParams m t poly) : paramsAccepted m t=true := by
  obtain ⟨h5,h15⟩ := h.range
  have ht := h.t_pos
  have hs := h.size
  have hpos : 0≤ m*t := by positivity
  have hle : (2:ℤ)^m.toNat≤2^15 := by
    exact_mod_cast Nat.pow_le_pow_right (n := 2) (by omega) (by omega : m.toNat≤15)
  rw [paramsAccepted_iff]
  refine ⟨h5,h15,ht,?_⟩
  rw [Int.bmod_eq_of_le (by omega) (by omega)]
  exact hs

/-- For a primitive polynomial of the right degree the builders succeed
and the result computes in the field. -/
theorem initBch_primitive (uninit : ℕ → ℕ → ℕ) (ha : paramsAccepted m t=true)
    (hd : ((bitPoly (choosePoly m.toNat primPoly)).natDegree : ℤ)=m)
    (hp : IsPrimitivePoly (bitPoly (choosePoly m.toNat primPoly))) :
    ∃ bch, initBch uninit m t primPoly=some bch ∧ FieldOps bch (choosePoly m.toNat primPoly) := by
  obtain ⟨h5,h15,ht,-⟩ := (paramsAccepted_iff m t).mp ha
  have : Fact (Irreducible (bitPoly (choosePoly m.toNat primPoly))) := ⟨hp.1⟩
  obtain ⟨hl,hu⟩ := (natDegree_bitPoly_iff (p := choosePoly m.toNat primPoly) (k := m.toNat)
    (by omega)).mp (by omega)
  obtain ⟨bch,hb,htab,-⟩ := buildBch_primitive
    (fresh_allocBch uninit (m := m.toNat) (t := t.toNat) (by omega) (by omega))
    (length_bchAlloc uninit 5 32 m.toNat) hl hu hp
  refine ⟨bch,?_,fieldOps_of_tables htab⟩
  rw [initBch,if_pos ha,hb]

/-- A polynomial with a constant term is refused unless it is primitive
and of the right degree. -/
theorem initBch_refused (hodd : choosePoly m.toNat primPoly%2=1)
    (h : ¬(((bitPoly (choosePoly m.toNat primPoly)).natDegree : ℤ)=m ∧
      IsPrimitivePoly (bitPoly (choosePoly m.toNat primPoly)))) :
    initBch uninit m t primPoly=none := by
  unfold initBch
  split
  · next ha =>
    obtain ⟨h5,h15,ht,-⟩ := (paramsAccepted_iff m t).mp ha
    have hf := fresh_allocBch uninit (m := m.toNat) (t := t.toNat) (by omega) (by omega)
    have hnone : buildGfTables (allocBch uninit m.toNat t.toNat) (choosePoly m.toNat primPoly)=none := by
      by_cases hd : (bitPoly (choosePoly m.toNat primPoly)).natDegree=m.toNat
      · obtain ⟨hl,hu⟩ := (natDegree_bitPoly_iff (by omega)).mp hd
        refine buildGfTables_not_primitive hf hl hu hodd fun hp => h ⟨?_,hp⟩
        rw [hd,Int.toNat_of_nonneg (by omega)]
      · exact buildGfTables_degree hf ((natDegree_bitPoly_iff (k := m.toNat) (by omega)).not.mp hd)
    rw [buildBch,hnone]
  · rfl

/-- A polynomial of another degree is refused. -/
theorem initBch_degree (hd : ((bitPoly (choosePoly m.toNat primPoly)).natDegree : ℤ)≠m) :
    initBch uninit m t primPoly=none := by
  unfold initBch
  split
  · next ha =>
    obtain ⟨h5,h15,ht,-⟩ := (paramsAccepted_iff m t).mp ha
    have hf := fresh_allocBch uninit (m := m.toNat) (t := t.toNat) (by omega) (by omega)
    rw [buildBch,buildGfTables_degree hf ((natDegree_bitPoly_iff (k := m.toNat) (by omega)).not.mp
      (by omega))]
  · rfl

/-- A structure returned for a primitive polynomial has the tables of its field. -/
theorem initBch_tables {bch : BchControl}
    [Fact (Irreducible (bitPoly (choosePoly m.toNat primPoly)))]
    (h : initBch uninit m t primPoly=some bch)
    (hp : IsPrimitivePoly (bitPoly (choosePoly m.toNat primPoly))) :
    FieldTables (AdjoinRoot.root (bitPoly (choosePoly m.toNat primPoly))) bch ∧
      Deg2Base (AdjoinRoot.root (bitPoly (choosePoly m.toNat primPoly))) bch := by
  obtain ⟨-,-,-,ha,hb⟩ := initBch_built uninit h
  obtain ⟨h5,h15,-,-⟩ := (paramsAccepted_iff m t).mp ha
  have hd : ((bitPoly (choosePoly m.toNat primPoly)).natDegree : ℤ)=m := by
    by_contra hne
    rw [initBch_degree hne] at h
    cases h
  obtain ⟨hl,hu⟩ := (natDegree_bitPoly_iff (p := choosePoly m.toNat primPoly) (k := m.toNat)
    (by omega)).mp (by omega)
  obtain ⟨bch',hb',htab,hbase⟩ := buildBch_primitive
    (fresh_allocBch uninit (m := m.toNat) (t := t.toNat) (by omega) (by omega))
    (length_bchAlloc uninit 5 32 m.toNat) hl hu hp
  obtain rfl : bch'=bch := Option.some.inj (hb'.symm.trans hb)
  exact ⟨htab,hbase⟩

/-- `init_bch` accepts exactly the documented parameters unless the
guards on `m` and `t` pass, the polynomial has degree `m`, and either it
has no constant term or the product `m*t` has wrapped around. -/
theorem acceptsExactly_iff (m t : ℤ) (primPoly : ℕ) :
    AcceptsExactly m t primPoly ↔
      ¬(paramsAccepted m t=true ∧ ((bitPoly (choosePoly m.toNat primPoly)).natDegree : ℤ)=m ∧
        (choosePoly m.toNat primPoly%2=0 ∨
          (IsPrimitivePoly (bitPoly (choosePoly m.toNat primPoly)) ∧ 2^m.toNat-1≤ m*t))) := by
  constructor
  · rintro hacc ⟨ha,hd,hbad⟩
    obtain ⟨h5,h15,ht,-⟩ := (paramsAccepted_iff m t).mp ha
    rcases hbad with heven | ⟨hp,hsize⟩
    · obtain ⟨hl,hu⟩ := (natDegree_bitPoly_iff (p := choosePoly m.toNat primPoly) (k := m.toNat)
    (by omega)).mp (by omega)
      obtain ⟨bch,hb⟩ := buildBch_even (t := t.toNat) (by omega) (by omega) hl hu heven
      have hv := ((hacc leftover).1).mp ⟨bch,by rw [initBch,if_pos ha,hb]⟩
      have hodd := odd_of_primitive (by omega) hv.primitive
      omega
    · obtain ⟨bch,hb,-⟩ := initBch_primitive (fun _ _ => 0) ha hd hp
      have hv := ((hacc _).1).mp ⟨bch,hb⟩
      have := hv.size
      omega
  · intro hgood uninit
    by_cases hv : ValidParams m t (choosePoly m.toNat primPoly)
    · obtain ⟨bch,hb,hops⟩ := initBch_primitive uninit hv.accepted hv.degree hv.primitive
      refine ⟨⟨fun _ => hv,fun _ => ⟨bch,hb⟩⟩,?_⟩
      intro bch' hb'
      rw [hb] at hb'
      cases hb'
      exact hops
    · have hnone : initBch uninit m t primPoly=none := by
        by_cases ha : paramsAccepted m t=true
        · obtain ⟨h5,h15,ht,-⟩ := (paramsAccepted_iff m t).mp ha
          by_cases hd : ((bitPoly (choosePoly m.toNat primPoly)).natDegree : ℤ)=m
          · have hodd : choosePoly m.toNat primPoly%2=1 := by
              by_contra hne
              exact hgood ⟨ha,hd,Or.inl (by omega)⟩
            apply initBch_refused hodd
            rintro ⟨-,hp⟩
            apply hv
            refine ⟨⟨h5,h15⟩,ht,?_,hd,hp⟩
            by_contra hs
            exact hgood ⟨ha,hd,Or.inr ⟨hp,by omega⟩⟩
          · exact initBch_degree hd
        · rw [initBch,if_neg ha]
      rw [hnone]
      refine ⟨⟨?_,fun h => absurd h hv⟩,?_⟩
      · rintro ⟨bch,hb⟩
        cases hb
      · intro bch hb
        cases hb

/-- The polynomial `X^5` is accepted with the leftovers above. -/
theorem acceptsExactly_fails :
    (∃ bch, initBch leftover 5 1 0x20=some bch) ∧ ¬ValidParams 5 1 (choosePoly 5 0x20) ∧
      ¬AcceptsExactly 5 1 0x20 := by
  obtain ⟨bch,hb⟩ := @buildBch_even 5 1 0x20 (by omega) (by omega) (by norm_num)
    (by norm_num) (by norm_num)
  have hacc : initBch leftover 5 1 0x20=some bch := by
    rw [initBch,if_pos (by decide)]
    exact hb
  have hinv : ¬ValidParams 5 1 (choosePoly 5 0x20) := by
    intro hv
    have hd := hv.degree
    have hodd := odd_of_primitive (by omega) hv.primitive
    cases hodd
  exact ⟨⟨bch,hacc⟩,hinv,fun h => hinv (((h leftover).1).mp ⟨bch,hacc⟩)⟩

end Accept

end ArdroneKernel.BchAcceptance
