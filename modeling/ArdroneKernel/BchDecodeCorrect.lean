import ArdroneKernel.BchForms

/-!
# The decoder corrects

Two results about a call with data and received parity. When at most `t`
bits of an encoded buffer are inverted, the decoder returns their number
and their locations. On any other buffer it reports a bad message or
locations whose inversion gives a codeword, as long as the error locator
polynomial of the buffer is split cleanly; `gf_poly_gcd` stops at a
remainder of degree zero, also when it is not zero, and a locator that
meets this case can be taken for a product that it is not.
-/

namespace ArdroneKernel.BchDecodeCorrect

open Polynomial BitPolynomial PackedPolynomial PrimitivePolynomial ArrayList BchInit BchEncode BchDecode
  BchField BchTables BchAcceptance BchGenerator BchEncodeCorrect BchLocator BchFactor BchRoots BchSyndrome
  BchScratch BchCorrection BchForms

section Received

variable {bch : BchControl}

/-- The received polynomial of data and parity. -/
theorem receivedPoly_append (hle : bch.eccBits≤8*bch.eccBytes) (data : List UInt8) {ecc : List UInt8}
    (hl : ecc.length=bch.eccBytes) :
    receivedPoly bch (data++ecc)=bytesPoly data*X^bch.eccBits+parityPoly bch ecc := by
  have hx := mul_X_pow_div (bytesPoly data) (Nat.sub_le (8*bch.eccBytes) bch.eccBits)
  rw [show 8*bch.eccBytes-(8*bch.eccBytes-bch.eccBits)=bch.eccBits by omega] at hx
  rw [receivedPoly,bytesPoly_append,add_div_X_pow,hl,hx]
  rfl

/-- The bit number `i` of a parity buffer, in the order of transmission. -/
def parityBit (ecc : List UInt8) (i : ℕ) : Bool := (ecc.getD (i/8) 0).toNat.testBit (7-i%8)

theorem coeff_parityPoly (hle : bch.eccBits≤8*bch.eccBytes) {ecc : List UInt8} (hl : ecc.length=bch.eccBytes)
    {i : ℕ} (hi : i<bch.eccBits) :
    (parityPoly bch ecc).coeff (bch.eccBits-1-i)=if parityBit ecc i then 1 else 0 := by
  have hlm : (ecc.map UInt8.toNat).length=bch.eccBytes := by rw [List.length_map,hl]
  have hc := coeff_packed (fits_bytes ecc) (j := i/8) (b := 7-i%8) (by omega) (by omega)
  have hget : (ecc.map UInt8.toNat).getD (i/8) 0=(ecc.getD (i/8) 0).toNat := by
    rw [List.getD_eq_getElem _ _ (by omega),List.getD_eq_getElem _ _ (by omega),List.getElem_map]
  rw [parityPoly,coeff_div_X_pow,parityBit,←hget]
  rw [hlm] at hc
  rw [show bch.eccBits-1-i+(8*bch.eccBytes-bch.eccBits)=8*(bch.eccBytes-1-i/8)+(7-i%8) by omega]
  exact hc

/-- Parity polynomials are the same when the parity bits are. -/
theorem parityPoly_eq_iff (hle : bch.eccBits≤8*bch.eccBytes) {a b : List UInt8} (ha : a.length=bch.eccBytes)
    (hb : b.length=bch.eccBytes) :
    parityPoly bch a=parityPoly bch b ↔ ∀ i<bch.eccBits, parityBit a i=parityBit b i := by
  constructor
  · intro h i hi
    have h1 := coeff_parityPoly hle ha hi
    rw [h,coeff_parityPoly hle hb hi] at h1
    cases hx : parityBit a i <;> cases hy : parityBit b i <;> simp [hx,hy] at h1 ⊢
  · intro h
    ext k
    by_cases hk : k<bch.eccBits
    · have hs : bch.eccBits-1-(bch.eccBits-1-k)=k := by omega
      rw [←hs,coeff_parityPoly hle ha (by omega),coeff_parityPoly hle hb (by omega),h _ (by omega)]
    · have hz : ∀ {e : List UInt8}, e.length=bch.eccBytes → (parityPoly bch e).coeff k=0 := by
        intro e he
        exact coeff_eq_zero_of_degree_lt (lt_of_lt_of_le (degree_parityPoly_lt he hle)
          (by exact_mod_cast Nat.not_lt.mp hk))
      rw [hz ha,hz hb]

/-- The parity bits at the end of the buffer are those that encoding the
first `len` octets gives. -/
def IsCodeword (bch : BchControl) (len : ℕ) (buf : List UInt8) : Prop :=
  ∀ i<bch.eccBits, parityBit
    ((encodeBch bch 0 (buf.take len) (some (List.replicate bch.eccBytes 0))).2.getD []) i=
      parityBit (buf.drop len) i

instance (bch : BchControl) (len : ℕ) (buf : List UInt8) : Decidable (IsCodeword bch len buf) :=
  inferInstanceAs (Decidable (∀ i<bch.eccBits, _=_))

/-- Codewords are the multiples of the generator. -/
theorem isCodeword_iff (ht : EncoderTables bch) {len : ℕ} {buf : List UInt8} (hl : buf.length=len+bch.eccBytes) :
    IsCodeword bch len buf ↔ generator bch ∣ receivedPoly bch buf := by
  have hle := ht.bits_le
  obtain ⟨ecc,hc,-⟩ := encodeBch_leftJustified ht 0 (buf.take len) _ (leftJustified_zero bch)
  obtain ⟨hel,hpar,-⟩ := loadEcc8_encodeBch ht hc 0
  have hdl : (buf.drop len).length=bch.eccBytes := by
    rw [List.length_drop]
    omega
  have hmon := (monic_generator bch).1
  have hsplit : receivedPoly bch buf=bytesPoly (buf.take len)*X^bch.eccBits+parityPoly bch (buf.drop len) := by
    rw [←receivedPoly_append hle _ hdl,List.take_append_drop]
  have hdeg : parityPoly bch (buf.drop len) %ₘ generator bch=parityPoly bch (buf.drop len) := by
    apply (modByMonic_eq_self_iff hmon).mpr
    rw [degree_eq_natDegree hmon.ne_zero,ht.degree]
    exact degree_parityPoly_lt hdl hle
  have hiff : IsCodeword bch len buf ↔ parityPoly bch ecc=parityPoly bch (buf.drop len) := by
    rw [parityPoly_eq_iff hle hel hdl,IsCodeword,hc]
    rfl
  rw [hiff,hpar,←modByMonic_eq_zero_iff_dvd hmon,hsplit,add_modByMonic,hdeg,CharTwo.add_eq_zero]

/-- Data followed by their parity are a codeword. -/
theorem generator_dvd_encoded (ht : EncoderTables bch) {align : ℕ} {data ecc : List UInt8}
    (hc : (encodeBch bch align data (some (List.replicate bch.eccBytes 0))).2=some ecc) :
    ecc.length=bch.eccBytes ∧ generator bch ∣ receivedPoly bch (data++ecc) := by
  obtain ⟨hel,hpar,-⟩ := loadEcc8_encodeBch ht hc 0
  refine ⟨hel,?_⟩
  have hmon := (monic_generator bch).1
  rw [receivedPoly_append ht.bits_le _ hel,hpar,←modByMonic_eq_zero_iff_dvd hmon,add_modByMonic,
    (modByMonic_eq_self_iff hmon).mpr (degree_modByMonic_lt _ hmon),CharTwo.add_self_eq_zero]

end Received

section Calls

variable {F : Type*} [Field F] [CharP F 2] [Algebra (ZMod 2) F] {α : F} {bch b : BchControl}

/-- A call with data and received parity corrects the word it is given. -/
theorem decodeBch_word (h : FieldTables α bch) (hb : Built bch) (hsize : 2*bch.t≤bch.n) (hsame : SameCode bch b)
    (align : ℕ) {data recv : List UInt8} (hr : recv.length=bch.eccBytes)
    (hlen : 8*data.length≤bch.n-bch.eccBits) :
    ∃ syn, SyndromesOf α bch (receivedPoly bch (data++recv)) syn ∧
      outcome (decodeBch b (some (align,data)) data.length (some recv) none none)=correct bch data.length syn := by
  have ht := encoderTables_of_built hb
  obtain ⟨hpos,hle⟩ := parity_size hb
  have hmon := (monic_generator bch).1
  have hholds := holds_xor (holds_encode ht align data) (holds_loadEcc8 ht hr)
  have hsyn := computeSyndromes_spec h hholds hpos hle
  -- the word differs from the parity polynomial by a multiple of the generator
  have hdvd : generator bch ∣ receivedPoly bch (data++recv)+
      ((bytesPoly data*X^bch.eccBits) %ₘ generator bch+parityPoly bch recv) := by
    have hrw : receivedPoly bch (data++recv)+
        ((bytesPoly data*X^bch.eccBits) %ₘ generator bch+parityPoly bch recv)=
        bytesPoly data*X^bch.eccBits+(bytesPoly data*X^bch.eccBits) %ₘ generator bch := by
      rw [receivedPoly_append ht.bits_le _ hr]
      linear_combination CharTwo.add_self_eq_zero (parityPoly bch recv)
    rw [hrw,←modByMonic_eq_zero_iff_dvd hmon,add_modByMonic,
      (modByMonic_eq_self_iff hmon).mpr (degree_modByMonic_lt _ hmon),CharTwo.add_self_eq_zero]
  have hvalue := (generator_dvd_iff h hsize _).mp hdvd
  refine ⟨_,⟨hsyn.length,hsyn.small,?_⟩,?_⟩
  · intro j hj
    have hz := hvalue (j+1) (by omega) (by omega)
    rw [map_add,CharTwo.add_eq_zero] at hz
    rw [hsyn.value j hj,hz]
  · have hn := hb.n_eq
    have hp := Nat.pow_le_pow_right (n := 2) (by omega) hb.range.2
    rw [form_data hb hsame,result,if_neg]
    omega

end Calls

section Complete

variable {bch b0 b : BchControl} {uninit : ℕ → ℕ → ℕ} {m t : ℤ} {primPoly : ℕ}

/-- The place of a location, counted from the last parity bit. -/
def placeOf (bch : BchControl) (len p : ℕ) : ℕ := codeBits bch len-1-streamIndex p

/-- Locations and places determine each other. -/
theorem bitPosition_placeOf {len p : ℕ} (hn : codeBits bch len≤2^32) (hp : IsLocation bch len p) :
    bitPosition (codeBits bch len) (placeOf bch len p)=p := by
  have hlt : streamIndex p<codeBits bch len := hp
  rw [bitPosition_eq hn,placeOf,show codeBits bch len-1-(codeBits bch len-1-streamIndex p)=streamIndex p by omega,
    streamIndex_self]

theorem placeOf_bitPosition {len l : ℕ} (hn : codeBits bch len≤2^32) (hl : l<codeBits bch len) :
    IsLocation bch len (bitPosition (codeBits bch len) l) ∧
      placeOf bch len (bitPosition (codeBits bch len) l)=l := by
  rw [IsLocation,placeOf,bitPosition_eq hn,streamIndex_self]
  omega

/-- The size facts of a structure whose parameters did not wrap around. -/
theorem size_facts (hb : Built bch) (hm : bch.m=m.toNat) (ht : bch.t=t.toNat) (ha : paramsAccepted m t=true)
    (hsize : m*t<2^m.toNat-1) : 2*bch.t≤bch.n ∧ bch.eccBits≤bch.n ∧ bch.n<2^15 := by
  obtain ⟨h5,h15,ht1,-⟩ := (paramsAccepted_iff m t).mp ha
  have hmt : m.toNat*t.toNat<2^m.toNat-1 := by
    have hpow := Nat.one_le_two_pow (n := m.toNat)
    zify [hpow]
    rw [Int.toNat_of_nonneg (by omega),Int.toNat_of_nonneg (by omega)]
    exact hsize
  have hgen := (length_generatorCoeffs bch).2.1
  have hE : bch.eccBits=(generatorCoeffs bch).length-1 := hb.eccBits_eq
  have hn := hb.n_eq
  have hp := Nat.pow_le_pow_right (n := 2) (by omega) hb.range.2
  have h2 : 2*t.toNat≤ m.toNat*t.toNat := Nat.mul_le_mul_right _ (by omega)
  rw [hm,ht] at hgen
  rw [hm] at hn hp
  refine ⟨by omega,by omega,by omega⟩

/-- In a structure with the tables of a field the decoder finds the
inverted bits of a codeword. -/
theorem decodeBch_flipped {F : Type*} [Field F] [CharP F 2] [Finite F] [Algebra (ZMod 2) F] {α : F}
    (htab : FieldTables α bch) (hbase : Deg2Base α bch) (hb : Built bch) (hl2 : 2*bch.t≤bch.n)
    (hel : bch.eccBits≤bch.n) (hsame : SameCode bch b) (align : ℕ) {data ecc : List UInt8}
    (hlen : 8*data.length≤bch.n-bch.eccBits) (hecc : ecc.length=bch.eccBytes)
    (hdvd : generator bch ∣ receivedPoly bch (data++ecc)) {errs : List ℕ} (hnd : errs.Nodup)
    (hloc : ∀ p ∈ errs, IsLocation bch data.length p) (hw : errs.length≤bch.t) :
    ∃ locs : List ℕ, locs.Perm errs ∧
      outcome (decodeBch b (some (align,(flipBits (data++ecc) errs).take data.length)) data.length
        (some ((flipBits (data++ecc) errs).drop data.length)) none none)=((errs.length : ℤ),locs) := by
  have het := encoderTables_of_built hb
  have hn := hb.n_eq
  have h15 := Nat.pow_le_pow_right (n := 2) (by omega) hb.range.2
  set buf := flipBits (data++ecc) errs with hbufdef
  have hbuf : buf.length=data.length+bch.eccBytes := by
    rw [length_flipBits,List.length_append,hecc]
  have htake : (buf.take data.length).length=data.length := by
    rw [List.length_take]
    omega
  have hdrop : (buf.drop data.length).length=bch.eccBytes := by
    rw [List.length_drop]
    omega
  have htlen : 8*(buf.take data.length).length≤bch.n-bch.eccBits := by rw [htake]; exact hlen
  obtain ⟨syn,hsyn,hout⟩ := decodeBch_word htab hb hl2 hsame align hdrop htlen
  rw [List.take_append_drop] at hsyn
  rw [htake] at hout
  have hcb : codeBits bch data.length≤bch.n := by
    unfold codeBits
    omega
  have hpoly : receivedPoly bch buf+errorPoly (errs.map (placeOf bch data.length))=
      receivedPoly bch (data++ecc) := by
    have hword : (data++ecc).length=data.length+bch.eccBytes := by rw [List.length_append,hecc]
    have hflip := receivedPoly_flipBits het.bits_le hword hloc
    have hself := CharTwo.add_self_eq_zero (errorPoly (errs.map (placeOf bch data.length)))
    rw [hflip,add_assoc]
    exact (congrArg _ hself).trans (add_zero _)
  have hinj : (errs.map (placeOf bch data.length)).Nodup := by
    refine List.Nodup.map_on ?_ hnd
    intro p hp' q hq heq
    rw [←bitPosition_placeOf (by omega) (hloc p hp'),heq,bitPosition_placeOf (by omega) (hloc q hq)]
  have hplaces : ∀ l ∈ errs.map (placeOf bch data.length), l<codeBits bch data.length := by
    intro l hl
    obtain ⟨p,hp',rfl⟩ := List.mem_map.mp hl
    have hlt : streamIndex p<codeBits bch data.length := hloc p hp'
    unfold placeOf
    omega
  obtain ⟨L,hperm,hcor⟩ := correct_complete htab hbase hb.t_pos hsyn hcb hinj hplaces
    (by rw [List.length_map]; exact hw) (by
      rw [hpoly]
      exact (generator_dvd_iff htab hl2 _).mp hdvd)
  rw [hcor,List.length_map] at hout
  refine ⟨_,?_,hout⟩
  have hback : (errs.map (placeOf bch data.length)).map (bitPosition (codeBits bch data.length))=errs := by
    rw [List.map_map]
    conv_rhs => rw [←List.map_id errs]
    apply List.map_congr_left
    intro p hp'
    exact bitPosition_placeOf (by omega) (hloc p hp')
  have hmap := hperm.map (bitPosition (codeBits bch data.length))
  rwa [hback] at hmap

/-- For every primitive polynomial and all parameters that `init_bch`
accepts without wrapping around, when at most `t` data and parity bits of
an encoded buffer are inverted, `decode_bch` returns their number and
stores each of their locations once. -/
theorem decodeBch_complete (h : initBch uninit m t primPoly=some bch)
    (hp : IsPrimitivePoly (bitPoly (choosePoly m.toNat primPoly))) (hsize : m*t<2^m.toNat-1)
    (h0 : SameCode bch b0) (h1 : SameCode bch b) {align align' : ℕ} {data ecc : List UInt8}
    (hlen : 8*data.length≤bch.n-bch.eccBits)
    (hc : (encodeBch b0 align data (some (List.replicate bch.eccBytes 0))).2=some ecc) {errs : List ℕ}
    (hnd : errs.Nodup) (hloc : ∀ p ∈ errs, IsLocation bch data.length p) (hw : (errs.length : ℤ)≤t) :
    let buf := flipBits (data++ecc) errs
    let d := decodeBch b (some (align',buf.take data.length)) data.length (some (buf.drop data.length)) none none
    d.ret=errs.length ∧ d.errloc.Perm errs := by
  intro buf d
  have : Fact (Irreducible (bitPoly (choosePoly m.toNat primPoly))) := ⟨hp.1⟩
  obtain ⟨htab,hbase⟩ := initBch_tables h hp
  have hchar : CharP (AdjoinRoot (bitPoly (choosePoly m.toNat primPoly))) 2 :=
    charP_adjoinRoot hp.1.natDegree_pos
  have hfin : Finite (AdjoinRoot (bitPoly (choosePoly m.toNat primPoly))) := finite_adjoinRoot hp.monic
  obtain ⟨hb,hm,ht,ha,-⟩ := initBch_built uninit h
  obtain ⟨hl2,hel,-⟩ := size_facts hb hm ht ha hsize
  obtain ⟨_,_,_,_,rfl,-⟩ := h0
  rw [encodeBch_scratch] at hc
  obtain ⟨hecc,hdvd⟩ := generator_dvd_encoded (encoderTables_of_built hb) hc
  obtain ⟨locs,hperm,hout⟩ := decodeBch_flipped htab hbase hb hl2 hel h1 align' hlen hecc hdvd hnd hloc (by omega)
  have hret : d.ret=errs.length := congrArg Prod.fst hout
  have herr : d.errloc=locs := congrArg Prod.snd hout
  exact ⟨hret,herr ▸ hperm⟩

/-- Two inverted data bits, for five-bit fields and two errors. -/
theorem decodeBch_complete_example : ∃ bch ecc, initBch (fun _ _ => 0) 5 2 0=some bch ∧
    (encodeBch bch 0 [0x5a,0x3c] (some (List.replicate bch.eccBytes 0))).2=some ecc ∧
    let buf := flipBits ([0x5a,0x3c]++ecc) [3,9]
    let d := decodeBch bch (some (1,buf.take 2)) 2 (some (buf.drop 2)) none none
    d.ret=2 ∧ d.errloc.Perm [3,9] := by
  have hs : (initBch (fun _ _ => 0) 5 2 0).map (fun bch => (bch.n,bch.eccBits))=some (31,10) := by decide +kernel
  obtain ⟨bch,hb,hsizes⟩ := Option.map_eq_some_iff.mp hs
  obtain ⟨hn,he⟩ := Prod.mk.inj hsizes
  have hp := primitive_of_initBch hb (by decide)
  obtain ⟨hbuilt,-⟩ := initBch_built _ hb
  obtain ⟨ecc,hc,-⟩ := encodeBch_leftJustified (encoderTables_of_built hbuilt) 0 [0x5a,0x3c] _
    (leftJustified_zero bch)
  have hr := SameCode.refl bch
  refine ⟨bch,ecc,hb,hc,?_⟩
  refine decodeBch_complete hb hp (by decide) hr hr (by rw [hn,he]; decide) hc (by decide) ?_
    (by decide)
  intro p hp'
  unfold IsLocation codeBits
  rw [he]
  revert p
  decide

/-- An encoded buffer is no codeword after inverting any of its bits, up to
`2t` of them. -/
theorem flipped_not_codeword (h : initBch uninit m t primPoly=some bch)
    (hp : IsPrimitivePoly (bitPoly (choosePoly m.toNat primPoly))) (hsize : m*t<2^m.toNat-1) {data ecc : List UInt8}
    (hlen : 8*data.length≤bch.n-bch.eccBits)
    (hc : (encodeBch bch 0 data (some (List.replicate bch.eccBytes 0))).2=some ecc) {ps : List ℕ} (hne : ps≠[])
    (hnd : ps.Nodup) (hloc : ∀ p ∈ ps, IsLocation bch data.length p) (hw : (ps.length : ℤ)≤2*t) :
    ¬IsCodeword bch data.length (flipBits (data++ecc) ps) := by
  have : Fact (Irreducible (bitPoly (choosePoly m.toNat primPoly))) := ⟨hp.1⟩
  obtain ⟨htab,hbase⟩ := initBch_tables h hp
  have hchar : CharP (AdjoinRoot (bitPoly (choosePoly m.toNat primPoly))) 2 :=
    charP_adjoinRoot hp.1.natDegree_pos
  have hfin : Finite (AdjoinRoot (bitPoly (choosePoly m.toNat primPoly))) := finite_adjoinRoot hp.monic
  obtain ⟨hb,hm,ht,ha,-⟩ := initBch_built uninit h
  obtain ⟨hl2,hel,-⟩ := size_facts hb hm ht ha hsize
  have het := encoderTables_of_built hb
  have hle := het.bits_le
  obtain ⟨hecc,hdvd⟩ := generator_dvd_encoded het hc
  -- one word is both codewords with a part of the bits inverted
  obtain ⟨qs,rs,rfl,hq,hr⟩ : ∃ qs rs, ps=qs++rs ∧ qs.length≤bch.t ∧ rs.length≤bch.t := by
    refine ⟨_,_,(List.take_append_drop bch.t ps).symm,List.length_take_le _ _,?_⟩
    rw [List.length_drop]
    omega
  obtain ⟨hnd1,hnd2,hapart⟩ := List.nodup_append.mp hnd
  obtain ⟨hloc1,hloc2⟩ := List.forall_mem_append.mp hloc
  set word := flipBits (data++ecc) qs with hw1
  have hlw : word.length=data.length+bch.eccBytes := by rw [hw1,length_flipBits,List.length_append,hecc]
  have hback : flipBits (flipBits word rs) rs=word := by
    apply flipBits_perm (List.Perm.refl rs)
    intro p hp
    have hp' : 8*(p/8)+(7-p%8)<data.length*8+bch.eccBits := hloc2 p hp
    omega
  have hfound : ∀ {d e : List UInt8} {errs : List ℕ}, d.length=data.length → e.length=bch.eccBytes →
      generator bch ∣ receivedPoly bch (d++e) → errs.Nodup → (∀ p ∈ errs, IsLocation bch data.length p) →
      errs.length≤bch.t → flipBits (d++e) errs=word → ∃ locs : List ℕ, locs.Perm errs ∧
        outcome (decodeBch bch (some (0,word.take data.length)) data.length (some (word.drop data.length)) none
          none)=((errs.length : ℤ),locs) := by
    intro d e errs hd he hdvd hnd hloc hl hword
    rw [←hword]
    rw [←hd] at hlen hloc ⊢
    exact decodeBch_flipped htab hbase hb hl2 hel (SameCode.refl bch) 0 hlen he hdvd hnd hloc hl
  intro hcode
  rw [flipBits,List.foldl_append] at hcode
  change IsCodeword bch data.length (flipBits word rs) at hcode
  have hlf : (flipBits word rs).length=data.length+bch.eccBytes := (length_flipBits _ _).trans hlw
  have hdvd' := (isCodeword_iff het hlf).mp hcode
  rw [←List.take_append_drop data.length (flipBits word rs)] at hdvd' hback
  obtain ⟨locs,hperm,hout⟩ := hfound rfl hecc hdvd hnd1 hloc1 hq rfl
  obtain ⟨locs',hperm',hout'⟩ := hfound (by rw [List.length_take]; omega) (by rw [List.length_drop]; omega) hdvd'
    hnd2 hloc2 hr hback
  have hlocs : locs=locs' := congrArg Prod.snd (hout.symm.trans hout')
  have hsame : qs.Perm rs := hperm.symm.trans (hlocs ▸ hperm')
  obtain ⟨p,hp⟩ := List.exists_mem_of_ne_nil _ hne
  rcases List.mem_append.mp hp with hp | hp
  · exact hapart p hp p (hsame.subset hp) rfl
  · exact hapart p (hsame.symm.subset hp) p hp rfl

/-- Four inverted bits, for five-bit fields and two errors. -/
theorem flipped_not_codeword_example : ∃ bch ecc, initBch (fun _ _ => 0) 5 2 0=some bch ∧
    (encodeBch bch 0 [0x5a,0x3c] (some (List.replicate bch.eccBytes 0))).2=some ecc ∧
    ¬IsCodeword bch 2 (flipBits ([0x5a,0x3c]++ecc) [3,9,4,0]) := by
  have hs : (initBch (fun _ _ => 0) 5 2 0).map (fun bch => (bch.n,bch.eccBits))=some (31,10) := by decide +kernel
  obtain ⟨bch,hb,hsizes⟩ := Option.map_eq_some_iff.mp hs
  obtain ⟨hn,he⟩ := Prod.mk.inj hsizes
  have hp := primitive_of_initBch hb (by decide)
  obtain ⟨hbuilt,-⟩ := initBch_built _ hb
  obtain ⟨ecc,hc,-⟩ := encodeBch_leftJustified (encoderTables_of_built hbuilt) 0 [0x5a,0x3c] _
    (leftJustified_zero bch)
  refine ⟨bch,ecc,hb,hc,flipped_not_codeword hb hp (by decide) (by rw [hn,he]; decide) hc (by decide) (by decide) ?_
    (by decide)⟩
  unfold IsLocation codeBits
  rw [he]
  decide

end Complete

section Sound

/-- The syndromes of a word as a power series cut after `2t` terms. -/
noncomputable def syndromeSeries {F : Type*} [Field F] [Algebra (ZMod 2) F] (α : F) (t : ℕ) (V : (ZMod 2)[X]) :
    F[X] := 1+∑ j ∈ Finset.range (2*t), C (aeval (α^(j+1)) V)*X^(j+1)

/-- The received word `V` has a locator polynomial that is split cleanly:
no polynomial of degree above four that comes up is coprime to its trace
polynomial, unless that one is constant modulo it. -/
def CleanLocator (poly m t : ℕ) (V : (ZMod 2)[X]) : Prop :=
  ∀ [Fact (Irreducible (bitPoly poly))], ∀ D : (AdjoinRoot (bitPoly poly))[X],
    ShortestLocator (syndromeSeries (AdjoinRoot.root (bitPoly poly)) t V) t D →
      CleanSplit (AdjoinRoot.root (bitPoly poly)) m (m+1) 1 D

/-- Up to degree four nothing has to be split. -/
theorem cleanLocator_of_le_four {poly m t : ℕ} (ht : t≤4) (V : (ZMod 2)[X]) : CleanLocator poly m t V := by
  intro hirr D hD hdeg
  have := hD.degree
  omega

/-- The syndromes found are those of the word. -/
theorem syndromePoly_eq {F : Type*} [Field F] [Algebra (ZMod 2) F] {α : F} {bch : BchControl} {V : (ZMod 2)[X]}
    {syn : List ℕ} (hs : SyndromesOf α bch V syn) : syndromePoly α syn=syndromeSeries α bch.t V := by
  ext i
  cases i with
  | zero =>
    rw [coeff_syndromePoly_zero,syndromeSeries,coeff_add,finsetSum_coeff,Finset.sum_eq_zero]
    · simp
    · intro j _
      rw [coeff_C_mul,coeff_X_pow,if_neg (by omega),mul_zero]
  | succ i =>
    rw [coeff_syndromePoly_succ,syndromeSeries,coeff_add,finsetSum_coeff,coeff_one,if_neg (by omega),zero_add]
    by_cases hi : i<2*bch.t
    · rw [hs.value i hi,Finset.sum_eq_single_of_mem i (Finset.mem_range.mpr hi)]
      · simp
      · intro j _ hj
        rw [coeff_C_mul,coeff_X_pow,if_neg (by omega),mul_zero]
    · rw [getD_of_length_le _ (by rw [hs.length]; omega),bitSum_zero,Finset.sum_eq_zero]
      intro j hj
      have := Finset.mem_range.mp hj
      rw [coeff_C_mul,coeff_X_pow,if_neg (by omega),mul_zero]

/-- What a caller may rely on: a bad message, or at most `t` different
locations of data and parity bits whose inversion gives a codeword. -/
def Sound (bch : BchControl) (data recv : List UInt8) (out : ℤ×List ℕ) : Prop :=
  out.1=-EBADMSG ∨ (out.1=out.2.length ∧ out.2.length≤bch.t ∧ out.2.Nodup ∧
    (∀ p ∈ out.2, IsLocation bch data.length p) ∧ IsCodeword bch data.length (flipBits (data++recv) out.2))

instance (bch : BchControl) (data recv : List UInt8) (out : ℤ×List ℕ) : Decidable (Sound bch data recv out) :=
  inferInstanceAs (Decidable (_∨_))

variable {bch b : BchControl} {uninit : ℕ → ℕ → ℕ} {m t : ℤ} {primPoly : ℕ}

/-- For every primitive polynomial and all parameters that `init_bch`
accepts without wrapping around, a call on any data and any received parity
is sound when the locator polynomial of the word is split cleanly. -/
theorem decodeBch_sound (h : initBch uninit m t primPoly=some bch)
    (hp : IsPrimitivePoly (bitPoly (choosePoly m.toNat primPoly))) (hsize : m*t<2^m.toNat-1)
    (hsame : SameCode bch b) {align : ℕ} {data recv : List UInt8} (hlen : 8*data.length≤bch.n-bch.eccBits)
    (hr : recv.length=bch.eccBytes)
    (hclean : CleanLocator (choosePoly m.toNat primPoly) bch.m bch.t (receivedPoly bch (data++recv))) :
    Sound bch data recv (outcome (decodeBch b (some (align,data)) data.length (some recv) none none)) := by
  have : Fact (Irreducible (bitPoly (choosePoly m.toNat primPoly))) := ⟨hp.1⟩
  obtain ⟨htab,hbase⟩ := initBch_tables h hp
  have hchar : CharP (AdjoinRoot (bitPoly (choosePoly m.toNat primPoly))) 2 :=
    charP_adjoinRoot hp.1.natDegree_pos
  have hfin : Finite (AdjoinRoot (bitPoly (choosePoly m.toNat primPoly))) := finite_adjoinRoot hp.monic
  obtain ⟨hb,hm,ht,ha,-⟩ := initBch_built uninit h
  have het := encoderTables_of_built hb
  obtain ⟨hl2,hel,h15⟩ := size_facts hb hm ht ha hsize
  obtain ⟨syn,hsyn,hout⟩ := decodeBch_word htab hb hl2 hsame align hr hlen
  have hcb : codeBits bch data.length≤2^32 := by
    unfold codeBits
    omega
  rcases correct_sound htab hbase hb.t_pos hsyn (by
    rw [syndromePoly_eq hsyn]
    exact hclean) data.length with hbad | ⟨L,hnd,hin,hcard,hcor,hz⟩
  · left
    rw [hout,hbad]
  · right
    rw [hout,hcor]
    have hback := fun l hl => placeOf_bitPosition (l := l) hcb (hin l hl)
    have hplaces : (L.map (bitPosition (codeBits bch data.length))).map (placeOf bch data.length)=L := by
      rw [List.map_map]
      conv_rhs => rw [←List.map_id L]
      exact List.map_congr_left fun l hl => (hback l hl).2
    have hloc : ∀ p ∈ L.map (bitPosition (codeBits bch data.length)), IsLocation bch data.length p := by
      intro p hp'
      obtain ⟨l,hl,rfl⟩ := List.mem_map.mp hp'
      exact (hback l hl).1
    refine ⟨by rw [List.length_map],by rw [List.length_map]; exact hcard,?_,hloc,?_⟩
    · refine List.Nodup.map_on ?_ hnd
      intro x hx y hy hxy
      rw [←(hback x hx).2,hxy,(hback y hy).2]
    · have hbl : (data++recv).length=data.length+bch.eccBytes := by rw [List.length_append,hr]
      rw [isCodeword_iff het (by rw [length_flipBits,hbl]),receivedPoly_flipBits het.bits_le hbl hloc]
      change generator bch ∣ _+errorPoly ((L.map (bitPosition (codeBits bch data.length))).map
        (placeOf bch data.length))
      rw [hplaces]
      exact (generator_dvd_iff htab hl2 _).mpr hz

/-- A word with many errors, for five-bit fields and two errors. -/
theorem decodeBch_sound_example : ∃ bch, initBch (fun _ _ => 0) 5 2 0=some bch ∧
    Sound bch [0x5a,0x3c] [0x12,0x40]
      (outcome (decodeBch bch (some (0,[0x5a,0x3c])) 2 (some [0x12,0x40]) none none)) := by
  have hs : (initBch (fun _ _ => 0) 5 2 0).map (fun bch => (bch.n,bch.eccBits,bch.eccBytes,bch.t))=
    some (31,10,2,2) := by decide +kernel
  obtain ⟨bch,hb,hsizes⟩ := Option.map_eq_some_iff.mp hs
  simp only [Prod.mk.injEq] at hsizes
  obtain ⟨hn,he,hy,ht⟩ := hsizes
  refine ⟨bch,hb,?_⟩
  exact decodeBch_sound hb (primitive_of_initBch hb (by decide)) (by decide) (SameCode.refl bch) (by
    rw [hn,he]
    decide) hy.symm (cleanLocator_of_le_four (by omega) _)

/-- Five-bit fields and five errors: for this octet and this parity the
decoder reports five locations that do not explain the word. -/
theorem decodeBch_unsound : ∃ bch, initBch (fun _ _ => 0) 5 5 0=some bch ∧
    8*1≤bch.n-bch.eccBits ∧ bch.eccBytes=4 ∧
    decodeBch bch (some (0,[0])) 1 (some [0xa8,0xc2,0x40,0x00]) none none=
      ⟨5,[19,2,18,9,17],(decodeBch bch (some (0,[0])) 1 (some [0xa8,0xc2,0x40,0x00]) none none).bch⟩ ∧
    ¬Sound bch [0] [0xa8,0xc2,0x40,0x00]
      (outcome (decodeBch bch (some (0,[0])) 1 (some [0xa8,0xc2,0x40,0x00]) none none)) := by
  have hs : (initBch (fun _ _ => 0) 5 5 0).map (fun bch => (decide (8*1≤bch.n-bch.eccBits),bch.eccBytes,
      outcome (decodeBch bch (some (0,[0])) 1 (some [0xa8,0xc2,0x40,0x00]) none none),
      decide (IsCodeword bch 1 (flipBits ([0]++[0xa8,0xc2,0x40,0x00]) [19,2,18,9,17]))))=
      some (true,4,(5,[19,2,18,9,17]),false) := by decide +kernel
  obtain ⟨bch,hb,hrun⟩ := Option.map_eq_some_iff.mp hs
  simp only [Prod.mk.injEq] at hrun
  obtain ⟨hlen,hy,hout,hcode⟩ := hrun
  have hret : (decodeBch bch (some (0,[0])) 1 (some [0xa8,0xc2,0x40,0x00]) none none).ret=5 :=
    congrArg Prod.fst hout
  have herr : (decodeBch bch (some (0,[0])) 1 (some [0xa8,0xc2,0x40,0x00]) none none).errloc=[19,2,18,9,17] :=
    congrArg Prod.snd hout
  refine ⟨bch,hb,of_decide_eq_true hlen,hy,?_,?_⟩
  · generalize decodeBch bch (some (0,[0])) 1 (some [0xa8,0xc2,0x40,0x00]) none none=d at hret herr ⊢
    obtain ⟨ret,errloc,after⟩ := d
    dsimp only at hret herr
    rw [hret,herr]
  · intro hsound
    rcases hsound with hbad | hgood
    · exact absurd (hret.symm.trans hbad) (by decide)
    · have hword := hgood.2.2.2.2
      change IsCodeword bch 1 (flipBits ([0]++[0xa8,0xc2,0x40,0x00])
        (decodeBch bch (some (0,[0])) 1 (some [0xa8,0xc2,0x40,0x00]) none none).errloc) at hword
      rw [herr] at hword
      exact of_decide_eq_false hcode hword

end Sound

end ArdroneKernel.BchDecodeCorrect
