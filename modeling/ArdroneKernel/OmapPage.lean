import ArdroneKernel.BchDecodeCorrect
import ArdroneKernel.OmapNand

/-!
# Correcting a page

The code of the driver has thirteen-bit field elements and corrects eight
errors. Its generator has degree 104, so the parity fills thirteen octets,
and the inversion mask turns the parity of 512 octets `0xff` into octets
`0xff`. A sector with at most eight inverted bits is restored; a sector
that the decoder gives up is left alone and makes the result `-1`.
-/

namespace ArdroneKernel.OmapPage

open Polynomial BitPolynomial PrimitivePolynomial BchInit BchEncode BchDecode BchTables BchAcceptance
  BchGenerator BchEncodeCorrect BchRoots BchScratch BchCorrection BchForms BchDecodeCorrect OmapNand

section Patterns

/-- The bit pattern with the given bits. -/
def xorBits (ks : List ℕ) : ℕ := ks.foldr (fun k s => (1<<<k)^^^s) 0

theorem bitPoly_xorBits (ks : List ℕ) : bitPoly (xorBits ks)=errorPoly ks := by
  induction ks with
  | nil => simp [xorBits,errorPoly]
  | cons k ks ih =>
    have hk : bitPoly (xorBits (k::ks))=bitPoly (1<<<k)+bitPoly (xorBits ks) := bitSum_xor X _ _
    have h1 : bitPoly (1<<<k)=X^k := by rw [Nat.shiftLeft_eq,Nat.one_mul,bitPoly,bitSum_two_pow]
    rw [hk,h1,ih,errorPoly,errorPoly,List.map_cons,List.sum_cons]

/-- The octets of a buffer as one number. -/
def joinBytes (bs : List UInt8) : ℕ := bs.foldl (fun a b => (a<<<8)^^^b.toNat) 0

theorem bitPoly_joinBytes (bs : List UInt8) : bitPoly (joinBytes bs)=bytesPoly bs := by
  have hloop : ∀ (bs : List UInt8) (a : ℕ), bitPoly (bs.foldl (fun a b => (a<<<8)^^^b.toNat) a)=
      bitPoly a*X^(8*bs.length)+bytesPoly bs := by
    intro bs
    induction bs with
    | nil => intro a; simp [bytesPoly_nil]
    | cons b bs ih =>
      intro a
      have hstep : bitPoly ((a<<<8)^^^b.toNat)=X^8*bitPoly a+bitPoly b.toNat :=
        (bitSum_xor X _ _).trans (congrArg (·+_) (bitSum_shiftLeft X _ _))
      rw [List.foldl_cons,ih,hstep,bytesPoly_cons,List.length_cons,Nat.mul_succ,pow_add]
      ring
  have h := hloop bs 0
  have hz : bitPoly 0=0 := bitSum_zero X
  rwa [hz,zero_mul,zero_add] at h

/-- Moving one buffer up and adding another. -/
theorem bitPoly_joinBytes_shift (a b : List UInt8) (k : ℕ) :
    bitPoly ((joinBytes a<<<k)^^^joinBytes b)=bytesPoly a*X^k+bytesPoly b := by
  have hx : bitPoly ((joinBytes a<<<k)^^^joinBytes b)=X^k*bitPoly (joinBytes a)+bitPoly (joinBytes b) :=
    (bitSum_xor X _ _).trans (congrArg (·+_) (bitSum_shiftLeft X _ _))
  rw [hx,bitPoly_joinBytes,bitPoly_joinBytes,mul_comm]

end Patterns

section Code

/-- The generator of the code, as a bit pattern. -/
def generatorBits : ℕ := 0x115f914e07b0c138741c5c4fb23

/-- The exponents of the generator. -/
def generatorExponents : List ℕ := (List.range 105).filter generatorBits.testBit

/-- The exponents of the roots of the generator, coset by coset. -/
def rootExponents : List ℕ := (List.range 104).map fun i => (2*(i/13)+1)*2^(i%13)%8191

variable {bch : BchControl} {uninit : ℕ → ℕ → ℕ}

/-- Odd powers of the primitive element are roots of the pattern. -/
theorem generatorBits_root {F : Type*} [Field F] [CharP F 2] [Algebra (ZMod 2) F] {α : F}
    {poly : ℕ} (hpoly : poly=0x201b) (hα : aeval α (bitPoly poly)=0) {q : ℕ} (hq : q ∈ [1,3,5,7,9,11,13,15]) :
    aeval (α^q) (bitPoly generatorBits)=0 := by
  have hbits : generatorBits=xorBits generatorExponents := by decide +kernel
  have hzero : reduceBits poly 13 1600 (xorBits (generatorExponents.map (q*·)))=0 := by
    subst hpoly
    revert q
    decide +kernel
  have hdvd : bitPoly poly ∣ errorPoly (generatorExponents.map (q*·)) := by
    rw [←bitPoly_xorBits]
    exact dvd_of_reduceBits hzero
  obtain ⟨Q,hQ⟩ := hdvd
  have hz : aeval α (errorPoly (generatorExponents.map (q*·)))=0 := by
    rw [hQ,map_mul,hα,zero_mul]
  rw [hbits,bitPoly_xorBits,aeval_errorPoly]
  rw [aeval_errorPoly,List.map_map] at hz
  rw [←hz]
  congr 1
  apply List.map_congr_left
  intro k _
  exact (pow_mul α q k).symm

/-- The generator that `init_bch` computes for the driver. -/
theorem generator_eq (h : initBch uninit 13 8 0x201b=some bch) :
    generator bch=bitPoly generatorBits ∧ bch.eccBits=104 ∧ bch.eccBytes=13 := by
  have hp := primitive_of_initBch h (by decide)
  have : Fact (Irreducible (bitPoly (choosePoly (13 : ℤ).toNat 0x201b))) := ⟨hp.1⟩
  obtain ⟨htab,-⟩ := initBch_tables h hp
  have hchar : CharP (AdjoinRoot (bitPoly (choosePoly (13 : ℤ).toNat 0x201b))) 2 :=
    charP_adjoinRoot hp.1.natDegree_pos
  obtain ⟨hb,hm,ht,ha,-⟩ := initBch_built uninit h
  have hm13 : bch.m=13 := hm
  have ht8 : bch.t=8 := ht
  have hn : bch.n=8191 := by rw [hb.n_eq,hm13]; rfl
  have hsize : 2*bch.t≤bch.n := by omega
  -- the marked exponents are at least 104
  have hcount : 104≤(List.range bch.n).countP (fun i => (markRoots bch).getD i 0≠0) := by
    have hnd : rootExponents.Nodup := by decide +kernel
    have hsub : rootExponents ⊆ (List.range bch.n).filter (fun i => (markRoots bch).getD i 0≠0) := by
      intro i hi
      obtain ⟨k,hk,rfl⟩ := List.mem_map.mp hi
      have hk' := List.mem_range.mp hk
      have hmark : Marked bch ((2*(k/13)+1)*2^(k%13)%8191) :=
        (marked_iff hsize _).mpr ⟨k/13,by omega,k%13,by omega,by rw [hn]⟩
      rw [List.mem_filter,List.mem_range]
      exact ⟨by omega,decide_eq_true hmark⟩
    have hle := (List.subperm_of_subset hnd hsub).length_le
    rw [←List.countP_eq_length_filter] at hle
    exact hle
  obtain ⟨hlen,-⟩ := generatorLoop bch bch.n
  have hl : (generatorCoeffs bch).length=
    (List.range bch.n).countP (fun i => (markRoots bch).getD i 0≠0)+1 := hlen
  have hup := (length_generatorCoeffs bch).2.1
  have hE : bch.eccBits=(generatorCoeffs bch).length-1 := hb.eccBits_eq
  rw [hm13,ht8] at hup
  have hE104 : bch.eccBits=104 := by omega
  refine ⟨?_,hE104,by rw [hb.eccBytes_eq,hm13,ht8]⟩
  have hα : aeval (AdjoinRoot.root (bitPoly (choosePoly (13 : ℤ).toNat 0x201b)))
      (bitPoly (choosePoly (13 : ℤ).toNat 0x201b))=0 := by
    rw [aeval_bitPoly]
    exact bitSum_root_self _
  have hdvd : generator bch ∣ bitPoly generatorBits := by
    rw [generator_dvd_iff htab hsize]
    intro j h1 hj
    obtain ⟨e,q,hq,rfl⟩ := Nat.exists_eq_two_pow_mul_odd (Nat.ne_of_gt h1)
    obtain ⟨i,rfl⟩ := hq
    have hle : 2*i+1≤2^e*(2*i+1) := Nat.le_mul_of_pos_left _ (Nat.two_pow_pos e)
    have hi : i<8 := by omega
    have hroot := generatorBits_root (by decide) hα (q := 2*i+1) (by
      clear hle hj h1
      revert i
      decide)
    rw [Nat.mul_comm,pow_mul,aeval_pow_two_pow,hroot,zero_pow (Nat.two_pow_pos e).ne']
  obtain ⟨hmon,hdeg⟩ := monic_generator bch
  obtain ⟨hmon',hdeg'⟩ := monic_bitPoly (n := generatorBits) (k := 104) (by decide) (by decide)
  exact (eq_of_monic_of_dvd_of_natDegree_le hmon hmon' hdvd (by
    rw [hdeg',hdeg,←hb.eccBits_eq,hE104])).symm

/-- The parity of 512 octets `0xff`, before the mask. -/
def erasedParity : List UInt8 := List.zipWith (·^^^·) inversionMask (List.replicate 13 0xff)

theorem erased_remainder (h : initBch uninit 13 8 0x201b=some bch) :
    (bytesPoly (List.replicate 512 0xff)*X^bch.eccBits) %ₘ generator bch=bytesPoly erasedParity := by
  obtain ⟨hg,hE,-⟩ := generator_eq h
  have hmon := (monic_generator bch).1
  have hzero : reduceBits generatorBits 104 4100
      ((joinBytes (List.replicate 512 0xff)<<<104)^^^joinBytes erasedParity)=0 := by decide +kernel
  have hdvd := dvd_of_reduceBits hzero
  rw [bitPoly_joinBytes_shift] at hdvd
  clear hzero
  generalize List.replicate 512 (0xff : UInt8)=data at hdvd ⊢
  have hdeg : bytesPoly erasedParity %ₘ generator bch=bytesPoly erasedParity := by
    apply (modByMonic_eq_self_iff hmon).mpr
    rw [degree_eq_natDegree hmon.ne_zero,(monic_generator bch).2,
      ←(initBch_built uninit h).1.eccBits_eq,hE]
    exact degree_bytesPoly_lt erasedParity
  rw [←hg,←hE] at hdvd
  generalize bytesPoly erasedParity=R at hdvd hdeg ⊢
  generalize bytesPoly data*X^bch.eccBits=D at hdvd ⊢
  rwa [←modByMonic_eq_zero_iff_dvd hmon,add_modByMonic,hdeg,CharTwo.add_eq_zero] at hdvd

end Code

section Buffers

/-- Correcting the data of a sector is inverting bits of the whole sector. -/
theorem foldl_correctBit {dat : List UInt8} (hd : dat.length=512) (ecc : List UInt8) (ps : List ℕ) :
    ((flipBits (dat++ecc) ps).take 512)=ps.foldl correctBit dat := by
  induction ps generalizing dat ecc with
  | nil => rw [flipBits,List.foldl_nil,List.foldl_nil,List.take_append_of_le_length (by omega),
      List.take_of_length_le (by omega)]
  | cons p ps ih =>
    rw [flipBits,List.foldl_cons,List.foldl_cons]
    have h7 : p&&&7=p%8 := Nat.and_two_pow_sub_one_eq_mod p 3
    by_cases hp : p<8*512
    · have hstep : flipBit (dat++ecc) p=correctBit dat p++ecc := by
        rw [flipBit,correctBit,if_pos hp,h7,List.set_append_left _ _ (by omega),
          List.getD_append _ _ _ _ (by omega)]
      rw [hstep]
      exact ih (by rw [correctBit,if_pos hp,List.length_set,hd]) ecc
    · have hstep : flipBit (dat++ecc) p=correctBit dat p++
          ecc.set (p/8-dat.length) (((dat++ecc).getD (p/8) 0)^^^UInt8.ofNat (1<<<(p%8))) := by
        rw [flipBit,correctBit,if_neg hp,List.set_append_right _ _ (by omega)]
      rw [hstep]
      exact ih (by rw [correctBit,if_neg hp,hd]) _

end Buffers

section Sector

/-- A sector as it was read, with what the controller computed. -/
structure ReadSector where
  /-- The data bytes. -/
  data : List UInt8
  /-- The stored parity as it was read. -/
  ecc : List UInt8
  /-- The result registers for the data as read. -/
  result : BchResult

/-- The registers hold the remainder of the data. -/
def HoldsRemainder (bch : BchControl) (data : List UInt8) (r : BchResult) : Prop :=
  bytesPoly (resultBytes r)=(bytesPoly data*X^bch.eccBits) %ₘ generator bch

/-- What the flash held for a sector before bits were inverted: the parity
that the driver calculated for the data, or nothing but ones. -/
inductive Stored (bch : BchControl) (orig ecc : List UInt8) : Prop
  /-- The sector was written with its parity. -/
  | written (r : BchResult) (h : HoldsRemainder bch orig r) (he : ecc=sectorEcc r)
  /-- The sector was erased. -/
  | erased (hd : orig=List.replicate 512 0xff) (he : ecc=List.replicate 13 0xff)

variable {bch b : BchControl} {uninit : ℕ → ℕ → ℕ}

theorem length_resultBytes (r : BchResult) : (resultBytes r).length=13 := rfl

theorem length_sectorEcc (r : BchResult) : (sectorEcc r).length=13 := rfl

/-- The registers hold what the encoder computes. -/
theorem encode_of_remainder (h : initBch uninit 13 8 0x201b=some bch) {data ecc : List UInt8}
    (hl : ecc.length=13) (he : bytesPoly ecc=(bytesPoly data*X^bch.eccBits) %ₘ generator bch) :
    (encodeBch bch 0 data (some (List.replicate bch.eccBytes 0))).2=some ecc := by
  obtain ⟨-,hE,hy⟩ := generator_eq h
  obtain ⟨ecc',hc,hlj⟩ := encodeBch_leftJustified (encoderTables_of_built (initBch_built uninit h).1) 0 data _
    (leftJustified_zero bch)
  have h0 : 8*bch.eccBytes-bch.eccBits=0 := by omega
  have hp := hlj.poly
  rw [h0,pow_zero,mul_one,zero_mul,zero_add,←he] at hp
  have heq : ecc'=ecc := bytesPoly_injective (by rw [hlj.length,hy,hl]) hp
  rw [hc,heq]

theorem bytesPoly_xor13 {a c : List UInt8} (ha : a.length=13) (hc : c.length=13) :
    (xorBytes a c).length=13 ∧ bytesPoly (xorBytes a c)=bytesPoly a+bytesPoly c :=
  ⟨by rw [xorBytes,List.length_zipWith,ha,hc,Nat.min_self],bytesPoly_xorBytes (ha.trans hc.symm)⟩

/-- The stored parity without the mask is the remainder of the data. -/
theorem Stored.remainder (h : initBch uninit 13 8 0x201b=some bch) {orig ecc : List UInt8}
    (hs : Stored bch orig ecc) : ecc.length=13 ∧
      bytesPoly (xorBytes ecc inversionMask)=(bytesPoly orig*X^bch.eccBits) %ₘ generator bch := by
  cases hs with
  | written r hr he =>
    subst he
    refine ⟨rfl,?_⟩
    have hx := (bytesPoly_xor13 (a := inversionMask) (c := resultBytes r) rfl rfl).2
    change bytesPoly (sectorEcc r)=_ at hx
    rw [(bytesPoly_xor13 (length_sectorEcc r) rfl).2,hx,←hr]
    linear_combination CharTwo.add_self_eq_zero (bytesPoly inversionMask)
  | erased hd he =>
    subst hd he
    refine ⟨List.length_replicate,?_⟩
    have hmask : xorBytes (List.replicate 13 0xff) inversionMask=erasedParity := by decide
    rw [hmask,erased_remainder h]

/-- The driver passes the sum of the parity of the data as read and of the
parity as read, both without the mask. -/
theorem sum_eq {r : BchResult} {ecc : List UInt8} (he : ecc.length=13) :
    List.zipWith (·^^^·) (sectorEcc r) ecc=xorBytes (xorBytes ecc inversionMask) (resultBytes r) := by
  obtain ⟨hl1,hp1⟩ := bytesPoly_xor13 (length_sectorEcc r) he
  obtain ⟨hl2,hp2⟩ := bytesPoly_xor13 he (c := inversionMask) rfl
  obtain ⟨hl3,hp3⟩ := bytesPoly_xor13 hl2 (length_resultBytes r)
  have hx := (bytesPoly_xor13 (a := inversionMask) (c := resultBytes r) rfl rfl).2
  change bytesPoly (sectorEcc r)=_ at hx
  apply bytesPoly_injective (hl1.trans hl3.symm)
  rw [hp3,hp2]
  exact hp1.trans (by rw [hx]; ring)

/-- The decoder is called with the right words. -/
theorem decode_sector (h : initBch uninit 13 8 0x201b=some bch) (hsame : SameCode bch b) {data ecc : List UInt8}
    {r : BchResult} (hd : data.length=512) (he : ecc.length=13) (hr : HoldsRemainder bch data r) :
    outcome (decodeBch b none 512 none (some (List.zipWith (·^^^·) (sectorEcc r) ecc)) none)=
      outcome (decodeBch b (some (0,data)) 512 (some (xorBytes ecc inversionMask)) none none) := by
  obtain ⟨-,-,hy⟩ := generator_eq h
  have hb := (initBch_built uninit h).1
  have ht := encoderTables_of_built hb
  have henc := encode_of_remainder h (length_resultBytes r) hr
  obtain ⟨hel,-,hload⟩ := loadEcc8_encodeBch ht henc 0
  have hl := (bytesPoly_xor13 he (c := inversionMask) rfl).1
  have hdata := form_data hb hsame 0 data (xorBytes ecc inversionMask)
  rw [hd] at hdata
  rw [hdata,form_sum hb hsame,sum_eq he,loadEcc8_xorBytes ht (hl.trans hy.symm) hel,xorRows_comm,hload]

/-- Without a difference there is nothing to correct. -/
theorem decode_zero (h : initBch uninit 13 8 0x201b=some bch) (hsame : SameCode bch b) {sum : List UInt8}
    (hz : ¬sum.any (·≠0)=true) : outcome (decodeBch b none 512 none (some sum) none)=(0,[]) := by
  have hb := (initBch_built uninit h).1
  obtain ⟨-,hE,-⟩ := generator_eq h
  have hn : bch.n=8191 := by
    rw [hb.n_eq,(initBch_built uninit h).2.1]
    rfl
  have hbytes : ∀ i, (sum.getD i 0).toNat=0 := by
    intro i
    have hall : ∀ x ∈ sum, x=0 := by simpa using hz
    have h0 : sum.getD i 0=0 := by
      rcases Nat.lt_or_ge i sum.length with hi | hi
      · rw [List.getD_eq_getElem _ _ hi]
        exact hall _ (List.getElem_mem hi)
      · rw [List.getD_eq_default _ _ hi]
    rw [h0]
    rfl
  have hwords : ∀ w ∈ loadEcc8 bch sum, w=0 := by
    intro w hw
    unfold loadEcc8 at hw
    dsimp only at hw
    rcases List.mem_append.mp hw with hw | hw
    · obtain ⟨i,-,rfl⟩ := List.mem_map.mp hw
      rw [hbytes,hbytes,hbytes,hbytes]
      rfl
    · rw [List.mem_singleton.mp hw,hbytes,hbytes,hbytes,hbytes,ite_self,ite_self,ite_self,ite_self]
      rfl
  rw [form_sum hb hsame,result,if_neg (by omega),correct_zero hwords]

/-- At most eight inverted bits of a sector are found. -/
theorem decode_flipped (h : initBch uninit 13 8 0x201b=some bch) (hsame : SameCode bch b)
    {orig ecc data ecc' : List UInt8} {errs : List ℕ} {r : BchResult} (ho : orig.length=512)
    (hs : Stored bch orig ecc) (hd : data.length=512) (he : ecc'.length=13) (hr : HoldsRemainder bch data r)
    (hread : data++ecc'=flipBits (orig++ecc) errs) (hnd : errs.Nodup) (hloc : ∀ p ∈ errs, p<8*(512+13))
    (hw : errs.length≤8) :
    ∃ locs : List ℕ, locs.Perm errs ∧
      outcome (decodeBch b none 512 none (some (List.zipWith (·^^^·) (sectorEcc r) ecc')) none)=
        ((errs.length : ℤ),locs) := by
  obtain ⟨-,hE,hy⟩ := generator_eq h
  have hp := primitive_of_initBch h (by decide)
  have : Fact (Irreducible (bitPoly (choosePoly (13 : ℤ).toNat 0x201b))) := ⟨hp.1⟩
  obtain ⟨htab,hbase⟩ := initBch_tables h hp
  have hfin : Finite (AdjoinRoot (bitPoly (choosePoly (13 : ℤ).toNat 0x201b))) := finite_adjoinRoot hp.monic
  obtain ⟨hb,hm,ht,-,-⟩ := initBch_built uninit h
  have hn : bch.n=8191 := by rw [hb.n_eq,hm]; rfl
  obtain ⟨hel,hpar⟩ := hs.remainder h
  obtain ⟨hpl,hpp⟩ := bytesPoly_xor13 hel (c := inversionMask) rfl
  obtain ⟨hrl,hrp⟩ := bytesPoly_xor13 he (c := inversionMask) rfl
  obtain ⟨hcl,hdvd⟩ := generator_dvd_encoded (encoderTables_of_built hb) (encode_of_remainder h hpl hpar)
  -- the mask commutes with inverting bits
  have hword : flipBits (orig++xorBytes ecc inversionMask) errs=data++xorBytes ecc' inversionMask := by
    have hl1 : (orig++xorBytes ecc inversionMask).length=525 := by rw [List.length_append,ho,hpl]
    have hl2 : (orig++ecc).length=525 := by rw [List.length_append,ho,hel]
    have hin : ∀ p ∈ errs, p/8<525 := fun p hp' => by have := hloc p hp'; omega
    have hp1 := bytesPoly_flipBits (hl1 ▸ hin)
    have hp2 := bytesPoly_flipBits (hl2 ▸ hin)
    rw [hl1,bytesPoly_append,hpl,hpp] at hp1
    rw [hl2,bytesPoly_append,hel,←hread,bytesPoly_append,he] at hp2
    apply bytesPoly_injective
    · rw [length_flipBits,hl1,List.length_append,hd,hrl]
    · rw [hp1,bytesPoly_append,hrl,hrp]
      linear_combination -hp2
  have hlen : 8*orig.length≤bch.n-bch.eccBits := by rw [ho,hn,hE]; decide
  have hflip := decodeBch_flipped htab hbase hb (by omega) (by omega) hsame 0 hlen hcl hdvd hnd (fun p hp' => by
      have := hloc p hp'
      unfold IsLocation codeBits streamIndex
      omega) (by omega)
  rw [hword,ho,←hd,List.take_left,List.drop_left,hd] at hflip
  rw [decode_sector h hsame hd he hr]
  exact hflip

/-- What is reported for a number of corrected bits. -/
def report (n : ℕ) : ℤ := if (n : ℤ)<ECC_REPORT_THRESHOLD then 0 else n

/-- How the value to be returned changes with a sector: the number of its
inverted bits, if it was corrected. -/
def addSector (ret : ℤ) : Option ℕ → ℤ
  | some n => if 0≤ret then ret+report n else ret
  | none => -1

/-- The two kinds of sectors: at most eight bits of what was stored are
inverted, or the decoder gives the sector up. The last arguments are the
data that are left and the number of corrected bits. -/
inductive SectorCase (bch : BchControl) (s : ReadSector) : List UInt8 → Option ℕ → Prop
  /-- The original data come back. -/
  | flipped {orig ecc : List UInt8} {errs : List ℕ} (ho : orig.length=512) (hs : Stored bch orig ecc)
    (hread : s.data++s.ecc=flipBits (orig++ecc) errs) (hnd : errs.Nodup) (hloc : ∀ p ∈ errs, p<8*(512+13))
    (hw : errs.length≤8) : SectorCase bch s orig (some errs.length)
  /-- The data stay as they were read. -/
  | failed (hf : (decodeBch bch none 512 none
      (some (List.zipWith (·^^^·) (sectorEcc s.result) s.ecc)) none).ret<0) : SectorCase bch s s.data none

/-- A sector as the driver sees it. -/
structure ReadSector.Valid (bch : BchControl) (s : ReadSector) : Prop where
  /-- A sector has 512 data bytes. -/
  data : s.data.length=512
  /-- The parity has thirteen bytes. -/
  ecc : s.ecc.length=13
  /-- The registers are those for the data as read. -/
  result : HoldsRemainder bch s.data s.result

/-- One round of the correction. -/
theorem correctSector_spec (h : initBch uninit 13 8 0x201b=some bch) (hsame : SameCode bch b) {s : ReadSector}
    (hv : s.Valid bch) {data : List UInt8} {o : Option ℕ} (hc : SectorCase bch s data o) (ret : ℤ) :
    ∃ b', SameCode bch b' ∧ data.length=512 ∧
      correctSector b s.data s.ecc (sectorEcc s.result) ret=(b',data,addSector ret o) := by
  have hb := (initBch_built uninit h).1
  have hcode : ∀ sum, SameCode bch (decodeBch b none 512 none (some sum) none).bch := by
    intro sum
    obtain ⟨e1,e2,sy,l,rfl,hl⟩ := hsame
    exact SameCode.trans ⟨e1,e2,sy,l,rfl,hl⟩ (@sameCode_decodeBch (withScratch bch e1 e2 sy l)
      (hl.trans hb.elpLength) hb.t_pos _ _ _ _ _)
  have hzero := @decode_zero bch b uninit h hsame (List.zipWith (·^^^·) (sectorEcc s.result) s.ecc)
  cases hc with
  | flipped ho hs hread hnd hloc hw =>
    rename_i ecc errs
    obtain ⟨locs,hperm,hout⟩ := decode_flipped h hsame ho hs hv.data hv.ecc hv.result hread hnd hloc hw
    have hback : locs.foldl correctBit s.data=data := by
      have hel := (hs.remainder h).1
      have hf := @flipBits_perm (data++ecc) _ _ hperm fun p hp => by
        have := hloc p hp
        rw [List.length_append,ho,hel]
        omega
      rw [←foldl_correctBit hv.data s.ecc,hread,hf,←ho,List.take_left]
    unfold correctSector
    dsimp only
    split
    · have hcb := hcode (List.zipWith (·^^^·) (sectorEcc s.result) s.ecc)
      generalize decodeBch b none 512 none _ none=d at hout hcb ⊢
      have hret : d.ret=errs.length := congrArg Prod.fst hout
      have herr : d.errloc=locs := congrArg Prod.snd hout
      refine ⟨d.bch,hcb,ho,?_⟩
      rw [hret,herr]
      by_cases h0 : (0 : ℤ)<errs.length
      · rw [if_pos h0]
        rw [List.take_of_length_le (by rw [hperm.length_eq]; omega),hback]
        have hpos : ¬(if (errs.length : ℤ)<ECC_REPORT_THRESHOLD then 0 else (errs.length : ℤ))<0 := by
          split <;> omega
        rw [if_neg hpos]
        rfl
      · rw [if_neg h0]
        dsimp only
        have hnil : errs=[] := List.length_eq_zero_iff.mp (by omega)
        subst hnil
        have hl0 : locs=[] := hperm.eq_nil
        subst hl0
        rw [show s.data=data from hback]
        simp [addSector,report,ECC_REPORT_THRESHOLD]
    · next hz =>
      have h0 := hzero hz
      rw [hout] at h0
      have hnil : errs=[] := List.length_eq_zero_iff.mp (by
        have := congrArg Prod.fst h0
        omega)
      subst hnil
      have hl0 : locs=[] := hperm.eq_nil
      subst hl0
      rw [show s.data=data from hback]
      exact ⟨b,hsame,ho,by simp [addSector,report,ECC_REPORT_THRESHOLD]⟩
  | failed hf =>
    have hsum := (form_sum hb hsame 512 (List.zipWith (·^^^·) (sectorEcc s.result) s.ecc)).trans
      (form_sum hb (SameCode.refl bch) 512 _).symm
    have hneg : (decodeBch b none 512 none
        (some (List.zipWith (·^^^·) (sectorEcc s.result) s.ecc)) none).ret<0 := by
      have := congrArg Prod.fst hsum
      change (decodeBch b _ _ _ _ _).ret=(decodeBch bch _ _ _ _ _).ret at this
      rwa [this]
    unfold correctSector
    dsimp only
    split
    · have hcb := hcode (List.zipWith (·^^^·) (sectorEcc s.result) s.ecc)
      refine ⟨_,hcb,hv.data,?_⟩
      rw [if_neg (by omega)]
      rw [if_pos hneg]
      rfl
    · next hz =>
      have := congrArg Prod.fst (hzero hz)
      change (decodeBch b _ _ _ _ _).ret=0 at this
      omega

end Sector

section Page

variable {bch b : BchControl} {uninit : ℕ → ℕ → ℕ}

/-- The loop over the sectors. -/
theorem correctSectors_spec (h : initBch uninit 13 8 0x201b=some bch) (hsame : SameCode bch b)
    {page : List ReadSector} (hv : ∀ s ∈ page, s.Valid bch) {outs : List (List UInt8×Option ℕ)}
    (hc : List.Forall₂ (fun s o => SectorCase bch s o.1 o.2) page outs) (ret : ℤ) :
    correctSectors 13 page.length b (page.flatMap ReadSector.data) (page.flatMap ReadSector.ecc)
      (page.flatMap fun s => sectorEcc s.result) ret=
      (outs.flatMap Prod.fst,(outs.map Prod.snd).foldl addSector ret) := by
  induction hc generalizing b ret with
  | nil => rfl
  | @cons s o page outs hs _ ih =>
    have hvs := hv s List.mem_cons_self
    obtain ⟨b',hb',-,hstep⟩ := correctSector_spec h hsame hvs hs ret
    have hrest := ih hb' (fun s' hs' => hv s' (List.mem_cons_of_mem _ hs')) (addSector ret o.2)
    rw [List.length_cons,correctSectors,List.flatMap_cons,List.flatMap_cons,List.flatMap_cons,
      ←hvs.data,List.take_left,List.drop_left,←hvs.ecc,List.take_left,List.drop_left,hvs.ecc,
      ←length_sectorEcc s.result,List.take_left,List.drop_left,hstep]
    dsimp only
    rw [length_sectorEcc,hrest]
    rfl

/-- The value returned: a failure is kept, whatever comes after it. -/
theorem foldl_addSector (os : List (Option ℕ)) {ret : ℤ} (hret : 0≤ret) :
    os.foldl addSector ret=
      if none ∈ os then -1 else ret+(os.map fun o => report (o.getD 0)).sum := by
  have hneg : ∀ os : List (Option ℕ), os.foldl addSector (-1)=-1 := by
    intro os
    induction os with
    | nil => rfl
    | cons o os ih => cases o <;> exact ih
  induction os generalizing ret with
  | nil => simp
  | cons o os ih =>
    rw [List.foldl_cons]
    cases o with
    | none => rw [addSector,hneg,if_pos List.mem_cons_self]
    | some n =>
      have hn : 0≤report n := by
        unfold report
        split <;> omega
      rw [addSector,if_pos hret,ih (by omega)]
      have hmem : none ∈ some n::os ↔ none ∈ os := by simp
      rw [if_congr hmem rfl rfl,List.map_cons,List.sum_cons,Option.getD_some,add_assoc]

/-- For every page whose registers hold the remainders of its four sectors,
each sector being one in which at most eight bits of the stored data and
parity are inverted (written with its parity, or erased) or one that the
decoder gives up, `omap_correct_data` restores the former and keeps the
latter. It returns the sum of the numbers of inverted bits that reach the
threshold, or `-1` when a sector was given up. -/
theorem omapCorrectData_restores (h : initBch uninit 13 8 0x201b=some bch) {info : OmapNandInfo}
    (hmode : info.hwEcc=true) (hsize : info.eccSize=2048) (hsame : SameCode bch info.bch)
    {page : List ReadSector} {regs : ℕ → BchResult} (hregs : page.map ReadSector.result=(List.range 4).map regs)
    (hv : ∀ s ∈ page, s.Valid bch) {outs : List (List UInt8×Option ℕ)}
    (hc : List.Forall₂ (fun s o => SectorCase bch s o.1 o.2) page outs) :
    omapCorrectData info (page.flatMap ReadSector.data) (page.flatMap ReadSector.ecc)
      (omapCalculateEcc info.eccSize regs)=
      (outs.flatMap Prod.fst,if none ∈ outs.map Prod.snd then -1
        else ((outs.map Prod.snd).map fun o => report (o.getD 0)).sum) := by
  have hlen : page.length=4 := by
    have := congrArg List.length hregs
    simpa using this
  have hcalc : omapCalculateEcc info.eccSize regs=page.flatMap fun s => sectorEcc s.result := by
    have hmap : page.flatMap (fun s => sectorEcc s.result)=(page.map ReadSector.result).flatMap sectorEcc := by
      rw [List.flatMap_map]
    rw [omapCalculateEcc,hsize,hmap,hregs,List.flatMap_map]
  have hspec := correctSectors_spec h hsame hv hc 0
  rw [hlen,foldl_addSector _ (le_refl 0),zero_add] at hspec
  rw [hcalc]
  unfold omapCorrectData
  dsimp only
  rw [if_pos (show info.hwEcc=true ∧ info.eccSize=2048 from ⟨hmode,hsize⟩)]
  exact hspec

/-- The polynomial of the driver is primitive. -/
theorem primitive_driver {poly : ℕ} (hpoly : poly=0x201b) : IsPrimitivePoly (bitPoly poly) := by
  obtain ⟨hmon,hdeg⟩ := monic_bitPoly (n := poly) (k := 13) (by omega) (by omega)
  have h0 : (bitPoly poly).coeff 0=1 := by
    rw [coeff_bitPoly,hpoly]
    decide
  rw [←isPrimitivePoly_iff hmon (by omega) h0,hdeg]
  -- the order of the root divides the prime 8191
  have hone : AdjoinRoot.root (bitPoly poly)^8191=1 := by
    have hzero : reduceBits poly 13 8180 (xorBits [8191,0])=0 := by
      subst hpoly
      decide +kernel
    have hdvd := dvd_of_reduceBits hzero
    rw [bitPoly_xorBits,←AdjoinRoot.mk_eq_zero,errorPoly,List.map_cons,List.map_cons,List.map_nil,List.sum_cons,
      List.sum_singleton,map_add,map_pow,map_pow,AdjoinRoot.mk_X,pow_zero] at hdvd
    have := charP_adjoinRoot (p := bitPoly poly) (by omega)
    rwa [CharTwo.add_eq_zero] at hdvd
  have hprime : Nat.Prime 8191 := by norm_num
  intro j hj0 hj heq
  have hdvd := Nat.dvd_gcd (orderOf_dvd_of_pow_eq_one heq) (orderOf_dvd_of_pow_eq_one hone)
  have hcop : Nat.gcd j 8191=1 := by
    rw [Nat.gcd_comm]
    exact (hprime.coprime_iff_not_dvd).mpr fun hd => by
      have := Nat.le_of_dvd hj0 hd
      norm_num at hj
      omega
  rw [hcop,Nat.dvd_one,orderOf_eq_one_iff] at hdvd
  have hthree : bitSum (AdjoinRoot.root (bitPoly poly)) 3=0 := by
    have := charP_adjoinRoot (p := bitPoly poly) (by omega)
    rw [hdvd,show (3 : ℕ)=1^^^2^1 by rfl,bitSum_xor,bitSum_one,bitSum_two_pow,one_pow,CharTwo.add_self_eq_zero]
  exact absurd (bitSum_root_indep hmon (by rw [hdeg]; norm_num) hthree) (by norm_num)

/-- Registers for an erased sector. -/
def erasedResult : BchResult := ⟨0x861adb4a,0x6c653d68,0xaed1f612,0x10⟩

/-- An erased page in which three parity bits of the first sector are inverted. -/
theorem omapCorrectData_restores_example : ∃ bch, initBch (fun _ _ => 0) 13 8 0x201b=some bch ∧
    omapCorrectData ⟨true,2048,bch⟩ (List.replicate 2048 0xff)
      (flipBits (List.replicate 52 0xff) [0,4,14]) (omapCalculateEcc 2048 fun _ => erasedResult)=
      (List.replicate 2048 0xff,3) := by
  have hchoose : choosePoly (13 : ℤ).toNat 0x201b=0x201b := by decide
  have hp := primitive_driver hchoose
  have hdeg := (monic_bitPoly (n := choosePoly (13 : ℤ).toNat 0x201b) (k := 13) (by decide) (by decide)).2
  obtain ⟨bch,hb,-⟩ := @initBch_primitive 13 8 0x201b (fun _ _ => 0) (by decide)
    (by rw [hdeg]; rfl) hp
  have hholds : HoldsRemainder bch (List.replicate 512 0xff) erasedResult := by
    have hbytes : resultBytes erasedResult=erasedParity := by decide
    rw [HoldsRemainder,hbytes,erased_remainder hb]
  have hstored : Stored bch (List.replicate 512 0xff) (List.replicate 13 0xff) := .erased rfl rfl
  let clean : ReadSector := ⟨List.replicate 512 0xff,List.replicate 13 0xff,erasedResult⟩
  let dirty : ReadSector := ⟨List.replicate 512 0xff,flipBits (List.replicate 13 0xff) [0,4,14],erasedResult⟩
  have hclean : SectorCase bch clean (List.replicate 512 0xff) (some 0) :=
    @SectorCase.flipped bch clean _ _ [] List.length_replicate hstored rfl (by decide) (by decide) (by decide)
  have hdirty : SectorCase bch dirty (List.replicate 512 0xff) (some 3) :=
    @SectorCase.flipped bch dirty _ _ [4096,4100,4110] List.length_replicate hstored (by decide +kernel)
      (by decide) (by decide) (by decide)
  have hvalid : ∀ s ∈ [dirty,clean,clean,clean], s.Valid bch := by
    have hv : dirty.Valid bch ∧ clean.Valid bch :=
      ⟨⟨List.length_replicate,rfl,hholds⟩,⟨List.length_replicate,List.length_replicate,hholds⟩⟩
    intro s hs
    simp only [List.mem_cons,List.not_mem_nil,or_false] at hs
    rcases hs with rfl | rfl | rfl | rfl
    · exact hv.1
    · exact hv.2
    · exact hv.2
    · exact hv.2
  have hrun := @omapCorrectData_restores bch _ hb ⟨true,2048,bch⟩ rfl rfl (SameCode.refl bch)
    [dirty,clean,clean,clean] (fun _ => erasedResult) rfl hvalid _
    (.cons (b := (List.replicate 512 0xff,some 3)) hdirty (.cons (b := (List.replicate 512 0xff,some 0)) hclean
      (.cons (b := (List.replicate 512 0xff,some 0)) hclean
        (.cons (b := (List.replicate 512 0xff,some 0)) hclean .nil))))
  have hdata : [dirty,clean,clean,clean].flatMap ReadSector.data=List.replicate 2048 0xff := by decide +kernel
  have hecc : [dirty,clean,clean,clean].flatMap ReadSector.ecc=flipBits (List.replicate 52 0xff) [0,4,14] := by
    decide +kernel
  rw [hdata,hecc] at hrun
  refine ⟨bch,hb,hrun.trans ?_⟩
  decide +kernel

end Page

end ArdroneKernel.OmapPage
