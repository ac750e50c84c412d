import ArdroneKernel.BchCorrection

/-!
# The ways of calling the decoder

`decode_bch` takes the data and the received parity, the received and the
computed parity, their sum, or the syndromes. The first three forms reach
the same parity words, whatever the padding bits are and whatever the
buffers held before, and the early return on a zero sum gives what the
second half of the decoder gives for it.
-/

namespace ArdroneKernel.BchForms

open Polynomial BitPolynomial PackedPolynomial PrimitivePolynomial ArrayList BchInit BchEncode BchDecode
  BchPolynomial BchAcceptance BchGenerator BchEncodeCorrect BchRoots BchSyndrome BchScratch

section Words

variable {bch : BchControl}

/-- The parity bits of a buffer as a polynomial, without the padding. -/
noncomputable def parityPoly (bch : BchControl) (ecc : List UInt8) : (ZMod 2)[X] :=
  bytesPoly ecc /ₘ X^(8*bch.eccBytes-bch.eccBits)

theorem degree_bytesPoly_lt (ecc : List UInt8) : (bytesPoly ecc).degree<(8*ecc.length : ℕ) := by
  have h := degree_packed_lt (fits_bytes ecc)
  rwa [List.length_map] at h

theorem degree_parityPoly_lt {ecc : List UInt8} (hl : ecc.length=bch.eccBytes) (hle : bch.eccBits≤8*bch.eccBytes) :
    (parityPoly bch ecc).degree<bch.eccBits := by
  rw [degree_lt_iff_coeff_zero]
  intro i hi
  rw [parityPoly,coeff_div_X_pow]
  apply coeff_eq_zero_of_degree_lt
  apply lt_of_lt_of_le (degree_bytesPoly_lt ecc)
  rw [hl]
  exact_mod_cast (by omega : 8*bch.eccBytes≤ i+(8*bch.eccBytes-bch.eccBits))

/-- Loaded octets hold their parity bits. -/
theorem holds_loadEcc8 (ht : EncoderTables bch) {src : List UInt8} (hs : src.length=bch.eccBytes) :
    Holds bch (loadEcc8 bch src) (parityPoly bch src) := by
  have hb := ht.bits_le
  have hy := ht.bytes_le
  obtain ⟨hl,hf,hp⟩ := loadEcc8_spec ht hs
  have hdiv := modByMonic_add_div (bytesPoly src) (X^(8*bch.eccBytes-bch.eccBits))
  refine ⟨hl,hf,degree_parityPoly_lt hs hb,
    (bytesPoly src %ₘ X^(8*bch.eccBytes-bch.eccBits))*X^(32*eccWords bch-8*bch.eccBytes),?_,?_⟩
  · have hd := degree_modByMonic_lt (bytesPoly src) (monic_X_pow (R := ZMod 2) (8*bch.eccBytes-bch.eccBits))
    rw [degree_X_pow] at hd
    rw [degree_lt_iff_coeff_zero]
    intro i hi
    rw [coeff_mul_X_pow']
    split
    · apply coeff_eq_zero_of_degree_lt
      exact lt_of_lt_of_le hd (by exact_mod_cast (by omega : 8*bch.eccBytes-bch.eccBits≤
        i-(32*eccWords bch-8*bch.eccBytes)))
    · rfl
  · have hexp : 32*eccWords bch-bch.eccBits=
        8*bch.eccBytes-bch.eccBits+(32*eccWords bch-8*bch.eccBytes) := by omega
    rw [hp]
    conv_lhs => rw [←hdiv]
    rw [parityPoly,hexp,pow_add]
    ring

/-- The words after encoding from zero hold the remainder of the data. -/
theorem holds_encode (ht : EncoderTables bch) (align : ℕ) (data : List UInt8) :
    Holds bch (encodeStages bch align data (List.replicate (eccWords bch) 0))
      ((bytesPoly data*X^bch.eccBits) %ₘ generator bch) := by
  have hl : (List.replicate (eccWords bch) 0).length=eccWords bch := List.length_replicate
  have hf : Fits 32 (List.replicate (eccWords bch) 0) := fits_replicate _
  have hp : packed 32 (List.replicate (eccWords bch) 0)=0*X^(32*eccWords bch-bch.eccBits) := by
    rw [packed_replicate,zero_mul]
  have henc := encodes_stages ht align data hl hf
  have hpoly := packed_encodeStages ht align data hl hf hp
  rw [zero_mul,zero_add] at hpoly
  refine ⟨henc.length,henc.fits,?_,0,?_,by rw [hpoly,add_zero]⟩
  · have hd := degree_modByMonic_lt (bytesPoly data*X^bch.eccBits) (monic_generator bch).1
    rwa [degree_eq_natDegree (monic_generator bch).1.ne_zero,ht.degree] at hd
  · exact WithBot.bot_lt_coe _

/-- Adding words adds the parity polynomials. -/
theorem holds_xor {a b : List ℕ} {v w : (ZMod 2)[X]} (ha : Holds bch a v) (hb : Holds bch b w) :
    Holds bch (xorRows a b) (v+w) := by
  obtain ⟨l1,h1,e1⟩ := ha.poly
  obtain ⟨l2,h2,e2⟩ := hb.poly
  have hlen := ha.length.trans hb.length.symm
  refine ⟨?_,fits_zipWith_xor ha.fits hb.fits,?_,l1+l2,?_,?_⟩
  · rw [xorRows,List.length_zipWith,ha.length,hb.length,Nat.min_self]
  · exact lt_of_le_of_lt (degree_add_le _ _) (max_lt ha.degree hb.degree)
  · exact lt_of_le_of_lt (degree_add_le _ _) (max_lt h1 h2)
  · rw [xorRows,packed_zipWith_xor hlen,e1,e2]
    ring

/-- Add two buffers. -/
def xorBytes (a b : List UInt8) : List UInt8 := List.zipWith (·^^^·) a b

theorem bytesPoly_xorBytes {a b : List UInt8} (hl : a.length=b.length) :
    bytesPoly (xorBytes a b)=bytesPoly a+bytesPoly b := by
  have hmap : (xorBytes a b).map UInt8.toNat=List.zipWith (·^^^·) (a.map UInt8.toNat) (b.map UInt8.toNat) := by
    rw [xorBytes,List.map_zipWith,List.zipWith_map]
    congr 1
  rw [bytesPoly,hmap,packed_zipWith_xor (by simpa using hl)]
  rfl

/-- Loading the sum of two buffers adds their words. -/
theorem loadEcc8_xorBytes (ht : EncoderTables bch) {a b : List UInt8} (ha : a.length=bch.eccBytes)
    (hb : b.length=bch.eccBytes) : loadEcc8 bch (xorBytes a b)=xorRows (loadEcc8 bch a) (loadEcc8 bch b) := by
  obtain ⟨la,fa,pa⟩ := loadEcc8_spec ht ha
  obtain ⟨lb,fb,pb⟩ := loadEcc8_spec ht hb
  have hx : (xorBytes a b).length=bch.eccBytes := by rw [xorBytes,List.length_zipWith,ha,hb,Nat.min_self]
  obtain ⟨lx,fx,px⟩ := loadEcc8_spec ht hx
  apply packed_injective fx (fits_zipWith_xor fa fb)
  · rw [List.length_zipWith,lx,la,lb,Nat.min_self]
  · rw [packed_zipWith_xor (la.trans lb.symm),px,pa,pb,bytesPoly_xorBytes (ha.trans hb.symm)]
    ring

theorem xorRows_comm (a b : List ℕ) : xorRows a b=xorRows b a := by
  rw [xorRows,List.zipWith_comm]
  congr 1
  funext x y
  exact Nat.xor_comm y x

/-- The parity that encoding stores is loaded as the words it came from. -/
theorem loadEcc8_encodeBch (ht : EncoderTables bch) {align : ℕ} {data ecc : List UInt8}
    (hc : (encodeBch bch align data (some (List.replicate bch.eccBytes 0))).2=some ecc) (align' : ℕ) :
    ecc.length=bch.eccBytes ∧ parityPoly bch ecc=(bytesPoly data*X^bch.eccBits) %ₘ generator bch ∧
      loadEcc8 bch ecc=encodeStages bch align' data (List.replicate (eccWords bch) 0) := by
  obtain ⟨ecc',hc',hlj⟩ := encodeBch_leftJustified ht align data _ (leftJustified_zero bch)
  obtain rfl : ecc'=ecc := Option.some.inj (hc'.symm.trans hc)
  rw [zero_mul,zero_add] at hlj
  have hload := packed_loadEcc8 ht hlj
  obtain ⟨hl,hf,-⟩ := loadEcc8_spec ht hlj.length
  have hle : Fits 32 (List.replicate (eccWords bch) 0) := fits_replicate _
  have henc := encodes_stages ht align' data List.length_replicate hle
  have hpoly := packed_encodeStages ht align' data List.length_replicate hle
    (R := 0) (by rw [packed_replicate,zero_mul])
  rw [zero_mul,zero_add] at hpoly
  refine ⟨hlj.length,?_,?_⟩
  · have hm := mul_X_pow_div ((bytesPoly data*X^bch.eccBits) %ₘ generator bch)
      (Nat.le_refl (8*bch.eccBytes-bch.eccBits))
    rw [Nat.sub_self,pow_zero,mul_one] at hm
    rw [parityPoly,hlj.poly,hm]
  · exact packed_injective hf henc.fits (hl.trans henc.length.symm) (hload.trans hpoly.symm)

end Words

section Zero

variable {bch : BchControl}

/-- Zero parity words give zero syndromes. -/
theorem synWords_zero {ws : List ℕ} (hz : ∀ w ∈ ws, w=0) (s : ℤ) (syn : List ℕ) :
    synWords bch ws s syn=syn := by
  induction ws generalizing s with
  | nil => rfl
  | cons w ws ih =>
    have hw := hz w List.mem_cons_self
    subst hw
    rw [synWords]
    have hb : synBits bch (s-32) 32 0 syn=syn := rfl
    split
    · exact ih (fun w hw => hz w (List.mem_cons_of_mem _ hw)) _
    · rfl

theorem getD_eq_zero {l : List ℕ} (hz : ∀ x ∈ l, x=0) (i : ℕ) : l.getD i 0=0 :=
  forall_getD (P := (·=0)) rfl hz i

/-- The second half of the decoder finds no error in zero words. -/
theorem correct_zero {ws : List ℕ} (hz : ∀ w ∈ ws, w=0) (len : ℕ) :
    correct bch len (computeSyndromes bch (maskEcc bch ws))=(0,[]) := by
  have hmask : ∀ w ∈ maskEcc bch ws, w=0 := by
    unfold maskEcc
    dsimp only
    split
    · intro w hw
      rcases List.mem_or_eq_of_mem_set hw with hmem | rfl
      · exact hz w hmem
      · rw [getD_eq_zero hz,Nat.zero_and]
    · exact hz
  have hsq : ∀ x ∈ computeSyndromes bch (maskEcc bch ws), x=0 := by
    unfold computeSyndromes synSquares
    rw [synWords_zero hmask]
    have hloop : ∀ (js : List ℕ) (l : List ℕ), (∀ x ∈ l, x=0) →
        ∀ x ∈ js.foldl (fun syn j => syn.set (2*j+1) (gfSqr bch (syn.getD j 0))) l, x=0 := by
      intro js
      induction js with
      | nil => exact fun _ h => h
      | cons j js ih =>
        intro l hl
        apply ih
        intro x hx
        rcases List.mem_or_eq_of_mem_set hx with hmem | rfl
        · exact hl x hmem
        · rw [getD_eq_zero hl]
          rfl
    exact hloop _ _ fun x hx => (List.mem_replicate.mp hx).2
  generalize computeSyndromes bch (maskEcc bch ws)=syn at hsq ⊢
  have hdisc : ∀ elp i, elpDiscrepancy bch syn elp i=0 := by
    intro elp i
    unfold elpDiscrepancy
    rw [getD_eq_zero hsq]
    induction elp.deg with
    | zero => rfl
    | succ d ih =>
      rw [List.range_succ,List.foldl_append,ih,List.foldl_cons,List.foldl_nil,getD_eq_zero hsq,Nat.zero_xor]
      simp [gfMul]
  have hloop : ∀ fuel i (st : ElpState), st.d=0 → st.elp.deg=0 →
      (elpLoop bch syn fuel i st).elp.deg=0 := by
    intro fuel
    induction fuel with
    | zero => exact fun _ _ _ h => h
    | succ fuel ih =>
      intro i st hd h0
      have hu : elpUpdate bch st i=st := by
        unfold elpUpdate
        rw [if_neg (not_not.mpr hd)]
      rw [elpLoop]
      split
      · rw [hu]
        apply ih
        · split
          · exact hdisc _ _
          · exact hd
        · split <;> exact h0
      · exact h0
  have herr : (computeErrorLocatorPolynomial bch syn).1=0 := by
    unfold computeErrorLocatorPolynomial
    dsimp only
    rw [hloop bch.t 0 (elpInit bch syn) (getD_eq_zero hsq 0) rfl,if_neg (Nat.not_lt_zero _)]
    rfl
  unfold correct
  generalize computeErrorLocatorPolynomial bch syn=r at herr ⊢
  obtain ⟨err,elp⟩ := r
  subst herr
  rfl

/-- A disjunction of words is zero when all words are. -/
theorem foldl_or_eq_zero {ws : List ℕ} (h : ws.foldl (·|||·) 0=0) : ∀ w ∈ ws, w=0 := by
  have hgen : ∀ (ws : List ℕ) (a : ℕ), ws.foldl (·|||·) a=0 → a=0 ∧ ∀ w ∈ ws, w=0 := by
    intro ws
    induction ws with
    | nil => exact fun a ha => ⟨ha,by simp⟩
    | cons w ws ih =>
      intro a ha
      obtain ⟨h1,h2⟩ := ih (a|||w) ha
      obtain ⟨ha0,hw0⟩ := Nat.or_eq_zero_iff.mp h1
      exact ⟨ha0,List.forall_mem_cons.mpr ⟨hw0,h2⟩⟩
  exact (hgen ws 0 h).2

end Zero

section Calls

variable {bch : BchControl} (e1 e2 s l : List ℕ)

theorem synWords_scratch (ws : List ℕ) (k : ℤ) (syn : List ℕ) :
    synWords (withScratch bch e1 e2 s l) ws k syn=synWords bch ws k syn := by
  induction ws generalizing k syn with
  | nil => rfl
  | cons w ws ih =>
    exact if_congr Iff.rfl (ih _ _) rfl

theorem computeSyndromes_scratch (ws : List ℕ) :
    computeSyndromes (withScratch bch e1 e2 s l) ws=computeSyndromes bch ws := by
  unfold computeSyndromes
  rw [synWords_scratch]
  rfl

/-- What every form of a call returns for its parity words. -/
def result (bch : BchControl) (len : ℕ) (ws : List ℕ) : ℤ×List ℕ :=
  if bch.n-bch.eccBits<8*len%2^32 then (-EINVAL,[])
  else correct bch len (computeSyndromes bch (maskEcc bch ws))

theorem result_scratch (len : ℕ) (ws : List ℕ) : result (withScratch bch e1 e2 s l) len ws=result bch len ws := by
  unfold result
  rw [correct_scratch,computeSyndromes_scratch]
  rfl

variable (hl : bch.elp.length=3*(bch.t+1)) (ht : 1≤bch.t)

include hl ht

/-- The end of a call that has loaded its parity words. -/
theorem outcome_finish (len : ℕ) (ws : List ℕ) :
    let b := withScratch bch ws e2 s bch.elp
    outcome (decodeSyndromes {b with eccBuf := maskEcc b ws,syn := computeSyndromes b (maskEcc b ws)} len
      (computeSyndromes b (maskEcc b ws)))=correct bch len (computeSyndromes bch (maskEcc bch ws)) := by
  intro b
  have hsyn : computeSyndromes b (maskEcc b ws)=computeSyndromes bch (maskEcc bch ws) :=
    computeSyndromes_scratch ws e2 s bch.elp (maskEcc bch ws)
  have h := (@decodeSyndromes_eq (withScratch bch (maskEcc bch ws) e2
    (computeSyndromes bch (maskEcc bch ws)) bch.elp) hl ht len (computeSyndromes bch (maskEcc bch ws))).1
  rw [correct_scratch] at h
  rw [hsyn]
  exact h

/-- A call with a received parity: the early return changes nothing. -/
theorem outcome_received (len : ℕ) (ws ws2 : List ℕ) (hguard : ¬bch.n-bch.eccBits<8*len%2^32) :
    let b := withScratch bch (xorRows ws ws2) ws2 s bch.elp
    outcome (if (xorRows ws ws2).foldl (·|||·) 0=0 then ⟨0,[],b⟩
      else decodeSyndromes {b with
        eccBuf := maskEcc b (xorRows ws ws2)
        syn := computeSyndromes b (maskEcc b (xorRows ws ws2))} len
          (computeSyndromes b (maskEcc b (xorRows ws ws2))))=result bch len (xorRows ws ws2) := by
  intro b
  rw [result,if_neg hguard]
  split
  · next hz => rw [correct_zero (foldl_or_eq_zero hz)]; rfl
  · exact outcome_finish ws2 s hl ht len _

/-- The form with data and received parity. -/
theorem outcome_data (align : ℕ) (data recv : List UInt8) :
    outcome (decodeBch bch (some (align,data)) data.length (some recv) none none)=
      result bch data.length
        (xorRows (encodeStages bch align data (List.replicate (eccWords bch) 0)) (loadEcc8 bch recv)) := by
  unfold decodeBch
  by_cases hg : bch.n-bch.eccBits<8*data.length%2^32
  · rw [if_pos hg,result,if_pos hg]
    rfl
  · rw [if_neg hg]
    dsimp only
    rw [List.take_length]
    exact outcome_received bch.syn hl ht data.length
      (encodeStages bch align data (List.replicate (eccWords bch) 0)) (loadEcc8 bch recv) hg

/-- The form with the sum of the parities. -/
theorem outcome_sum (len : ℕ) (sum : List UInt8) :
    outcome (decodeBch bch none len none (some sum) none)=result bch len (loadEcc8 bch sum) := by
  unfold decodeBch
  by_cases hg : bch.n-bch.eccBits<8*len%2^32
  · rw [if_pos hg,result,if_pos hg]
    rfl
  · rw [if_neg hg,result,if_neg hg]
    exact outcome_finish bch.eccBuf2 bch.syn hl ht len (loadEcc8 bch sum)

end Calls

section Agreement

variable {bch : BchControl} (e1 e2 s l : List ℕ)

theorem encodeWords_scratch (data : List UInt8) (ws : List ℕ) :
    encodeWords (withScratch bch e1 e2 s l) data ws=encodeWords bch data ws := by
  induction data, ws using encodeWords.induct bch with
  | case1 a b c d rest ws ih => exact ih
  | case2 rest ws hne =>
    rw [encodeWords,encodeWords]
    · exact hne
    · exact hne

theorem encodeStages_scratch (align : ℕ) (data : List UInt8) (ws : List ℕ) :
    encodeStages (withScratch bch e1 e2 s l) align data ws=encodeStages bch align data ws := by
  unfold encodeStages
  dsimp only
  rw [encodeWords_scratch]
  rfl

theorem encodeBch_scratch (align : ℕ) (data : List UInt8) (ecc : List UInt8) :
    (encodeBch (withScratch bch e1 e2 s l) align data (some ecc)).2=(encodeBch bch align data (some ecc)).2 := by
  unfold encodeBch
  dsimp only
  rw [encodeStages_scratch]
  rfl

variable {e1 e2 s l} {b : BchControl} (hb : Built bch) (hsame : SameCode bch b)

include hb hsame

/-- The form with data, after any earlier calls. -/
theorem form_data (align : ℕ) (data recv : List UInt8) :
    outcome (decodeBch b (some (align,data)) data.length (some recv) none none)=result bch data.length
      (xorRows (encodeStages bch align data (List.replicate (eccWords bch) 0)) (loadEcc8 bch recv)) := by
  obtain ⟨_,_,_,_,rfl,hl⟩ := hsame
  rw [@outcome_data (withScratch bch _ _ _ _) (hl.trans hb.elpLength) hb.t_pos,encodeStages_scratch,result_scratch]
  rfl

/-- The form with the sum of the parities, after any earlier calls. -/
theorem form_sum (len : ℕ) (sum : List UInt8) :
    outcome (decodeBch b none len none (some sum) none)=result bch len (loadEcc8 bch sum) := by
  obtain ⟨_,_,_,_,rfl,hl⟩ := hsame
  rw [@outcome_sum (withScratch bch _ _ _ _) (hl.trans hb.elpLength) hb.t_pos,result_scratch]
  rfl

omit hsame in
/-- There are parity bits, and they fit the parity words. -/
theorem parity_size : 0<bch.eccBits ∧ bch.eccBits≤32*eccWords bch := by
  have ht := encoderTables_of_built hb
  have hbits := ht.bits_le
  have hbytes := ht.bytes_le
  have hr := hb.range
  have hn := hb.n_eq
  have h5 := Nat.pow_le_pow_right (n := 2) (by omega) hr.1
  refine ⟨?_,by omega⟩
  rw [hb.eccBits_eq]
  exact eccBits_pos hb.t_pos (by omega) (by omega)

end Agreement

/-- A polynomial with a constant term that was accepted is primitive. -/
theorem primitive_of_initBch {uninit : ℕ → ℕ → ℕ} {m t : ℤ} {primPoly : ℕ} {bch : BchControl}
    (h : initBch uninit m t primPoly=some bch) (hodd : choosePoly m.toNat primPoly%2=1) :
    IsPrimitivePoly (bitPoly (choosePoly m.toNat primPoly)) := by
  by_contra hnot
  rw [initBch_refused hodd fun hc => hnot hc.2] at h
  cases h

end ArdroneKernel.BchForms
