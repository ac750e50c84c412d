import ArdroneKernel.BchEncodeCorrect
import ArdroneKernel.BchFactor

/-!
# The scratch buffers of the decoder

The control structure keeps buffers between calls. A call of the encoder
or of the decoder changes nothing else, and what the decoder returns does
not depend on what earlier calls left in them.
-/

namespace ArdroneKernel.BchScratch

open ArrayList BchInit BchDecode BchPolynomial BchFactor

/-- The control structure with other contents of its scratch buffers. -/
def withScratch (bch : BchControl) (eccBuf eccBuf2 syn elp : List ℕ) : BchControl :=
  {bch with eccBuf := eccBuf,eccBuf2 := eccBuf2,syn := syn,elp := elp}

/-- The second structure is the first one after some calls: only scratch
buffers differ, and the storage of the locator has its size. -/
def SameCode (bch bch' : BchControl) : Prop :=
  ∃ eccBuf eccBuf2 syn elp, bch'=withScratch bch eccBuf eccBuf2 syn elp ∧ elp.length=bch.elp.length

theorem SameCode.refl (bch : BchControl) : SameCode bch bch := ⟨_,_,_,_,rfl,rfl⟩

theorem SameCode.trans {b b' b'' : BchControl} (h : SameCode b b') (h' : SameCode b' b'') : SameCode b b'' := by
  obtain ⟨e1,e2,s,l,rfl,hl⟩ := h
  obtain ⟨e1',e2',s',l',rfl,hl'⟩ := h'
  exact ⟨e1',e2',s',l',rfl,hl'.trans hl⟩

section Functions

variable (bch : BchControl) (e1 e2 s l : List ℕ)

theorem elpLoop_scratch (syn : List ℕ) (fuel i : ℕ) (st : ElpState) :
    elpLoop (withScratch bch e1 e2 s l) syn fuel i st=elpLoop bch syn fuel i st := by
  induction fuel generalizing i st with
  | zero => rfl
  | succ fuel ih =>
    exact if_congr Iff.rfl (ih _ _) rfl

theorem computeErrorLocatorPolynomial_scratch (syn : List ℕ) :
    computeErrorLocatorPolynomial (withScratch bch e1 e2 s l) syn=computeErrorLocatorPolynomial bch syn := by
  unfold computeErrorLocatorPolynomial
  rw [elpLoop_scratch]
  rfl

theorem gcdLoop_scratch (fuel : ℕ) (a b : GfPoly) :
    gcdLoop (withScratch bch e1 e2 s l) fuel a b=gcdLoop bch fuel a b := by
  induction fuel generalizing a b with
  | zero => rfl
  | succ fuel ih =>
    exact if_congr Iff.rfl (ih _ _) rfl

theorem factorSplit_scratch (k : ℕ) (f : GfPoly) :
    factorSplit (withScratch bch e1 e2 s l) k f=factorSplit bch k f := by
  have hg : ∀ a b, gfPolyGcd (withScratch bch e1 e2 s l) a b=gfPolyGcd bch a b := by
    intro a b
    rw [gfPolyGcd,gfPolyGcd,gcdLoop_scratch,gcdLoop_scratch]
  unfold factorSplit
  dsimp only
  rw [hg]
  rfl

theorem findPolyDeg2Roots_scratch (c : List ℕ) :
    findPolyDeg2Roots (withScratch bch e1 e2 s l) c=findPolyDeg2Roots bch c := by
  unfold findPolyDeg2Roots
  dsimp only
  rfl

theorem polyRoots_scratch (fuel k : ℕ) (f : GfPoly) :
    polyRoots (withScratch bch e1 e2 s l) fuel k f=polyRoots bch fuel k f := by
  induction fuel generalizing k f with
  | zero => rfl
  | succ fuel ih =>
    by_cases hd : 5≤f.deg
    · rw [polyRoots_factor hd,polyRoots_factor hd,factorSplit_scratch]
      refine if_congr Iff.rfl ?_ rfl
      cases factorSplit bch k f with
      | none => exact ih _ _
      | some p =>
        obtain ⟨g,q⟩ := p
        dsimp only
        rw [ih,ih]
    · obtain ⟨d,c⟩ := f
      interval_cases d
      · rfl
      · rfl
      · exact findPolyDeg2Roots_scratch bch e1 e2 s l c
      · rfl
      · rfl

end Functions

section Result

/-- The locator polynomial fills its array. -/
theorem length_elp (bch : BchControl) (syn : List ℕ) :
    (computeErrorLocatorPolynomial bch syn).2.c.length=2*bch.t+1 := by
  have hcorrect : ∀ st k, (elpCorrect bch st k).length=st.elp.c.length := by
    intro st k
    unfold elpCorrect
    generalize st.elp.c=c
    induction List.range (st.pelp.deg+1) generalizing c with
    | nil => rfl
    | cons j js ih =>
      rw [List.foldl_cons,ih]
      split
      · exact length_xorAt _ _ _
      · rfl
  have hloop : ∀ fuel i (st : ElpState), st.elp.c.length=2*bch.t+1 →
      (elpLoop bch syn fuel i st).elp.c.length=2*bch.t+1 := by
    intro fuel
    induction fuel with
    | zero => exact fun _ _ h => h
    | succ fuel ih =>
      intro i st h
      rw [elpLoop]
      split
      · apply ih
        have hu : (elpUpdate bch st i).elp.c.length=2*bch.t+1 := by
          unfold elpUpdate
          split
          · dsimp only
            split <;> exact (hcorrect _ _).trans h
          · exact h
        split <;> exact hu
      · exact h
  apply hloop
  change ((List.replicate (2*bch.t+1) 0).set 0 1).length=2*bch.t+1
  rw [List.length_set,List.length_replicate]

/-- The degree returned is that of the polynomial. -/
theorem degree_elp {bch : BchControl} {syn : List ℕ} (h : 0<(computeErrorLocatorPolynomial bch syn).1) :
    (computeErrorLocatorPolynomial bch syn).1=(computeErrorLocatorPolynomial bch syn).2.deg ∧
      (computeErrorLocatorPolynomial bch syn).2.deg≤bch.t := by
  unfold computeErrorLocatorPolynomial at h ⊢
  dsimp only at h ⊢
  split at h
  · omega
  · next hle => exact ⟨if_neg hle,by omega⟩

/-- What a caller sees of a call of the decoder. -/
def outcome (d : Decoded) : ℤ×List ℕ := (d.ret,d.errloc)

/-- The result of the second half of the decoder, without the storage. -/
def correct (bch : BchControl) (len : ℕ) (syn : List ℕ) : ℤ×List ℕ :=
  let (err,elp) := computeErrorLocatorPolynomial bch syn
  if 0<err then
    let roots := polyRoots bch (bch.m+1) 1 ⟨elp.deg,elp.c.take (elp.deg+1)⟩
    let nbits := len*8+bch.eccBits
    if err≠roots.length then (-EBADMSG,roots)
    else (if (renumber nbits roots).1 then err else -EBADMSG,(renumber nbits roots).2)
  else (if 0≤err then err else -EBADMSG,[])

theorem correct_scratch (bch : BchControl) (e1 e2 s l : List ℕ) (len : ℕ) (syn : List ℕ) :
    correct (withScratch bch e1 e2 s l) len syn=correct bch len syn := by
  unfold correct
  rw [computeErrorLocatorPolynomial_scratch]
  simp only [polyRoots_scratch]
  rfl

/-- The second half of the decoder only overwrites the storage of the
locator, and its result does not depend on what was stored there. -/
theorem decodeSyndromes_eq {bch : BchControl} (hl : bch.elp.length=3*(bch.t+1)) (ht : 1≤bch.t) (len : ℕ)
    (syn : List ℕ) :
    outcome (decodeSyndromes bch len syn)=correct bch len syn ∧
      SameCode bch (decodeSyndromes bch len syn).bch := by
  have hlen := length_elp bch syn
  have hdeg := @degree_elp bch syn
  unfold decodeSyndromes correct
  generalize computeErrorLocatorPolynomial bch syn=r at hlen hdeg ⊢
  obtain ⟨err,elp⟩ := r
  dsimp only at hlen hdeg ⊢
  have hws : (elp.deg::elp.c).length=2*bch.t+2 := by rw [List.length_cons,hlen]
  have hml := @length_storeWords bch.elp (elp.deg::elp.c) 0 (by omega)
  have hg := fun i => @getD_storeWords bch.elp (elp.deg::elp.c) 0 (by omega) i
  generalize storeWords bch.elp 0 (elp.deg::elp.c)=mem at hml hg ⊢
  by_cases hpos : 0<err
  · obtain ⟨-,hdt⟩ := hdeg hpos
    have hload : loadPoly mem 0=⟨elp.deg,elp.c.take (elp.deg+1)⟩ := by
      have h0 : mem.getD 0 0=elp.deg := by
        rw [hg,if_pos (by omega)]
        rfl
      unfold loadPoly
      rw [h0]
      congr 1
      apply ext_getD 0
      · rw [List.length_take,List.length_drop,List.length_take,hml,hl,hlen]
        omega
      · intro i hi
        have hi' : i<elp.deg+1 := lt_of_lt_of_le hi (List.length_take_le _ _)
        rw [getD_take _ _ hi',getD_take _ _ hi',getD_drop,hg,if_pos (by omega),Nat.sub_zero,Nat.zero_add,
          Nat.add_comm 1 i,List.getD_cons_succ]
    have hfit : 0+3*(loadPoly mem 0).deg≤ mem.length := by
      rw [hload,hml,hl]
      change 0+3*elp.deg≤3*(bch.t+1)
      omega
    obtain ⟨hroots,hsame⟩ := @findPolyRoots_eq bch (bch.m+1) 1 mem 0 hfit
    rw [hload] at hroots
    have hmem := hsame.1
    rw [if_pos hpos,if_pos hpos]
    generalize findPolyRoots bch (bch.m+1) 1 mem 0=fr at hroots hmem ⊢
    obtain ⟨mem',roots⟩ := fr
    subst hroots
    split
    · exact ⟨rfl,_,_,_,_,rfl,hmem.trans hml⟩
    · exact ⟨rfl,_,_,_,_,rfl,hmem.trans hml⟩
  · rw [if_neg hpos,if_neg hpos]
    exact ⟨rfl,_,_,_,_,rfl,hml⟩

/-- A call of the decoder only overwrites scratch buffers. -/
theorem sameCode_decodeBch {bch : BchControl} (hl : bch.elp.length=3*(bch.t+1)) (ht : 1≤bch.t)
    (data : Option (ℕ×List UInt8)) (len : ℕ) (recvEcc calcEcc : Option (List UInt8)) (syn : Option (List ℕ)) :
    SameCode bch (decodeBch bch data len recvEcc calcEcc syn).bch := by
  have hdec : ∀ e1 e2 s syn, SameCode bch (decodeSyndromes (withScratch bch e1 e2 s bch.elp) len syn).bch :=
    fun e1 e2 s syn => SameCode.trans ⟨e1,e2,s,bch.elp,rfl,rfl⟩
      (@decodeSyndromes_eq (withScratch bch e1 e2 s bch.elp) hl ht len syn).2
  unfold decodeBch
  split
  · exact SameCode.refl bch
  · cases syn with
    | some syn => exact hdec bch.eccBuf bch.eccBuf2 bch.syn syn
    | none =>
      rcases calcEcc with _ | ecc
      · rcases data with _ | ⟨align,data⟩
        · exact SameCode.refl bch
        · rcases recvEcc with _ | recv
          · exact SameCode.refl bch
          · dsimp only
            split
            · exact ⟨_,_,_,_,rfl,rfl⟩
            · exact hdec _ _ _ _
      · rcases recvEcc with _ | recv
        · exact hdec _ _ _ _
        · dsimp only
          split
          · exact ⟨_,_,_,_,rfl,rfl⟩
          · exact hdec _ _ _ _

end Result

end ArdroneKernel.BchScratch
