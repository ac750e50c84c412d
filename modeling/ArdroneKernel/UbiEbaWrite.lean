import ArdroneKernel.UbiEba
import Mathlib.Data.List.GetD

/-!
# Writes that report success

Exactly when a write that returns zero has stored the data. The error of the
last attempt is lost when its eraseblock is put.
-/

namespace ArdroneKernel.UbiEbaWrite

open UbiFlash UbiEba Function
open UbiScan (VidHdr)

/-- Free eraseblocks are erased. -/
def FreeErased (st : State) : Prop := ∀ p∈st.free,st.flash p=Peb.erased

/-- What holds of the mapping and of the free eraseblocks between operations. -/
structure WellFormed (st : State) : Prop where
  freeErased : FreeErased st
  /-- A mapped LEB has an eraseblock with a header. -/
  mapped : ∀ v l p,st.ebaTbl v l=some p → p∉st.free∧∃ h,(st.flash p).vid=.hdr h
  /-- LEBs have eraseblocks of their own. -/
  own : ∀ v l v' l' p,st.ebaTbl v l=some p → st.ebaTbl v' l'=some p → v=v'∧l=l'

/-- The error of writing to a new eraseblock. -/
def Try.err (t : Try) (data : Bool) : ℤ :=
  if t.writeVid≠0 then t.writeVid else if data then t.writeData else 0

/-- All attempts left fail with `-EIO`, and the eraseblocks are put. -/
def Exhausted (tries : ℕ → Try) (data : Bool) : ℕ → ℕ → Finset ℕ → Prop
  | left,k,free =>
    0≤(tries k).get∧(tries k).get.toNat∈free∧Try.err (tries k) data=- UbiEba.EIO∧(tries k).put=0∧
      match left with
      | 0 => True
      | left+1 => Exhausted tries data left (k+1) (free.erase (tries k).get.toNat)

/-! ## One attempt -/

/-- A write to free eraseblocks leaves the mapping and all others as they are. -/
structure Frame (st st' : State) : Prop where
  ebaTbl : st'.ebaTbl=st.ebaTbl
  free : st'.free⊆st.free
  flash : ∀ q,q∉st.free → st'.flash q=st.flash q
  freeErased : FreeErased st → FreeErased st'

theorem Frame.trans {st₁ st2 st3 : State} (h : Frame st₁ st2) (k : Frame st2 st3) :
    Frame st₁ st3 where
  ebaTbl := k.ebaTbl.trans h.ebaTbl
  free := k.free.trans h.free
  flash q hq := (k.flash q fun hm => hq (h.free hm)).trans (h.flash q hq)
  freeErased he := k.freeErased (h.freeErased he)

theorem wlGetPeb_ok {st st' : State} {get : ℤ} {p : ℕ} (h : wlGetPeb st get=.ok (p,st')) :
    0≤get∧p=get.toNat∧p∈st.free∧st'={ st with free := st.free.erase p } := by
  unfold wlGetPeb at h
  split at h
  · cases h
  · next hn =>
    split at h
    · next hm =>
      cases h
      exact ⟨not_lt.mp hn,rfl,hm,rfl⟩
    · cases h

theorem wlGetPeb_error {st : State} {get err : ℤ} (h : wlGetPeb st get=.error err) : err≠0 := by
  unfold wlGetPeb at h
  split at h
  · next hn =>
    cases h
    exact ne_of_lt hn
  · split at h
    · cases h
    · cases h
      decide

theorem wlPutPeb_fields (st : State) (put : ℤ) (p : ℕ) :
    (wlPutPeb st put p).1=put∧(wlPutPeb st put p).2.ebaTbl=st.ebaTbl∧
      (wlPutPeb st put p).2.free=st.free∧(wlPutPeb st put p).2.flash=st.flash := by
  unfold wlPutPeb
  split
  · exact ⟨rfl,rfl,rfl,rfl⟩
  · next h => exact ⟨(not_not.mp h).symm,rfl,rfl,rfl⟩

/-- A step on an eraseblock that is not free. -/
theorem change_frame {st st' : State} {p : ℕ} (hp : p∈st.free) (hb : st'.ebaTbl=st.ebaTbl)
    (hf : st'.free=st.free.erase p) (hq : ∀ q,q≠p → st'.flash q=st.flash q) : Frame st st' where
  ebaTbl := hb
  free := by
    rw [hf]
    exact Finset.erase_subset p st.free
  flash q h := hq q fun he => h (he▸hp)
  freeErased he q h := by
    rw [hf] at h
    rw [hq q (Finset.ne_of_mem_erase h)]
    exact he q (Finset.mem_of_mem_erase h)

theorem programmed_erased (offset : ℕ) (buf : List UInt8) :
    programmed (fun _ => 0xFF) offset buf=buf := by
  unfold programmed
  apply List.ext_getElem?
  intro i
  rw [List.getElem?_mapIdx]
  cases buf[i]? with
  | none => rfl
  | some b =>
    have hb : ∀ b : UInt8,0xFF&&&b=b := fun b =>
      UInt8.toBitVec_inj.mp (BitVec.allOnes_and (x := b.toBitVec))
    simp [hb]

/-- The bytes of a new eraseblock. -/
def newBytes (offset : ℕ) (buf : List UInt8) : ℕ → UInt8 := putBytes (fun _ => 0xFF) offset buf

theorem putBytes_nil (data : ℕ → UInt8) (offset : ℕ) : putBytes data offset []=data := by
  funext i
  unfold putBytes
  rw [if_neg]
  rintro ⟨h,k⟩
  simp only [List.length_nil,Nat.add_zero] at k
  omega

/-- Data are written to a new eraseblock. -/
def needsData (buf : List UInt8) (always : Bool) : Bool := decide (buf.length≠0∨always=true)

theorem writePeb_err (st : State) (p : ℕ) (h : VidHdr) (offset : ℕ) (buf : List UInt8)
    (always : Bool) (t : Try) :
    (writePeb st p h offset buf always t).1=Try.err t (needsData buf always) := by
  unfold writePeb Try.err needsData ioWriteVidHdr ioWriteData
  dsimp only
  by_cases hv : t.writeVid=0
  · rw [if_neg (not_not.mpr hv),if_neg (not_not.mpr hv)]
    by_cases hd : buf.length≠0∨always=true
    · rw [if_pos hd,decide_eq_true hd,if_pos rfl]
    · rw [if_neg hd,decide_eq_false hd,if_neg Bool.false_ne_true]
  · rw [if_pos hv,if_pos hv]

theorem writePeb_fields (st : State) (p : ℕ) (h : VidHdr) (offset : ℕ) (buf : List UInt8)
    (always : Bool) (t : Try) :
    (writePeb st p h offset buf always t).2.ebaTbl=st.ebaTbl∧
      (writePeb st p h offset buf always t).2.free=st.free∧
      ∀ q,q≠p → (writePeb st p h offset buf always t).2.flash q=st.flash q := by
  unfold writePeb ioWriteVidHdr ioWriteData State.change FlashStep.apply
  dsimp only
  split
  · exact ⟨rfl,rfl,fun q hq => update_of_ne hq _ _⟩
  split
  · refine ⟨rfl,rfl,fun q hq => ?_⟩
    dsimp only
    rw [update_of_ne hq,update_of_ne hq]
  · exact ⟨rfl,rfl,fun q hq => update_of_ne hq _ _⟩

/-- A new eraseblock that was written holds the header and the data. -/
theorem writePeb_written (st : State) {p : ℕ} (h : VidHdr) (offset : ℕ) (buf : List UInt8)
    (always : Bool) {t : Try} (he : st.flash p=Peb.erased)
    (ok : Try.err t (needsData buf always)=0) :
    (writePeb st p h offset buf always t).2.flash p=⟨.hdr h,newBytes offset buf⟩ := by
  have hv : t.writeVid=0 := by
    by_contra hv
    unfold Try.err at ok
    rw [if_pos hv] at ok
    exact hv ok
  unfold Try.err at ok
  rw [if_neg (not_not.mpr hv)] at ok
  unfold writePeb ioWriteVidHdr ioWriteData State.change FlashStep.apply
  dsimp only
  rw [if_neg (not_not.mpr hv)]
  by_cases hd : buf.length≠0∨always=true
  · have hw : t.writeData=0 := by
      unfold needsData at ok
      rwa [decide_eq_true hd,if_pos rfl] at ok
    rw [if_pos hd]
    simp only [update_self,hw,hv,if_true]
    rw [he]
    change Peb.mk _ (putBytes (fun _ => 0xFF) offset (programmed (fun _ => 0xFF) offset buf))=_
    rw [programmed_erased]
    rfl
  · have hb : buf=[] := List.length_eq_zero_iff.mp (by
      by_contra hn
      exact hd (.inl hn))
    rw [if_neg hd]
    simp only [update_self,hv,if_true]
    rw [he,hb]
    unfold newBytes
    rw [putBytes_nil]
    rfl

/-! ## The loop -/

section

variable (d : Device) (tries : ℕ → Try) (offset : ℕ) (buf : List UInt8) (always : Bool)
  (finish : State → ℕ → ℤ×State)

/-- A new eraseblock was written, and the operation ended with it. -/
structure Written (st : State) (res : ℤ×State) (k : ℕ) (st₁ : State) (p : ℕ) : Prop where
  frame : Frame st st₁
  old : p∈st.free
  new : p∉st₁.free
  content : ∃ h,st₁.flash p=⟨.hdr h,newBytes offset buf⟩
  result : res=finish st₁ p
  attempt : 0≤(tries k).get∧Try.err (tries k) (needsData buf always)=0

/-- An attempt fails with `-EIO`, and the eraseblock is put. -/
structure Fails (st : State) (k : ℕ) : Prop where
  bad : d.badAllowed=true
  get : 0≤(tries k).get
  free : (tries k).get.toNat∈st.free
  err : Try.err (tries k) (needsData buf always)=- UbiEba.EIO
  put : (tries k).put=0

/-- After such an attempt there is another one, or zero is returned. -/
theorem writeRetry_fails (left : ℕ) {k : ℕ} {h : VidHdr} {st : State}
    (hf : Fails d tries buf always st k) :
    ∃ h' st',Frame st st'∧st'.free=st.free.erase (tries k).get.toNat∧
      writeRetry d tries offset buf always finish left k h st=
        match left with
        | 0 => (0,st')
        | left+1 => writeRetry d tries offset buf always finish left (k+1) h' st' := by
  generalize hres : writeRetry d tries offset buf always finish left k h st=res
  unfold writeRetry at hres
  have hg : wlGetPeb st (tries k).get=.ok ((tries k).get.toNat,
      { st with free := st.free.erase (tries k).get.toNat }) := by
    unfold wlGetPeb
    rw [if_neg (not_lt.mpr hf.get),if_pos hf.free]
  rw [hg] at hres
  dsimp only at hres
  have hw := writePeb_fields { st with free := st.free.erase (tries k).get.toNat }
    (tries k).get.toNat h offset buf always (tries k)
  have herr := (writePeb_err { st with free := st.free.erase (tries k).get.toNat }
    (tries k).get.toNat h offset buf always (tries k)).trans hf.err
  have hput := wlPutPeb_fields (writePeb { st with free := st.free.erase (tries k).get.toNat }
    (tries k).get.toNat h offset buf always (tries k)).2 (tries k).put (tries k).get.toNat
  have hfr := change_frame hf.free (hput.2.1.trans hw.1) (hput.2.2.1.trans hw.2.1) fun q hq =>
    (congrFun hput.2.2.2 q).trans (hw.2.2 q hq)
  have hput0 := hput.1.trans hf.put
  rw [if_neg (by rw [herr]; decide),if_neg (by rw [herr,hf.bad]; decide)] at hres
  cases left with
  | zero =>
    refine ⟨h,(wlPutPeb (writePeb { st with free := st.free.erase (tries k).get.toNat }
      (tries k).get.toNat h offset buf always (tries k)).2 (tries k).put
      (tries k).get.toNat).2.ro,?_,?_,?_⟩
    · exact ⟨hfr.ebaTbl,hfr.free,hfr.flash,hfr.freeErased⟩
    · exact hput.2.2.1.trans hw.2.1
    · rw [← hres,hput0]
  | succ left =>
    dsimp only at hres
    rw [if_neg (not_not.mpr hput0)] at hres
    refine ⟨_,_,?_,?_,hres.symm⟩
    · exact ⟨hfr.ebaTbl,hfr.free,hfr.flash,hfr.freeErased⟩
    · exact hput.2.2.1.trans hw.2.1

/-- One attempt of the loop: it stops, or it fails with `-EIO` and the next one follows. -/
theorem writeRetry_step (left k : ℕ) (h : VidHdr) {st : State} (he : FreeErased st) :
    (∃ st₁ p,Written tries offset buf always finish st
      (writeRetry d tries offset buf always finish left k h st) k st₁ p)∨
    (writeRetry d tries offset buf always finish left k h st).1≠0∨
    Fails d tries buf always st k := by
  generalize hres : writeRetry d tries offset buf always finish left k h st=res
  unfold writeRetry at hres
  split at hres
  · next err hg =>
    subst hres
    exact .inr (.inl (wlGetPeb_error hg))
  next p st0 hg =>
  have ⟨hpos,hp,hmem,hst⟩ := wlGetPeb_ok hg
  subst hst
  have hw := writePeb_fields { st with free := st.free.erase p } p h offset buf always (tries k)
  have hf : Frame st
      (writePeb { st with free := st.free.erase p } p h offset buf always (tries k)).2 :=
    change_frame hmem hw.1 hw.2.1 hw.2.2
  have herr := writePeb_err { st with free := st.free.erase p } p h offset buf always (tries k)
  dsimp only at hres
  split at hres
  · next h0 =>
    rw [herr] at h0
    refine .inl ⟨_,p,hf,hmem,?_,?_,hres.symm,hpos,h0⟩
    · rw [hw.2.1]
      exact Finset.notMem_erase p st.free
    · exact ⟨h,writePeb_written { st with free := st.free.erase p } h offset buf always
        (he p hmem) h0⟩
  split at hres
  · next h0 _ =>
    subst hres
    exact .inr (.inl h0)
  next h0 hbad =>
  rw [not_or,not_not,not_not,herr] at hbad
  have hput := wlPutPeb_fields
    (writePeb { st with free := st.free.erase p } p h offset buf always (tries k)).2 (tries k).put p
  by_cases h0 : (tries k).put=0
  · exact .inr (.inr ⟨hbad.2,hpos,hp▸hmem,hbad.1,h0⟩)
  · refine .inr (.inl ?_)
    cases left with
    | zero =>
      subst hres
      rw [hput.1]
      exact h0
    | succ left =>
      dsimp only at hres
      rw [if_pos (fun hz => h0 (hput.1.symm.trans hz))] at hres
      subst hres
      rw [hput.1]
      exact h0

/-- How the loop ends. -/
theorem writeRetry_cases (left : ℕ) {k : ℕ} {h : VidHdr} {st : State} (he : FreeErased st) :
    (∃ k' st₁ p,k≤k'∧k'≤k+left∧Written tries offset buf always finish st
      (writeRetry d tries offset buf always finish left k h st) k' st₁ p)∨
    (writeRetry d tries offset buf always finish left k h st).1≠0∨
    (d.badAllowed=true∧Exhausted tries (needsData buf always) left k st.free) := by
  induction left generalizing k h st with
  | zero =>
    rcases writeRetry_step d tries offset buf always finish 0 k h he with ⟨st₁,p,hw⟩|hne|hf
    · exact .inl ⟨k,st₁,p,le_rfl,le_rfl,hw⟩
    · exact .inr (.inl hne)
    · exact .inr (.inr ⟨hf.bad,hf.get,hf.free,hf.err,hf.put,trivial⟩)
  | succ left ih =>
    rcases writeRetry_step d tries offset buf always finish (left+1) k h he with
      ⟨st₁,p,hw⟩|hne|hf
    · exact .inl ⟨k,st₁,p,le_rfl,by omega,hw⟩
    · exact .inr (.inl hne)
    · have ⟨h',st',hfr,hfree,heq⟩ := writeRetry_fails d tries offset buf always finish
        (left+1) (h := h) hf
      rw [heq]
      rcases ih (k := k+1) (h := h') (hfr.freeErased he) with ⟨k',st₁,p,hk,hk',hw⟩|hne|⟨hb,hex⟩
      · exact .inl ⟨k',st₁,p,by omega,by omega,hfr.trans hw.frame,hfr.free hw.old,hw.new,
          hw.content,hw.result,hw.attempt⟩
      · exact .inr (.inl hne)
      · exact .inr (.inr ⟨hb,hf.get,hf.free,hf.err,hf.put,hfree▸hex⟩)

/-- When all attempts fail with `-EIO`, the error is lost. -/
theorem writeRetry_exhausted {left k : ℕ} {h : VidHdr} {st : State}
    (hb : d.badAllowed=true)
    (hex : Exhausted tries (needsData buf always) left k st.free) :
    (writeRetry d tries offset buf always finish left k h st).1=0∧
      Frame st (writeRetry d tries offset buf always finish left k h st).2 := by
  induction left generalizing k h st with
  | zero =>
    have ⟨h1,h2,h3,h4,_⟩ := hex
    have ⟨h',st',hfr,_,heq⟩ := writeRetry_fails d tries offset buf always finish 0
      (h := h) ⟨hb,h1,h2,h3,h4⟩
    rw [heq]
    exact ⟨rfl,hfr⟩
  | succ left ih =>
    have ⟨h1,h2,h3,h4,hnext⟩ := hex
    have ⟨h',st',hfr,hfree,heq⟩ := writeRetry_fails d tries offset buf always finish
      (left+1) (h := h) ⟨hb,h1,h2,h3,h4⟩
    rw [heq]
    have hi := @ih (k+1) h' st' (hfree▸hnext)
    exact ⟨hi.1,hfr.trans hi.2⟩

end

/-! ## Recovery -/

/-- An attempt of `recover_peb` does what it has to. -/
structure Recovers (t : Try) (offset : ℕ) : Prop where
  get : 0≤t.get
  readVid : t.readVid=0
  writeVid : t.writeVid=0
  readData : offset=0∨t.readData=0
  writeData : t.writeData=0

/-- The data are in a new eraseblock, to which the LEB is mapped. -/
def Recovered (v l : ℤ) (data : List UInt8) (st' : State) : Prop :=
  ∃ q h,st'.ebaTbl v l=some q∧st'.flash q=⟨.hdr h,newBytes 0 data⟩

theorem map_self (st : State) (v l : ℤ) (p : Option ℕ) : (st.map v l p).ebaTbl v l=p := by
  unfold State.map
  dsimp only
  rw [update_self,update_self]

/-- What a write to one eraseblock leaves as it is. -/
structure Kept (st st' : State) (q : ℕ) : Prop where
  ebaTbl : st'.ebaTbl=st.ebaTbl
  free : st'.free=st.free
  flash : ∀ r,r≠q → st'.flash r=st.flash r

theorem ioWriteVidHdr_kept (st : State) (q : ℕ) (h : VidHdr) (err : ℤ) (left : VidArea) :
    (ioWriteVidHdr st q h err left).1=err∧Kept st (ioWriteVidHdr st q h err left).2 q∧
      (err=0 → (ioWriteVidHdr st q h err left).2.flash q=⟨.hdr h,(st.flash q).data⟩) := by
  refine ⟨rfl,⟨rfl,rfl,fun r hr => update_of_ne hr _ _⟩,fun h0 => ?_⟩
  unfold ioWriteVidHdr State.change FlashStep.apply
  dsimp only
  rw [update_self,if_pos h0]

theorem ioWriteData_kept (st : State) (q offset : ℕ) (buf : List UInt8) (err : ℤ)
    (left : ℕ → UInt8) :
    (ioWriteData st q offset buf err left).1=err∧
      Kept st (ioWriteData st q offset buf err left).2 q∧
      (err=0 → (ioWriteData st q offset buf err left).2.flash q=
        ⟨(st.flash q).vid,putBytes (st.flash q).data offset
          (programmed (st.flash q).data offset buf)⟩) := by
  refine ⟨rfl,⟨rfl,rfl,fun r hr => update_of_ne hr _ _⟩,fun h0 => ?_⟩
  unfold ioWriteData State.change FlashStep.apply
  dsimp only
  rw [update_self,if_pos h0]

/-- A failed attempt of `recover_peb` is the last one, or another one follows. -/
theorem recoverRetry_next (v l : ℤ) {p offset : ℕ} (buf : List UInt8) (tries : ℕ → Try)
    (putOld : ℤ) (left k : ℕ) {q : ℕ} {D res : ℤ×State} (hne : D.1≠0)
    (hres : (match left with
      | 0 => (D.1,(wlPutPeb D.2 (tries k).put q).2)
      | left+1 => recoverRetry v l p offset buf tries putOld left (k+1)
        (wlPutPeb D.2 (tries k).put q).2)=res) :
    res.1≠0∨∃ left',left=left'+1∧res=recoverRetry v l p offset buf tries putOld left' (k+1)
      (wlPutPeb D.2 (tries k).put q).2 := by
  cases left with
  | zero =>
    subst hres
    exact .inl hne
  | succ left => exact .inr ⟨left,rfl,hres.symm⟩

/-- One attempt of `recover_peb`. -/
theorem recoverRetry_step (v l : ℤ) {p offset : ℕ} (buf : List UInt8) (tries : ℕ → Try)
    (putOld : ℤ) (left k : ℕ) {st : State} (he : FreeErased st) (hp : p∉st.free) :
    (recoverRetry v l p offset buf tries putOld left k st).1≠0∨
    (Recovers (tries k) offset∧Recovered v l ((st.flash p).bytes offset++buf)
      (recoverRetry v l p offset buf tries putOld left k st).2)∨
    ∃ left' st',left=left'+1∧Frame st st'∧
      recoverRetry v l p offset buf tries putOld left k st=
        recoverRetry v l p offset buf tries putOld left' (k+1) st' := by
  generalize hres : recoverRetry v l p offset buf tries putOld left k st=res
  unfold recoverRetry at hres
  split at hres
  · next err hg =>
    subst hres
    exact .inl (wlGetPeb_error hg)
  next q st0 hg =>
  have ⟨hpos,hq,hmem,hst⟩ := wlGetPeb_ok hg
  subst hst
  have hpq : p≠q := fun h => hp (h▸hmem)
  dsimp only at hres
  split at hres
  · next h hvid =>
    split at hres
    · next hr =>
      subst hres
      refine .inl ?_
      dsimp only
      split
      · decide
      · exact hr
    next hr =>
    have hV := ioWriteVidHdr_kept { st with free := st.free.erase q }.nextSqnum q
      { h with sqnum := st.globalSqnum } (tries k).writeVid (tries k).vidLeft
    revert hV
    generalize ioWriteVidHdr { st with free := st.free.erase q }.nextSqnum q
      { h with sqnum := st.globalSqnum } (tries k).writeVid (tries k).vidLeft=V at hres
    rintro ⟨hV,hVk,hVw⟩
    split at hres
    · next hrd =>
      subst hres
      exact .inl hrd.2.2
    next hrd =>
    have hframe : ∀ st',Kept V.2 st' q → Frame st (wlPutPeb st' (tries k).put q).2 := by
      intro st' hk
      have hput := wlPutPeb_fields st' (tries k).put q
      exact change_frame hmem (hput.2.1.trans (hk.ebaTbl.trans hVk.ebaTbl))
        (hput.2.2.1.trans (hk.free.trans hVk.free)) fun r hn =>
        (congrFun hput.2.2.2 r).trans ((hk.flash r hn).trans (hVk.flash r hn))
    by_cases hwv : (tries k).writeVid=0
    · have hV0 : V.1=0 := hV.trans hwv
      simp only [hV0,ne_eq,not_true_eq_false,if_false] at hres
      have hD := ioWriteData_kept V.2 q 0 ((V.2.flash p).bytes offset++buf) (tries k).writeData
        (tries k).dataLeft
      revert hD
      generalize ioWriteData V.2 q 0 ((V.2.flash p).bytes offset++buf) (tries k).writeData
        (tries k).dataLeft=D at hres
      rintro ⟨hD,hDk,hDw⟩
      split at hres
      · next hwd =>
        subst hres
        have hwd' : (tries k).writeData=0 := hD.symm.trans hwd
        refine .inr (.inl ⟨⟨hpos,not_not.mp hr,hwv,?_,hwd'⟩,q,{ h with sqnum := st.globalSqnum },
          ?_,?_⟩)
        · by_contra hn
          rw [not_or] at hn
          exact hrd ⟨hV0,by omega,hn.2⟩
        · rw [(wlPutPeb_fields _ _ _).2.1,map_self]
        · rw [(wlPutPeb_fields _ _ _).2.2.2]
          change D.2.flash q=_
          have hold : V.2.flash p=st.flash p := hVk.flash p hpq
          rw [hDw hwd',hVw hwv,hold]
          change Peb.mk _ (putBytes (st.flash q).data 0 (programmed (st.flash q).data 0 _))=_
          rw [he q hmem]
          change Peb.mk _ (putBytes (fun _ => 0xFF) 0 (programmed (fun _ => 0xFF) 0 _))=_
          rw [programmed_erased]
          rfl
      · next hwd =>
        rcases recoverRetry_next v l buf tries putOld left k hwd hres with h|⟨left',hl,heq⟩
        · exact .inl h
        · exact .inr (.inr ⟨left',_,hl,hframe D.2 hDk,heq⟩)
    · have hV0 : V.1≠0 := fun h => hwv (hV.symm.trans h)
      simp only [ne_eq,hV0,not_false_eq_true,if_true,if_false] at hres
      rcases recoverRetry_next v l buf tries putOld left k hV0 hres with h|⟨left',hl,heq⟩
      · exact .inl h
      · exact .inr (.inr ⟨left',_,hl,hframe V.2 ⟨rfl,rfl,fun _ _ => rfl⟩,heq⟩)
  · subst hres
    exact .inl (show - UbiEba.EIO≠0 by decide)

/-- How `recover_peb` ends: with an error, or with the data in a new eraseblock. -/
theorem recoverRetry_cases (v l : ℤ) {p offset : ℕ} (buf : List UInt8) (tries : ℕ → Try)
    (putOld : ℤ) (left k : ℕ) {st : State} (he : FreeErased st) (hp : p∉st.free) :
    (recoverRetry v l p offset buf tries putOld left k st).1≠0∨
    ((∃ k',k≤k'∧k'≤k+left∧Recovers (tries k') offset)∧
      Recovered v l ((st.flash p).bytes offset++buf)
        (recoverRetry v l p offset buf tries putOld left k st).2) := by
  induction left generalizing k st with
  | zero =>
    rcases recoverRetry_step v l buf tries putOld 0 k he hp with h|⟨ha,hr⟩|⟨_,_,h,_⟩
    · exact .inl h
    · exact .inr ⟨⟨k,le_rfl,le_rfl,ha⟩,hr⟩
    · cases h
  | succ left ih =>
    rcases recoverRetry_step v l buf tries putOld (left+1) k he hp with
      h|⟨ha,hr⟩|⟨left',st',hl,hf,heq⟩
    · exact .inl h
    · exact .inr ⟨⟨k,le_rfl,by omega,ha⟩,hr⟩
    · cases hl
      rw [heq]
      rcases ih (k+1) (hf.freeErased he) (fun h => hp (hf.free h)) with h|⟨⟨k',h1,h2,ha⟩,hr⟩
      · exact .inl h
      · rw [hf.flash p hp] at hr
        exact .inr ⟨⟨k',by omega,by omega,ha⟩,hr⟩

/-! ## Operations -/

/-- The writing operations. -/
inductive Op where
  /-- `ubi_eba_write_leb`. -/
  | write (vol : Volume) (l : ℤ) (buf : List UInt8) (offset : ℕ)
  /-- `ubi_eba_write_leb_st`. -/
  | writeSt (vol : Volume) (l : ℤ) (buf : List UInt8) (len : ℕ) (usedEbs : ℤ)
  /-- `ubi_eba_atomic_leb_change`. -/
  | change (vol : Volume) (l : ℤ) (buf : List UInt8)

/-- What an operation returns, and the state after it. -/
def perform (d : Device) (st : State) (o o' : Outcomes) : Op → ℤ×State
  | .write vol l buf offset => ebaWriteLeb d st vol l buf offset o
  | .writeSt vol l buf len usedEbs => ebaWriteLebSt d st vol l buf len usedEbs o
  | .change vol l buf => ebaAtomicLebChange d st vol l buf o o'

/-- What the callers see to: only erased bytes are written, and a buffer holds
the alignment of its data. -/
def Ready (d : Device) (st : State) : Op → Prop
  | .write vol l buf offset => ∀ p,st.ebaTbl vol.volId l=some p →
    ∀ i,offset≤ i → i<offset+buf.length → (st.flash p).data i=0xFF
  | .writeSt _ l buf len usedEbs =>
    len≤buf.length∧(if l=usedEbs-1 then align len d.minIoSize else len)≤buf.length
  | .change _ _ _ => True

/-- The LEB is mapped, and what was written is read back, with the bytes before it. -/
def Stored (st st' : State) : Op → Prop
  | .write vol l buf offset => (st'.ebaTbl vol.volId l).isSome=true∧
    ebaReadLeb st' vol.volId l offset buf.length=buf∧
    ebaReadLeb st' vol.volId l 0 offset=ebaReadLeb st vol.volId l 0 offset
  | .writeSt vol l buf len _ => (st'.ebaTbl vol.volId l).isSome=true∧
    ebaReadLeb st' vol.volId l 0 len=buf.take len
  | .change vol l buf => (st'.ebaTbl vol.volId l).isSome=true∧
    ebaReadLeb st' vol.volId l 0 buf.length=buf

/-- An attempt to write to a new eraseblock fails. -/
def AttemptFails (t : Try) (data : Bool) : Prop := t.get<0∨Try.err t data≠0

/-- All attempts of an operation fail. -/
def AllFailed (st : State) (o o' : Outcomes) : Op → Prop
  | .write vol l buf offset =>
    match st.ebaTbl vol.volId l with
    | some _ => o.writeData≠0∧∀ k≤UBI_IO_RETRIES,¬Recovers (o.tries k) offset
    | none => ∀ k≤UBI_IO_RETRIES,AttemptFails (o.tries k) (needsData buf false)
  | .writeSt _ _ _ _ _ => ∀ k≤UBI_IO_RETRIES,AttemptFails (o.tries k) true
  | .change _ _ buf =>
    if buf.length=0 then ∀ k≤UBI_IO_RETRIES,AttemptFails (o'.tries k) false
    else ∀ k≤UBI_IO_RETRIES,AttemptFails (o.tries k) true

/-- All four attempts fail with `-EIO` on a device that admits bad eraseblocks,
and each of their eraseblocks is put. -/
def Lost (d : Device) (st : State) (o o' : Outcomes) : Op → Prop
  | .write vol l buf _ => st.roMode=false∧o.lock=0∧st.ebaTbl vol.volId l=none∧o.alloc=true∧
    d.badAllowed=true∧Exhausted o.tries (needsData buf false) UBI_IO_RETRIES 0 st.free
  | .writeSt _ _ _ _ _ => st.roMode=false∧o.lock=0∧o.alloc=true∧
    d.badAllowed=true∧Exhausted o.tries true UBI_IO_RETRIES 0 st.free
  | .change vol l buf =>
    if buf.length=0 then st.roMode=false∧o.lock=0∧(st.ebaTbl vol.volId l=none∨o.put=0)∧
      o'.lock=0∧o'.alloc=true∧d.badAllowed=true∧Exhausted o'.tries false UBI_IO_RETRIES 0 st.free
    else st.roMode=false∧o.lock=0∧o.alloc=true∧
      d.badAllowed=true∧Exhausted o.tries true UBI_IO_RETRIES 0 st.free

theorem exhausted_err {tries : ℕ → Try} {data : Bool} {left k : ℕ} {free : Finset ℕ}
    (h : Exhausted tries data left k free) :
    ∀ k',k≤k' → k'≤k+left → Try.err (tries k') data≠0 := by
  have hne : - UbiEba.EIO≠0 := by decide
  induction left generalizing k free with
  | zero =>
    intro k' h1 h2
    have hk : k'=k := by omega
    rw [hk,h.2.2.1]
    exact hne
  | succ left ih =>
    intro k' h1 h2
    by_cases hk : k'=k
    · rw [hk,h.2.2.1]
      exact hne
    · exact ih h.2.2.2.2 k' (by omega) (by omega)

/-- An operation that ends with the loop over new eraseblocks. -/
theorem loop_iff (d : Device) (tries : ℕ → Try) (offset : ℕ) (buf : List UInt8) (always : Bool)
    (finish : State → ℕ → ℤ×State) (h : VidHdr) (st : State) (he : FreeErased st)
    (stored : State → Prop)
    (hfin : ∀ st₁ p,Frame st st₁ → (∃ h,st₁.flash p=⟨.hdr h,newBytes offset buf⟩) →
      (finish st₁ p).1=0 → stored (finish st₁ p).2) :
    (((writeRetry d tries offset buf always finish UBI_IO_RETRIES 0 h st).1=0 →
      stored (writeRetry d tries offset buf always finish UBI_IO_RETRIES 0 h st).2)∧
      ((∀ k≤UBI_IO_RETRIES,AttemptFails (tries k) (needsData buf always)) →
        (writeRetry d tries offset buf always finish UBI_IO_RETRIES 0 h st).1≠0)) ↔
    ¬(d.badAllowed=true∧Exhausted tries (needsData buf always) UBI_IO_RETRIES 0 st.free) := by
  rcases writeRetry_cases d tries offset buf always finish UBI_IO_RETRIES (k := 0)
    (h := h) he with ⟨k,st₁,p,_,hk,hw⟩|hne|hex
  · have hk' : k≤UBI_IO_RETRIES := by omega
    refine iff_of_true ⟨?_,?_⟩ ?_
    · rw [hw.result]
      exact hfin st₁ p hw.frame hw.content
    · intro hall
      rcases hall k hk' with hg|hx
      · exact absurd hw.attempt.1 (not_le.mpr hg)
      · exact absurd hw.attempt.2 hx
    · rintro ⟨_,hx⟩
      exact exhausted_err hx k (Nat.zero_le k) hk hw.attempt.2
  · refine iff_of_true ⟨fun h0 => absurd h0 hne,fun _ => hne⟩ ?_
    rintro ⟨hb,hx⟩
    exact hne (writeRetry_exhausted d tries offset buf always finish hb hx).1
  · have hz := (writeRetry_exhausted d tries offset buf always finish (h := h) hex.1 hex.2).1
    refine iff_of_false (fun hc => hc.2 (fun k hk => ?_) hz) (not_not.mpr hex)
    exact .inr (exhausted_err hex.2 k (Nat.zero_le k) (by omega))

/-! ## Reading back -/

theorem read_mapped {st : State} {v l : ℤ} {p : ℕ} (h : st.ebaTbl v l=some p) (offset len : ℕ) :
    ebaReadLeb st v l offset len=(List.range len).map fun i => (st.flash p).data (offset+i) := by
  unfold ebaReadLeb
  rw [h]

/-- Bytes that were put are read. -/
theorem read_putBytes (data : ℕ → UInt8) (offset : ℕ) (bytes : List UInt8) :
    (List.range bytes.length).map (fun i => putBytes data offset bytes (offset+i))=bytes := by
  apply List.ext_getElem
  · simp
  · intro i h1 h2
    rw [List.getElem_map,List.getElem_range]
    unfold putBytes
    rw [if_pos ⟨by omega,by omega⟩,Nat.add_sub_cancel_left,List.getD_eq_getElem _ _ h2]

/-- Bytes before those that were put are as they were. -/
theorem read_before (data : ℕ → UInt8) (offset : ℕ) (bytes : List UInt8) :
    (List.range offset).map (fun i => putBytes data offset bytes (0+i))=
      (List.range offset).map fun i => data (0+i) := by
  refine List.map_congr_left fun i hi => ?_
  have hlt := List.mem_range.mp hi
  unfold putBytes
  rw [if_neg (by omega)]

/-- The start of a longer piece of bytes, read from the start. -/
theorem read_append (data : ℕ → UInt8) (a b : List UInt8) :
    (List.range b.length).map (fun i => putBytes data 0 (a++b) (a.length+i))=b∧
      (List.range a.length).map (fun i => putBytes data 0 (a++b) (0+i))=a := by
  constructor
  · apply List.ext_getElem
    · simp
    · intro i h1 h2
      rw [List.getElem_map,List.getElem_range]
      unfold putBytes
      rw [if_pos ⟨by omega,by rw [List.length_append]; omega⟩,Nat.sub_zero,
        List.getD_eq_getElem _ _ (by rw [List.length_append]; omega),
        List.getElem_append_right (by omega)]
      simp
  · apply List.ext_getElem
    · simp
    · intro i h1 h2
      rw [List.getElem_map,List.getElem_range]
      unfold putBytes
      rw [if_pos ⟨by omega,by rw [List.length_append]; omega⟩,Nat.sub_zero,
        List.getD_eq_getElem _ _ (by rw [List.length_append]; omega)]
      simp only [Nat.zero_add]
      exact List.getElem_append_left h2

/-- The start of the bytes that were put. -/
theorem read_take (data : ℕ → UInt8) (bytes : List UInt8) {n : ℕ} (hn : n≤bytes.length) :
    (List.range n).map (fun i => putBytes data 0 bytes (0+i))=bytes.take n := by
  apply List.ext_getElem
  · simp [hn]
  · intro i h1 h2
    have hi : i<bytes.length := by
      rw [List.length_take] at h2
      omega
    rw [List.getElem_map,List.getElem_range,List.getElem_take]
    unfold putBytes
    rw [if_pos ⟨by omega,by omega⟩,Nat.sub_zero,Nat.zero_add,List.getD_eq_getElem _ _ hi]

theorem le_align (n : ℕ) {m : ℕ} (hm : 0< m) : n≤align n m := by
  have h := Nat.div_add_mod (n+m-1) m
  have hr := Nat.mod_lt (n+m-1) hm
  unfold align
  rw [Nat.mul_comm]
  omega

/-- Programming erased bytes writes them. -/
theorem programmed_ff {data : ℕ → UInt8} {offset : ℕ} {buf : List UInt8}
    (h : ∀ i,offset≤ i → i<offset+buf.length → data i=0xFF) : programmed data offset buf=buf := by
  refine Eq.trans ?_ (programmed_erased offset buf)
  unfold programmed
  apply List.ext_getElem
  · simp
  · intro i h1 h2
    simp only [List.length_mapIdx] at h1 h2
    simp only [List.getElem_mapIdx]
    rw [h (offset+i) (by omega) (by omega)]

theorem bytes_length (b : Peb) (n : ℕ) : (b.bytes n).length=n := by
  unfold Peb.bytes
  rw [List.length_map,List.length_range]

/-! ## Results -/

/-- A write reported as done has stored the data, and one of which all attempts failed is not
reported as done. -/
def Reports (d : Device) (st : State) (o o' : Outcomes) (op : Op) : Prop :=
  ((perform d st o o' op).1=0 → Stored st (perform d st o o' op).2 op)∧
    (AllFailed st o o' op → (perform d st o o' op).1≠0)

/-- An operation that stops before it writes to a new eraseblock. -/
theorem reports_stopped {d : Device} {st : State} {o o' : Outcomes} {op : Op}
    (hne : (perform d st o o' op).1≠0) (hl : ¬Lost d st o o' op) :
    Reports d st o o' op ↔ ¬Lost d st o o' op :=
  iff_of_true ⟨fun h => absurd h hne,fun _ => hne⟩ hl

theorem eba_errors : -EROFS≠0∧-ENOMEM≠0 := by decide

theorem write_stored {st st₁ : State} {vol : Volume} {l : ℤ} {buf : List UInt8} {offset p : ℕ}
    (hn : st.ebaTbl vol.volId l=none) (hm : st₁.ebaTbl vol.volId l=some p)
    (hc : ∃ h,st₁.flash p=⟨.hdr h,newBytes offset buf⟩) :
    Stored st st₁ (.write vol l buf offset) := by
  have ⟨h,hf⟩ := hc
  refine ⟨by rw [hm]; rfl,?_,?_⟩
  · rw [read_mapped hm,hf]
    exact read_putBytes (fun _ => 0xFF) offset buf
  · rw [read_mapped hm,hf]
    unfold newBytes ebaReadLeb
    rw [read_before,hn]
    simp

/-- The write to a mapped LEB. -/
theorem write_mapped {d : Device} {st : State} {o o' : Outcomes} {vol : Volume} {l : ℤ}
    {buf : List UInt8} {offset p : ℕ} (wf : WellFormed st) (hro : st.roMode=false)
    (hlock : o.lock=0) (hm : st.ebaTbl vol.volId l=some p)
    (ready : Ready d st (.write vol l buf offset)) :
    Reports d st o o' (.write vol l buf offset) := by
  have hp := (wf.mapped _ _ _ hm).1
  have hW := ioWriteData_kept st p offset buf o.writeData o.dataLeft
  have hb : ∀ i<offset,((ioWriteData st p offset buf o.writeData o.dataLeft).2.flash p).data i=
      (st.flash p).data i := by
    intro i hi
    unfold ioWriteData State.change FlashStep.apply
    dsimp only
    rw [update_self]
    exact if_neg (by omega)
  unfold Reports perform ebaWriteLeb
  simp only [hro,hlock,hm,Bool.false_eq_true,if_false,ne_eq,not_true_eq_false]
  revert hW hb
  generalize ioWriteData st p offset buf o.writeData o.dataLeft=W
  rintro ⟨hW,hWk,hWw⟩ hb
  have hm' : W.2.ebaTbl vol.volId l=some p := by
    rw [hWk.ebaTbl]
    exact hm
  have hbefore : ebaReadLeb W.2 vol.volId l 0 offset=ebaReadLeb st vol.volId l 0 offset := by
    rw [read_mapped hm',read_mapped hm]
    refine List.map_congr_left fun i hi => ?_
    exact hb (0+i) (by have := List.mem_range.mp hi; omega)
  by_cases h0 : W.1=0
  · simp only [h0,if_true]
    refine ⟨fun _ => ⟨by rw [hm']; rfl,?_,hbefore⟩,fun hall => ?_⟩
    · rw [read_mapped hm',hWw (hW.symm.trans h0)]
      rw [programmed_ff (ready p hm)]
      exact read_putBytes _ offset buf
    · unfold AllFailed at hall
      dsimp only at hall
      rw [hm] at hall
      exact absurd (hW.symm.trans h0) hall.1
  · simp only [h0,if_false]
    by_cases hbad : W.1=- UbiEba.EIO∧d.badAllowed=true
    · rw [if_pos hbad]
      unfold recoverPeb
      by_cases ha : o.recoverAlloc=true
      · simp only [ha,not_true_eq_false,if_false]
        have hfe : FreeErased W.2 := by
          intro q hq
          rw [hWk.free] at hq
          rw [hWk.flash q fun h => hp (h▸hq)]
          exact wf.freeErased q hq
        rcases recoverRetry_cases vol.volId l buf o.tries o.put UBI_IO_RETRIES 0 hfe
            (by rw [hWk.free]; exact hp) with hne|⟨⟨k,_,hk,hr⟩,q,h,hq,hf⟩
        · rw [if_pos hne]
          exact ⟨fun h => absurd h hne,fun _ => hne⟩
        · refine ⟨fun h0' => ?_,fun hall => ?_⟩
          · have hst : Stored st (recoverRetry vol.volId l p offset buf o.tries o.put
                UBI_IO_RETRIES 0 W.2).2 (.write vol l buf offset) := by
              have hread := read_append (fun _ => 0xFF) ((W.2.flash p).bytes offset) buf
              rw [bytes_length] at hread
              refine ⟨by rw [hq]; rfl,?_,?_⟩
              · rw [read_mapped hq,hf]
                exact hread.1
              · rw [read_mapped hq,hf,← hbefore,read_mapped hm']
                have hz : ((List.range offset).map fun i => (W.2.flash p).data (0+i))=
                    (W.2.flash p).bytes offset := by
                  simp only [Nat.zero_add]
                  rfl
                rw [hz]
                exact hread.2
            split
            · exact hst
            · exact hst
          · unfold AllFailed at hall
            dsimp only at hall
            rw [hm] at hall
            exact absurd hr (hall.2 k (by omega))
      · simp only [ha]
        exact ⟨fun h => absurd h eba_errors.2,fun _ => eba_errors.2⟩
    · rw [if_neg hbad,if_pos h0]
      exact ⟨fun h => absurd h h0,fun _ => h0⟩

theorem write_reports {d : Device} {st : State} {o : Outcomes} (o' : Outcomes) (wf : WellFormed st)
    (vol : Volume) (l : ℤ) (buf : List UInt8) (offset : ℕ)
    (ready : Ready d st (.write vol l buf offset)) :
    Reports d st o o' (.write vol l buf offset) ↔ ¬Lost d st o o' (.write vol l buf offset) := by
  by_cases hro : st.roMode=true
  · refine reports_stopped ?_ fun h => by rw [h.1] at hro; cases hro
    unfold perform ebaWriteLeb
    simp only [hro,if_true]
    exact eba_errors.1
  rw [Bool.not_eq_true] at hro
  by_cases hlock : o.lock=0
  · cases hm : st.ebaTbl vol.volId l with
    | some p =>
      refine iff_of_true (write_mapped wf hro hlock hm ready) fun h => ?_
      rw [h.2.2.1] at hm
      cases hm
    | none =>
      by_cases ha : o.alloc=true
      · have hloop := loop_iff d o.tries offset buf false
          (fun st p => (0,st.map vol.volId l (some p))) (writeHdr st vol l) st.nextSqnum
          wf.freeErased (fun st₁ => Stored st st₁ (.write vol l buf offset))
          fun st₁ p _ hc _ => write_stored hm (map_self _ _ _ _) hc
        have hl : Lost d st o o' (.write vol l buf offset) ↔ d.badAllowed=true∧
            Exhausted o.tries (needsData buf false) UBI_IO_RETRIES 0 st.nextSqnum.free := by
          unfold Lost
          simp only [hro,hlock,hm,ha,true_and]
          exact Iff.rfl
        rw [hl,← hloop]
        unfold Reports AllFailed perform ebaWriteLeb
        simp only [hro,hlock,hm,ha,Bool.false_eq_true,if_false,ne_eq,not_true_eq_false]
      · refine reports_stopped ?_ fun h => ha h.2.2.2.1
        unfold perform ebaWriteLeb
        simp only [hro,hlock,hm,ha,Bool.false_eq_true,if_false,ne_eq,not_true_eq_false,
          not_false_eq_true,if_true]
        exact eba_errors.2
  · refine reports_stopped ?_ fun h => hlock h.2.1
    unfold perform ebaWriteLeb
    simp only [hro,hlock,Bool.false_eq_true,if_false,ne_eq,not_false_eq_true,if_true]

theorem writeSt_reports {d : Device} {st : State} {o o' : Outcomes} (wf : WellFormed st)
    (vol : Volume) (l : ℤ) (buf : List UInt8) (len : ℕ) (usedEbs : ℤ)
    (ready : Ready d st (.writeSt vol l buf len usedEbs)) :
    Reports d st o o' (.writeSt vol l buf len usedEbs) ↔
      ¬Lost d st o o' (.writeSt vol l buf len usedEbs) := by
  by_cases hro : st.roMode=true
  · refine reports_stopped ?_ fun h => by rw [h.1] at hro; cases hro
    unfold perform ebaWriteLebSt
    simp only [hro,if_true]
    exact eba_errors.1
  by_cases ha : o.alloc=true
  · by_cases hlock : o.lock=0
    · generalize halen : (if l=usedEbs-1 then align len d.minIoSize else len)=alen at ready
      have hle : len≤alen∧alen≤buf.length := by
        refine ⟨?_,?_⟩
        · rw [← halen]
          split
          · exact le_align len d.minIoSize_pos
          · exact le_rfl
        · have h := ready.2
          rwa [halen] at h
      have hneeds : needsData (buf.take alen) true=true := decide_eq_true (.inr rfl)
      have hloop := loop_iff d o.tries 0 (buf.take alen) true
        (fun st p => (0,st.map vol.volId l (some p)))
        (writeStHdr d st vol l (buf.take len) usedEbs) st.nextSqnum wf.freeErased
        (fun st₁ => Stored st st₁ (.writeSt vol l buf len usedEbs)) (by
          intro st₁ p _ hc _
          have ⟨h,hf⟩ := hc
          refine ⟨by rw [map_self]; rfl,?_⟩
          rw [read_mapped (map_self _ _ _ _)]
          change List.map (fun i => (st₁.flash p).data (0+i)) _=_
          rw [hf]
          have hr := read_take (fun _ => 0xFF) (buf.take alen) (n := len)
            (by rw [List.length_take]; omega)
          rw [List.take_take,min_eq_left hle.1] at hr
          exact hr)
      rw [hneeds] at hloop
      have hl : Lost d st o o' (.writeSt vol l buf len usedEbs) ↔ d.badAllowed=true∧
          Exhausted o.tries true UBI_IO_RETRIES 0 st.nextSqnum.free := by
        unfold Lost
        simp only [hro,hlock,ha,true_and]
        exact Iff.rfl
      rw [hl,← hloop]
      unfold Reports AllFailed perform ebaWriteLebSt
      simp only [hro,hlock,ha,halen,Bool.false_eq_true,if_false,ne_eq,not_true_eq_false]
    · refine reports_stopped ?_ fun h => hlock h.2.1
      unfold perform ebaWriteLebSt
      simp only [hro,hlock,ha,Bool.false_eq_true,if_false,ne_eq,not_false_eq_true,if_true,
        not_true_eq_false]
  · refine reports_stopped ?_ fun h => ha h.2.2.1
    unfold perform ebaWriteLebSt
    simp only [hro,ha,Bool.false_eq_true,if_false,not_false_eq_true,if_true]
    exact eba_errors.2

theorem map_none_some {st : State} {v0 l0 v l : ℤ} {p : ℕ}
    (h : (st.map v0 l0 none).ebaTbl v l=some p) : st.ebaTbl v l=some p := by
  unfold State.map at h
  dsimp only at h
  by_cases hv : v=v0
  · subst hv
    rw [update_self] at h
    by_cases hl : l=l0
    · subst hl
      rw [update_self] at h
      cases h
    · rwa [update_of_ne hl] at h
  · rwa [update_of_ne hv] at h

/-- The LEB is unmapped by `ubi_eba_unmap_leb`, or an error is returned. -/
theorem unmap_cases {st : State} (wf : WellFormed st) (vol : Volume) (l lock put : ℤ) :
    (((ebaUnmapLeb st vol l lock put).1≠0)∧
      ¬(st.roMode=false∧lock=0∧(st.ebaTbl vol.volId l=none∨put=0)))∨
    ((ebaUnmapLeb st vol l lock put).1=0∧
      (st.roMode=false∧lock=0∧(st.ebaTbl vol.volId l=none∨put=0))∧
      WellFormed (ebaUnmapLeb st vol l lock put).2∧
      (ebaUnmapLeb st vol l lock put).2.roMode=false∧
      (ebaUnmapLeb st vol l lock put).2.free=st.free∧
      (ebaUnmapLeb st vol l lock put).2.ebaTbl vol.volId l=none) := by
  unfold ebaUnmapLeb
  by_cases hro : st.roMode=true
  · rw [if_pos hro]
    exact .inl ⟨eba_errors.1,fun h => by rw [h.1] at hro; cases hro⟩
  rw [if_neg hro]
  rw [Bool.not_eq_true] at hro
  by_cases hlock : lock=0
  · rw [if_neg (not_not.mpr hlock)]
    cases hm : st.ebaTbl vol.volId l with
    | none => exact .inr ⟨rfl,⟨hro,hlock,.inl rfl⟩,wf,hro,rfl,hm⟩
    | some p =>
      unfold wlPutPeb
      by_cases hput : put=0
      · simp only [hput,ne_eq,not_true_eq_false,if_false]
        refine .inr ⟨trivial,⟨hro,hlock,.inr trivial⟩,⟨wf.freeErased,?_,?_⟩,hro,rfl,
          map_self _ _ _ _⟩
        · exact fun v l' q hq => wf.mapped v l' q (map_none_some hq)
        · exact fun v l' v' l'' q hq hq' =>
            wf.own v l' v' l'' q (map_none_some hq) (map_none_some hq')
      · simp only [ne_eq,hput,not_false_eq_true,if_true,or_false]
        exact .inl ⟨trivial,fun h => by cases h.2.2⟩
  · rw [if_pos hlock]
    exact .inl ⟨hlock,fun h => hlock h.2.1⟩

/-- An empty change unmaps the LEB and maps it again. -/
theorem change_empty {d : Device} {st : State} {o o' : Outcomes} (wf : WellFormed st)
    (vol : Volume) (l : ℤ) (hro : st.roMode=false) :
    Reports d st o o' (.change vol l []) ↔ ¬Lost d st o o' (.change vol l []) := by
  have hp : perform d st o o' (.change vol l [])=
      if (ebaUnmapLeb st vol l o.lock o.put).1≠0 then ebaUnmapLeb st vol l o.lock o.put
      else ebaWriteLeb d (ebaUnmapLeb st vol l o.lock o.put).2 vol l [] 0 o' := by
    unfold perform ebaAtomicLebChange
    simp only [hro,Bool.false_eq_true,if_false,List.length_nil,if_true]
  have hu := unmap_cases wf vol l o.lock o.put
  revert hu hp
  generalize ebaUnmapLeb st vol l o.lock o.put=U
  intro hp hu
  rcases hu with ⟨hne,hnot⟩|⟨h0,hok,wf1,hro1,hfree,hn⟩
  · refine reports_stopped ?_ fun h => hnot ⟨h.1,h.2.1,h.2.2.1⟩
    rw [hp,if_pos hne]
    exact hne
  · have hw := write_reports (d := d) (o := o') o' wf1 vol l [] 0 fun p hm => by
      rw [hn] at hm
      cases hm
    have hlost : Lost d U.2 o' o' (.write vol l [] 0) ↔ Lost d st o o' (.change vol l []) := by
      unfold Lost
      simp only [hro1,hn,hfree,hok.1,hok.2.1,hok.2.2,List.length_nil,if_true,true_and]
      exact Iff.rfl
    rw [← hlost,← hw]
    unfold Reports
    rw [hp,if_neg (not_not.mpr h0)]
    refine and_congr ?_ ?_
    · refine imp_congr_right fun _ => ?_
      have hread : ∀ st' : State,ebaReadLeb st' vol.volId l 0 0=[] := by
        intro st'
        unfold ebaReadLeb
        split <;> rfl
      exact ⟨fun h => ⟨h.1,hread _,(hread _).trans (hread _).symm⟩,fun h => ⟨h.1,hread _⟩⟩
    · unfold AllFailed
      simp only [hn,List.length_nil,if_true]
      exact Iff.rfl

theorem change_reports {d : Device} {st : State} {o o' : Outcomes} (wf : WellFormed st)
    (vol : Volume) (l : ℤ) (buf : List UInt8) :
    Reports d st o o' (.change vol l buf) ↔ ¬Lost d st o o' (.change vol l buf) := by
  by_cases hro : st.roMode=true
  · refine reports_stopped ?_ fun h => ?_
    · unfold perform ebaAtomicLebChange
      simp only [hro,if_true]
      exact eba_errors.1
    · unfold Lost at h
      dsimp only at h
      split at h
      · rw [h.1] at hro
        cases hro
      · rw [h.1] at hro
        cases hro
  rw [Bool.not_eq_true] at hro
  by_cases hb : buf.length=0
  · rw [List.length_eq_zero_iff.mp hb]
    exact change_empty wf vol l hro
  have hlost : Lost d st o o' (.change vol l buf) ↔ st.roMode=false∧o.lock=0∧o.alloc=true∧
      d.badAllowed=true∧Exhausted o.tries true UBI_IO_RETRIES 0 st.free := by
    unfold Lost
    simp only [hb,if_false]
  by_cases ha : o.alloc=true
  · by_cases hlock : o.lock=0
    · have hneeds : needsData buf true=true := decide_eq_true (.inr rfl)
      have hloop := loop_iff d o.tries 0 buf true (finishChange vol.volId l o.put)
        (changeHdr d st vol l buf) st.nextSqnum wf.freeErased
        (fun st₁ => Stored st st₁ (.change vol l buf)) (by
          intro st₁ p _ hc h0
          have ⟨h,hf⟩ := hc
          have hread : ∀ st' : State,st'.ebaTbl vol.volId l=some p →
              st'.flash p=st₁.flash p → Stored st st' (.change vol l buf) := by
            intro st' hm hfl
            refine ⟨by rw [hm]; rfl,?_⟩
            rw [read_mapped hm,hfl,hf]
            exact read_putBytes (fun _ => 0xFF) 0 buf
          unfold finishChange at h0 ⊢
          split
          · exact hread _ (map_self _ _ _ _) rfl
          · next old hold =>
            rw [hold] at h0
            dsimp only at h0 ⊢
            split
            · next hne =>
              rw [if_pos hne] at h0
              exact absurd h0 hne
            · refine hread _ (map_self _ _ _ _) ?_
              exact congrFun (wlPutPeb_fields st₁ o.put old).2.2.2 p)
      rw [hneeds] at hloop
      have hl : Lost d st o o' (.change vol l buf) ↔ d.badAllowed=true∧
          Exhausted o.tries true UBI_IO_RETRIES 0 st.nextSqnum.free := by
        rw [hlost]
        simp only [hro,hlock,ha,true_and]
        exact Iff.rfl
      rw [hl,← hloop]
      unfold Reports AllFailed perform ebaAtomicLebChange
      simp only [hro,hlock,ha,hb,Bool.false_eq_true,if_false,ne_eq,not_true_eq_false]
    · refine reports_stopped ?_ fun h => hlock (hlost.mp h).2.1
      unfold perform ebaAtomicLebChange
      simp only [hro,hlock,ha,hb,Bool.false_eq_true,if_false,ne_eq,not_false_eq_true,if_true,
        not_true_eq_false]
  · refine reports_stopped ?_ fun h => ha (hlost.mp h).2.2.1
    unfold perform ebaAtomicLebChange
    simp only [hro,ha,hb,Bool.false_eq_true,if_false,not_false_eq_true,if_true]
    exact eba_errors.2

/-- A write reports what it did, unless all attempts failed with `-EIO`. -/
theorem reports_iff {d : Device} {st : State} {o o' : Outcomes} {op : Op} (wf : WellFormed st)
    (ready : Ready d st op) : Reports d st o o' op ↔ ¬Lost d st o o' op := by
  cases op with
  | write vol l buf offset => exact write_reports o' wf vol l buf offset ready
  | writeSt vol l buf len usedEbs => exact writeSt_reports wf vol l buf len usedEbs ready
  | change vol l buf => exact change_reports wf vol l buf

/-- A device with erased eraseblocks only. -/
def erasedDevice : Device where
  pebCount := 8
  lebSize := 64
  crc32 _ := 0
  minIoSize := 1
  minIoSize_pos := by decide
  badAllowed := true

def erasedState : State := ⟨false,fun _ _ => none,1,{1,2,3,4,5},∅,fun _ => Peb.erased,[]⟩

theorem erasedState_wellFormed : WellFormed erasedState :=
  ⟨fun _ _ => rfl,nofun,nofun⟩

/-- Attempts of which the first ones fail to write the VID header. -/
def failingTries (n k : ℕ) : Try :=
  ⟨k+1,0,if k<n then -5 else 0,.bad,0,0,fun _ => 0,0⟩

def failingOutcomes (n : ℕ) : Outcomes :=
  ⟨0,true,0,fun _ => 0,true,0,failingTries n⟩

theorem erased_ready : Ready erasedDevice erasedState (.write ⟨1,0⟩ 0 [10,20] 3) := by
  intro p h
  cases h

/-- The third attempt stores the data. -/
theorem reports_iff_example :
    Reports erasedDevice erasedState (failingOutcomes 2) (failingOutcomes 0)
      (.write ⟨1,0⟩ 0 [10,20] 3) :=
  (reports_iff erasedState_wellFormed erased_ready).mpr fun h => by
    have ⟨_,_,_,_,_,_,_,_,_,h₁⟩ := h
    have ⟨_,_,_,_,h₂⟩ := h₁
    exact absurd h₂.2.2.1 (by decide)

/-- A write is reported as done although all its attempts failed. -/
theorem write_lost :
    ¬∀ (d : Device) (st : State) (o o' : Outcomes) (op : Op),WellFormed st → Ready d st op →
      Reports d st o o' op := by
  intro h
  have hr := h erasedDevice erasedState (failingOutcomes 4) (failingOutcomes 0)
    (.write ⟨1,0⟩ 0 [10,20] 3) erasedState_wellFormed erased_ready
  have hs := hr.1 (by decide)
  exact absurd hs.1 (by decide)

end ArdroneKernel.UbiEbaWrite
