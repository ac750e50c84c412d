import ArdroneKernel.UbiEbaWrite
import ArdroneKernel.UbiUpdate

/-!
# The LEBs of an update

Writing the first bytes of the update buffer maps a LEB that reads as these
bytes: of a dynamic volume, without the 0xFF bytes at their end.
-/

namespace ArdroneKernel.UbiUpdate

open UbiEba UbiFlash UbiEbaWrite ByteBuffers
open UbiScan (VidHdr UBI_VID_STATIC)

variable {t : Target} {env : Env} {u : Upd} {data : List UInt8} (buf : List UInt8)
  (buf : List UInt8)

/-! ## Sizes -/

theorem usable_pos (t : Target) : 0<t.usable := by
  have hmod := Nat.mod_lt t.lebSize t.alignment_pos
  have hle := t.alignment_le
  unfold Target.usable
  omega

theorem usable_le (t : Target) : t.usable≤ t.lebSize := Nat.sub_le _ _

/-- The usable part of a LEB is whole units of the flash. -/
theorem usable_aligned (t : Target) : t.dev.minIoSize∣t.usable := by
  rcases t.alignment_aligned with hone|hal
  · unfold Target.usable
    rw [hone,Nat.mod_one]
    exact t.lebSize_aligned
  · have hdvd : t.alignment∣t.usable := by
      exact Nat.dvd_sub_mod t.lebSize
    exact hal.trans hdvd

theorem align_le {n m k : ℕ} (hm : 0< m) (hdvd : m∣k) (hn : n≤ k) : align n m≤ k := by
  have ⟨q,hq⟩ := hdvd
  have hlt : (n+m-1)/m<q+1 := (Nat.div_lt_iff_lt_mul hm).mpr (by rw [Nat.add_mul,Nat.mul_comm q m]; omega)
  rw [hq,Nat.mul_comm m q]
  exact Nat.mul_le_mul_right m (Nat.lt_succ_iff.mp hlt)

/-! ## One write -/

/-- The first attempt to write a LEB succeeds, with some eraseblock. -/
structure FirstOk (o : Outcomes) : Prop where
  lock : o.lock=0
  alloc : o.alloc=true
  get : 0≤(o.tries 0).get
  writeVid : (o.tries 0).writeVid=0
  writeData : (o.tries 0).writeData=0

/-- The eraseblock of the first attempt. -/
def firstPeb (o : Outcomes) : ℕ := (o.tries 0).get.toNat

/-- A LEB is mapped to a new eraseblock, and nothing else changes. -/
structure Mapped (st st' : State) (v l : ℤ) (p : ℕ) (h : VidHdr) (buf : List UInt8) : Prop where
  ebaTbl : st'.ebaTbl=(st.map v l p).ebaTbl
  free : st'.free=st.free.erase p
  flash : st'.flash p=⟨.hdr h,newBytes 0 buf⟩
  others : ∀ q,q≠p → st'.flash q=st.flash q
  roMode : st'.roMode=st.roMode

theorem writeRetry_first (d : Device) (buf : List UInt8) (always : Bool) (v l : ℤ)
    (left : ℕ) (h : VidHdr) {st : State} {o : Outcomes} (ok : FirstOk o) (he : FreeErased st)
    (hp : firstPeb o∈st.free) :
    ∃ st',writeRetry d o.tries 0 buf always (fun st p => (0,st.map v l p)) left 0 h st=(0,st')∧
      Mapped st st' v l (firstPeb o) h buf := by
  have hget : wlGetPeb st (o.tries 0).get=
      .ok (firstPeb o,{ st with free := st.free.erase (firstPeb o) }) := by
    unfold wlGetPeb
    rw [if_neg (not_lt.mpr ok.get),if_pos (show (o.tries 0).get.toNat∈st.free from hp)]
    rfl
  have hok : Try.err (o.tries 0) (needsData buf always)=0 := by
    unfold Try.err
    rw [if_neg (not_not.mpr ok.writeVid)]
    split
    · exact ok.writeData
    · rfl
  generalize hst : ({ st with free := st.free.erase (firstPeb o) } : State)=st1 at hget
  have herr := (writePeb_err st1 (firstPeb o) h 0 buf always (o.tries 0)).trans hok
  have hfields := writePeb_fields st1 (firstPeb o) h 0 buf always (o.tries 0)
  have hro : (writePeb st1 (firstPeb o) h 0 buf always (o.tries 0)).2.roMode=st1.roMode := by
    unfold writePeb ioWriteVidHdr ioWriteData
    dsimp only
    split_ifs <;> rfl
  have hwritten := writePeb_written st1 h 0 buf always (by rw [←hst]; exact he _ hp) hok
  refine ⟨(writePeb st1 (firstPeb o) h 0 buf always (o.tries 0)).2.map v l (firstPeb o),?_,?_⟩
  · unfold writeRetry
    rw [hget]
    dsimp only
    rw [if_pos herr]
  · refine ⟨?_,?_,hwritten,fun q hq => ?_,?_⟩
    · unfold State.map
      rw [hfields.1,←hst]
    · exact hfields.2.1.trans (by rw [←hst])
    · exact (hfields.2.2 q hq).trans (by rw [←hst])
    · exact hro.trans (by rw [←hst])

theorem ebaWriteLeb_first (t : Target) (buf : List UInt8) {o : Outcomes} {l : ℤ} {st : State} (ok : FirstOk o)
    (he : FreeErased st) (hp : firstPeb o∈st.free) (hro : st.roMode=false)
    (hnone : st.ebaTbl t.vol.volId l=none) :
    ∃ st',ebaWriteLeb t.dev st t.vol l buf 0 o=(0,st')∧
      Mapped st st' t.vol.volId l (firstPeb o) (writeHdr st t.vol l) buf := by
  have ⟨st',hrun,hm⟩ := writeRetry_first t.dev buf false t.vol.volId l UBI_IO_RETRIES
    (writeHdr st t.vol l) ok (show FreeErased st.nextSqnum from he) hp
  refine ⟨st',?_,hm.ebaTbl,hm.free,hm.flash,hm.others,hm.roMode⟩
  unfold ebaWriteLeb
  rw [hro,if_neg Bool.false_ne_true,if_neg (not_not.mpr ok.lock),hnone]
  rw [if_neg (not_not.mpr ok.alloc)]
  exact hrun

theorem ebaWriteLebSt_first (t : Target) (buf : List UInt8) (l usedEbs : ℤ) (len : ℕ)
    {o : Outcomes} {st : State} (ok : FirstOk o) (he : FreeErased st) (hp : firstPeb o∈st.free)
    (hro : st.roMode=false) :
    ∃ st',ebaWriteLebSt t.dev st t.vol l buf len usedEbs o=(0,st')∧
      Mapped st st' t.vol.volId l (firstPeb o)
        (writeStHdr t.dev st t.vol l (buf.take len) usedEbs)
        (buf.take (if l=usedEbs-1 then align len t.dev.minIoSize else len)) := by
  have ⟨st',hrun,hm⟩ := writeRetry_first t.dev
    (buf.take (if l=usedEbs-1 then align len t.dev.minIoSize else len)) true t.vol.volId l
    UBI_IO_RETRIES (writeStHdr t.dev st t.vol l (buf.take len) usedEbs) ok
    (show FreeErased st.nextSqnum from he) hp
  refine ⟨st',?_,hm.ebaTbl,hm.free,hm.flash,hm.others,hm.roMode⟩
  unfold ebaWriteLebSt
  rw [hro,if_neg Bool.false_ne_true,if_neg (not_not.mpr ok.alloc),if_neg (not_not.mpr ok.lock)]
  exact hrun

/-! ## What a LEB reads as -/

/-- A LEB reads as some bytes: of a dynamic volume, with 0xFF bytes after them;
of a static one, with their length and checksum and the number of LEBs in its
header. -/
def LebReads (t : Target) (ebs : ℕ) (eba : State) (i : ℕ) (bytes : List UInt8) : Prop :=
  if t.static=true then
    ∃ p h,eba.ebaTbl t.vol.volId i=some p∧(eba.flash p).vid=.hdr h∧h.volType=UBI_VID_STATIC∧
      h.dataSize=bytes.length∧h.usedEbs=ebs∧h.dataCrc=t.dev.crc32 bytes∧
      ebaReadLeb eba t.vol.volId i 0 bytes.length=bytes
  else
    ebaReadLeb eba t.vol.volId i 0 t.usable=
      bytes++List.replicate (t.usable-bytes.length) 0xFF

theorem newBytes_eq (i : ℕ) : newBytes 0 buf i=buf.getD i 0xFF := by
  unfold newBytes putBytes
  by_cases hi : i<buf.length
  · rw [if_pos ⟨Nat.zero_le i,by omega⟩,Nat.sub_zero]
  · rw [if_neg (by omega),List.getD_eq_default _ _ (not_lt.mp hi)]

/-- Bytes, with 0xFF bytes after them. -/
theorem map_range_eq {f : ℕ → UInt8} {bytes : List UInt8} {n : ℕ} (hlen : bytes.length≤ n)
    (h : ∀ i,f i=bytes.getD i 0xFF) :
    (List.range n).map f=bytes++List.replicate (n-bytes.length) 0xFF := by
  apply List.ext_getElem
  · rw [List.length_map,List.length_range,List.length_append,List.length_replicate]
    omega
  · intro i h1 h2
    rw [List.getElem_map,List.getElem_range,h]
    by_cases hi : i<bytes.length
    · rw [List.getElem_append_left hi,List.getD_eq_getElem _ _ hi]
    · rw [List.getElem_append_right (not_lt.mp hi),List.getElem_replicate,
        List.getD_eq_default _ _ (not_lt.mp hi)]

theorem dataEnd_le (n : ℕ) : dataEnd buf n≤ n := by
  induction n with
  | zero => exact le_rfl
  | succ n ih =>
    unfold dataEnd
    split
    · exact le_rfl
    · omega

/-- The bytes after the end of the data are 0xFF. -/
theorem dataEnd_ff (n : ℕ) : ∀ i,dataEnd buf n≤ i → i<n → buf.getD i 0=0xFF := by
  induction n with
  | zero =>
    intro i _ hi
    exact absurd hi (Nat.not_lt_zero i)
  | succ n ih =>
    intro i hle hi
    unfold dataEnd at hle
    by_cases hb : buf.getD n 0≠0xFF
    · rw [if_pos hb] at hle
      omega
    · rw [if_neg hb] at hle
      by_cases hn : i=n
      · exact hn▸not_not.mp hb
      · exact ih i hle (by omega)

/-- Cutting the 0xFF bytes at the end of a padded buffer changes no byte that is read. -/
theorem cut_getD {d : Device} {buf : List UInt8} {len : ℕ} (hlen : align len d.minIoSize≤ buf.length)
    (i : ℕ) :
    let l := align len d.minIoSize
    let padded := putAt buf len (List.replicate (l-len) 0xFF)
    (padded.take (calcDataLen d padded l)).getD i 0xFF=(buf.take len).getD i 0xFF := by
  intro l padded
  have hle : len≤ l := le_align len d.minIoSize_pos
  have hdvd : d.minIoSize∣l := Dvd.intro_left _ rfl
  have hn : calcDataLen d padded l≤ l := align_le d.minIoSize_pos hdvd (dataEnd_le padded l)
  have hend : dataEnd padded l≤ calcDataLen d padded l := le_align _ d.minIoSize_pos
  have hfull : padded.take l=buf.take len++List.replicate (l-len) 0xFF := by
    have hfill : len+(List.replicate (l-len) (0xFF : UInt8)).length=l := by
      rw [List.length_replicate]
      omega
    have h : (putAt buf len (List.replicate (l-len) 0xFF)).take
        (len+(List.replicate (l-len) (0xFF : UInt8)).length)=
          buf.take len++List.replicate (l-len) 0xFF := putAt_take _ (hle.trans hlen)
    rw [hfill] at h
    exact h
  have hsame : ∀ i,i<l → padded.getD i 0=(padded.take l).getD i 0xFF := by
    intro i hi
    have hpad : l≤ padded.length := by
      have := congrArg List.length hfull
      rw [List.length_take,List.length_append,List.length_take,List.length_replicate] at this
      omega
    rw [List.getD_eq_getElem _ _ (by omega),
      List.getD_eq_getElem _ _ (by rw [List.length_take]; omega),List.getElem_take]
  have hbytes : (padded.take l).getD i 0xFF=(buf.take len).getD i 0xFF := by
    rw [hfull]
    by_cases hi : i<(buf.take len).length
    · rw [List.getD_append _ _ _ _ hi]
    · rw [List.getD_append_right _ _ _ _ (not_lt.mp hi),List.getD_eq_getElem?_getD,
        List.getElem?_getD_replicate_default_eq,List.getD_eq_default _ _ (not_lt.mp hi)]
  rw [←hbytes]
  have htake : padded.take (calcDataLen d padded l)=(padded.take l).take (calcDataLen d padded l) := by
    rw [List.take_take,min_eq_left hn]
  rw [htake]
  by_cases hi : i<calcDataLen d padded l
  · simp only [List.getD_eq_getElem?_getD,List.getElem?_take_of_lt hi]
  · rw [List.getD_eq_default _ _ (by rw [List.length_take]; omega)]
    by_cases hil : i<l
    · rw [←hsame i hil]
      exact (dataEnd_ff padded l i (by omega) hil).symm
    · rw [List.getD_eq_default _ _ (by rw [List.length_take]; omega)]

/-! ## Writing a LEB -/

/-- The LEBs of a volume have eraseblocks that are not free. -/
def Outside (eba : State) (v : ℤ) : Prop := ∀ l p,eba.ebaTbl v l=some p → p∉eba.free

/-- A LEB was written, with an eraseblock that was free or none. -/
structure Wrote (t : Target) (ebs : ℕ) (eba eba' : State) (lnum p : ℕ) (bytes : List UInt8) :
    Prop where
  reads : LebReads t ebs eba' lnum bytes
  others : ∀ l,l≠(lnum : ℤ) → eba'.ebaTbl t.vol.volId l=eba.ebaTbl t.vol.volId l
  flash : ∀ q,q∉eba.free → eba'.flash q=eba.flash q
  free : ∀ q∈eba.free,q≠p → q∈eba'.free
  freeErased : FreeErased eba'
  outside : Outside eba' t.vol.volId
  roMode : eba'.roMode=eba.roMode

theorem Mapped.wrote {eba eba' : State} {lnum p : ℕ} {h : VidHdr} {buf bytes : List UInt8} {ebs : ℕ}
    (hm : Mapped eba eba' t.vol.volId lnum p h buf) (hp : p∈eba.free) (he : FreeErased eba)
    (ho : Outside eba t.vol.volId) (reads : LebReads t ebs eba' lnum bytes) :
    Wrote t ebs eba eba' lnum p bytes where
  reads := reads
  others l hl := by
    rw [hm.ebaTbl]
    unfold State.map
    dsimp only
    rw [Function.update_self,Function.update_of_ne hl]
  flash q hq := hm.others q fun heq => hq (heq▸hp)
  free q hq hne := by
    rw [hm.free]
    exact Finset.mem_erase.mpr ⟨hne,hq⟩
  freeErased q hq := by
    rw [hm.free] at hq
    have ⟨hne,hq⟩ := Finset.mem_erase.mp hq
    rw [hm.others q hne]
    exact he q hq
  outside l q hl hq := by
    rw [hm.free] at hq
    have ⟨hne,hq⟩ := Finset.mem_erase.mp hq
    rw [hm.ebaTbl] at hl
    unfold State.map at hl
    dsimp only at hl
    rw [Function.update_self] at hl
    by_cases hll : l=lnum
    · rw [hll,Function.update_self] at hl
      exact hne (Option.some.inj hl).symm
    · rw [Function.update_of_ne hll] at hl
      exact ho l q hl hq
  roMode := hm.roMode

theorem Mapped.table {eba eba' : State} {v l : ℤ} {p : ℕ} {h : VidHdr} {buf : List UInt8}
    (hm : Mapped eba eba' v l p h buf) : eba'.ebaTbl v l=some p := by
  rw [hm.ebaTbl]
  exact map_self eba v l p

/-- The part of a buffer that is written is in it. -/
theorem align_usable {len : ℕ} (hlen : len≤ t.usable) : align len t.dev.minIoSize≤ t.usable :=
  align_le t.dev.minIoSize_pos (usable_aligned t) hlen

/-- Writing the first bytes of the buffer to a LEB that is not mapped. -/
theorem writeLeb_spec (t : Target) (env : Env) (u : Upd) {lnum len : ℕ} (hlen : len≤ t.usable) (hbuf : t.usable≤ u.buf.length)
    (hro : u.eba.roMode=false) (he : FreeErased u.eba) (ho : Outside u.eba t.vol.volId)
    (hnone : u.eba.ebaTbl t.vol.volId lnum=none) (ok : FirstOk (env.write lnum))
    (hp : firstPeb (env.write lnum)∈u.eba.free) :
    ∃ buf' eba',writeLeb t env u lnum len=(0,{ u with
        buf := buf'
        eba := eba'
        trace := u.trace++[.writeLeb lnum (u.buf.take len)] })∧
      buf'.length=u.buf.length∧
      Wrote t u.ebs u.eba eba' lnum (firstPeb (env.write lnum)) (u.buf.take len) := by
  have hl : align len t.dev.minIoSize≤ u.buf.length := (align_usable hlen).trans hbuf
  have hle : len≤ align len t.dev.minIoSize := le_align len t.dev.minIoSize_pos
  have hbytes : (u.buf.take len).length=len := by
    rw [List.length_take]
    omega
  unfold writeLeb
  dsimp only
  by_cases hs : t.static=true
  · rw [if_neg (not_not.mpr hs)]
    generalize hpad : putAt u.buf len (List.replicate (t.usable-len) 0)=padded
    have hplen : padded.length=u.buf.length := by
      rw [←hpad,putAt_length]
      rw [List.length_replicate]
      omega
    have htake : padded.take len=u.buf.take len := by
      rw [←hpad,putAt_take_left _ (hlen.trans hbuf)]
    have ⟨eba',hrun,hm⟩ := ebaWriteLebSt_first t padded lnum u.ebs len ok he hp hro
    rw [hrun]
    refine ⟨padded,eba',rfl,hplen,hm.wrote hp he ho ?_⟩
    unfold LebReads
    rw [if_pos hs]
    refine ⟨_,_,hm.table,by rw [hm.flash],rfl,by rw [←htake]; rfl,rfl,by rw [←htake]; rfl,?_⟩
    rw [read_mapped hm.table,hbytes]
    rw [hm.flash]
    have hread := read_take (fun _ => 0xFF)
      (padded.take (if (lnum : ℤ)=u.ebs-1 then align len t.dev.minIoSize else len)) (n := len) (by
        rw [List.length_take]
        split <;> omega)
    refine hread.trans ?_
    rw [List.take_take,min_eq_left (by split <;> omega),htake]
  · rw [if_pos hs]
    have hcut := cut_getD (d := t.dev) hl
    dsimp only at hcut
    generalize hpad : putAt u.buf len
      (List.replicate (align len t.dev.minIoSize-len) 0xFF)=padded at hcut ⊢
    generalize calcDataLen t.dev padded (align len t.dev.minIoSize)=n at hcut ⊢
    have hplen : padded.length=u.buf.length := by
      rw [←hpad,putAt_length]
      rw [List.length_replicate]
      omega
    have hfit : (u.buf.take len).length≤ t.usable := by omega
    by_cases hn : n=0
    · rw [if_pos hn]
      refine ⟨padded,u.eba,rfl,hplen,?_,fun _ _ => rfl,fun _ _ => rfl,fun _ hq _ => hq,he,ho,rfl⟩
      unfold LebReads ebaReadLeb
      rw [if_neg hs,hnone]
      rw [←map_range_eq hfit hcut,hn]
      simp
    · rw [if_neg hn]
      have ⟨eba',hrun,hm⟩ := ebaWriteLeb_first t (padded.take n) ok he hp hro hnone
      rw [hrun]
      refine ⟨padded,eba',rfl,hplen,hm.wrote hp he ho ?_⟩
      unfold LebReads
      rw [if_neg hs,read_mapped hm.table,hm.flash,←map_range_eq hfit hcut]
      refine List.map_congr_left fun i _ => ?_
      dsimp only
      rw [Nat.zero_add,newBytes_eq]

end ArdroneKernel.UbiUpdate
