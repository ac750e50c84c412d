import ArdroneKernel.UbiFlash
import Mathlib.Data.Finset.Basic

/-!
# Eraseblock association

Executable model of `drivers/mtd/ubi/eba.c`: the mapping of logical to physical
eraseblocks, with the writes to the flash, their retries and the recovery from
a failed write. What allocations, locks, reads, writes and the wear-leveling
unit return is given. The steps that change the flash are recorded.
-/

namespace ArdroneKernel.UbiEba

open UbiScan UbiFlash

def EIO : ℤ := 5
def ENOMEM : ℤ := 12
def ENOSPC : ℤ := 28
def EROFS : ℤ := 30

/-- `UBI_IO_RETRIES`. -/
def UBI_IO_RETRIES : ℕ := 3

/-- `UBI_LAYOUT_VOLUME_COMPAT`. -/
def UBI_LAYOUT_VOLUME_COMPAT : ℕ := UBI_COMPAT_REJECT

/-- The device, as far as it is used here. -/
structure Device extends UbiScan.Device where
  /-- `min_io_size`. -/
  minIoSize : ℕ
  /-- It is a power of two. -/
  minIoSize_pos : 0< minIoSize
  /-- `bad_allowed`. -/
  badAllowed : Bool

/-- A volume, as far as it is used here. -/
structure Volume where
  /-- `vol_id`. -/
  volId : ℤ
  /-- `data_pad`. -/
  dataPad : ℤ

/-- The state of a device. -/
structure State where
  /-- `ro_mode`. -/
  roMode : Bool
  /-- The EBA tables; an unmapped LEB has no eraseblock. -/
  ebaTbl : ℤ → ℤ → Option ℕ
  /-- `global_sqnum`. -/
  globalSqnum : ℕ
  /-- Free eraseblocks. -/
  free : Finset ℕ
  /-- Eraseblocks scheduled for erasure. -/
  erase : Finset ℕ
  /-- What the flash holds. -/
  flash : Flash
  /-- The steps that changed the flash. -/
  trace : List FlashStep

/-- `ubi_ro_mode`. -/
def State.ro (st : State) : State := { st with roMode := true }

/-- A LEB is mapped. -/
def State.map (st : State) (v l : ℤ) (p : Option ℕ) : State :=
  { st with ebaTbl := Function.update st.ebaTbl v (Function.update (st.ebaTbl v) l p) }

/-- The counter that `next_sqnum` leaves. -/
def State.nextSqnum (st : State) : State := { st with globalSqnum := st.globalSqnum+1 }

/-- A step changes the flash. -/
def State.change (st : State) (step : FlashStep) : State :=
  { st with flash := step.apply st.flash, trace := st.trace++[step] }

/-- `ubi_get_compat`. -/
def getCompat (volId : ℤ) : ℕ := if volId=UBI_LAYOUT_VOLUME_ID then UBI_LAYOUT_VOLUME_COMPAT else 0

/-! ## What other units return -/

/-- One attempt to write to a new eraseblock. -/
structure Try where
  /-- `ubi_wl_get_peb`: a free eraseblock, or a negative error code. -/
  get : ℤ
  /-- `ubi_io_read_vid_hdr` of the eraseblock that is recovered. -/
  readVid : ℤ
  /-- `ubi_io_write_vid_hdr`. -/
  writeVid : ℤ
  /-- What a failed write of a VID header leaves. -/
  vidLeft : VidArea
  /-- `ubi_io_read_data` of the eraseblock that is recovered; bit-flips are no error. -/
  readData : ℤ
  /-- `ubi_io_write_data`. -/
  writeData : ℤ
  /-- What a failed write of data leaves. -/
  dataLeft : ℕ → UInt8
  /-- `ubi_wl_put_peb` of the new eraseblock. -/
  put : ℤ

/-- What happens during an operation. -/
structure Outcomes where
  /-- `leb_write_lock`. -/
  lock : ℤ
  /-- `ubi_zalloc_vid_hdr`. -/
  alloc : Bool
  /-- `ubi_io_write_data` of a mapped LEB. -/
  writeData : ℤ
  /-- What that leaves when it fails. -/
  dataLeft : ℕ → UInt8
  /-- `ubi_zalloc_vid_hdr` of `recover_peb`. -/
  recoverAlloc : Bool
  /-- `ubi_wl_put_peb` of the old eraseblock. -/
  put : ℤ
  /-- The attempts. -/
  tries : ℕ → Try

/-- `ubi_wl_get_peb`. -/
def wlGetPeb (st : State) (get : ℤ) : Except ℤ (ℕ×State) :=
  if get<0 then .error get
  else if get.toNat∈st.free then .ok (get.toNat,{ st with free := st.free.erase get.toNat })
  else .error (-ENOSPC)

/-- `ubi_wl_put_peb`. -/
def wlPutPeb (st : State) (put : ℤ) (p : ℕ) : ℤ×State :=
  if put≠0 then (put,st) else (0,{ st with erase := insert p st.erase })

/-- `ubi_io_write_vid_hdr`. -/
def ioWriteVidHdr (st : State) (p : ℕ) (h : VidHdr) (err : ℤ) (left : VidArea) : ℤ×State :=
  (err,st.change (.vid p (if err=0 then .hdr h else left)))

/-- `ubi_io_write_data`. -/
def ioWriteData (st : State) (p offset : ℕ) (buf : List UInt8) (err : ℤ) (left : ℕ → UInt8) :
    ℤ×State :=
  let bytes := if err=0 then programmed (st.flash p).data offset buf
    else (List.range buf.length).map fun i => left (offset+i)
  (err,st.change (.data p offset bytes))

/-! ## Writes to new eraseblocks -/

/-- The header and the data are written to a new eraseblock. No data are
written if there are none and the operation allows that. -/
def writePeb (st : State) (p : ℕ) (h : VidHdr) (offset : ℕ) (buf : List UInt8) (always : Bool)
    (t : Try) : ℤ×State :=
  let (err,st) := ioWriteVidHdr st p h t.writeVid t.vidLeft
  if err≠0 then (err,st)
  else if buf.length≠0∨always then ioWriteData st p offset buf t.writeData t.dataLeft
  else (0,st)

/-- The loop over new eraseblocks at the end of the three writing operations;
`finish` is what they do with one that was written. -/
def writeRetry (d : Device) (tries : ℕ → Try) (offset : ℕ) (buf : List UInt8) (always : Bool)
    (finish : State → ℕ → ℤ×State) : ℕ → ℕ → VidHdr → State → ℤ×State
  | left,k,h,st =>
    match wlGetPeb st (tries k).get with
    | .error err => (err,st)
    | .ok (p,st) =>
      let (err,st) := writePeb st p h offset buf always (tries k)
      if err=0 then finish st p
      else if err≠- EIO∨¬d.badAllowed then (err,st.ro)
      else
        let (err,st) := wlPutPeb st (tries k).put p
        match left with
        | 0 => (err,st.ro)
        | left+1 =>
          if err≠0 then (err,st.ro)
          else writeRetry d tries offset buf always finish left (k+1)
            { h with sqnum := st.globalSqnum } st.nextSqnum

/-! ## Recovery -/

/-- The loop of `recover_peb`, which counts down the attempts left. -/
def recoverRetry (v l : ℤ) (p offset : ℕ) (buf : List UInt8) (tries : ℕ → Try) (putOld : ℤ) :
    ℕ → ℕ → State → ℤ×State
  | left,k,st =>
    match wlGetPeb st (tries k).get with
    | .error err => (err,st)
    | .ok (newPnum,st) =>
      match (st.flash p).vid with
      | .hdr h =>
        if (tries k).readVid≠0 then
          (if (tries k).readVid>0 then - EIO else (tries k).readVid,
            (wlPutPeb st (tries k).put newPnum).2)
        else
          let h := { h with sqnum := st.globalSqnum }
          let (err,st) := ioWriteVidHdr st.nextSqnum newPnum h (tries k).writeVid (tries k).vidLeft
          if err=0∧offset>0∧(tries k).readData≠0 then
            ((tries k).readData,(wlPutPeb st (tries k).put newPnum).2)
          else
            let data := (st.flash p).bytes offset++buf
            let (err,st) := if err≠0 then (err,st)
              else ioWriteData st newPnum 0 data (tries k).writeData (tries k).dataLeft
            if err=0 then (0,(wlPutPeb (st.map v l newPnum) putOld p).2)
            else
              let st := (wlPutPeb st (tries k).put newPnum).2
              match left with
              | 0 => (err,st)
              | left+1 => recoverRetry v l p offset buf tries putOld left (k+1) st
      | _ => (- EIO,(wlPutPeb st (tries k).put newPnum).2)

/-- `recover_peb`. -/
def recoverPeb (st : State) (p : ℕ) (v l : ℤ) (buf : List UInt8) (offset : ℕ) (o : Outcomes) :
    ℤ×State :=
  if ¬o.recoverAlloc then (-ENOMEM,st)
  else recoverRetry v l p offset buf o.tries o.put UBI_IO_RETRIES 0 st

/-! ## Operations -/

/-- `ubi_eba_unmap_leb`. -/
def ebaUnmapLeb (st : State) (vol : Volume) (l : ℤ) (lock put : ℤ) : ℤ×State :=
  if st.roMode then (-EROFS,st)
  else if lock≠0 then (lock,st)
  else
    match st.ebaTbl vol.volId l with
    | none => (0,st)
    | some p => wlPutPeb (st.map vol.volId l none) put p

/-- The header that `ubi_eba_write_leb` writes. -/
def writeHdr (st : State) (vol : Volume) (l : ℤ) : VidHdr :=
  ⟨UBI_VID_DYNAMIC,false,getCompat vol.volId,vol.volId,l,0,0,vol.dataPad,0,st.globalSqnum⟩

/-- `ubi_eba_write_leb`. -/
def ebaWriteLeb (d : Device) (st : State) (vol : Volume) (l : ℤ) (buf : List UInt8)
    (offset : ℕ) (o : Outcomes) : ℤ×State :=
  if st.roMode then (-EROFS,st)
  else if o.lock≠0 then (o.lock,st)
  else
    match st.ebaTbl vol.volId l with
    | some p =>
      let (err,st) := ioWriteData st p offset buf o.writeData o.dataLeft
      if err=0 then (0,st)
      else
        let (err,st) := if err=- EIO∧d.badAllowed then recoverPeb st p vol.volId l buf offset o
          else (err,st)
        if err≠0 then (err,st.ro) else (err,st)
    | none =>
      if ¬o.alloc then (-ENOMEM,st)
      else writeRetry d o.tries offset buf false (fun st p => (0,st.map vol.volId l p))
        UBI_IO_RETRIES 0 (writeHdr st vol l) st.nextSqnum

/-- The header that `ubi_eba_write_leb_st` writes. -/
def writeStHdr (d : Device) (st : State) (vol : Volume) (l : ℤ) (data : List UInt8)
    (usedEbs : ℤ) : VidHdr :=
  ⟨UBI_VID_STATIC,false,getCompat vol.volId,vol.volId,l,data.length,usedEbs,vol.dataPad,
    d.crc32 data,st.globalSqnum⟩

/-- `ALIGN`. -/
def align (n m : ℕ) : ℕ := (n+m-1)/m*m

/-- `ubi_eba_write_leb_st`; the buffer holds the data and the bytes after them
up to an aligned length. -/
def ebaWriteLebSt (d : Device) (st : State) (vol : Volume) (l : ℤ) (buf : List UInt8) (len : ℕ)
    (usedEbs : ℤ) (o : Outcomes) : ℤ×State :=
  if st.roMode then (-EROFS,st)
  else if ¬o.alloc then (-ENOMEM,st)
  else if o.lock≠0 then (o.lock,st)
  else
    let alen := if l=usedEbs-1 then align len d.minIoSize else len
    writeRetry d o.tries 0 (buf.take alen) true (fun st p => (0,st.map vol.volId l p))
      UBI_IO_RETRIES 0 (writeStHdr d st vol l (buf.take len) usedEbs) st.nextSqnum

/-- The header that `ubi_eba_atomic_leb_change` writes. -/
def changeHdr (d : Device) (st : State) (vol : Volume) (l : ℤ) (buf : List UInt8) : VidHdr :=
  ⟨UBI_VID_DYNAMIC,true,getCompat vol.volId,vol.volId,l,buf.length,0,vol.dataPad,d.crc32 buf,
    st.globalSqnum⟩

/-- The old eraseblock is put, and then the LEB is mapped to the new one. -/
def finishChange (v l put : ℤ) (st : State) (p : ℕ) : ℤ×State :=
  match st.ebaTbl v l with
  | none => (0,st.map v l p)
  | some old =>
    let (err,st) := wlPutPeb st put old
    if err≠0 then (err,st) else (0,st.map v l p)

/-- `ubi_eba_atomic_leb_change`. An empty change unmaps the LEB and maps it
again, where `o'` is what happens during the second step. -/
def ebaAtomicLebChange (d : Device) (st : State) (vol : Volume) (l : ℤ) (buf : List UInt8)
    (o o' : Outcomes) : ℤ×State :=
  if st.roMode then (-EROFS,st)
  else if buf.length=0 then
    let (err,st) := ebaUnmapLeb st vol l o.lock o.put
    if err≠0 then (err,st) else ebaWriteLeb d st vol l [] 0 o'
  else if ¬o.alloc then (-ENOMEM,st)
  else if o.lock≠0 then (o.lock,st)
  else writeRetry d o.tries 0 buf true (finishChange vol.volId l o.put) UBI_IO_RETRIES 0
    (changeHdr d st vol l buf) st.nextSqnum

/-- `ubi_eba_read_leb` of a dynamic volume, when the flash can be read. -/
def ebaReadLeb (st : State) (v l : ℤ) (offset len : ℕ) : List UInt8 :=
  match st.ebaTbl v l with
  | none => List.replicate len 0xFF
  | some p => (List.range len).map fun i => (st.flash p).data (offset+i)

end ArdroneKernel.UbiEba
