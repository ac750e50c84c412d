import ArdroneKernel.ByteBuffers
import ArdroneKernel.UbiEba

/-!
# Volume updates

Executable model of `drivers/mtd/ubi/upd.c`: the bytes of an update arrive in
any number of calls, are gathered in a buffer and written LEB by LEB. The
eraseblock association is that of `eba.c`.
-/

namespace ArdroneKernel.UbiUpdate

open UbiEba ByteBuffers

def EFAULT : ℤ := 14

/-! ## Volumes -/

/-- A volume to be updated, with the limits that its creation checks. -/
structure Target where
  /-- The device. -/
  dev : Device
  /-- The volume. -/
  vol : Volume
  /-- `vol_type` is `UBI_STATIC_VOLUME`. -/
  static : Bool
  /-- `leb_size`. -/
  lebSize : ℕ
  /-- `alignment`. -/
  alignment : ℕ
  /-- `reserved_pebs`. -/
  reservedPebs : ℕ
  /-- A LEB is whole units of the flash. -/
  lebSize_aligned : dev.minIoSize∣lebSize
  lebSize_pos : 0<lebSize
  /-- So is the alignment, unless there is none. -/
  alignment_aligned : alignment=1∨dev.minIoSize∣alignment
  alignment_pos : 0<alignment
  alignment_le : alignment≤lebSize

/-- `usable_leb_size`. -/
def Target.usable (t : Target) : ℕ := t.lebSize-t.lebSize%t.alignment

/-- What is done to the flash and to the volume table. -/
inductive Event where
  /-- `write_leb`, with the bytes of the update. -/
  | writeLeb (lnum : ℕ) (bytes : List UInt8)
  /-- `ubi_wl_flush`. -/
  | flush
  /-- `clear_update_marker`. -/
  | clear
deriving DecidableEq

/-- The volume during an update. -/
structure Upd where
  /-- `upd_buf`. -/
  buf : List UInt8
  /-- `upd_received`. -/
  received : ℕ
  /-- `upd_bytes`. -/
  bytes : ℕ
  /-- `upd_ebs`. -/
  ebs : ℕ
  /-- `updating`. -/
  updating : Bool
  /-- `upd_marker`. -/
  updMarker : Bool
  /-- `upd_marker` in the volume table. -/
  vtblMarker : Bool
  /-- `corrupted`. -/
  corrupted : Bool
  /-- `used_bytes`. -/
  usedBytes : ℕ
  /-- `used_ebs`. -/
  usedEbs : ℕ
  /-- `last_eb_bytes`. -/
  lastEbBytes : ℕ
  /-- The mapping, and the flash. -/
  eba : State
  /-- What was done. -/
  trace : List Event

/-- What happens during an update. -/
structure Env where
  /-- `copy_from_user` fails after so many bytes were received. -/
  fault : ℕ → Bool
  /-- The write of a LEB. -/
  write : ℕ → Outcomes
  /-- `ubi_wl_flush`. -/
  flush : ℤ
  /-- `ubi_change_vtbl_record`. -/
  change : ℤ
  /-- `leb_write_lock` and `ubi_wl_put_peb` when a LEB is unmapped. -/
  unmap : ℕ → ℤ×ℤ
  /-- `vmalloc`. -/
  vmalloc : Bool

/-! ## Data -/

/-- The end of the bytes that are not 0xFF, among the first ones of a buffer. -/
def dataEnd (buf : List UInt8) : ℕ → ℕ
  | 0 => 0
  | i+1 => if buf.getD i 0≠0xFF then i+1 else dataEnd buf i

/-- `ubi_calc_data_len` -/
def calcDataLen (d : Device) (buf : List UInt8) (length : ℕ) : ℕ :=
  align (dataEnd buf length) d.minIoSize

/-! ## Writing -/

/-- `write_leb`, of the first bytes of the buffer. -/
def writeLeb (t : Target) (env : Env) (u : Upd) (lnum len : ℕ) : ℤ×Upd :=
  let u := { u with trace := u.trace++[Event.writeLeb lnum (u.buf.take len)] }
  if ¬t.static then
    let l := align len t.dev.minIoSize
    let u := { u with buf := putAt u.buf len (List.replicate (l-len) 0xFF) }
    let len := calcDataLen t.dev u.buf l
    -- nothing but 0xFF bytes
    if len=0 then (0,u)
    else
      let (err,eba) := ebaWriteLeb t.dev u.eba t.vol lnum (u.buf.take len) 0 (env.write lnum)
      (err,{ u with eba := eba })
  else
    let u := { u with buf := putAt u.buf len (List.replicate (t.usable-len) 0) }
    let (err,eba) := ebaWriteLebSt t.dev u.eba t.vol lnum u.buf len u.ebs (env.write lnum)
    (err,{ u with eba := eba })

/-- `clear_update_marker` -/
def clearUpdateMarker (t : Target) (env : Env) (u : Upd) (bytes : ℕ) : ℤ×Upd :=
  let u := { u with trace := u.trace++[Event.clear] }
  let u :=
    if t.static then
      let usedEbs := bytes/t.usable
      let lastEbBytes := bytes%t.usable
      { u with
        corrupted := false
        usedBytes := bytes
        usedEbs := if lastEbBytes≠0 then usedEbs+1 else usedEbs
        lastEbBytes := if lastEbBytes≠0 then lastEbBytes else t.usable }
    else u
  (env.change,{ u with
    vtblMarker := if env.change=0 then false else u.vtblMarker
    updMarker := false })

/-- A piece of data is copied to the buffer, which is flushed when a LEB is
full or the update is finished. -/
def takePiece (t : Target) (env : Env) (u : Upd) (lnum offs : ℕ) (piece : List UInt8) : ℤ×Upd :=
  let len := piece.length
  let u := { u with buf := putAt u.buf offs piece }
  if offs+len=t.usable∨u.received+len=u.bytes then
    let (err,u) := writeLeb t env u lnum (offs+len)
    if err≠0 then (err,u) else (0,{ u with received := u.received+len })
  else (0,{ u with received := u.received+len })

/-- How the loop over whole LEBs ends. -/
inductive LoopEnd where
  /-- The function returns. -/
  | returned (err : ℤ) (u : Upd)
  /-- It goes on after the loop. -/
  | left (err : ℤ) (u : Upd)

/-- The loop of `ubi_more_update_data`, for at most so many pieces. -/
def moreLoop (t : Target) (env : Env) : ℕ → ℕ → List UInt8 → Upd → LoopEnd
  | 0, _, _, u => .left 0 u
  | n+1, lnum, data, u =>
    if data.length=0 then .left 0 u
    else
      let piece := if data.length>t.usable then data.take t.usable else data
      if env.fault u.received then .returned (-EFAULT) u
      else
        let (err,u) := takePiece t env u lnum 0 piece
        if err≠0 then .left err u
        else moreLoop t env n (lnum+1) (data.drop piece.length) u

/-- The end of `ubi_more_update_data`. -/
def moreFinish (t : Target) (env : Env) (toWrite : ℕ) (err : ℤ) (u : Upd) : ℤ×Upd :=
  if u.received=u.bytes then
    let u := { u with trace := u.trace++[Event.flush] }
    if env.flush≠0 then (env.flush,u)
    else
      let (err,u) := clearUpdateMarker t env u u.bytes
      if err≠0 then (err,u) else (toWrite,{ u with updating := false })
  else (err,u)

/-- `ubi_more_update_data` from its loop on. -/
def moreRest (t : Target) (env : Env) (toWrite lnum : ℕ) (data : List UInt8) (u : Upd) : ℤ×Upd :=
  match moreLoop t env data.length lnum data u with
  | .returned err u => (err,u)
  | .left err u => moreFinish t env toWrite err u

/-- `ubi_more_update_data` -/
def moreUpdateData (t : Target) (env : Env) (u : Upd) (data : List UInt8) : ℤ×Upd :=
  if u.eba.roMode then (-EROFS,u)
  else
    let lnum := u.received/t.usable
    let offs := u.received%t.usable
    let data := if u.received+data.length>u.bytes then data.take (u.bytes-u.received) else data
    if offs≠0 then
      let len := if t.usable-offs>data.length then data.length else t.usable-offs
      if env.fault u.received then (-EFAULT,u)
      else
        let (err,u) := takePiece t env u lnum offs (data.take len)
        if err≠0 then (err,u)
        else moreRest t env data.length (lnum+1) (data.drop len) u
    else moreRest t env data.length lnum data u

/-- Calls of `ubi_more_update_data` one after the other. -/
def moreUpdates (t : Target) (env : Env) : Upd → List (List UInt8) → List ℤ×Upd
  | u, [] => ([],u)
  | u, data::calls =>
    let (ret,u) := moreUpdateData t env u data
    let (rets,u) := moreUpdates t env u calls
    (ret::rets,u)

/-! ## The start of an update -/

/-- `set_update_marker` -/
def setUpdateMarker (env : Env) (u : Upd) : ℤ×Upd :=
  if u.updMarker then (0,u)
  else (env.change,{ u with
    vtblMarker := if env.change=0 then true else u.vtblMarker
    updMarker := true })

/-- The LEBs of a volume are unmapped, from one on. -/
def wipeOut (t : Target) (env : Env) : ℕ → ℕ → State → ℤ×State
  | 0, _, eba => (0,eba)
  | n+1, i, eba =>
    let (err,eba) := ebaUnmapLeb eba t.vol i (env.unmap i).1 (env.unmap i).2
    if err≠0 then (err,eba) else wipeOut t env n (i+1) eba

/-- `ubi_start_update` -/
def startUpdate (t : Target) (env : Env) (u : Upd) (buf : List UInt8) (bytes : ℕ) : ℤ×Upd :=
  let (err,u) := setUpdateMarker env { u with updating := true }
  if err≠0 then (err,u)
  else
    let (err,eba) := wipeOut t env t.reservedPebs 0 u.eba
    let u := { u with eba := eba }
    if err≠0 then (err,u)
    else if bytes=0 then
      let u := { u with trace := u.trace++[Event.flush] }
      if env.flush≠0 then (env.flush,u)
      else
        let (err,u) := clearUpdateMarker t env u 0
        if err≠0 then (err,u) else (0,{ u with updating := false })
    else if ¬env.vmalloc then (-ENOMEM,u)
    else (0,{ u with
      buf := buf
      ebs := (bytes+t.usable-1)/t.usable
      bytes := bytes
      received := 0 })

end ArdroneKernel.UbiUpdate
