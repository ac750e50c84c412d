import Mathlib.Tactic.DeriveFintype
import Mathlib.Algebra.Order.Ring.Int

/-!
# The volume character device

Executable model of the volume part of `drivers/mtd/ubi/cdev.c` and of the
update and atomic LEB change code behind it in `drivers/mtd/ubi/upd.c`. A
request is followed with everything it asks of the EBA unit and with every
copy into a buffer. The outcomes of the steps that may fail come with the
request.
-/

namespace ArdroneKernel.UbiVolumeDevice

def EPERM : ℤ := 1
def EBADF : ℤ := 9
def ENOMEM : ℤ := 12
def EFAULT : ℤ := 14
def EBUSY : ℤ := 16
def EINVAL : ℤ := 22
def EROFS : ℤ := 30
def EBADMSG : ℤ := 74

/-- The value of a 64-bit signed integer. -/
def toLoff (x : ℤ) : ℤ := Int.bmod x (2^64)

/-- The value of an `int`. -/
def toInt (x : ℤ) : ℤ := Int.bmod x (2^32)

/-- The value of a `size_t`, of 32 bits. -/
def toSize (x : ℤ) : ℕ := (x%2^32).toNat

/-- `ALIGN`, for a power of two. -/
def align (x a : ℕ) : ℕ := (x+(a-1))/a*a

/-- Volume types. -/
inductive VolType where
  /-- `UBI_DYNAMIC_VOLUME`. -/
  | dynamic
  /-- `UBI_STATIC_VOLUME`. -/
  | static
  deriving DecidableEq

/-- Open modes of a volume descriptor. -/
inductive OpenMode where
  /-- `UBI_READONLY`. -/
  | readonly
  /-- `UBI_READWRITE`. -/
  | readwrite
  /-- `UBI_EXCLUSIVE`. -/
  | exclusive
  deriving DecidableEq

/-- The number of a mode, which is what `get_exclusive` returns. -/
def OpenMode.number : OpenMode → ℤ
  | .readonly => 1
  | .readwrite => 2
  | .exclusive => 3

/-- What does not change in a volume while a descriptor of it is open. -/
structure Geometry where
  /-- `vol_type`. -/
  volType : VolType
  /-- `leb_size` of the device. -/
  lebSize : ℕ
  /-- `min_io_size` of the device. -/
  minIoSize : ℕ
  /-- `data_pad`, the tail of a LEB that the alignment leaves unused. -/
  dataPad : ℕ
  /-- `reserved_pebs`. -/
  reservedPebs : ℕ
  /-- The padding is smaller than a LEB. -/
  pad_lt : dataPad<lebSize
  /-- The usable part of a LEB consists of whole I/O units. -/
  io_dvd : minIoSize∣lebSize-dataPad
  /-- A LEB size is a positive `int`. -/
  leb_int : lebSize<2^31
  /-- A LEB count is a positive `int`. -/
  rsvd_int : reservedPebs<2^31

/-- `usable_leb_size`. -/
def Geometry.usableLebSize (g : Geometry) : ℕ := g.lebSize-g.dataPad

/-- `struct ubi_volume`, as far as the requests read and change it. -/
structure Volume where
  /-- Bytes of data in the volume. -/
  usedBytes : ℕ
  /-- LEBs with data. -/
  usedEbs : ℕ
  /-- Bytes of data in the last of them. -/
  lastEbBytes : ℕ
  /-- The update marker is set. -/
  updMarker : Bool
  /-- A static volume failed its check. -/
  corrupted : Bool
  /-- The volume has been checked. -/
  checked : Bool
  /-- Direct writes are allowed. -/
  directWrites : Bool
  /-- An update is in progress. -/
  updating : Bool
  /-- An atomic LEB change is in progress. -/
  changingLeb : Bool
  /-- The update buffer, by the number of its allocation. -/
  updBuf : Option ℕ
  /-- LEBs of the update. -/
  updEbs : ℤ
  /-- Bytes expected in the session. -/
  updBytes : ℕ
  /-- Bytes received so far. -/
  updReceived : ℕ
  /-- The LEB being changed. -/
  chLnum : ℤ
  /-- The data type of the change. -/
  chDtype : ℤ
  /-- Descriptors open for reading. -/
  readers : ℕ
  /-- Descriptors open for writing. -/
  writers : ℕ
  /-- Exclusive descriptors. -/
  exclusive : ℕ

/-- An allocation of the update buffer. -/
structure Buffer where
  /-- Bytes allocated. -/
  size : ℕ
  /-- The session that asked for it. -/
  session : ℕ

/-- What a request asks of the layers below. -/
inductive Access where
  /-- `ubi_eba_read_leb`. -/
  | readLeb (lnum : ℤ) (offset len : ℕ)
  /-- `ubi_eba_write_leb`. -/
  | writeLeb (lnum : ℤ) (offset len : ℕ) (buf : ℕ → UInt8)
  /-- `ubi_eba_write_leb_st`. -/
  | writeLebSt (lnum : ℤ) (len : ℕ) (usedEbs : ℤ) (buf : ℕ → UInt8)
  /-- `ubi_eba_atomic_leb_change`. -/
  | atomicLebChange (lnum : ℤ) (len : ℕ) (buf : ℕ → UInt8)
  /-- `ubi_eba_unmap_leb`. -/
  | unmapLeb (lnum : ℤ)
  /-- Bytes stored into a buffer of `size` bytes, a freed one having none. -/
  | store (size offset len : ℕ)
  /-- Bytes carried between a buffer and the user. -/
  | transfer (len : ℕ)
  /-- `ubi_change_vtbl_record`, with the update marker of the new record. -/
  | changeRecord (updMarker : Bool)
  /-- `ubi_wl_flush`. -/
  | flush

/-- A volume with one descriptor of it. -/
structure State where
  /-- The volume. -/
  vol : Volume
  /-- `mode` of the descriptor. -/
  mode : OpenMode
  /-- The descriptor is open. -/
  opened : Bool
  /-- Number of sessions begun. -/
  session : ℕ
  /-- The update buffers allocated, in order. -/
  bufs : List Buffer
  /-- The buffers given to `vfree`, the latest first. -/
  freed : List ℕ
  /-- The bytes of the update buffers. -/
  mem : ℕ → ℕ → UInt8
  /-- What the latest request asked for, in order. -/
  log : List Access

/-- The outcomes of the steps of one request that may fail. -/
structure Steps where
  /-- The device is in read-only mode. -/
  roMode : Bool
  /-- The caller has `CAP_SYS_RESOURCE`. -/
  capable : Bool
  /-- Copying the argument of the request fails. -/
  argFault : Bool
  /-- Copying the n-th piece of data fails. -/
  userFault : ℕ → Bool
  /-- Results of `ubi_change_vtbl_record`, for setting and for clearing. -/
  setRecord : ℤ
  clearRecord : ℤ
  /-- Result of `ubi_eba_unmap_leb`, for each LEB. -/
  unmap : ℕ → ℤ
  /-- Result of `ubi_wl_flush`. -/
  flush : ℤ
  /-- The allocation of the request succeeds. -/
  vmalloc : Bool
  /-- Result of the n-th access to a LEB. -/
  leb : ℕ → ℤ
  /-- The allocation of `ubi_check_volume` succeeds. -/
  checkVmalloc : Bool
  /-- Result of the reads of `ubi_check_volume`. -/
  check : ℕ → ℤ

/-- A request through the descriptor, or by the other users of the volume. -/
inductive Request where
  /-- `UBI_IOCVOLUP`. -/
  | volup (bytes : ℤ) (st : Steps)
  /-- `UBI_IOCEBCH`. -/
  | ebch (lnum bytes dtype : ℤ) (st : Steps)
  /-- `UBI_IOCEBER`. -/
  | eber (lnum : ℤ) (st : Steps)
  /-- `UBI_IOCSETPROP` with `UBI_PROP_DIRECT_WRITE`. -/
  | setDirectWrites (value : Bool) (st : Steps)
  /-- `write` or `pwrite`. -/
  | write (data : ℕ → UInt8) (count offp : ℕ) (st : Steps)
  /-- `read` or `pread`. -/
  | read (count offp : ℕ) (st : Steps)
  /-- `close`. -/
  | close
  /-- Somebody else opens the volume. -/
  | otherOpen (mode : OpenMode)
  /-- Somebody else closes it. -/
  | otherClose (mode : OpenMode)

/-! ## Buffers -/

/-- Note an access. -/
def State.emit (s : State) (a : Access) : State := { s with log := s.log++[a] }

/-- The bytes behind `upd_buf` that are allocated. -/
def State.bufSize (s : State) : ℕ :=
  match s.vol.updBuf with
  | none => 0
  | some i => if i∈s.freed then 0 else (s.bufs[i]?.map Buffer.size).getD 0

/-- The contents of `upd_buf`. -/
def State.bufBytes (s : State) : ℕ → UInt8 :=
  match s.vol.updBuf with
  | none => fun _ => 0
  | some i => s.mem i

/-- Store `len` bytes at `off` in `upd_buf`. -/
def State.store (s : State) (off len : ℕ) (f : ℕ → UInt8) : State :=
  match s.vol.updBuf with
  | none => s.emit (.store s.bufSize off len)
  | some i =>
    let bytes := fun k => if off≤k∧k<off+len then f k else s.mem i k
    { s with mem := Function.update s.mem i bytes }.emit (.store s.bufSize off len)

/-- `vol->upd_buf = vmalloc(size)`. -/
def State.vmalloc (s : State) (size : ℕ) (ok : Bool) : State :=
  if ok∧size≠0 then
    { s with bufs := s.bufs++[⟨size,s.session⟩]
             vol := { s.vol with updBuf := some s.bufs.length } }
  else { s with vol := { s.vol with updBuf := none } }

/-- `vfree(vol->upd_buf)`. -/
def State.vfree (s : State) : State :=
  match s.vol.updBuf with
  | none => s
  | some i => { s with freed := i::s.freed }

/-- The index after the last byte that is not `0xFF`. -/
def trimmed (buf : ℕ → UInt8) : ℕ → ℕ
  | 0 => 0
  | n+1 => if buf n≠0xFF then n+1 else trimmed buf n

/-- `ubi_calc_data_len`. -/
def calcDataLen (minIoSize : ℕ) (buf : ℕ → UInt8) (length : ℕ) : ℕ :=
  align (trimmed buf length) minIoSize

/-! ## Update and atomic LEB change -/

/-- `set_update_marker`. -/
def setUpdateMarker (s : State) (st : Steps) : State×ℤ :=
  if s.vol.updMarker then (s,0)
  else ({ s with vol := { s.vol with updMarker := true } }.emit (.changeRecord true),st.setRecord)

/-- The size of the data of a volume after an update. -/
def newDataSize (g : Geometry) (v : Volume) (bytes : ℕ) : Volume :=
  match g.volType with
  | .dynamic => v
  | .static =>
    let rem := bytes%g.usableLebSize
    let ebs := bytes/g.usableLebSize
    { v with
      corrupted := false
      usedBytes := bytes
      usedEbs := if rem≠0 then ebs+1 else ebs
      lastEbBytes := if rem≠0 then rem else g.usableLebSize }

/-- `clear_update_marker`. -/
def clearUpdateMarker (g : Geometry) (s : State) (st : Steps) (bytes : ℕ) : State×ℤ :=
  ({ s with vol := { newDataSize g s.vol bytes with updMarker := false } }.emit
    (.changeRecord false),st.clearRecord)

/-- The loop of `ubi_start_update` that wipes out the volume. -/
def wipeLoop (st : Steps) (s : State) (i : ℕ) : ℕ → State×ℤ
  | 0 => (s,0)
  | n+1 =>
    let s := s.emit (.unmapLeb i)
    if st.unmap i≠0 then (s,st.unmap i) else wipeLoop st s (i+1) n

/-- The data expected in an update: so many LEBs and bytes, none received. -/
def State.expect (s : State) (ebs : ℤ) (bytes : ℕ) : State :=
  { s with vol := { s.vol with updEbs := ebs, updBytes := bytes, updReceived := 0 } }

/-- `ubi_start_update`. -/
def startUpdate (g : Geometry) (s : State) (st : Steps) (bytes : ℕ) : State×ℤ :=
  let s := { s with vol := { s.vol with updating := true }, session := s.session+1 }
  let (s,err) := setUpdateMarker s st
  if err≠0 then (s,err) else
  let (s,err) := wipeLoop st s 0 g.reservedPebs
  if err≠0 then (s,err) else
  if bytes=0 then
    let s := s.emit .flush
    if st.flush≠0 then (s,st.flush) else
    let (s,err) := clearUpdateMarker g s st 0
    if err≠0 then (s,err) else
    ({ s with vol := { s.vol with updating := false } },0)
  else
    let s := s.vmalloc g.lebSize st.vmalloc
    if s.vol.updBuf=none then (s,-ENOMEM) else
    (s.expect (toInt ((bytes+g.usableLebSize-1)/g.usableLebSize : ℕ)) bytes,0)

/-- `ubi_start_leb_change`. -/
def startLebChange (s : State) (st : Steps) (lnum : ℤ) (bytes : ℕ) (dtype : ℤ) : State×ℤ :=
  if bytes=0 then (s.emit (.atomicLebChange lnum 0 fun _ => 0),st.leb 0) else
  let s := { s with
    session := s.session+1
    vol := { s.vol with
      updBytes := bytes
      updReceived := 0
      changingLeb := true
      chLnum := lnum
      chDtype := dtype } }
  let s := s.vmalloc bytes st.vmalloc
  if s.vol.updBuf=none then (s,-ENOMEM) else (s,0)

/-- `write_leb`, where `err` is what the EBA unit answers. -/
def writeLeb (g : Geometry) (s : State) (lnum : ℤ) (len : ℕ) (usedEbs err : ℤ) : State×ℤ :=
  match g.volType with
  | .dynamic =>
    let l := align len g.minIoSize
    let s := s.store len (l-len) fun _ => 0xFF
    let len := calcDataLen g.minIoSize s.bufBytes l
    if len=0 then (s,0) else (s.emit (.writeLeb lnum 0 len s.bufBytes),err)
  | .static =>
    let s := s.store len (g.usableLebSize-len) fun _ => 0
    (s.emit (.writeLebSt lnum len usedEbs s.bufBytes),err)

/-- `vol->upd_received += len`. -/
def State.receive (s : State) (len : ℕ) : State :=
  { s with vol := { s.vol with updReceived := s.vol.updReceived+len } }

/-- One piece of update data: copy it to the buffer and write the LEB when it
is complete. An error of the copy and one of the write are kept apart. -/
def updatePiece (g : Geometry) (s : State) (st : Steps) (data : ℕ → UInt8) (k pos : ℕ) (lnum : ℤ)
    (offs len : ℕ) : State×Option ℤ×ℤ :=
  let s := s.store offs len fun i => data (pos+(i-offs))
  if st.userFault k then (s,some (-EFAULT),0) else
  let (s,err) :=
    if offs+len=g.usableLebSize∨s.vol.updReceived+len=s.vol.updBytes then
      writeLeb g s lnum (offs+len) s.vol.updEbs (st.leb k)
    else (s,0)
  if err≠0 then (s,none,err) else (s.receive len,none,0)

/-- The loop of `ubi_more_update_data` over whole LEBs. It ends with the error
of a copy, which is returned at once, or with that of a write. -/
def updateLoop (g : Geometry) (st : Steps) (data : ℕ → UInt8) :
    ℕ → State → ℕ → ℕ → ℤ → ℕ → State×Option ℤ×ℤ
  | 0,s,_,_,_,_ => (s,none,0)
  | fuel+1,s,k,pos,lnum,count =>
    if count=0 then (s,none,0) else
    let len := min count g.usableLebSize
    let (s,fault,err) := updatePiece g s st data k pos lnum 0 len
    if fault≠none∨err≠0 then (s,fault,err) else
    updateLoop g st data fuel s (k+1) (pos+len) (lnum+1) (count-len)

/-- The end of `ubi_more_update_data`. -/
def updateEnd (g : Geometry) (s : State) (st : Steps) (toWrite : ℕ) (err : ℤ) : State×ℤ :=
  if s.vol.updReceived=s.vol.updBytes then
    let s := s.emit .flush
    if st.flush≠0 then (s,st.flush) else
    let (s,err) := clearUpdateMarker g s st s.vol.updBytes
    if err≠0 then (s,err) else
    ({ s with vol := { s.vol with updating := false } }.vfree,toWrite)
  else (s,err)

/-- `ubi_more_update_data`. -/
def moreUpdateData (g : Geometry) (s : State) (st : Steps) (data : ℕ → UInt8) (count : ℕ) :
    State×ℤ :=
  if st.roMode then (s,-EROFS) else
  let lnum := toInt (s.vol.updReceived/g.usableLebSize : ℕ)
  let offs := s.vol.updReceived%g.usableLebSize
  let count :=
    if s.vol.updReceived+count>s.vol.updBytes then s.vol.updBytes-s.vol.updReceived else count
  let toWrite := count
  let head := if offs≠0 then min (g.usableLebSize-offs) count else 0
  let (s,fault,err) :=
    if offs≠0 then updatePiece g s st data 0 0 lnum offs head else (s,none,0)
  if fault≠none∨err≠0 then (s,fault.getD err) else
  let lnum := if offs≠0 then lnum+1 else lnum
  let (s,fault,err) := updateLoop g st data (count-head) s 1 head lnum (count-head)
  match fault with
  | some err => (s,err)
  | none => updateEnd g s st toWrite err

/-- `ubi_more_leb_change_data`. -/
def moreLebChangeData (g : Geometry) (s : State) (st : Steps) (data : ℕ → UInt8) (count : ℕ) :
    State×ℤ :=
  if st.roMode then (s,-EROFS) else
  let count :=
    if s.vol.updReceived+count>s.vol.updBytes then s.vol.updBytes-s.vol.updReceived else count
  let from_ := s.vol.updReceived
  let s := s.store from_ count fun i => data (i-from_)
  if st.userFault 0 then (s,-EFAULT) else
  let s := s.receive count
  if s.vol.updReceived=s.vol.updBytes then
    let len := align s.vol.updBytes g.minIoSize
    let s := s.store s.vol.updBytes (len-s.vol.updBytes) fun _ => 0xFF
    let len := calcDataLen g.minIoSize s.bufBytes len
    let s := s.emit (.atomicLebChange s.vol.chLnum len s.bufBytes)
    if st.leb 0≠0 then (s,st.leb 0) else
    ({ s with vol := { s.vol with changingLeb := false } }.vfree,count)
  else (s,0)

/-! ## The character device -/

/-- `get_exclusive`. -/
def getExclusive (s : State) : State×ℤ :=
  if s.vol.readers+s.vol.writers+s.vol.exclusive>1 then (s,-EBUSY)
  else
    ({ s with vol := { s.vol with readers := 0, writers := 0, exclusive := 1 }
              mode := .exclusive },s.mode.number)

/-- `revoke_exclusive`. -/
def revokeExclusive (s : State) (mode : OpenMode) : State :=
  let v := { s.vol with exclusive := 0 }
  { s with
    vol := match mode with
      | .readonly => { v with readers := 1 }
      | .readwrite => { v with writers := 1 }
      | .exclusive => { v with exclusive := 1 }
    mode := mode }

/-- The counters of the volume after `ubi_open_volume`. -/
def openVolume (v : Volume) (mode : OpenMode) : Volume :=
  match mode with
  | .readonly => if v.exclusive≠0 then v else { v with readers := v.readers+1 }
  | .readwrite => if v.exclusive≠0∨0<v.writers then v else { v with writers := v.writers+1 }
  | .exclusive => if v.exclusive≠0∨v.writers≠0∨v.readers≠0 then v else { v with exclusive := 1 }

/-- The counters of the volume after `ubi_close_volume`. -/
def closeVolume (v : Volume) (mode : OpenMode) : Volume :=
  match mode with
  | .readonly => { v with readers := v.readers-1 }
  | .readwrite => { v with writers := v.writers-1 }
  | .exclusive => { v with exclusive := 0 }

/-- `vol_cdev_release`. -/
def volCdevRelease (s : State) : State :=
  let s :=
    if s.vol.updating then { s with vol := { s.vol with updating := false } }.vfree
    else if s.vol.changingLeb then { s with vol := { s.vol with changingLeb := false } }.vfree
    else s
  { s with vol := closeVolume s.vol s.mode, opened := false }

/-- How much of `count` bytes at `offp` a read or a direct write goes for. -/
def clipCount (v : Volume) (count offp : ℕ) : ℕ :=
  if toLoff (offp+count)>v.usedBytes then toSize (v.usedBytes-offp) else count

/-- The size of the buffer that carries `count` bytes. -/
def tbufSize (g : Geometry) (count : ℕ) : ℕ :=
  if count<g.usableLebSize then align count g.minIoSize else g.usableLebSize

/-- The loop of `vol_cdev_read`: the bytes left and the error. -/
def readLoop (g : Geometry) (st : Steps) (size : ℕ) :
    ℕ → State → ℕ → ℤ → ℕ → ℕ → ℕ → State×ℕ×ℤ
  | 0,s,_,_,_,_,count => (s,count,0)
  | fuel+1,s,k,lnum,off,len,count =>
    let len := if off+len≥g.usableLebSize then g.usableLebSize-off else len
    let s := (s.emit (.readLeb lnum off len)).emit (.store size 0 len)
    if st.leb k≠0 then (s,count,st.leb k) else
    let off := off+len
    let (lnum,off) :=
      if off=g.usableLebSize then (lnum+1,off-g.usableLebSize) else (lnum,off)
    let count := count-len
    let s := s.emit (.transfer len)
    if st.userFault k then (s,count,-EFAULT) else
    if count=0 then (s,0,0) else
    readLoop g st size fuel s (k+1) lnum off (min count size) count

/-- `vol_cdev_read`, from the allocation of its buffer on. -/
def readBytes (g : Geometry) (s : State) (st : Steps) (offp count : ℕ) : State×ℤ :=
  let size := tbufSize g count
  if ¬st.vmalloc∨size=0 then (s,-ENOMEM) else
  let (s,left,err) :=
    readLoop g st size count s 0 (toInt (offp/g.usableLebSize : ℕ)) (offp%g.usableLebSize)
      (min count size) count
  (s,if err≠0 then err else count-left)

/-- `vol_cdev_read`. -/
def volCdevRead (g : Geometry) (s : State) (st : Steps) (count offp : ℕ) : State×ℤ :=
  if s.vol.updating then (s,-EBUSY) else
  if s.vol.updMarker then (s,-EBADF) else
  if offp=s.vol.usedBytes∨count=0 then (s,0) else
  readBytes g s st offp (clipCount s.vol count offp)

/-- The loop of `vol_cdev_direct_write`: the bytes left and the error. -/
def directWriteLoop (g : Geometry) (st : Steps) (data : ℕ → UInt8) (size : ℕ) :
    ℕ → State → ℕ → ℕ → ℤ → ℕ → ℕ → ℕ → State×ℕ×ℤ
  | 0,s,_,_,_,_,_,count => (s,count,0)
  | fuel+1,s,k,pos,lnum,off,len,count =>
    if count=0 then (s,0,0) else
    let len := if off+len≥g.usableLebSize then g.usableLebSize-off else len
    let s := (s.emit (.store size 0 len)).emit (.transfer len)
    if st.userFault k then (s,count,-EFAULT) else
    let s := s.emit (.writeLeb lnum off len fun i => data (pos+i))
    if st.leb k≠0 then (s,count,st.leb k) else
    let off := off+len
    let (lnum,off) :=
      if off=g.usableLebSize then (lnum+1,off-g.usableLebSize) else (lnum,off)
    let count := count-len
    directWriteLoop g st data size fuel s (k+1) (pos+len) lnum off (min count size) count

/-- `vol_cdev_direct_write`, from the check of the length on. -/
def directWriteBytes (g : Geometry) (s : State) (st : Steps) (data : ℕ → UInt8)
    (offp count : ℕ) : State×ℤ :=
  if count%g.minIoSize≠0 then (s,-EINVAL) else
  let size := tbufSize g count
  if ¬st.vmalloc∨size=0 then (s,-ENOMEM) else
  let (s,left,err) :=
    directWriteLoop g st data size count s 0 0 (toInt (offp/g.usableLebSize : ℕ))
      (offp%g.usableLebSize) (min count size) count
  (s,if err≠0 then err else count-left)

/-- `vol_cdev_direct_write`. -/
def volCdevDirectWrite (g : Geometry) (s : State) (st : Steps) (data : ℕ → UInt8)
    (count offp : ℕ) : State×ℤ :=
  if ¬s.vol.directWrites then (s,-EPERM) else
  if g.volType=.static then (s,-EROFS) else
  if offp%g.usableLebSize%g.minIoSize≠0 then (s,-EINVAL) else
  directWriteBytes g s st data offp (clipCount s.vol count offp)

/-- The loop of `ubi_check_volume`. -/
def checkLoop (g : Geometry) (st : Steps) (s : State) (i : ℕ) : ℕ → State×ℤ
  | 0 => (s,0)
  | n+1 =>
    let size := if i+1=s.vol.usedEbs then s.vol.lastEbBytes else g.usableLebSize
    let s := (s.emit (.readLeb i 0 size)).emit (.store g.usableLebSize 0 size)
    if st.check i≠0 then (s,if st.check i = -EBADMSG then 1 else st.check i)
    else checkLoop g st s (i+1) n

/-- `ubi_check_volume`. -/
def checkVolume (g : Geometry) (s : State) (st : Steps) : State×ℤ :=
  if g.volType≠.static then (s,0) else
  if ¬st.checkVmalloc then (s,-ENOMEM) else
  checkLoop g st s 0 s.vol.usedEbs

/-- `vol_cdev_write`. -/
def volCdevWrite (g : Geometry) (s : State) (st : Steps) (data : ℕ → UInt8) (count offp : ℕ) :
    State×ℤ :=
  if ¬s.vol.updating∧¬s.vol.changingLeb then volCdevDirectWrite g s st data count offp else
  let (s,err) :=
    if s.vol.updating then moreUpdateData g s st data count
    else moreLebChangeData g s st data count
  if err<0 then (s,err) else
  if err=0 then (s,count) else
  let count := err
  if s.vol.changingLeb then (revokeExclusive s .readwrite,count) else
  let (s,err) := checkVolume g s st
  if err<0 then (s,err) else
  let corrupted := if err≠0 then true else s.vol.corrupted
  (revokeExclusive { s with vol := { s.vol with corrupted := corrupted, checked := true } }
    .readwrite,count)

/-- `UBI_IOCVOLUP`. -/
def iocVolup (g : Geometry) (s : State) (st : Steps) (bytes : ℤ) : State×ℤ :=
  if ¬st.capable then (s,-EPERM) else
  if st.argFault then (s,-EFAULT) else
  if s.mode=.readonly then (s,-EROFS) else
  let rsvdBytes : ℤ := (g.reservedPebs : ℤ)*g.lebSize-g.dataPad
  if bytes<0∨bytes>rsvdBytes then (s,-EINVAL) else
  let (s,err) := getExclusive s
  if err<0 then (s,err) else
  let (s,err) := startUpdate g s st bytes.toNat
  (if bytes=0 then revokeExclusive s .readwrite else s,err)

/-- `UBI_IOCEBCH`. -/
def iocEbch (g : Geometry) (s : State) (st : Steps) (lnum bytes dtype : ℤ) : State×ℤ :=
  if st.argFault then (s,-EFAULT) else
  if s.mode=.readonly∨g.volType=.static then (s,-EROFS) else
  if lnum<0∨lnum≥g.reservedPebs∨bytes<0∨lnum≥g.usableLebSize then (s,-EINVAL) else
  if dtype≠1∧dtype≠2∧dtype≠3 then (s,-EINVAL) else
  let (s,err) := getExclusive s
  if err<0 then (s,err) else
  let (s,err) := startLebChange s st lnum bytes.toNat dtype
  (if bytes=0 then revokeExclusive s .readwrite else s,err)

/-- `UBI_IOCEBER`. -/
def iocEber (g : Geometry) (s : State) (st : Steps) (lnum : ℤ) : State×ℤ :=
  if st.argFault then (s,-EFAULT) else
  if s.mode=.readonly∨g.volType=.static then (s,-EROFS) else
  if lnum<0∨lnum≥g.reservedPebs then (s,-EINVAL) else
  let s := s.emit (.unmapLeb lnum)
  if st.unmap lnum.toNat≠0 then (s,st.unmap lnum.toNat) else
  (s.emit .flush,st.flush)

/-- A request through an open descriptor. -/
def serve (g : Geometry) (s : State) : Request → State×ℤ
  | .volup bytes st => iocVolup g s st bytes
  | .ebch lnum bytes dtype st => iocEbch g s st lnum bytes dtype
  | .eber lnum st => iocEber g s st lnum
  | .setDirectWrites value st =>
    if st.argFault then (s,-EFAULT)
    else ({ s with vol := { s.vol with directWrites := value } },0)
  | .write data count offp st => volCdevWrite g s st data count offp
  | .read count offp st => volCdevRead g s st count offp
  | .close => (volCdevRelease s,0)
  | .otherOpen mode => ({ s with vol := openVolume s.vol mode },0)
  | .otherClose mode => ({ s with vol := closeVolume s.vol mode },0)

/-- One request. Nothing goes through a closed descriptor. -/
def step (g : Geometry) (s : State) (r : Request) : State :=
  let s := { s with log := [] }
  if s.opened then (serve g s r).1 else s

/-- The state after a sequence of requests. -/
def run (g : Geometry) (s : State) (rs : List Request) : State := rs.foldl (step g) s

end ArdroneKernel.UbiVolumeDevice
