import Mathlib.Algebra.BigOperators.Group.Finset.Basic
import Mathlib.Algebra.Order.Ring.Int

/-!
# Volume management

Executable model of the creation, removal, re-size and re-name of volumes in
`drivers/mtd/ubi/vmt.c`, with the records of `vtbl.c` they change, and of the
accounting of eraseblocks in `wl.c`, `eba.c` and `misc.c`. What the steps
inside return is given. Erase works run while a call does not hold
`volumes_lock`. EBA tables are in a heap, so that a freed one can be told from
a live one.
-/

namespace ArdroneKernel.UbiVolumeOps

def ENOMEM : ℤ := 12
def EBUSY : ℤ := 16
def EEXIST : ℤ := 17
def ENODEV : ℤ := 19
def EINVAL : ℤ := 22
def ENFILE : ℤ := 23
def ENOSPC : ℤ := 28
def EROFS : ℤ := 30

/-- `UBI_LEB_UNMAPPED`. -/
def UBI_LEB_UNMAPPED : ℤ := -1

/-- `UBI_LAYOUT_VOLUME_EBS`. -/
def UBI_LAYOUT_VOLUME_EBS : Int32 := 2

/-- `WL_RESERVED_PEBS`. -/
def WL_RESERVED_PEBS : Int32 := 1

/-- `EBA_RESERVED_PEBS`. -/
def EBA_RESERVED_PEBS : Int32 := 1

/-- `MIN_RESEVED_PEBS`. -/
def MIN_RESERVED_PEBS : Int32 := 2

/-- What does not change while a device is attached. -/
structure Device where
  /-- `peb_count`. -/
  pebCount : ℕ
  /-- `leb_size`. -/
  lebSize : ℕ
  /-- `min_io_size`. -/
  minIoSize : ℕ
  /-- `vtbl_slots`. -/
  vtblSlots : ℕ
  /-- `bad_allowed`. -/
  badAllowed : Bool
  /-- `CONFIG_MTD_UBI_BEB_RESERVE`. -/
  bebReserve : Int32
  /-- `corr_peb_count`. -/
  corrPebCount : Int32

/-! ## Counters -/

/-- The counters of eraseblocks of a device. -/
structure Counts where
  /-- `avail_pebs`. -/
  avail : Int32
  /-- `rsvd_pebs`. -/
  rsvd : Int32
  /-- `beb_rsvd_pebs`. -/
  bebRsvd : Int32
  /-- `beb_rsvd_level`. -/
  bebLevel : Int32
  /-- `good_peb_count`. -/
  good : Int32
  /-- `bad_peb_count`. -/
  bad : Int32
  /-- Erase works between their two uses of `volumes_lock`. -/
  erasing : ℕ
  deriving DecidableEq

/-- Eraseblocks are reserved for a volume. -/
def Counts.reserve (c : Counts) (n : Int32) : Counts :=
  { c with avail := c.avail-n, rsvd := c.rsvd+n }

/-- Eraseblocks of a volume become available. -/
def Counts.release (c : Counts) (n : Int32) : Counts :=
  { c with avail := c.avail+n, rsvd := c.rsvd-n }

/-- The reserve for bad eraseblocks is filled up, as far as there are available ones. -/
def Counts.topUp (c : Counts) (need : Int32) : Counts :=
  if need>0 then
    let need := if c.avail≥need then need else c.avail
    { c with avail := c.avail-need, rsvd := c.rsvd+need, bebRsvd := c.bebRsvd+need }
  else c

/-- `ubi_calculate_reserved`. -/
def calculateReserved (d : Device) (good : Int32) : Int32 :=
  let level := good/100*d.bebReserve
  if level<MIN_RESERVED_PEBS then MIN_RESERVED_PEBS else level

/-- What an erase work does with the counters. -/
inductive EraseEvent where
  /-- The erasure failed with `-EIO`. -/
  | failed
  /-- The eraseblock was marked bad. -/
  | markedBad
  /-- It could not be marked. -/
  | markFailed

/-- `erase_worker` in one of its uses of `volumes_lock`. Every erase work has a
good eraseblock of its own. -/
def eraseEvent (d : Device) (c : Counts) : EraseEvent → Counts
  | .failed =>
    if ¬d.badAllowed∨c.good.toInt≤c.erasing then c
    else
      let c := c.topUp (c.bebLevel-c.bebRsvd+1)
      if c.bebRsvd=0 then c else { c with erasing := c.erasing+1 }
  | .markedBad =>
    if c.erasing=0 then c
    else
      { c with
        erasing := c.erasing-1
        bebRsvd := c.bebRsvd-1
        bad := c.bad+1
        good := c.good-1
        bebLevel := calculateReserved d (c.good-1) }
  | .markFailed => if c.erasing=0 then c else { c with erasing := c.erasing-1 }

/-- Several erase works, one after another or interleaved. -/
def eraseEvents (d : Device) (c : Counts) (events : List EraseEvent) : Counts :=
  events.foldl (eraseEvent d) c

/-! ## Volumes -/

/-- Volume types. -/
inductive VolType where
  /-- `UBI_DYNAMIC_VOLUME`. -/
  | dynamic
  /-- `UBI_STATIC_VOLUME`. -/
  | static
  deriving DecidableEq

/-- A record of the volume table, without its checksum. -/
structure Record where
  /-- `reserved_pebs`. -/
  reservedPebs : Int32
  /-- `alignment`. -/
  alignment : ℕ
  /-- `data_pad`. -/
  dataPad : ℕ
  /-- `vol_type`. -/
  volType : Option VolType
  /-- `upd_marker`. -/
  updMarker : Bool
  /-- The name. -/
  name : List UInt8
  /-- `flags`. -/
  flags : ℕ
  deriving DecidableEq

/-- `empty_vtbl_record`. -/
def emptyRecord : Record := ⟨0,0,0,none,false,[],0⟩

/-- `struct ubi_volume`, as far as it is used here. -/
structure Volume where
  /-- `reserved_pebs`. -/
  reservedPebs : Int32
  /-- `vol_type`. -/
  volType : VolType
  /-- `alignment`. -/
  alignment : ℕ
  /-- `data_pad`. -/
  dataPad : ℕ
  /-- `usable_leb_size`. -/
  usableLebSize : ℕ
  /-- `used_ebs`. -/
  usedEbs : Int32
  /-- `name`. -/
  name : List UInt8
  /-- `ref_count`. -/
  refCount : ℕ
  /-- `eba_tbl`. -/
  ebaTbl : ℕ

/-- The state of a device. -/
structure State where
  /-- `ro_mode`. -/
  roMode : Bool
  /-- `volumes`, without the layout volume. -/
  volumes : ℕ → Option Volume
  /-- The volume table in memory. -/
  vtbl : ℕ → Record
  /-- `vol_count`. -/
  volCount : Int32
  /-- The counters of eraseblocks. -/
  counts : Counts
  /-- The EBA tables allocated and not freed. -/
  heap : ℕ → Option (List ℤ)
  /-- The next address of the heap. -/
  brk : ℕ

/-- `kmalloc` of an EBA table, which is filled then. -/
def State.kmalloc (st : State) (tbl : List ℤ) : State×ℕ :=
  ({ st with heap := Function.update st.heap st.brk (some tbl), brk := st.brk+1 },st.brk)

/-- `kfree`. -/
def State.kfree (st : State) (tbl : ℕ) : State :=
  { st with heap := Function.update st.heap tbl none }

/-- What an EBA table holds for a LEB; outside of it nothing is found. -/
def State.mapped (st : State) (tbl lnum : ℕ) : ℤ :=
  ((st.heap tbl).getD []).getD lnum UBI_LEB_UNMAPPED

def State.setCounts (st : State) (c : Counts) : State := { st with counts := c }

def State.setVolume (st : State) (volId : ℕ) (vol : Option Volume) : State :=
  { st with volumes := Function.update st.volumes volId vol }

/-- What the steps inside a call return. -/
structure Steps where
  /-- The allocation of a volume. -/
  kzalloc : Bool
  /-- `ubi_wl_flush`. -/
  flush : ℤ
  /-- The allocation of an EBA table. -/
  kmalloc : Bool
  /-- `cdev_add`. -/
  cdevAdd : ℤ
  /-- `device_register`. -/
  deviceRegister : ℤ
  /-- `volume_sysfs_init`. -/
  sysfsInit : ℤ
  /-- `ubi_eba_unmap_leb` of the layout volume. -/
  unmapLayout : ℕ → ℤ
  /-- `ubi_eba_write_leb` of the layout volume. -/
  writeLayout : ℕ → ℤ
  /-- `leb_write_lock`. -/
  lockLeb : ℕ → ℤ
  /-- `ubi_wl_put_peb`. -/
  putPeb : ℕ → ℤ
  /-- What erase works do during the call. -/
  erases : List EraseEvent

/-- The first error of some steps, or zero. -/
def firstError : List ℤ → ℤ
  | [] => 0
  | err::errs => if err≠0 then err else firstError errs

/-- `ubi_change_vtbl_record`. -/
def changeVtblRecord (st : State) (idx : ℕ) (vtblRec : Option Record) (o : Steps) :
    ℤ×State :=
  (firstError [o.unmapLayout 0,o.writeLayout 0,o.unmapLayout 1,o.writeLayout 1],
    { st with vtbl := Function.update st.vtbl idx (vtblRec.getD emptyRecord) })

/-- `ubi_eba_unmap_leb`. -/
def unmapLeb (st : State) (tbl lnum : ℕ) (o : Steps) : ℤ×State :=
  if st.roMode then (-EROFS,st)
  else if o.lockLeb lnum≠0 then (o.lockLeb lnum,st)
  else if st.mapped tbl lnum<0 then (0,st)
  else
    let unmapped := (st.heap tbl).map fun t => t.set lnum UBI_LEB_UNMAPPED
    (o.putPeb lnum,{ st with heap := Function.update st.heap tbl unmapped })

/-- The loops that unmap the LEBs of a volume, up to the first error. -/
def unmapLebs (st : State) (tbl : ℕ) (o : Steps) : List ℕ → ℤ×State
  | [] => (0,st)
  | lnum::lnums =>
    let (err,st) := unmapLeb st tbl lnum o
    if err≠0 then (err,st) else unmapLebs st tbl o lnums

/-! ## Creation -/

/-- A request that `verify_mkvol_req` lets through. -/
structure MkvolReq (d : Device) where
  /-- `vol_id`, or none for `UBI_VOL_NUM_AUTO`. -/
  volId : Option ℕ
  /-- `alignment`. -/
  alignment : ℕ
  /-- `bytes`. -/
  bytes : ℕ
  /-- `vol_type`. -/
  volType : VolType
  /-- `name`. -/
  name : List UInt8
  /-- The volume number is in range. -/
  slot : ∀ i,volId=some i → i<d.vtblSlots
  /-- The alignment fits a LEB. -/
  aligned : 0<alignment∧alignment≤d.lebSize
  /-- The size is a positive `int64_t`. -/
  size : 0<bytes∧bytes<2^63

/-- `usable_leb_size` of a volume to be created. -/
def MkvolReq.usableLebSize {d : Device} (req : MkvolReq d) : ℕ := d.lebSize-d.lebSize%req.alignment

/-- The number of eraseblocks requested, as the `int` it is stored in. -/
def MkvolReq.pebs {d : Device} (req : MkvolReq d) : Int32 :=
  Int32.ofNat ((req.bytes+req.usableLebSize-1)/req.usableLebSize)

/-- The volume number of a request: `ubi_create_volume` up to the label search. -/
def pickVolId (d : Device) (st : State) (req : MkvolReq d) : Option ℕ :=
  match req.volId with
  | some i => some i
  | none => (List.range d.vtblSlots).find? fun i => (st.volumes i).isNone

/-- The checks of `ubi_create_volume` under `volumes_lock`. -/
def createChecks (d : Device) (st : State) (req : MkvolReq d) (o : Steps) : Except ℤ ℕ :=
  if st.roMode then .error (-EROFS)
  else if ¬o.kzalloc then .error (-ENOMEM)
  else
    match pickVolId d st req with
    | none => .error (-ENFILE)
    | some volId =>
      if (st.volumes volId).isSome then .error (-EEXIST)
      else if (List.range d.vtblSlots).any fun i =>
          (st.volumes i).any fun vol => vol.name=req.name then .error (-EEXIST)
      else if req.pebs>st.counts.avail then .error (-ENOSPC)
      else .ok volId

/-- The volume that `ubi_create_volume` adds. -/
def newVolume {d : Device} (req : MkvolReq d) (ebaTbl : ℕ) : Volume where
  reservedPebs := req.pebs
  volType := req.volType
  alignment := req.alignment
  dataPad := d.lebSize%req.alignment
  usableLebSize := req.usableLebSize
  usedEbs := if req.volType=.dynamic then req.pebs else 0
  name := req.name
  refCount := 0
  ebaTbl := ebaTbl

/-- The record of a created volume. -/
def newRecord {d : Device} (req : MkvolReq d) : Record where
  reservedPebs := req.pebs
  alignment := req.alignment
  dataPad := d.lebSize%req.alignment
  volType := some req.volType
  updMarker := false
  name := req.name
  flags := 0

/-- The first error of the steps of `ubi_create_volume` between the checks and the record. -/
def createError (o : Steps) : ℤ :=
  firstError [o.flush,if o.kmalloc then 0 else -ENOMEM,o.cdevAdd,o.deviceRegister,o.sysfsInit]

/-- `ubi_create_volume`. -/
def createVolume (d : Device) (st : State) (req : MkvolReq d) (o : Steps) : ℤ×State :=
  match createChecks d st req o with
  | .error err => (err,st)
  | .ok volId =>
    let st := st.setCounts (eraseEvents d (st.counts.reserve req.pebs) o.erases)
    if createError o≠0 then
      -- whatever was registered is undone, and the EBA table is freed
      (createError o,st.setCounts (st.counts.release req.pebs))
    else
      let (st,tbl) := st.kmalloc (List.replicate req.pebs.toNatClampNeg UBI_LEB_UNMAPPED)
      let (err,st) := changeVtblRecord st volId (some (newRecord req)) o
      if err≠0 then (err,(st.kfree tbl).setCounts (st.counts.release req.pebs))
      else
        (0,{ st.setVolume volId (some (newVolume req tbl)) with volCount := st.volCount+1 })

/-! ## Removal -/

/-- A volume opened by its number. -/
def openVolume (d : Device) (st : State) (volId : ℕ) : Option Volume :=
  if volId<d.vtblSlots then st.volumes volId else none

/-- The LEBs of a volume from one of them on. -/
def lebsFrom (lnum : ℕ) (n : Int32) : List ℕ := (List.range n.toNatClampNeg).map (lnum+·)

/-- The record is changed and the LEBs are unmapped. -/
def removeLebs (st : State) (volId : ℕ) (vol : Volume) (noVtbl : Bool) (o : Steps) : ℤ×State :=
  let lebs := lebsFrom 0 vol.reservedPebs
  if noVtbl then unmapLebs st vol.ebaTbl o lebs
  else
    let (err,st) := changeVtblRecord st volId none o
    if err≠0 then (err,st) else unmapLebs st vol.ebaTbl o lebs

/-- `ubi_remove_volume`, of an open volume. -/
def removeVolume (d : Device) (st : State) (volId : ℕ) (noVtbl : Bool) (o : Steps) : ℤ×State :=
  match openVolume d st volId with
  | none => (-ENODEV,st)
  | some vol =>
    if st.roMode then (-EROFS,st)
    else if vol.refCount>1 then (-EBUSY,st)
    else
      let st := (st.setVolume volId none).setCounts (eraseEvents d st.counts o.erases)
      let (err,st) := removeLebs st volId vol noVtbl o
      if err≠0 then (err,st.setVolume volId (some vol))
      else
        let c := st.counts.release vol.reservedPebs
        let c := c.topUp (c.bebLevel-c.bebRsvd)
        -- the table is freed with the volume when it is closed
        (0,{ (st.kfree vol.ebaTbl).setCounts c with volCount := st.volCount-1 })

/-! ## Re-size -/

/-- The new table with the mapping of the old one. -/
def copyMapping (st : State) (tbl : ℕ) (n m : Int32) : List ℤ :=
  (List.range n.toNatClampNeg).map fun i =>
    if i< m.toNatClampNeg then st.mapped tbl i else UBI_LEB_UNMAPPED

/-- The volume after a re-size. -/
def Volume.resized (vol : Volume) (n : Int32) : Volume :=
  { vol with reservedPebs := n, usedEbs := if vol.volType=.dynamic then n else vol.usedEbs }

/-- `ubi_resize_volume` of a growing volume from the change of its record on. -/
def growVolume (d : Device) (st : State) (volId : ℕ) (vol : Volume) (n : Int32) (newMapping : ℕ)
    (o : Steps) : ℤ×State :=
  let pebs := n-vol.reservedPebs
  let tbl := copyMapping st vol.ebaTbl n vol.reservedPebs
  let st := { st with heap := Function.update st.heap newMapping (some tbl) }
  let st := (st.kfree vol.ebaTbl).setVolume volId (some { vol with ebaTbl := newMapping })
  let st := st.setCounts (eraseEvents d (st.counts.reserve pebs) o.erases)
  let (err,st) := changeVtblRecord st volId (some { st.vtbl volId with reservedPebs := n }) o
  if err≠0 then (err,(st.setCounts (st.counts.release pebs)).kfree newMapping)
  else (0,st.setVolume volId (some ({ vol with ebaTbl := newMapping }.resized n)))

/-- `ubi_resize_volume` of a shrinking volume from the change of its record on. -/
def shrinkVolume (d : Device) (st : State) (volId : ℕ) (vol : Volume) (n : Int32)
    (newMapping : ℕ) (o : Steps) : ℤ×State :=
  let st := st.setCounts (eraseEvents d st.counts o.erases)
  let (err,st) := changeVtblRecord st volId (some { st.vtbl volId with reservedPebs := n }) o
  if err≠0 then (err,st.kfree newMapping)
  else
    let lebs := lebsFrom n.toNatClampNeg (vol.reservedPebs-n)
    let (err,st) := unmapLebs st vol.ebaTbl o lebs
    if err≠0 then (err,st.kfree newMapping)
    else
      let c := st.counts.release (vol.reservedPebs-n)
      let c := c.topUp (c.bebLevel-c.bebRsvd)
      let tbl := copyMapping st vol.ebaTbl n n
      let st := { st with heap := Function.update st.heap newMapping (some tbl) }
      (0,((st.kfree vol.ebaTbl).setCounts c).setVolume volId
        (some ({ vol with ebaTbl := newMapping }.resized n)))

/-- `ubi_resize_volume`, of an open volume. -/
def resizeVolume (d : Device) (st : State) (volId : ℕ) (n : Int32) (o : Steps) : ℤ×State :=
  match openVolume d st volId with
  | none => (-ENODEV,st)
  | some vol =>
    if st.roMode then (-EROFS,st)
    else if vol.volType=.static∧n<vol.usedEbs then (-EINVAL,st)
    else if n=vol.reservedPebs then (0,st)
    else if ¬o.kmalloc then (-ENOMEM,st)
    else
      let (st,newMapping) := st.kmalloc (List.replicate n.toNatClampNeg UBI_LEB_UNMAPPED)
      if vol.refCount>1 then (-EBUSY,st.kfree newMapping)
      else if n-vol.reservedPebs>0 then
        if n-vol.reservedPebs>st.counts.avail then (-ENOSPC,st.kfree newMapping)
        else growVolume d st volId vol n newMapping o
      else shrinkVolume d st volId vol n newMapping o

/-! ## Re-name -/

/-- `struct ubi_rename_entry`. -/
structure RenameEntry where
  /-- The volume. -/
  volId : ℕ
  /-- The volume is removed. -/
  remove : Bool
  /-- The new name. -/
  newName : List UInt8

/-- `ubi_vtbl_rename_volumes`. -/
def vtblRenameVolumes (st : State) (list : List RenameEntry) (o : Steps) : ℤ×State :=
  let vtbl := list.foldl (fun vtbl re => Function.update vtbl re.volId
    (if re.remove then emptyRecord else { vtbl re.volId with name := re.newName })) st.vtbl
  (firstError [o.unmapLayout 0,o.writeLayout 0,o.unmapLayout 1,o.writeLayout 1],
    { st with vtbl := vtbl })

/-- The loop of `ubi_rename_volumes`; every removal has its own steps. -/
def renameLoop (d : Device) (st : State) : List (RenameEntry×Steps) → ℤ×State
  | [] => (0,st)
  | (re,o)::list =>
    if re.remove then
      let (err,st) := removeVolume d st re.volId true o
      if err≠0 then (err,st) else renameLoop d st list
    else
      let st := st.setVolume re.volId
        ((st.volumes re.volId).map fun vol => { vol with name := re.newName })
      renameLoop d st list

/-- `ubi_rename_volumes`. -/
def renameVolumes (d : Device) (st : State) (list : List (RenameEntry×Steps)) (o : Steps) :
    ℤ×State :=
  let (err,st) := vtblRenameVolumes st (list.map Prod.fst) o
  if err≠0 then (err,st) else renameLoop d st list

end ArdroneKernel.UbiVolumeOps
