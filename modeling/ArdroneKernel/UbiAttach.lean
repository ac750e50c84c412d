import ArdroneKernel.UbiVolumeOps
import ArdroneKernel.UbiScan

/-!
# Attaching a device

Executable model of what `attach_by_scanning` in `drivers/mtd/ubi/build.c` does
with the results of a scan: the checks of the volume table and of the scanning
information in `vtbl.c`, and the initialization of the volumes, of the EBA
tables in `eba.c` and of the counters of eraseblocks there and in `wl.c`.
-/

namespace ArdroneKernel.UbiAttach

open UbiVolumeOps SearchTree
open UbiScan (ScanInfo ScanVolume ScanLeb volTurn UBI_INTERNAL_VOL_START UBI_LAYOUT_VOLUME_ID)

/-- `UBI_VOL_NAME_MAX`. -/
def UBI_VOL_NAME_MAX : ℕ := 127

/-- `UBI_VTBL_AUTORESIZE_FLG`. -/
def UBI_VTBL_AUTORESIZE_FLG : ℕ := 1

/-- `UBI_INT_VOL_COUNT`. -/
def UBI_INT_VOL_COUNT : ℕ := 1

/-! ## The volume table -/

/-- The checks of one record in `vtbl_check`, with a good checksum. -/
def recordOk (d : Device) (good : Int32) (r : Record) : Bool :=
  if r.reservedPebs=0 then decide (r=emptyRecord)
  else if r.reservedPebs<0 then false
  else if r.alignment>d.lebSize∨r.alignment=0 then false
  else if r.alignment≠1∧r.alignment%d.minIoSize≠0 then false
  else if r.dataPad≠d.lebSize%r.alignment then false
  else if r.volType=none then false
  else if r.reservedPebs>good then false
  else if r.name.length>UBI_VOL_NAME_MAX then false
  else !r.name.isEmpty&&r.name.all (·≠0)

/-- All names are unique: the end of `vtbl_check`. -/
def namesUnique (d : Device) (vtbl : ℕ → Record) : Bool :=
  (List.range d.vtblSlots).all fun n => (List.range n).all fun i =>
    decide ((vtbl i).name=[]∨(vtbl i).name≠(vtbl n).name)

/-- `vtbl_check` of a table with good checksums. -/
def vtblCheck (d : Device) (good : Int32) (vtbl : ℕ → Record) : ℤ :=
  if ¬(List.range d.vtblSlots).all fun i => recordOk d good (vtbl i) then -EINVAL
  else if ¬namesUnique d vtbl then -EINVAL else 0

/-! ## Volumes -/

/-- `ubi_scan_find_sv`. -/
def scanFindSv (si : ScanInfo) (volId : ℤ) : Option ScanVolume := si.volumes.find (volTurn volId)

/-- The volume of a record, as `init_volumes` fills it in. Its EBA table has
the address of its slot. -/
def initVolume (d : Device) (si : ScanInfo) (r : Record) (i : ℕ) : Volume where
  reservedPebs := r.reservedPebs
  volType := if r.volType=some .dynamic then .dynamic else .static
  alignment := r.alignment
  dataPad := r.dataPad
  usableLebSize := d.lebSize-r.dataPad
  usedEbs :=
    if r.volType=some .dynamic then r.reservedPebs
    else
      match scanFindSv si i with
      | none => 0
      | some sv => if (sv.lebCount : ℤ)≠sv.usedEbs then 0 else Int32.ofInt sv.usedEbs
  name := r.name
  refCount := 0
  ebaTbl := i

/-- The layout volume. -/
def layoutVolume (d : Device) : Volume :=
  ⟨UBI_LAYOUT_VOLUME_EBS,.dynamic,1,0,d.lebSize,UBI_LAYOUT_VOLUME_EBS,[],1,d.vtblSlots⟩

/-- The volumes of a table. -/
def tableVolumes (d : Device) (si : ScanInfo) (vtbl : ℕ → Record) (i : ℕ) : Option Volume :=
  if i<d.vtblSlots∧(vtbl i).reservedPebs≠0 then some (initVolume d si (vtbl i) i) else none

/-- The eraseblocks that `init_volumes` reserves. -/
def tableReserved (d : Device) (vtbl : ℕ → Record) : Int32 :=
  (List.range d.vtblSlots).foldl (fun sum i => sum+(vtbl i).reservedPebs) 0+UBI_LAYOUT_VOLUME_EBS

/-- Slots of volumes that are to be re-sized automatically. -/
def autoresizeSlots (d : Device) (vtbl : ℕ → Record) : List ℕ :=
  (List.range d.vtblSlots).filter fun i =>
    (vtbl i).reservedPebs≠0&&(vtbl i).flags&&&UBI_VTBL_AUTORESIZE_FLG≠0

/-- `init_volumes`; there may be fewer eraseblocks than the volumes need. -/
def initVolumes (d : Device) (si : ScanInfo) (vtbl : ℕ → Record) (memory : Bool) (c : Counts) :
    Except ℤ ((ℕ → Option Volume)×Counts) :=
  if ¬memory then .error (-ENOMEM)
  else if (autoresizeSlots d vtbl).length>1 then .error (-EINVAL)
  else .ok (tableVolumes d si vtbl,c.reserve (tableReserved d vtbl))

/-! ## Scanning information -/

/-- `check_sv`. -/
def checkSv (vol : Volume) (sv : ScanVolume) : ℤ :=
  if sv.highestLnum≥vol.reservedPebs.toInt then -EINVAL
  else if (sv.lebCount : ℤ)>vol.reservedPebs.toInt then -EINVAL
  else if sv.dynamic≠(vol.volType=.dynamic : Bool) then -EINVAL
  else if sv.usedEbs>vol.reservedPebs.toInt then -EINVAL
  else if sv.dataPad≠vol.dataPad then -EINVAL
  else 0

/-- `ubi_scan_rm_volume`. -/
def scanRmVolume (rb : Rebalance) (si : ScanInfo) (sv : ScanVolume) : ScanInfo :=
  { si with
    volumes := rb.run (si.volumes.remove (volTurn sv.volId))
    erase := si.erase++sv.root.toList
    volsFound := si.volsFound-1 }

/-- `ubi->volumes[i]`, where the layout volume comes after the last slot. -/
def volumeAt (d : Device) (volumes : ℕ → Option Volume) (i : ℕ) : Option Volume :=
  if i=d.vtblSlots then some (layoutVolume d) else volumes i

/-- The loop of `check_scanning_info` for one slot. -/
def checkSlot (d : Device) (rb : Rebalance) (volumes : ℕ → Option Volume) (si : ScanInfo)
    (i : ℕ) : Except ℤ ScanInfo :=
  match volumeAt d volumes i,scanFindSv si i with
  | _,none => .ok si
  | none,some sv => .ok (scanRmVolume rb si sv)
  | some vol,some sv =>
    if vol.reservedPebs=0 then .ok (scanRmVolume rb si sv)
    else if checkSv vol sv≠0 then .error (checkSv vol sv)
    else .ok si

/-- `check_scanning_info`. -/
def checkScanningInfo (d : Device) (rb : Rebalance) (volumes : ℕ → Option Volume)
    (si : ScanInfo) : Except ℤ ScanInfo :=
  if si.volsFound>UBI_INT_VOL_COUNT+d.vtblSlots then .error (-EINVAL)
  else if si.highestVolId≥d.vtblSlots+UBI_INT_VOL_COUNT∧
      si.highestVolId<UBI_INTERNAL_VOL_START then .error (-EINVAL)
  else (List.range (d.vtblSlots+UBI_INT_VOL_COUNT)).foldlM (checkSlot d rb volumes) si

/-! ## Reserves -/

/-- `ubi_wl_init_scan`, as far as it counts. -/
def wlInitScan (memory : Bool) (c : Counts) : Except ℤ Counts :=
  if ¬memory then .error (-ENOMEM)
  else if c.avail<WL_RESERVED_PEBS then .error (-ENOMEM)
  else .ok (c.reserve WL_RESERVED_PEBS)

/-- The end of `ubi_eba_init_scan`. -/
def ebaReserve (d : Device) (c : Counts) : Except ℤ Counts :=
  if c.avail<EBA_RESERVED_PEBS then .error (-ENOSPC)
  else
    let c := c.reserve EBA_RESERVED_PEBS
    if d.badAllowed then
      let level := calculateReserved d c.good
      let beb := if c.avail<level then c.avail else level
      .ok { c.reserve beb with bebRsvd := beb, bebLevel := level }
    else .ok c

/-! ## EBA tables -/

/-- `idx2vol_id`. -/
def idx2volId (d : Device) (i : ℕ) : ℤ :=
  if i≥d.vtblSlots then i-d.vtblSlots+UBI_INTERNAL_VOL_START else i

/-- The scanned LEBs of a volume. -/
def scanLebs (d : Device) (si : ScanInfo) (i : ℕ) : List ScanLeb :=
  ((scanFindSv si (idx2volId d i)).map fun sv => sv.root.toList).getD []

/-- The EBA table of a volume. An entry beyond its end is not stored. -/
def initTable (n : Int32) (sebs : List ScanLeb) : List ℤ :=
  sebs.foldl (fun tbl seb => tbl.set seb.lnum.toNat seb.pnum)
    (List.replicate n.toNatClampNeg UBI_LEB_UNMAPPED)

/-- The EBA tables that `ubi_eba_init_scan` makes. -/
def initTables (d : Device) (volumes : ℕ → Option Volume) (si : ScanInfo) (i : ℕ) :
    Option (List ℤ) :=
  if i≤d.vtblSlots then
    (volumeAt d volumes i).map fun vol => initTable vol.reservedPebs (scanLebs d si i)
  else none

/-- LEBs beyond the end of their volumes are moved to the erase list. -/
def moveToErase (d : Device) (volumes : ℕ → Option Volume) (si : ScanInfo) : List ScanLeb :=
  si.erase++(List.range (d.vtblSlots+UBI_INT_VOL_COUNT)).flatMap fun i =>
    match volumeAt d volumes i with
    | none => []
    | some vol => (scanLebs d si i).filter fun seb => seb.lnum≥vol.reservedPebs.toInt

/-- Which allocations of an attach succeed. -/
structure AttachAllocs where
  /-- Those of `init_volumes`. -/
  volumes : Bool
  /-- Those of `ubi_wl_init_scan`. -/
  wl : Bool
  /-- Those of `ubi_eba_init_scan`. -/
  eba : Bool

/-- `good_peb_count` after a scan. -/
def goodPebs (d : Device) (si : ScanInfo) : Int32 :=
  Int32.ofNat d.pebCount-Int32.ofNat si.badPebCount

/-- `attach_by_scanning` after the volume table was read: the device, and the
eraseblocks to be erased. -/
def attach (d : Device) (rb : Rebalance) (m : AttachAllocs) (roMode : Bool) (si : ScanInfo)
    (vtbl : ℕ → Record) : Except ℤ (State×List ScanLeb) := do
  let good := goodPebs d si
  let c : Counts := ⟨good-d.corrPebCount,0,0,0,good,Int32.ofNat si.badPebCount,0⟩
  let (volumes,c) ← initVolumes d si vtbl m.volumes c
  let si ← checkScanningInfo d rb volumes si
  let c ← wlInitScan m.wl c
  if ¬m.eba then .error (-ENOMEM) else do
  let c ← ebaReserve d c
  .ok ({ roMode := roMode
         volumes := volumes
         vtbl := vtbl
         volCount := Int32.ofNat
           (((List.range d.vtblSlots).filter fun i => (volumes i).isSome).length+1)
         counts := c
         heap := initTables d volumes si
         brk := d.vtblSlots+1 },moveToErase d volumes si)

end ArdroneKernel.UbiAttach
