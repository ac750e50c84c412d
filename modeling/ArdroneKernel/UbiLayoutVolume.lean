import ArdroneKernel.Crc32
import ArdroneKernel.UbiAttach

/-!
# Reading the layout volume

Executable model of `ubi_read_volume_table` in `drivers/mtd/ubi/vtbl.c` from
the scanning information on: `process_lvol`, `create_vtbl`, `create_empty_lvol`
and `vtbl_check` on the bytes of a table, with `ubi_scan_get_free_peb` of
`scan.c`. An access outside of the arrays of `process_lvol` has no outcome.
-/

namespace ArdroneKernel.UbiLayoutVolume

open UbiVolumeOps UbiAttach SearchTree
open UbiScan (ScanInfo ScanVolume ScanLeb VidHdr PebReads Allocs ReadRes lebTurn scanAddUsed fixEc
  UBI_LAYOUT_VOLUME_ID UBI_VID_DYNAMIC UBI_VID_STATIC UBI_COMPAT_REJECT UBI_MAX_VOLUMES)

def EIO : ℤ := 5

/-- `UBI_VTBL_RECORD_SIZE`. -/
def UBI_VTBL_RECORD_SIZE : ℕ := 172

/-- `UBI_VTBL_RECORD_SIZE_CRC`. -/
def UBI_VTBL_RECORD_SIZE_CRC : ℕ := 168

/-! ## Records in bytes -/

/-- A big-endian number in some bytes. -/
def beField (buf : List UInt8) (k n : ℕ) : ℕ :=
  ((buf.drop k).take n).foldl (fun v x => 256*v+x.toNat) 0

/-- `be32_to_cpu`, stored into an `int`. -/
def beInt (buf : List UInt8) (k : ℕ) : Int32 := Int32.ofNat (beField buf k 4)

/-- `empty_vtbl_record`, with its checksum. -/
def emptyVtblRecord : List UInt8 :=
  List.replicate UBI_VTBL_RECORD_SIZE_CRC 0++[0xf1,0x16,0xc3,0x6b]

/-- `vtbl[i]`. -/
def vtblRecord (vtbl : List UInt8) (i : ℕ) : List UInt8 :=
  (vtbl.drop (UBI_VTBL_RECORD_SIZE*i)).take UBI_VTBL_RECORD_SIZE

/-- `name_len` of a record. -/
def nameLen (r : List UInt8) : ℕ := beField r 14 2

/-- `name` of a record, up to a length or a zero. -/
def nameUpTo (r : List UInt8) (n : ℕ) : List UInt8 := ((r.drop 16).take n).takeWhile (·≠0)

/-- The checks of one record in `vtbl_check`. -/
def recordCheck (d : Device) (crc32 : List UInt8 → ℕ) (good : Int32) (r : List UInt8) : ℤ :=
  let reservedPebs := beInt r 0
  let alignment := beInt r 4
  let dataPad := beInt r 8
  let volType := beField r 12 1
  let updMarker := beField r 13 1
  if beField r 168 4≠crc32 (r.take UBI_VTBL_RECORD_SIZE_CRC) then 1
  else if reservedPebs=0 then if r≠emptyVtblRecord then -EINVAL else 0
  else if reservedPebs<0∨alignment<0∨dataPad<0 then -EINVAL
  else if alignment.toInt>d.lebSize∨alignment=0 then -EINVAL
  else if alignment≠1∧alignment.toInt.toNat&&&(d.minIoSize-1)≠0 then -EINVAL
  else if dataPad.toInt≠(d.lebSize%alignment.toInt.toNat : ℕ) then -EINVAL
  else if volType≠UBI_VID_DYNAMIC∧volType≠UBI_VID_STATIC then -EINVAL
  else if updMarker≠0∧updMarker≠1 then -EINVAL
  else if reservedPebs>good then -EINVAL
  else if nameLen r>UBI_VOL_NAME_MAX then -EINVAL
  else if beField r 16 1=0 then -EINVAL
  else if nameLen r≠(nameUpTo r (nameLen r+1)).length then -EINVAL
  else 0

/-- Two records have the same name, which is not empty. -/
def sameName (r r' : List UInt8) : Bool :=
  decide (nameLen r>0)&&decide (nameLen r=nameLen r')&&
    decide (nameUpTo r (nameLen r)=nameUpTo r' (nameLen r))

/-- `vtbl_check` -/
def vtblCheck (d : Device) (crc32 : List UInt8 → ℕ) (good : Int32) (vtbl : List UInt8) : ℤ :=
  let err := firstError ((List.range d.vtblSlots).map fun i =>
    recordCheck d crc32 good (vtblRecord vtbl i))
  if err≠0 then err
  else if (List.range (d.vtblSlots-1)).any fun i =>
      (List.range' (i+1) (d.vtblSlots-(i+1))).any fun n =>
        sameName (vtblRecord vtbl i) (vtblRecord vtbl n) then -EINVAL
  else 0

/-- The fields of a record that `init_volumes` uses. -/
def recordOf (r : List UInt8) : Record where
  reservedPebs := beInt r 0
  alignment := (beInt r 4).toInt.toNat
  dataPad := (beInt r 8).toInt.toNat
  volType :=
    if beField r 12 1=UBI_VID_DYNAMIC then some .dynamic
    else if beField r 12 1=UBI_VID_STATIC then some .static
    else none
  updMarker := beField r 13 1≠0
  name := (r.drop 16).take (nameLen r)
  flags := beField r 144 1

/-! ## Copies of the table -/

/-- What the steps of `create_vtbl` return. -/
structure CreateSteps (dev : UbiScan.Device) where
  /-- `ubi_zalloc_vid_hdr`. -/
  vidHdr : Bool
  /-- `ubi_scan_erase_peb`, of an eraseblock in a try. -/
  erase : ℕ → ℕ → ℤ
  /-- `ubi_io_write_vid_hdr`, in a try. -/
  writeVid : ℕ → ℤ
  /-- `ubi_io_write_data`, in a try. -/
  writeData : ℕ → ℤ
  /-- The allocations of `ubi_scan_add_used`. -/
  allocs : Allocs
  /-- What `ubi_scan_add_used` reads of the eraseblocks. -/
  reads : ℕ → PebReads dev

/-- The first eraseblock to be erased for which that succeeds, and the others. -/
def takeErased (meanEc : ℤ) (erase : ℕ → ℤ) : List ScanLeb → Option (ScanLeb×List ScanLeb)
  | [] => none
  | seb::sebs =>
    let seb := fixEc meanEc seb
    if erase seb.pnum≠0 then (takeErased meanEc erase sebs).map fun (s,rest) => (s,seb::rest)
    else some ({ seb with ec := seb.ec+1 },sebs)

/-- `ubi_scan_get_free_peb` -/
def scanGetFreePeb (si : ScanInfo) (erase : ℕ → ℤ) : Except ℤ (ScanLeb×ScanInfo) :=
  match si.free with
  | seb::rest => .ok (seb,{ si with free := rest })
  | [] =>
    match takeErased si.meanEc erase si.erase with
    | some (seb,rest) => .ok (seb,{ si with erase := rest })
    | none => .error (-ENOSPC)

/-- The VID header of a copy of the table. -/
def lvolHdr (copy sqnum : ℕ) : VidHdr :=
  ⟨UBI_VID_DYNAMIC,false,UBI_COMPAT_REJECT,UBI_LAYOUT_VOLUME_ID,copy,0,0,0,0,sqnum⟩

variable {dev : UbiScan.Device}

/-- What writing a copy of the table in a try returns. -/
def writeCopy (o : CreateSteps dev) (n : ℕ) : ℤ :=
  if o.writeVid n≠0 then o.writeVid n else o.writeData n

/-- The tries of `create_vtbl`, so many more of them after this one. -/
def createTry (rb : Rebalance) (o : CreateSteps dev) (copy : ℕ) :
    ℕ → ScanInfo → Except ℤ ScanInfo
  | 0, si => do
    let (newSeb,si) ← scanGetFreePeb si (o.erase 0)
    let sqnum := si.maxSqnum+1
    if writeCopy o 0=0 then
      scanAddUsed dev rb o.reads o.allocs { si with maxSqnum := sqnum } newSeb.pnum newSeb.ec
        (lvolHdr copy sqnum) false
    else .error (writeCopy o 0)
  | n+1, si => do
    let (newSeb,si) ← scanGetFreePeb si (o.erase (n+1))
    let sqnum := si.maxSqnum+1
    if writeCopy o (n+1)=0 then
      scanAddUsed dev rb o.reads o.allocs { si with maxSqnum := sqnum } newSeb.pnum newSeb.ec
        (lvolHdr copy sqnum) false
    else if writeCopy o (n+1)=- EIO then
      createTry rb o copy n { si with maxSqnum := sqnum, erase := newSeb::si.erase }
    else .error (writeCopy o (n+1))

/-- `create_vtbl` -/
def createVtbl (rb : Rebalance) (o : CreateSteps dev) (copy : ℕ) (si : ScanInfo) :
    Except ℤ ScanInfo :=
  if ¬o.vidHdr then .error (-ENOMEM) else createTry rb o copy 5 si

/-! ## The layout volume -/

/-- What happens while the volume table is read. -/
structure Env (dev : UbiScan.Device) where
  /-- `vmalloc` of the table in an eraseblock. -/
  vmalloc : ℕ → Bool
  /-- `ubi_io_read_data` of the table in an eraseblock. -/
  readRes : ℕ → ReadRes
  /-- What is read. -/
  data : ℕ → List UInt8
  /-- The steps of the copies that are written. -/
  create : ℕ → CreateSteps dev
  /-- The allocations of `init_volumes`. -/
  volumes : Bool

/-- `leb` of `process_lvol`. -/
abbrev Lebs : Type := List (Option (List UInt8))

/-- A buffer of a length, zero at first, into which something was read. -/
def buffer (size : ℕ) (data : List UInt8) : List UInt8 :=
  data.take size++List.replicate (size-data.length) 0

/-- `seb->scrub = 1`. -/
def scrubLeb (si : ScanInfo) (sv : ScanVolume) (seb : ScanLeb) : ScanInfo :=
  match scanFindSv si sv.volId with
  | some sv => si.setVolume sv.volId
      { sv with root := sv.root.update (lebTurn seb.lnum) fun seb => { seb with scrub := true } }
  | none => si

/-- The loop of `process_lvol` that reads the LEBs. -/
def readLebs (env : Env dev) (size : ℕ) (sv : ScanVolume) :
    List ScanLeb → Lebs → ScanInfo → Option (Except ℤ (Lebs×ScanInfo))
  | [], lebs, si => some (.ok (lebs,si))
  | seb::sebs, lebs, si =>
    if ¬(0≤ seb.lnum∧seb.lnum<lebs.length) then none
    else if ¬env.vmalloc seb.pnum then some (.error (-ENOMEM))
    else
      let lebs := lebs.set seb.lnum.toNat (some (buffer size (env.data seb.pnum)))
      match env.readRes seb.pnum with
      | .ok => readLebs env size sv sebs lebs si
      | .bitflips => readLebs env size sv sebs lebs (scrubLeb si sv seb)
      | .ebadmsg => readLebs env size sv sebs lebs (scrubLeb si sv seb)
      | .err code => some (.error code)

/-- `leb_corrupted` of a LEB that is checked. -/
def lebCorrupted (d : Device) (crc32 : List UInt8 → ℕ) (good : Int32) :
    Option (List UInt8) → ℤ
  | none => 1
  | some vtbl => vtblCheck d crc32 good vtbl

/-- `process_lvol` from the check of LEB 0 on. -/
def chooseLeb (d : Device) (rb : Rebalance) (env : Env dev) (good : Int32)
    (leb₀ leb₁ : Option (List UInt8)) (si : ScanInfo) : Except ℤ (List UInt8×ScanInfo) :=
  if lebCorrupted d dev.crc32 good leb₀<0 then .error (-EINVAL)
  else if lebCorrupted d dev.crc32 good leb₀=0 then
    match leb₀ with
    | none => .error (-EINVAL)
    | some vtbl =>
      -- the copies are compared, when there are two
      if leb₁≠some vtbl then (createVtbl rb (env.create 1) 1 si).map fun si => (vtbl,si)
      else .ok (vtbl,si)
  else if lebCorrupted d dev.crc32 good leb₁≠0 then .error (-EINVAL)
  else
    match leb₁ with
    | none => .error (-EINVAL)
    | some vtbl => (createVtbl rb (env.create 0) 0 si).map fun si => (vtbl,si)

/-- `process_lvol` -/
def processLvol (d : Device) (rb : Rebalance) (env : Env dev) (size : ℕ) (good : Int32)
    (sv : ScanVolume) (si : ScanInfo) : Option (Except ℤ (List UInt8×ScanInfo)) :=
  (readLebs env size sv sv.root.toList [none,none] si).map fun r =>
    match r with
    | .error err => .error err
    | .ok (lebs,si) => chooseLeb d rb env good (lebs.getD 0 none) (lebs.getD 1 none) si

/-- A table of empty records. -/
def emptyTable (slots size : ℕ) : List UInt8 :=
  (List.replicate slots emptyVtblRecord).flatten++
    List.replicate (size-UBI_VTBL_RECORD_SIZE*slots) 0

/-- `create_empty_lvol`; its table takes no eraseblock. -/
def createEmptyLvol (d : Device) (rb : Rebalance) (env : Env dev) (size : ℕ) (memory : Bool)
    (si : ScanInfo) : Except ℤ (List UInt8×ScanInfo) := do
  if ¬memory then .error (-ENOMEM) else
  let si ← createVtbl rb (env.create 0) 0 si
  let si ← createVtbl rb (env.create 1) 1 si
  .ok (emptyTable d.vtblSlots size,si)

/-! ## The volume table -/

/-- The device with the number of slots that fit a LEB. -/
def withSlots (d : Device) : Device :=
  { d with vtblSlots := min (d.lebSize/UBI_VTBL_RECORD_SIZE) UBI_MAX_VOLUMES.toNat }

/-- `vtbl_size`. -/
def vtblSize (d : Device) : ℕ :=
  (UBI_VTBL_RECORD_SIZE*d.vtblSlots+d.minIoSize-1)/d.minIoSize*d.minIoSize

/-- What `ubi_read_volume_table` leaves. -/
structure TableRead where
  /-- `vtbl`. -/
  vtbl : List UInt8
  /-- The volumes. -/
  volumes : ℕ → Option Volume
  /-- The scanning information. -/
  si : ScanInfo
  /-- The counters of eraseblocks. -/
  counts : Counts

/-- The table, from the layout volume. -/
def layoutTable (d : Device) (rb : Rebalance) (env : Env dev) (memory : Bool) (si : ScanInfo) :
    Option (Except ℤ (List UInt8×ScanInfo)) :=
  match scanFindSv si UBI_LAYOUT_VOLUME_ID with
  | none =>
    if si.isEmpty then some (createEmptyLvol d rb env (vtblSize d) memory si)
    else some (.error (-EINVAL))
  | some sv =>
    if sv.lebCount>UBI_LAYOUT_VOLUME_EBS.toInt.toNat then some (.error (-EINVAL))
    else processLvol d rb env (vtblSize d) (goodPebs d si) sv si

/-- `ubi_read_volume_table`; `memory` is about the table of an empty device. -/
def ubiReadVolumeTable (d : Device) (rb : Rebalance) (env : Env dev) (memory : Bool)
    (si : ScanInfo) : Option (Except ℤ TableRead) :=
  let d := withSlots d
  (layoutTable d rb env memory si).map fun r => do
    let (vtbl,si) ← r
    let good := goodPebs d si
    let c : Counts := ⟨good-d.corrPebCount,0,0,0,good,Int32.ofNat si.badPebCount,0⟩
    let (volumes,c) ← initVolumes d si (fun i => recordOf (vtblRecord vtbl i)) env.volumes c
    let si ← checkScanningInfo d rb volumes si
    .ok ⟨vtbl,volumes,si,c⟩

end ArdroneKernel.UbiLayoutVolume
