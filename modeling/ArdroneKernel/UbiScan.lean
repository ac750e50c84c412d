import ArdroneKernel.SearchTree
import Mathlib.Algebra.Order.Ring.Int

/-!
# Scanning the flash

Executable model of `drivers/mtd/ubi/scan.c`. A scan reads the headers of all
physical eraseblocks and puts each of them in the tree of a volume or on a
list. What the reads return is given for every eraseblock; the checksum is a
parameter. The rebalancing of the red-black trees is one that keeps the order
of their elements.
-/

namespace ArdroneKernel.UbiScan

open SearchTree

def EIO : ℤ := 5
def ENOMEM : ℤ := 12
def EINVAL : ℤ := 22

/-- `UBI_VERSION`. -/
def UBI_VERSION : ℕ := 1

/-- `UBI_MAX_ERASECOUNTER`. -/
def UBI_MAX_ERASECOUNTER : ℤ := 0x7FFFFFFF

/-- `UBI_SCAN_UNKNOWN_EC`. -/
def UBI_SCAN_UNKNOWN_EC : ℤ := -1

/-- `UBI_MAX_VOLUMES`. -/
def UBI_MAX_VOLUMES : ℤ := 128

/-- `UBI_INTERNAL_VOL_START`. -/
def UBI_INTERNAL_VOL_START : ℤ := 0x7FFFFFFF-4096

/-- `UBI_LAYOUT_VOLUME_ID`. -/
def UBI_LAYOUT_VOLUME_ID : ℤ := UBI_INTERNAL_VOL_START

/-- `UBI_VID_DYNAMIC`. -/
def UBI_VID_DYNAMIC : ℕ := 1

/-- `UBI_VID_STATIC`. -/
def UBI_VID_STATIC : ℕ := 2

/-- `UBI_COMPAT_DELETE`. -/
def UBI_COMPAT_DELETE : ℕ := 1

/-- `UBI_COMPAT_RO`. -/
def UBI_COMPAT_RO : ℕ := 2

/-- `UBI_COMPAT_PRESERVE`. -/
def UBI_COMPAT_PRESERVE : ℕ := 4

/-- `UBI_COMPAT_REJECT`. -/
def UBI_COMPAT_REJECT : ℕ := 5

/-- An EC header, in the order of the processor. -/
structure EcHdr where
  /-- `version`. -/
  version : ℕ
  /-- The erase counter. -/
  ec : ℤ
  /-- `image_seq`. -/
  imageSeq : ℤ

/-- A VID header, in the order of the processor. -/
structure VidHdr where
  /-- `vol_type`. -/
  volType : ℕ
  /-- `copy_flag`, which is 0 or 1. -/
  copyFlag : Bool
  /-- `compat`. -/
  compat : ℕ
  /-- `vol_id`. -/
  volId : ℤ
  /-- `lnum`. -/
  lnum : ℤ
  /-- `data_size`. -/
  dataSize : ℤ
  /-- `used_ebs`. -/
  usedEbs : ℤ
  /-- `data_pad`. -/
  dataPad : ℤ
  /-- `data_crc`. -/
  dataCrc : ℕ
  /-- `sqnum`. -/
  sqnum : ℕ
  deriving DecidableEq

/-- What reading a header returns. -/
inductive IoRes where
  /-- Zero. -/
  | ok
  /-- `UBI_IO_BITFLIPS`. -/
  | bitflips
  /-- `UBI_IO_FF`. -/
  | ff
  /-- `UBI_IO_FF_BITFLIPS`. -/
  | ffBitflips
  /-- `UBI_IO_BAD_HDR`. -/
  | badHdr
  /-- `UBI_IO_BAD_HDR_EBADMSG`. -/
  | badHdrEbadmsg
  /-- A negative error code. -/
  | err (code : ℤ)
  deriving DecidableEq

/-- The header was read. -/
def IoRes.good : IoRes → Bool
  | .ok => true
  | .bitflips => true
  | _ => false

/-- What reading data returns. -/
inductive ReadRes where
  /-- Zero. -/
  | ok
  /-- `UBI_IO_BITFLIPS`. -/
  | bitflips
  /-- `-EBADMSG`. -/
  | ebadmsg
  /-- Another negative error code. -/
  | err (code : ℤ)
  deriving DecidableEq

/-- `validate_vid_hdr` of the I/O unit: the header may be used. -/
def ioValidateVidHdr (lebSize : ℤ) (h : VidHdr) : Bool :=
  if h.volId<0∨h.lnum<0∨h.dataSize<0∨h.usedEbs<0∨h.dataPad<0 then false
  else if UBI_MAX_VOLUMES≤h.volId∧h.volId<UBI_INTERNAL_VOL_START then false
  else if h.volId<UBI_INTERNAL_VOL_START∧h.compat≠0 then false
  else if UBI_INTERNAL_VOL_START≤h.volId∧h.compat≠UBI_COMPAT_DELETE∧h.compat≠UBI_COMPAT_RO∧
      h.compat≠UBI_COMPAT_PRESERVE∧h.compat≠UBI_COMPAT_REJECT then false
  else if h.volType≠UBI_VID_DYNAMIC∧h.volType≠UBI_VID_STATIC then false
  else if lebSize/2≤h.dataPad then false
  else if h.volType=UBI_VID_STATIC then
    if h.usedEbs=0 then false
    else if h.dataSize=0 then false
    else if h.lnum<h.usedEbs-1 then decide (h.dataSize=lebSize-h.dataPad)
    else decide (h.lnum=h.usedEbs-1)
  else if h.copyFlag=false∧(h.dataCrc≠0∨h.dataSize≠0) then false
  else if h.copyFlag=true∧h.dataSize=0 then false
  else decide (h.usedEbs=0)

/-- The device, as far as a scan reads it. -/
structure Device where
  /-- `peb_count`. -/
  pebCount : ℕ
  /-- `leb_size`. -/
  lebSize : ℤ
  /-- `crc32`, from `UBI_CRC32_INIT`. -/
  crc32 : List UInt8 → ℕ

/-- What the reads of one physical eraseblock return during a scan. A header
that was read has passed the checks of the I/O unit. -/
structure PebReads (dev : Device) where
  /-- `ubi_io_is_bad`. -/
  isBad : ℤ
  /-- Result of reading the EC header. -/
  ecRes : IoRes
  /-- The EC header. -/
  ech : EcHdr
  /-- Result of reading the VID header. -/
  vidRes : IoRes
  /-- The VID header. -/
  vidh : VidHdr
  /-- Result of reading the VID header another time. -/
  rereadRes : IoRes
  /-- Result of reading the data area. -/
  dataRes : ReadRes
  /-- The bytes of the data area. -/
  data : List UInt8
  /-- An EC header has a counter in range. -/
  ec_valid : ecRes.good=true → 0≤ech.ec
  /-- A VID header is valid. -/
  vid_valid : vidRes.good=true → ioValidateVidHdr dev.lebSize vidh=true

/-- Which allocations succeed while an eraseblock is processed. -/
structure Allocs where
  /-- `kmem_cache_alloc` of a scanning eraseblock. -/
  seb : Bool
  /-- `kmalloc` of a scanning volume. -/
  sv : Bool
  /-- `ubi_zalloc_vid_hdr`. -/
  vh : Bool
  /-- `vmalloc` of a data buffer. -/
  buf : Bool

/-- `struct ubi_scan_leb`. -/
structure ScanLeb where
  /-- Erase counter. -/
  ec : ℤ
  /-- Physical eraseblock number. -/
  pnum : ℕ
  /-- Logical eraseblock number. -/
  lnum : ℤ
  /-- The eraseblock needs scrubbing. -/
  scrub : Bool
  /-- The LEB is a copy. -/
  copyFlag : Bool
  /-- Sequence number. -/
  sqnum : ℕ

/-- `struct ubi_scan_volume`. -/
structure ScanVolume where
  /-- `vol_id`. -/
  volId : ℤ
  /-- `highest_lnum`. -/
  highestLnum : ℤ
  /-- `leb_count`. -/
  lebCount : ℕ
  /-- The volume is a dynamic one. -/
  dynamic : Bool
  /-- `used_ebs`. -/
  usedEbs : ℤ
  /-- `last_data_size`. -/
  lastDataSize : ℤ
  /-- `data_pad`. -/
  dataPad : ℤ
  /-- `compat`. -/
  compat : ℕ
  /-- The tree of its eraseblocks. -/
  root : SearchTree.Tree ScanLeb

/-- `struct ubi_scan_info`. -/
structure ScanInfo where
  /-- The tree of volumes. -/
  volumes : SearchTree.Tree ScanVolume := .nil
  /-- Corrupted eraseblocks. -/
  corr : List ScanLeb := []
  /-- Free eraseblocks. -/
  free : List ScanLeb := []
  /-- Eraseblocks to be erased. -/
  erase : List ScanLeb := []
  /-- Eraseblocks not to be used. -/
  alien : List ScanLeb := []
  /-- `corr_peb_count`. -/
  corrPebCount : ℕ := 0
  /-- `empty_peb_count`. -/
  emptyPebCount : ℕ := 0
  /-- `alien_peb_count`. -/
  alienPebCount : ℕ := 0
  /-- `bad_peb_count`. -/
  badPebCount : ℕ := 0
  /-- `maybe_bad_peb_count`. -/
  maybeBadPebCount : ℕ := 0
  /-- `vols_found`. -/
  volsFound : ℕ := 0
  /-- `highest_vol_id`. -/
  highestVolId : ℤ := 0
  /-- `is_empty`. -/
  isEmpty : Bool := false
  /-- `min_ec`. -/
  minEc : ℤ := 0
  /-- `max_ec`. -/
  maxEc : ℤ := 0
  /-- `max_sqnum`. -/
  maxSqnum : ℕ := 0
  /-- `mean_ec`. -/
  meanEc : ℤ := 0
  /-- `ec_sum`. -/
  ecSum : ℤ := 0
  /-- `ec_count`. -/
  ecCount : ℕ := 0

/-- The scanning information, with what a scan changes in the device. -/
structure Scan where
  /-- Scanning information. -/
  si : ScanInfo := {}
  /-- `image_seq` of the device. -/
  imageSeq : ℤ := 0
  /-- `ro_mode` of the device. -/
  roMode : Bool := false

/-! ## Lists and volumes -/

/-- An eraseblock on a list. -/
def listPeb (pnum : ℕ) (ec : ℤ) : ScanLeb := ⟨ec,pnum,0,false,false,0⟩

/-- `list_add` or `list_add_tail`. -/
def addTo (toHead : Bool) (e : ScanLeb) (list : List ScanLeb) : List ScanLeb :=
  if toHead then e::list else list++[e]

/-- `add_to_list`, for the free list. -/
def addToFree (si : ScanInfo) (m : Allocs) (pnum : ℕ) (ec : ℤ) (toHead : Bool) :
    Except ℤ ScanInfo :=
  if m.seb then .ok { si with free := addTo toHead (listPeb pnum ec) si.free } else .error (-ENOMEM)

/-- `add_to_list`, for the erase list. -/
def addToErase (si : ScanInfo) (m : Allocs) (pnum : ℕ) (ec : ℤ) (toHead : Bool) :
    Except ℤ ScanInfo :=
  if m.seb then .ok { si with erase := addTo toHead (listPeb pnum ec) si.erase }
  else .error (-ENOMEM)

/-- `add_to_list`, for the alien list. -/
def addToAlien (si : ScanInfo) (m : Allocs) (pnum : ℕ) (ec : ℤ) (toHead : Bool) :
    Except ℤ ScanInfo :=
  if m.seb then
    .ok { si with
      alienPebCount := si.alienPebCount+1
      alien := addTo toHead (listPeb pnum ec) si.alien }
  else .error (-ENOMEM)

/-- `add_corrupted`. -/
def addCorrupted (si : ScanInfo) (m : Allocs) (pnum : ℕ) (ec : ℤ) : Except ℤ ScanInfo :=
  if m.seb then
    .ok { si with corrPebCount := si.corrPebCount+1, corr := listPeb pnum ec::si.corr }
  else .error (-ENOMEM)

/-- `validate_vid_hdr` of the scanning unit: the header agrees with those of
the same volume seen before. -/
def validateVidHdr (h : VidHdr) (sv : ScanVolume) : Bool :=
  if sv.lebCount≠0 then
    let svVolType := if sv.dynamic then UBI_VID_DYNAMIC else UBI_VID_STATIC
    decide (h.volId=sv.volId∧h.volType=svVolType∧h.usedEbs=sv.usedEbs∧h.dataPad=sv.dataPad)
  else true

/-- The walk for a volume. -/
def volTurn (volId : ℤ) (sv : ScanVolume) : Turn :=
  if volId=sv.volId then .here else if volId>sv.volId then .left else .right

/-- The walk for a LEB. -/
def lebTurn (lnum : ℤ) (seb : ScanLeb) : Turn :=
  if lnum≠seb.lnum then if lnum<seb.lnum then .left else .right else .here

/-- `add_volume`. -/
def addVolume (rb : Rebalance) (si : ScanInfo) (m : Allocs) (h : VidHdr) :
    Except ℤ (ScanInfo×ScanVolume) :=
  match si.volumes.find (volTurn h.volId) with
  | some sv => .ok (si,sv)
  | none =>
    if m.sv then
      let sv : ScanVolume :=
        { volId := h.volId
          highestLnum := 0
          lebCount := 0
          dynamic := h.volType=UBI_VID_DYNAMIC
          usedEbs := h.usedEbs
          lastDataSize := 0
          dataPad := h.dataPad
          compat := h.compat
          root := .nil }
      .ok ({ si with
        highestVolId := if h.volId>si.highestVolId then h.volId else si.highestVolId
        volumes := rb.run (si.volumes.add (volTurn h.volId) sv)
        volsFound := si.volsFound+1 },sv)
    else .error (-ENOMEM)

/-! ## Copies of a LEB -/

/-- The bits of the result of `compare_lebs`. -/
structure CmpRes where
  /-- Bit 0: the second eraseblock is the newer one. -/
  second : Bool
  /-- Bit 1: bit-flips in the newer one. -/
  bitflips : Bool
  /-- Bit 2: the other one is corrupted. -/
  corrupted : Bool

/-- The data of an eraseblock match the checksum in a header. -/
def crcMatches (dev : Device) (r : PebReads dev) (h : VidHdr) : Bool :=
  dev.crc32 (r.data.take h.dataSize.toNat)=h.dataCrc

/-- The end of `compare_lebs`, which checks the data of the newer copy. -/
def checkCopy (dev : Device) (m : Allocs) (r : PebReads dev) (h : VidHdr) (second : Bool) :
    Except ℤ CmpRes :=
  if ¬m.buf then .error (-ENOMEM) else
  match r.dataRes with
  | .err code => .error code
  | res =>
    if crcMatches dev r h then .ok ⟨second,decide (res≠.ok),false⟩ else .ok ⟨!second,false,true⟩

/-- `compare_lebs`. -/
def compareLebs (dev : Device) (reads : ℕ → PebReads dev) (m : Allocs) (seb : ScanLeb)
    (pnum : ℕ) (h : VidHdr) : Except ℤ CmpRes :=
  if h.sqnum=seb.sqnum then .error (-EINVAL) else
  if h.sqnum>seb.sqnum then
    if ¬h.copyFlag then .ok ⟨true,false,false⟩ else checkCopy dev m (reads pnum) h true
  else if ¬seb.copyFlag then .ok ⟨false,false,false⟩
  else if ¬m.vh then .error (-ENOMEM)
  else
    match (reads seb.pnum).rereadRes with
    | .ok => checkCopy dev m (reads seb.pnum) (reads seb.pnum).vidh false
    | .bitflips => checkCopy dev m (reads seb.pnum) (reads seb.pnum).vidh false
    | .err code => .error code
    | _ => .error (- EIO)

/-- A used eraseblock takes the place of an older copy. -/
def ScanLeb.replace (seb : ScanLeb) (pnum : ℕ) (ec : ℤ) (h : VidHdr) (scrub : Bool) : ScanLeb :=
  { seb with ec := ec, pnum := pnum, scrub := scrub, copyFlag := h.copyFlag, sqnum := h.sqnum }

/-- The volume after a newer copy took the place of an older one. -/
def ScanVolume.replaceLeb (sv : ScanVolume) (pnum : ℕ) (ec : ℤ) (h : VidHdr) (scrub : Bool) :
    ScanVolume :=
  { sv with
    root := sv.root.update (lebTurn h.lnum) fun seb => seb.replace pnum ec h scrub
    lastDataSize := if sv.highestLnum=h.lnum then h.dataSize else sv.lastDataSize }

/-- The volume with one more LEB. -/
def ScanVolume.addLeb (rb : Rebalance) (sv : ScanVolume) (pnum : ℕ) (ec : ℤ) (h : VidHdr)
    (bitflips : Bool) : ScanVolume :=
  { sv with
    highestLnum := if sv.highestLnum≤h.lnum then h.lnum else sv.highestLnum
    lastDataSize := if sv.highestLnum≤h.lnum then h.dataSize else sv.lastDataSize
    lebCount := sv.lebCount+1
    root := rb.run (sv.root.add (lebTurn h.lnum) ⟨ec,pnum,h.lnum,bitflips,h.copyFlag,h.sqnum⟩) }

/-- The scanning information with another state of a volume. -/
def ScanInfo.setVolume (si : ScanInfo) (volId : ℤ) (sv : ScanVolume) : ScanInfo :=
  { si with volumes := si.volumes.update (volTurn volId) fun _ => sv }

/-- `ubi_scan_add_used`. -/
def scanAddUsed (dev : Device) (rb : Rebalance) (reads : ℕ → PebReads dev) (m : Allocs)
    (si : ScanInfo) (pnum : ℕ) (ec : ℤ) (h : VidHdr) (bitflips : Bool) : Except ℤ ScanInfo := do
  let (si,sv) ← addVolume rb si m h
  let si := { si with maxSqnum := if si.maxSqnum<h.sqnum then h.sqnum else si.maxSqnum }
  match sv.root.find (lebTurn h.lnum) with
  | some seb =>
    if seb.sqnum=h.sqnum∧h.sqnum≠0 then .error (-EINVAL) else do
    let c ← compareLebs dev reads m seb pnum h
    if c.second then
      if ¬validateVidHdr h sv then .error (-EINVAL) else do
      let si ← addToErase si m seb.pnum seb.ec c.corrupted
      .ok (si.setVolume h.volId (sv.replaceLeb pnum ec h (c.bitflips||bitflips)))
    else addToErase si m pnum ec c.corrupted
  | none =>
    if ¬validateVidHdr h sv then .error (-EINVAL) else
    if ¬m.seb then .error (-ENOMEM) else
    .ok (si.setVolume h.volId (sv.addLeb rb pnum ec h bitflips))

/-! ## Eraseblocks -/

/-- `check_corruption`: the data area holds something that no power cut left. -/
def checkCorruption {dev : Device} (r : PebReads dev) : Except ℤ Bool :=
  match r.dataRes with
  | .bitflips => .ok false
  | .ebadmsg => .ok false
  | .err code => .error code
  | .ok => .ok (!r.data.all (·=0xFF))

/-- The label `adjust_mean_ec` of `process_eb`. -/
def adjustMeanEc (si : ScanInfo) (ecErr : Bool) (ec : ℤ) : ScanInfo :=
  if ecErr then si
  else
    { si with
      ecSum := si.ecSum+ec
      ecCount := si.ecCount+1
      maxEc := if ec>si.maxEc then ec else si.maxEc
      minEc := if ec<si.minEc then ec else si.minEc }

/-- The checks of an EC header in `process_eb`, with the image sequence number
of the device after them. -/
def checkEcHdr (imageSeq : ℤ) (e : EcHdr) : Except ℤ ℤ :=
  if e.version≠UBI_VERSION then .error (-EINVAL) else
  if e.ec>UBI_MAX_ERASECOUNTER then .error (-EINVAL) else
  let seq := if imageSeq=0∧e.imageSeq≠0 then e.imageSeq else imageSeq
  if seq≠0∧e.imageSeq≠0∧seq≠e.imageSeq then .error (-EINVAL) else .ok seq

/-- `process_eb` with a valid VID header. -/
def processUsed (dev : Device) (rb : Rebalance) (reads : ℕ → PebReads dev) (m : Allocs)
    (st : Scan) (pnum : ℕ) (ecErr : Bool) (ec : ℤ) (bitflips : Bool) : Except ℤ Scan := do
  let h := (reads pnum).vidh
  let used (roMode : Bool) : Except ℤ Scan := do
    let si ← scanAddUsed dev rb reads m st.si pnum ec h bitflips
    .ok { st with si := adjustMeanEc si ecErr ec, roMode := roMode }
  if h.volId>UBI_MAX_VOLUMES∧h.volId≠UBI_LAYOUT_VOLUME_ID then
    if h.compat=UBI_COMPAT_DELETE then do
      let si ← addToErase st.si m pnum ec true
      .ok { st with si := si }
    else if h.compat=UBI_COMPAT_RO then used true
    else if h.compat=UBI_COMPAT_PRESERVE then do
      let si ← addToAlien st.si m pnum ec false
      .ok { st with si := si }
    else if h.compat=UBI_COMPAT_REJECT then .error (-EINVAL)
    else used st.roMode
  else used st.roMode

/-- `process_eb` with a corrupted VID header. -/
def processBadVid (dev : Device) (m : Allocs) (st : Scan) (pnum : ℕ) (r : PebReads dev)
    (ecErr : Bool) (ec : ℤ) : Except ℤ Scan := do
  let corrupted ← if ecErr then .ok false else checkCorruption r
  let si ← if corrupted then addCorrupted st.si m pnum ec else addToErase st.si m pnum ec true
  .ok { st with si := adjustMeanEc si ecErr ec }

/-- `process_eb` from the VID header on. -/
def processVid (dev : Device) (rb : Rebalance) (reads : ℕ → PebReads dev) (m : Allocs)
    (st : Scan) (pnum : ℕ) (ecRes : IoRes) (ec : ℤ) (bitflips : Bool) : Except ℤ Scan :=
  let ecErr := !ecRes.good
  match (reads pnum).vidRes with
  | .err code => .error code
  | .ok => processUsed dev rb reads m st pnum ecErr ec bitflips
  | .bitflips => processUsed dev rb reads m st pnum ecErr ec true
  | .badHdrEbadmsg =>
    let maybe := if ecRes=.badHdrEbadmsg then st.si.maybeBadPebCount+1 else st.si.maybeBadPebCount
    processBadVid dev m { st with si := { st.si with maybeBadPebCount := maybe } } pnum
      (reads pnum) ecErr ec
  | .badHdr => processBadVid dev m st pnum (reads pnum) ecErr ec
  | .ffBitflips => do
    let si ← addToErase st.si m pnum ec true
    .ok { st with si := adjustMeanEc si ecErr ec }
  | .ff => do
    let si ← if ecErr then addToErase st.si m pnum ec true else addToFree st.si m pnum ec false
    .ok { st with si := adjustMeanEc si ecErr ec }

/-- `process_eb` for an eraseblock without an EC header. -/
def processEmpty (m : Allocs) (st : Scan) (pnum : ℕ) (toHead : Bool) : Except ℤ Scan := do
  let si ← addToErase { st.si with emptyPebCount := st.si.emptyPebCount+1 } m pnum
    UBI_SCAN_UNKNOWN_EC toHead
  .ok { st with si := si }

/-- `process_eb`. -/
def processEb (dev : Device) (rb : Rebalance) (reads : ℕ → PebReads dev) (allocs : ℕ → Allocs)
    (st : Scan) (pnum : ℕ) : Except ℤ Scan :=
  let r := reads pnum
  let m := allocs pnum
  if r.isBad<0 then .error r.isBad
  else if r.isBad≠0 then .ok { st with si := { st.si with badPebCount := st.si.badPebCount+1 } }
  else
    match r.ecRes with
    | .err code => .error code
    | .ff => processEmpty m st pnum false
    | .ffBitflips => processEmpty m st pnum true
    | .badHdr => processVid dev rb reads m st pnum .badHdr UBI_SCAN_UNKNOWN_EC true
    | .badHdrEbadmsg => processVid dev rb reads m st pnum .badHdrEbadmsg UBI_SCAN_UNKNOWN_EC true
    | res => do
      let seq ← checkEcHdr st.imageSeq r.ech
      processVid dev rb reads m { st with imageSeq := seq } pnum res r.ech.ec (res=.bitflips)

/-! ## The scan -/

/-- `check_what_we_have`, where `random` becomes the image sequence number of
an empty device. -/
def checkWhatWeHave (dev : Device) (random : ℤ) (st : Scan) : Except ℤ Scan :=
  let pebCount : ℤ := dev.pebCount-st.si.badPebCount-st.si.alienPebCount
  let maxCorr : ℤ := if Int.tdiv pebCount 20≠0 then Int.tdiv pebCount 20 else 8
  if st.si.corrPebCount≠0∧(st.si.corrPebCount : ℤ)≥maxCorr then .error (-EINVAL) else
  if ((st.si.emptyPebCount+st.si.maybeBadPebCount : ℕ) : ℤ)=pebCount then
    if st.si.maybeBadPebCount≤2 then
      .ok { st with si := { st.si with isEmpty := true }, imageSeq := random }
    else .error (-EINVAL)
  else .ok st

/-- An unknown erase counter becomes the mean one. -/
def fixEc (mean : ℤ) (seb : ScanLeb) : ScanLeb :=
  if seb.ec=UBI_SCAN_UNKNOWN_EC then { seb with ec := mean } else seb

/-- The loops at the end of `ubi_scan` over the trees and three of the lists. -/
def fixEcs (si : ScanInfo) : ScanInfo :=
  { si with
    volumes := si.volumes.map fun sv => { sv with root := sv.root.map (fixEc si.meanEc) }
    free := si.free.map (fixEc si.meanEc)
    corr := si.corr.map (fixEc si.meanEc)
    erase := si.erase.map (fixEc si.meanEc) }

/-- The loop of `ubi_scan`, in any order of the eraseblocks. -/
def scanLoop (dev : Device) (rb : Rebalance) (reads : ℕ → PebReads dev) (allocs : ℕ → Allocs)
    (st : Scan) (order : List ℕ) : Except ℤ Scan :=
  order.foldlM (processEb dev rb reads allocs) st

/-- `ubi_scan`; `memory` tells whether the allocations before the loop succeed. -/
def ubiScan (dev : Device) (rb : Rebalance) (reads : ℕ → PebReads dev) (allocs : ℕ → Allocs)
    (memory : Bool) (random : ℤ) (st : Scan) : Except ℤ Scan := do
  if ¬memory then .error (-ENOMEM) else
  let st ← scanLoop dev rb reads allocs { st with si := {} } (List.range dev.pebCount)
  let mean := if st.si.ecCount≠0 then st.si.ecSum/st.si.ecCount else st.si.meanEc
  let st ← checkWhatWeHave dev random { st with si := { st.si with meanEc := mean } }
  .ok { st with si := fixEcs st.si }

end ArdroneKernel.UbiScan
