import ArdroneKernel.UbiAttach

/-!
# Requests to the UBI character device

Executable model of the volume requests of `drivers/mtd/ubi/cdev.c`, from the
bytes the user gives, with the opening of volumes in `kapi.c`. What the volume
management behind them does is that of `vmt.c`.
-/

namespace ArdroneKernel.UbiVolumeRequests

open UbiVolumeOps UbiAttach

def EPERM : ℤ := 1
def EIO : ℤ := 5
def EFAULT : ℤ := 14
def ENAMETOOLONG : ℤ := 36

/-- `UBI_VOL_NUM_AUTO`. -/
def UBI_VOL_NUM_AUTO : Int32 := -1

/-- `UBI_DYNAMIC_VOLUME`. -/
def UBI_DYNAMIC_VOLUME : Int8 := 3

/-- `UBI_STATIC_VOLUME`. -/
def UBI_STATIC_VOLUME : Int8 := 4

/-- `UBI_MAX_RNVOL`. -/
def UBI_MAX_RNVOL : Int32 := 32

/-! ## Names -/

/-- The bytes of a name before the first zero, as `strlen` and `strcmp` see it. -/
def cStr (name : List UInt8) : List UInt8 := name.takeWhile fun c => c≠0

/-- The first bytes of a character array. -/
def firstBytes (name : ℕ → UInt8) (n : ℕ) : List UInt8 := (List.range n).map name

/-- `strnlen`. -/
def strnlen (name : ℕ → UInt8) (n : ℕ) : ℕ := (cStr (firstBytes name n)).length

/-! ## Requests -/

/-- `struct ubi_mkvol_req`. -/
structure UbiMkvolReq where
  /-- `vol_id`. -/
  volId : Int32
  /-- `alignment`. -/
  alignment : Int32
  /-- `bytes`. -/
  bytes : Int64
  /-- `vol_type`. -/
  volType : Int8
  /-- `name_len`. -/
  nameLen : Int16
  /-- `name`. -/
  name : ℕ → UInt8

/-- `struct ubi_rsvol_req`. -/
structure UbiRsvolReq where
  /-- `bytes`. -/
  bytes : Int64
  /-- `vol_id`. -/
  volId : Int32

/-- An entry of a re-name request. -/
structure RnvolEnt where
  /-- `vol_id`. -/
  volId : Int32
  /-- `name_len`. -/
  nameLen : Int16
  /-- `name`. -/
  name : ℕ → UInt8

/-- `struct ubi_rnvol_req`. -/
structure UbiRnvolReq where
  /-- `count`. -/
  count : Int32
  /-- `ents`. -/
  ents : ℕ → RnvolEnt

/-- A volume request. -/
inductive Request where
  /-- `UBI_IOCMKVOL`. -/
  | mkvol (req : UbiMkvolReq)
  /-- `UBI_IOCRMVOL`. -/
  | rmvol (volId : Int32)
  /-- `UBI_IOCRSVOL`. -/
  | rsvol (req : UbiRsvolReq)
  /-- `UBI_IOCRNVOL`. -/
  | rnvol (req : UbiRnvolReq)

/-- Why a volume cannot be opened. -/
inductive OpenError where
  /-- An allocation fails. -/
  | memory
  /-- Somebody else has opened it. -/
  | busy
  /-- It is static and reading it for its first check fails. -/
  | check
  deriving DecidableEq

/-- What happens during a request. -/
structure Env where
  /-- The caller has `CAP_SYS_RESOURCE`. -/
  capable : Bool
  /-- Copying the request from the user succeeds. -/
  getArg : Bool
  /-- Copying the number of a new volume to the user succeeds. -/
  putArg : Bool
  /-- The allocation of a re-name request succeeds. -/
  kmalloc : Bool
  /-- The allocations of the entries of the re-name list succeed. -/
  kzalloc : ℕ → Bool
  /-- Volumes that cannot be opened. -/
  fails : ℕ → Option OpenError
  /-- The steps inside the call. -/
  steps : Steps
  /-- The steps inside the removals of a re-name. -/
  remove : ℕ → Steps

/-! ## Opening volumes -/

/-- `ubi_open_volume` in exclusive mode, when the request holds some volumes. -/
def ubiOpenVolume (d : Device) (st : State) (env : Env) (held : List ℕ) (volId : ℤ) :
    Except ℤ ℕ :=
  if volId<0∨volId≥d.vtblSlots then .error (-EINVAL)
  else if env.fails volId.toNat=some .memory then .error (-ENOMEM)
  else if (st.volumes volId.toNat).isNone then .error (-ENODEV)
  else if volId.toNat∈held∨env.fails volId.toNat=some .busy then .error (-EBUSY)
  else if env.fails volId.toNat=some .check then .error (- EIO)
  else .ok volId.toNat

/-- `ubi_open_volume_nm` in exclusive mode. -/
def ubiOpenVolumeNm (d : Device) (st : State) (env : Env) (held : List ℕ) (name : List UInt8) :
    Except ℤ ℕ :=
  let named := (List.range d.vtblSlots).find? fun i =>
    (st.volumes i).any fun vol =>
      (cStr name).length=vol.name.length∧cStr name=cStr vol.name
  match named with
  | none => .error (-ENODEV)
  | some i => ubiOpenVolume d st env held i

/-- The references of a request to volumes it opened. -/
def holdVolumes (st : State) (held : List ℕ) : State :=
  { st with volumes := fun i => (st.volumes i).map fun vol =>
      { vol with refCount := vol.refCount+held.count i } }

/-- `ubi_close_volume`, for some volumes. -/
def closeVolumes (st : State) (held : List ℕ) : State :=
  { st with volumes := fun i => (st.volumes i).map fun vol =>
      { vol with refCount := vol.refCount-held.count i } }

/-! ## Creation and re-size -/

/-- `verify_mkvol_req`. `min_io_size` is a power of two. -/
def verifyMkvolReq (d : Device) (req : UbiMkvolReq) : Except ℤ (MkvolReq d) :=
  if h₁ : req.bytes.toInt<0∨req.alignment.toInt<0∨req.volType<0∨req.nameLen.toInt<0 then
    .error (-EINVAL)
  else if h₂ : (req.volId.toInt<0∨req.volId.toInt≥d.vtblSlots)∧req.volId≠UBI_VOL_NUM_AUTO then
    .error (-EINVAL)
  else if h₃ : req.alignment.toInt=0 then .error (-EINVAL)
  else if h₄ : req.bytes.toInt=0 then .error (-EINVAL)
  else if req.volType≠UBI_DYNAMIC_VOLUME∧req.volType≠UBI_STATIC_VOLUME then .error (-EINVAL)
  else if h₅ : req.alignment.toInt>d.lebSize then .error (-EINVAL)
  else if req.alignment.toInt≠1∧req.alignment.toInt.toNat%d.minIoSize≠0 then .error (-EINVAL)
  else if req.nameLen.toInt>UBI_VOL_NAME_MAX then .error (-ENAMETOOLONG)
  else if strnlen req.name (req.nameLen.toInt.toNat+1)≠req.nameLen.toInt.toNat then
    .error (-EINVAL)
  else
    .ok
      { volId := if req.volId=UBI_VOL_NUM_AUTO then none else some req.volId.toInt.toNat
        alignment := req.alignment.toInt.toNat
        bytes := req.bytes.toInt.toNat
        volType := if req.volType=UBI_DYNAMIC_VOLUME then .dynamic else .static
        name := firstBytes req.name req.nameLen.toInt.toNat
        slot := by
          intro i hi
          split at hi
          · cases hi
          · next hauto =>
            cases hi
            have hrange := mt (And.intro · hauto) h₂
            omega
        aligned := by omega
        size := by
          have := req.bytes.toInt_lt
          omega }

/-- `UBI_IOCMKVOL`. -/
def iocMkvol (d : Device) (st : State) (req : UbiMkvolReq) (env : Env) : ℤ×State :=
  match verifyMkvolReq d req with
  | .error err => (err,st)
  | .ok req =>
    let (err,st) := createVolume d st req env.steps
    if err≠0 then (err,st) else (if env.putArg then 0 else -EFAULT,st)

/-- `verify_rsvol_req`. -/
def verifyRsvolReq (d : Device) (req : UbiRsvolReq) : ℤ :=
  if req.bytes.toInt≤0 then -EINVAL
  else if req.volId.toInt<0∨req.volId.toInt≥d.vtblSlots then -EINVAL
  else 0

/-- The number of eraseblocks a re-size asks for, as the `int` it is stored in. -/
def rsvolPebs (vol : Volume) (bytes : Int64) : Int32 :=
  Int32.ofNat ((bytes.toInt.toNat+vol.usableLebSize-1)/vol.usableLebSize)

/-- `UBI_IOCRSVOL`. -/
def iocRsvol (d : Device) (st : State) (req : UbiRsvolReq) (env : Env) : ℤ×State :=
  if verifyRsvolReq d req≠0 then (verifyRsvolReq d req,st)
  else
    match ubiOpenVolume d st env [] req.volId.toInt with
    | .error err => (err,st)
    | .ok volId =>
      match st.volumes volId with
      | none => (-ENODEV,st)
      | some vol =>
        let (err,st) :=
          resizeVolume d (holdVolumes st [volId]) volId (rsvolPebs vol req.bytes) env.steps
        (err,closeVolumes st [volId])

/-- `UBI_IOCRMVOL`. -/
def iocRmvol (d : Device) (st : State) (volId : Int32) (env : Env) : ℤ×State :=
  match ubiOpenVolume d st env [] volId.toInt with
  | .error err => (err,st)
  | .ok volId =>
    let (err,st) := removeVolume d (holdVolumes st [volId]) volId false env.steps
    (err,closeVolumes st [volId])

/-! ## Re-name -/

/-- The new name in an entry. -/
def RnvolEnt.newName (ent : RnvolEnt) : List UInt8 := firstBytes ent.name ent.nameLen.toInt.toNat

/-- The checks of one entry in `rename_volumes`. It notes when a name is not as
long as the entry says, but goes on. -/
def entError (d : Device) (ent : RnvolEnt) : Option ℤ :=
  if ent.volId.toInt<0∨ent.volId.toInt≥d.vtblSlots then some (-EINVAL)
  else if ent.nameLen.toInt<0 then some (-EINVAL)
  else if ent.nameLen.toInt>UBI_VOL_NAME_MAX then some (-ENAMETOOLONG)
  else none

/-- Two entries are about different volumes and different names. -/
def entsDiffer (ent₁ ent₂ : RnvolEnt) : Prop :=
  ent₁.volId≠ent₂.volId∧cStr ent₁.newName≠cStr ent₂.newName

instance (ent₁ ent₂ : RnvolEnt) : Decidable (entsDiffer ent₁ ent₂) :=
  inferInstanceAs (Decidable (_∧_))

/-- The loop of `rename_volumes` that opens the volumes. Those that keep their
names are left out. -/
def openEntries (d : Device) (st : State) (env : Env) :
    List RnvolEnt → List RenameEntry → ℕ → Except ℤ (List RenameEntry)
  | [], list, _ => .ok list
  | ent::ents, list, k =>
    if ¬env.kzalloc k then .error (-ENOMEM)
    else
      match ubiOpenVolume d st env (list.map RenameEntry.volId) ent.volId.toInt with
      | .error err => .error err
      | .ok volId =>
        if (st.volumes volId).any fun vol => vol.name=ent.newName then
          openEntries d st env ents list (k+1)
        else openEntries d st env ents (list++[⟨volId,false,ent.newName⟩]) (k+1)

/-- The loop of `rename_volumes` that finds the volumes to be removed. -/
def findRemovals (d : Device) (st : State) (env : Env) :
    List RenameEntry → List RenameEntry → ℕ → Except ℤ (List RenameEntry)
  | [], list, _ => .ok list
  | re::res, list, k =>
    if list.any fun re₁ => (st.volumes re₁.volId).any fun vol => vol.name=re.newName then
      findRemovals d st env res list k
    else
      match ubiOpenVolumeNm d st env (list.map RenameEntry.volId) re.newName with
      | .error err =>
        if err=-ENODEV then findRemovals d st env res list k else .error err
      | .ok volId =>
        if ¬env.kzalloc k then .error (-ENOMEM)
        else findRemovals d st env res (⟨volId,true,[]⟩::list) (k+1)

/-- `rename_volumes` up to the list of re-names and removals. -/
def renameList (d : Device) (st : State) (req : UbiRnvolReq) (env : Env) :
    Except ℤ (List RenameEntry) :=
  if req.count<0∨req.count>UBI_MAX_RNVOL then .error (-EINVAL)
  else
    let ents := (List.range req.count.toInt.toNat).map req.ents
    match ents.findSome? (entError d) with
    | some err => .error err
    | none =>
      if ¬ents.Pairwise entsDiffer then .error (-EINVAL)
      else
        match openEntries d st env ents [] 0 with
        | .error err => .error err
        | .ok list => findRemovals d st env list list ents.length

/-- `UBI_IOCRNVOL`. -/
def iocRnvol (d : Device) (st : State) (req : UbiRnvolReq) (env : Env) : ℤ×State :=
  match renameList d st req env with
  | .error err => (err,st)
  | .ok list =>
    if list.isEmpty then (0,st)
    else
      let held := list.map RenameEntry.volId
      let (err,st) := renameVolumes d (holdVolumes st held)
        (list.map fun re => (re,env.remove re.volId)) env.steps
      (err,closeVolumes st held)

/-- `ubi_cdev_ioctl`. -/
def ubiCdevIoctl (d : Device) (st : State) (req : Request) (env : Env) : ℤ×State :=
  if ¬env.capable then (-EPERM,st)
  else
    match req with
    | .mkvol req => if ¬env.getArg then (-EFAULT,st) else iocMkvol d st req env
    | .rmvol volId => if ¬env.getArg then (-EFAULT,st) else iocRmvol d st volId env
    | .rsvol req => if ¬env.getArg then (-EFAULT,st) else iocRsvol d st req env
    | .rnvol req =>
      if ¬env.kmalloc then (-ENOMEM,st)
      else if ¬env.getArg then (-EFAULT,st) else iocRnvol d st req env

end ArdroneKernel.UbiVolumeRequests
