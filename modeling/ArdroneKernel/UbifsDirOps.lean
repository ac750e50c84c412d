import ArdroneKernel.UbifsDirBudget

/-!
# Directory operations of UBIFS

`fs/ubifs/dir.c`: what the operations do to inodes, entries and budgets, step by step, with the
steps that can fail. What the VFS does around them (its cache of names, and the mark of removed
directories) decides which calls it allows.
-/

namespace ArdroneKernel.UbifsDir

open FiniteTable UbifsBudget UbifsXattr

/-- A directory and a name in it. -/
abbrev Place := ℕ×Name

structure Inode where
  isDir : Bool
  /-- `S_DEAD`, set by the VFS. -/
  dead : Bool
  /-- `i_nlink` -/
  nlink : ℤ
  /-- `i_size` -/
  iSize : ℤ
  /-- `ui_size` -/
  uiSize : ℤ
  dirty : Bool
  /-- `data_len` -/
  dataLen : ℕ

structure Fs where
  inodes : Table ℕ Inode
  /-- The entries in the TNC, with the inodes they name. -/
  entries : Table Place ℕ
  budg : Budget
  highestInum : ℕ
  /-- The names that the VFS has looked up. -/
  dcache : Place → Option (Option ℕ)

/-- Whether `ubifs_budget_space` finds space. -/
inductive Space where
  | granted
  /-- `-ENOSPC` -/
  | full
  | failed
  deriving DecidableEq

/-- Which steps of a call succeed, and whether an inode is synchronous. -/
structure Steps where
  space : Space
  /-- The second request of `ubifs_rename`. -/
  inoSpace : Bool
  /-- `check_dir_empty` reads the TNC. -/
  read : Bool
  /-- `ubifs_new_inode` -/
  newInode : Bool
  /-- The data of a device or a symlink are allocated. -/
  kmalloc : Bool
  /-- The journal function. -/
  journal : Bool
  /-- `IS_SYNC` of the inode that is renamed. -/
  sync : Bool
  /-- `ubifs_jnl_write_inode`, for an inode that is synchronous. -/
  written : Bool

/-- `-EIO` stands for all errors but `-ENOSPC` and those of arguments. -/
def FAILED : ℤ := -5

def ENOENT : ℤ := 2
def ENOTEMPTY : ℤ := 39

/-! ## Parts of the operations -/

namespace Fs

def modify (s : Fs) (i : ℕ) (f : Inode → Inode) : Fs :=
  {s with
    inodes := match s.inodes.get i with
      | some x => s.inodes.put i (f x)
      | none => s.inodes}

/-- `inc_nlink` and `drop_nlink`, some times. -/
def addLinks (s : Fs) (i : ℕ) (links : ℤ) : Fs :=
  s.modify i fun x => {x with nlink := x.nlink+links}

/-- `clear_nlink` -/
def clearLinks (s : Fs) (i : ℕ) : Fs := s.modify i fun x => {x with nlink := 0}

/-- `i_size` of a directory is changed, and `ui_size` set to it. -/
def addSize (s : Fs) (i : ℕ) (sz : ℤ) : Fs :=
  s.modify i fun x => {x with iSize := x.iSize+sz, uiSize := x.iSize+sz}

def isDir (s : Fs) (i : ℕ) : Bool := (s.inodes.get i).any Inode.isDir

/-- `sz_change` -/
def szChange (nm : Name) : ℤ := calcDentSize nm.length

variable (c : Info) (s : Fs)

/-- What `ubifs_release_dirty_inode_budget` releases. -/
def dirtyGrowth (dataLen : ℕ) : Budget
  | .dd => c.inodeBudget+align8 dataLen
  | _ => 0

/-- An inode is clean, and the budget of a dirty one released. -/
def markInodeClean (i : ℕ) : Fs :=
  match s.inodes.get i with
  | some x =>
    if x.dirty then
      {s with
        budg := ubifsReleaseBudget s.budg (dirtyGrowth c x.dataLen)
        inodes := s.inodes.put i {x with dirty := false}}
    else s
  | none => s

/-- `mark_inode_dirty_sync` -/
def markInodeDirty (i : ℕ) : Fs := s.modify i fun x => {x with dirty := true}

def release (req : Req) : Fs := {s with budg := ubifsReleaseBudget s.budg (growth c req)}

/-- `ubifs_jnl_update` when it succeeds. -/
def jnlUpdate (dir : ℕ) (nm : Name) (i : ℕ) (deletion : Bool) : Fs :=
  let s := {s with
    entries := if deletion then s.entries.erase (dir,nm) else s.entries.put (dir,nm) i}
  (s.markInodeClean c i).markInodeClean c dir

/-- `ubifs_jnl_rename` when it succeeds. -/
def jnlRename (old new : Place) (i : ℕ) (target : Option ℕ) : Fs :=
  let s := {s with entries := (s.entries.put new i).erase old}
  let s := match target with
    | some j => s.markInodeClean c j
    | none => s
  let s := s.markInodeClean c old.1
  if new.1≠old.1 then s.markInodeClean c new.1 else s

/-- A name that the VFS knows. -/
def know (k : Place) (v : Option ℕ) : Fs := {s with dcache := Function.update s.dcache k (some v)}

def forget (k : Place) : Fs := {s with dcache := Function.update s.dcache k none}

/-- A removed directory is marked. -/
def kill (i : ℕ) : Fs := s.modify i fun x => {x with dead := true}

end Fs

/-- `ubifs_budget_space` -/
def budgetSpace (c : Info) (s : Fs) (req : Req) (space : Space) : Except ℤ Fs :=
  match ubifsBudgetSpace c s.budg req (space=.granted) with
  | some budg => .ok {s with budg := budg}
  | none => .error (if space=.full then -ENOSPC else FAILED)

variable (c : Info)

/-- `ubifs_create`, `ubifs_mkdir`, `ubifs_mknod` and `ubifs_symlink`, by the inode that is
written and the links it gives to the directory. -/
def makeNode (s : Fs) (dir : ℕ) (nm : Name) (req : Req) (x : Inode) (links : ℤ) (o : Steps) :
    Fs×ℤ :=
  match budgetSpace c s req o.space with
  | .error err => (s,err)
  | .ok s =>
    if o.newInode=false then (s.release c req,-ENOMEM)
    else
      let i := s.highestInum+1
      let s := {s with highestInum := i}
      if o.kmalloc=false then (s.release c req,-ENOMEM)
      else
        let s := {s with inodes := s.inodes.put i x}
        let s := (s.addLinks dir links).addSize dir (Fs.szChange nm)
        if o.journal then
          (((s.jnlUpdate c dir nm i false).release c req).know (dir,nm) (some i),0)
        else
          -- out_cancel
          let s := (s.addSize dir (-Fs.szChange nm)).addLinks dir (-links)
          ({s with inodes := s.inodes.erase i}.release c req,FAILED)

def ubifsCreate (s : Fs) (dir : ℕ) (nm : Name) (o : Steps) : Fs×ℤ :=
  makeNode c s dir nm (request (.create nm.length)) ⟨false,false,1,0,0,false,0⟩ 0
    {o with kmalloc := true}

def ubifsMkdir (s : Fs) (dir : ℕ) (nm : Name) (o : Steps) : Fs×ℤ :=
  makeNode c s dir nm (request (.mkdir nm.length))
    ⟨true,false,2,UBIFS_INO_NODE_SZ,UBIFS_INO_NODE_SZ,false,0⟩ 1 {o with kmalloc := true}

/-- `ubifs_mknod`. The data of a device are allocated first. -/
def ubifsMknod (s : Fs) (dir : ℕ) (nm : Name) (device : Bool) (o : Steps) : Fs×ℤ :=
  if device=true∧o.kmalloc=false then (s,-ENOMEM)
  else
    makeNode c s dir nm (request (.mknod nm.length device))
      ⟨false,false,1,devlen device,devlen device,false,devlen device⟩ 0 {o with kmalloc := true}

def ubifsSymlink (s : Fs) (dir : ℕ) (nm : Name) (len : ℕ) (o : Steps) : Fs×ℤ :=
  if UBIFS_MAX_INO_DATA<len then (s,-ENAMETOOLONG)
  else
    makeNode c s dir nm (request (.symlink nm.length len)) ⟨false,false,1,len,len,false,len⟩ 0 o

def ubifsLink (s : Fs) (i dir : ℕ) (nm : Name) (o : Steps) : Fs×ℤ :=
  match s.inodes.get i with
  | none => (s,-ENOENT)
  | some x =>
    let req := request (.link nm.length x.dataLen x.nlink.toNat)
    if x.nlink=0 then (s,-ENOENT)
    else
      match budgetSpace c s req o.space with
      | .error err => (s,err)
      | .ok s =>
        let s := (s.addLinks i 1).addSize dir (Fs.szChange nm)
        if o.journal then
          (((s.jnlUpdate c dir nm i false).release c req).know (dir,nm) (some i),0)
        else
          let s := (s.addSize dir (-Fs.szChange nm)).addLinks i (-1)
          (s.release c req,FAILED)

/-- `ubifs_unlink` and `ubifs_rmdir`, by how they change link counts, and change them back. If
there is no space they go ahead without a budget. -/
def removeEntry (s : Fs) (dir : ℕ) (nm : Name) (i : ℕ) (req : Req) (drop undo : Fs → Fs)
    (o : Steps) : Fs×ℤ :=
  match budgetSpace c s req o.space with
  | .error err =>
    if err≠-ENOSPC then (s,err)
    else
      let s := (drop s).addSize dir (-Fs.szChange nm)
      if o.journal then (s.jnlUpdate c dir nm i true,0)
      else (undo (s.addSize dir (Fs.szChange nm)),FAILED)
  | .ok s =>
    let s := (drop s).addSize dir (-Fs.szChange nm)
    if o.journal then ((s.jnlUpdate c dir nm i true).release c req,0)
    else ((undo (s.addSize dir (Fs.szChange nm))).release c req,FAILED)

def ubifsUnlink (s : Fs) (dir : ℕ) (nm : Name) (i : ℕ) (o : Steps) : Fs×ℤ :=
  removeEntry c s dir nm i (request (.unlink nm.length 0 0)) (Fs.addLinks · i (-1))
    (Fs.addLinks · i 1) o

/-- Whether a directory has no entries. -/
def emptyDir (s : Fs) (i : ℕ) : Prop := ∀ k∈s.entries.keys,k.1≠i

instance (s : Fs) (i : ℕ) : Decidable (emptyDir s i) :=
  inferInstanceAs (Decidable (∀ k∈s.entries.keys,k.1≠i))

/-- `check_dir_empty` -/
def checkDirEmpty (s : Fs) (i : ℕ) (o : Steps) : ℤ :=
  if o.read=false then FAILED else if emptyDir s i then 0 else -ENOTEMPTY

def ubifsRmdir (s : Fs) (dir : ℕ) (nm : Name) (i : ℕ) (o : Steps) : Fs×ℤ :=
  let err := checkDirEmpty s i o
  if err≠0 then (s,err)
  else
    removeEntry c s dir nm i (request (.rmdir nm.length 0))
      (fun s => (s.clearLinks i).addLinks dir (-1))
      (fun s => ((s.addLinks dir 1).addLinks i 1).addLinks i 1) o

/-! ## Renaming -/

/-- Link counts and sizes before `ubifs_jnl_rename`. -/
def renameAdjust (s : Fs) (old new : Place) (target : Option ℕ) (isDir : Bool) : Fs :=
  let move : Bool := new.1≠old.1
  let s :=
    if isDir then
      if move then
        let s := s.addLinks old.1 (-1)
        if target.isNone then s.addLinks new.1 1 else s
      else if target.isSome then s.addLinks old.1 (-1) else s
    else s
  let s := s.addSize old.1 (-Fs.szChange old.2)
  match target with
  | some j => (if isDir then s.addLinks j (-1) else s).addLinks j (-1)
  | none => s.addSize new.1 (Fs.szChange new.2)

/-- `out_cancel` of `ubifs_rename` -/
def renameCancel (s : Fs) (old new : Place) (target : Option ℕ) (isDir : Bool) : Fs :=
  let move : Bool := new.1≠old.1
  let s := match target with
    | some j => (if isDir then s.addLinks j 1 else s).addLinks j 1
    | none => s.addSize new.1 (-Fs.szChange new.2)
  let s := s.addSize old.1 (Fs.szChange old.2)
  if isDir then
    if move then
      let s := s.addLinks old.1 1
      if target.isNone then s.addLinks new.1 (-1) else s
    else if target.isSome then s.addLinks old.1 1 else s
  else s

/-- The inode that was renamed becomes dirty, and is written if it is synchronous. -/
def renameDirty (s : Fs) (i : ℕ) (inoReq : Req) (o : Steps) : Fs×ℤ :=
  let release := (s.inodes.get i).any Inode.dirty
  let s := s.markInodeDirty i
  let s := if release then s.release c inoReq else s
  if o.sync then (s.markInodeClean c i,if o.written then 0 else FAILED) else (s,0)

/-- A directory is replaced only if it is empty. -/
def checkTarget (s : Fs) (target : Option ℕ) (isDir : Bool) (o : Steps) : ℤ :=
  match target with
  | some j => if isDir then checkDirEmpty s j o else 0
  | none => 0

/-- `ubifs_rename`. The data of the inode are needed for its budget. -/
def ubifsRename (s : Fs) (old new : Place) (i : ℕ) (target : Option ℕ) (o : Steps) : Fs×ℤ :=
  let isDir := s.isDir i
  let dataLen := ((s.inodes.get i).map Inode.dataLen).getD 0
  let req := request (.rename old.2.length new.2.length dataLen none isDir false)
  let inoReq : Req := {dirtiedIno := 1, dirtiedInoD := bits 15 (align8 dataLen)}
  let err := checkTarget s target isDir o
  if err≠0 then (s,err)
  else
    match budgetSpace c s req o.space with
    | .error err => (s,err)
    | .ok s =>
      match budgetSpace c s inoReq (if o.inoSpace then .granted else .full) with
      | .error err => (s.release c req,err)
      | .ok s =>
        let s := renameAdjust s old new target isDir
        if o.journal then
          renameDirty c ((s.jnlRename c old new i target).release c req) i inoReq o
        else
          let s := renameCancel s old new target isDir
          ((s.release c inoReq).release c req,FAILED)

end ArdroneKernel.UbifsDir
