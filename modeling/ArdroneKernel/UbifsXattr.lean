import ArdroneKernel.FiniteTable

/-!
# Extended attributes of UBIFS

`fs/ubifs/xattr.c`: each extended attribute is an entry that names an inode with the value as
its data, and the host inode counts its entries, their names and their sizes.
-/

namespace ArdroneKernel.UbifsXattr

open FiniteTable

/-- A name, a byte each. -/
abbrev Name := List Char

abbrev Data := List ℕ

def MAX_XATTRS_PER_INODE : ℕ := 65535

def XATTR_LIST_MAX : ℕ := 65536

def UBIFS_MAX_NLEN : ℕ := 255

def UBIFS_MAX_INO_DATA : ℕ := 4096

def UBIFS_DENT_NODE_SZ : ℕ := 56

def UBIFS_INO_NODE_SZ : ℕ := 160

def ENOMEM : ℤ := 12
def EEXIST : ℤ := 17
def EINVAL : ℤ := 22
def ENOSPC : ℤ := 28
def ERANGE : ℤ := 34
def ENAMETOOLONG : ℤ := 36
def ENODATA : ℤ := 61
def EOPNOTSUPP : ℤ := 95

/-- `ALIGN` -/
def align8 (n : ℕ) : ℕ := (n+7)/8*8

/-- `CALC_DENT_SIZE` -/
def calcDentSize (nameLen : ℕ) : ℕ := align8 (UBIFS_DENT_NODE_SZ+nameLen+1)

/-- `CALC_XATTR_BYTES` -/
def calcXattrBytes (dataLen : ℕ) : ℕ := align8 (UBIFS_INO_NODE_SZ+dataLen+1)

/-- The inode of an extended attribute in memory. -/
structure XInode where
  /-- `none` for `NULL`. -/
  data : Option Data
  dataLen : ℕ

/-- An extended attribute entry, by the inode it names. -/
structure Xattr where
  /-- The data in the node of the inode, if the TNC finds one. -/
  node : Option Data
  /-- The inode, if it is in memory. -/
  inode : Option XInode

/-- A host inode with its extended attribute entries in the TNC. -/
structure Host where
  xattrCnt : BitVec 32
  xattrSize : BitVec 32
  xattrNames : BitVec 32
  xents : Table Name Xattr

/-- No extended attributes. -/
def Host.new : Host := ⟨0,0,0,Table.empty⟩

/-! ## Outcomes -/

/-- What a journal function does. -/
inductive Journal where
  | done
  /-- It fails after some updates of the TNC, of which it has three at most. -/
  | failed (updates : ℕ)
  deriving DecidableEq

/-- Which steps of a call succeed. -/
structure Outcome where
  /-- The buffer for an entry is allocated, and the look-up reads the flash. -/
  lookup : Bool
  /-- `ubifs_iget` -/
  iget : Bool
  /-- `ubifs_budget_space` -/
  budget : Bool
  /-- `ubifs_new_inode` -/
  newInode : Bool
  /-- The value is allocated. Nothing is allocated for an empty value. -/
  kmalloc : Bool
  journal : Journal

/-! ## Names -/

def XATTR_TRUSTED_PREFIX : Name := "trusted.".toList

def XATTR_USER_PREFIX : Name := "user.".toList

def XATTR_SECURITY_PREFIX : Name := "security.".toList

inductive Namespace where
  | user
  | trusted
  | security
  deriving DecidableEq

/-- A name in a name-space, that is not its prefix alone. -/
def inNamespace (start : Name) (type : Namespace) (nm : Name) : Except ℤ Namespace :=
  if nm.length=start.length then .error (-EINVAL) else .ok type

def checkNamespace (nm : Name) : Except ℤ Namespace :=
  if UBIFS_MAX_NLEN<nm.length then .error (-ENAMETOOLONG)
  else if XATTR_TRUSTED_PREFIX.isPrefixOf nm then
    inNamespace XATTR_TRUSTED_PREFIX .trusted nm
  else if XATTR_USER_PREFIX.isPrefixOf nm then inNamespace XATTR_USER_PREFIX .user nm
  else if XATTR_SECURITY_PREFIX.isPrefixOf nm then
    inNamespace XATTR_SECURITY_PREFIX .security nm
  else .error (-EOPNOTSUPP)

/-! ## Setting -/

/-- The new entry and its inode, as far as `ubifs_jnl_update` got. -/
def addedEntry (xents : Table Name Xattr) (nm : Name) (value : Data) : ℕ → Table Name Xattr
  | 0 => xents
  | 1 => xents.put nm ⟨none,none⟩
  | _ => xents.put nm ⟨some value,none⟩

/-- `create_xattr` -/
def createXattr (h : Host) (nm : Name) (value : Data) (o : Outcome) : Host×ℤ :=
  if MAX_XATTRS_PER_INODE≤h.xattrCnt.toNat then (h,-ENOSPC)
  else if XATTR_LIST_MAX<(h.xattrNames+h.xattrCnt+BitVec.ofNat 32 nm.length+1).toNat then
    (h,-ENOSPC)
  else if o.budget=false then (h,-ENOSPC)
  else if o.newInode=false then (h,-ENOMEM)
  else if o.kmalloc=false∧value≠[] then (h,-ENOMEM)
  else
    let dent := BitVec.ofNat 32 (calcDentSize nm.length)
    let bytes := BitVec.ofNat 32 (calcXattrBytes value.length)
    let h := {h with
      xattrCnt := h.xattrCnt+1
      xattrSize := h.xattrSize+dent+bytes
      xattrNames := h.xattrNames+BitVec.ofNat 32 nm.length}
    match o.journal with
    | .done => ({h with xents := h.xents.put nm ⟨some value,some ⟨some value,value.length⟩⟩},0)
    | .failed updates =>
      -- out_cancel
      ({h with
        xattrCnt := h.xattrCnt-1
        xattrSize := h.xattrSize-dent-bytes
        xents := addedEntry h.xents nm value updates},-ENOSPC)

/-- `iget_xattr`: the inode in memory, or read from its node. -/
def igetXattr (x : Xattr) (ok : Bool) : Option XInode :=
  match x.inode with
  | some ui => some ui
  | none => if ok then x.node.map fun v => ⟨some v,v.length⟩ else none

/-- `change_xattr`, for an entry whose inode is in memory. -/
def changeXattr (h : Host) (nm : Name) (x : Xattr) (ui : XInode) (value : Data) (o : Outcome) :
    Host×ℤ :=
  if o.budget=false then ({h with xents := h.xents.put nm {x with inode := some ui}},-ENOSPC)
  else if o.kmalloc=false∧value≠[] then
    -- The old value is freed already.
    ({h with xents := h.xents.put nm {x with inode := some {ui with data := none}}},-ENOMEM)
  else
    let ui : XInode := ⟨some value,value.length⟩
    let old := BitVec.ofNat 32 (calcXattrBytes ui.dataLen)
    let new := BitVec.ofNat 32 (calcXattrBytes value.length)
    let h := {h with xattrSize := h.xattrSize-old+new}
    match o.journal with
    | .done => ({h with xents := h.xents.put nm ⟨some value,some ui⟩},0)
    | .failed _ =>
      -- out_cancel. The inode, whose node is added last, becomes bad and leaves the memory.
      ({h with
        xattrSize := h.xattrSize-new+old
        xents := h.xents.put nm {x with inode := none}},-ENOSPC)

/-- The flags of `ubifs_setxattr`. -/
structure Flags where
  create : Bool
  replace : Bool

def setxattr (h : Host) (nm : Name) (value : Data) (flags : Flags) (o : Outcome) : Host×ℤ :=
  if UBIFS_MAX_INO_DATA<value.length then (h,-ERANGE)
  else
    match checkNamespace nm with
    | .error err => (h,err)
    | .ok _ =>
      if o.lookup=false then (h,-ENOMEM)
      else
        match h.xents.get nm with
        | none => if flags.replace then (h,-ENODATA) else createXattr h nm value o
        | some x =>
          if flags.create then (h,-EEXIST)
          else
            match igetXattr x o.iget with
            | none => (h,-ENOMEM)
            | some ui => changeXattr h nm x ui value o

/-! ## Removing -/

/-- `remove_xattr`, for an entry whose inode is in memory. -/
def removeXattr (h : Host) (nm : Name) (x : Xattr) (ui : XInode) (o : Outcome) : Host×ℤ :=
  if o.budget=false then ({h with xents := h.xents.put nm {x with inode := some ui}},-ENOSPC)
  else
    let dent := BitVec.ofNat 32 (calcDentSize nm.length)
    let bytes := BitVec.ofNat 32 (calcXattrBytes ui.dataLen)
    let h := {h with
      xattrCnt := h.xattrCnt-1
      xattrSize := h.xattrSize-dent-bytes
      xattrNames := h.xattrNames-BitVec.ofNat 32 nm.length}
    match o.journal with
    | .done => ({h with xents := h.xents.erase nm},0)
    | .failed updates =>
      -- out_cancel
      ({h with
        xattrCnt := h.xattrCnt+1
        xattrSize := h.xattrSize+dent+bytes
        xents :=
          if updates=0 then h.xents.put nm {x with inode := none} else h.xents.erase nm},
        -ENOSPC)

def removexattr (h : Host) (nm : Name) (o : Outcome) : Host×ℤ :=
  match checkNamespace nm with
  | .error err => (h,err)
  | .ok _ =>
    if o.lookup=false then (h,-ENOMEM)
    else
      match h.xents.get nm with
      | none => (h,-ENODATA)
      | some x =>
        match igetXattr x o.iget with
        | none => (h,-ENOMEM)
        | some ui => removeXattr h nm x ui o

/-! ## Reading -/

/-- What `ubifs_getxattr` does. -/
inductive Got where
  | error (err : ℤ)
  /-- The length, and what is stored in the buffer, if there is one. -/
  | ok (len : ℕ) (stored : Option Data)
  /-- A copy from the address `NULL`. -/
  | oops
  deriving DecidableEq

/-- `ubifs_getxattr`, with the size of the buffer if there is one. -/
def getxattr (h : Host) (nm : Name) (size : Option ℕ) (o : Outcome) : Got :=
  match checkNamespace nm with
  | .error err => .error err
  | .ok _ =>
    if o.lookup=false then .error (-ENOMEM)
    else
      match h.xents.get nm with
      | none => .error (-ENODATA)
      | some x =>
        match igetXattr x o.iget with
        | none => .error (-ENOMEM)
        | some ui =>
          match size with
          | none => .ok ui.dataLen none
          | some size =>
            if size<ui.dataLen then .error (-ERANGE)
            else
              match ui.data with
              | none => if ui.dataLen=0 then .ok 0 (some []) else .oops
              | some data => .ok ui.dataLen (some (data.take ui.dataLen))

/-- The loop of `ubifs_listxattr`, over the entries that `ubifs_tnc_next_ent` returns until it
fails, if it does. What was written before an error stays in the buffer. -/
def listLoop (capable : Bool) : List Name → Option ℕ → Name → Name×ℤ
  | _, some 0, written => (written,-ENOMEM)
  | [], _, written => (written,written.length)
  | nm::names, stop, written =>
    match checkNamespace nm with
    | .error err => (written,err)
    | .ok type =>
      listLoop capable names (stop.map (·-1))
        (if type≠.trusted∨capable=true then written++nm++['\x00'] else written)

/-- `ubifs_listxattr`, with the size of the buffer if there is one: what is written to it, and
what is returned. -/
def listxattr (h : Host) (names : List Name) (size : Option ℕ) (capable : Bool)
    (stop : Option ℕ) : Name×ℤ :=
  let len := h.xattrNames+h.xattrCnt
  match size with
  | none => ([],len.toInt)
  | some size => if size<len.toNat then ([],-ERANGE) else listLoop capable names stop []

end ArdroneKernel.UbifsXattr
