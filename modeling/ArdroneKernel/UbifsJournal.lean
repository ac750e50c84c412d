import ArdroneKernel.UbifsWbuf

/-!
# Journal operations of UBIFS

What the operations of `fs/ubifs/journal.c` write to a journal head, which inode
numbers they add to its write-buffer, and `ubifs_sync_wbufs_by_inode`.
-/

namespace ArdroneKernel.UbifsJournal

open UbifsWbuf

/-- `UBIFS_INO_NODE_SZ` -/
def INO_NODE_SZ : ℕ := 160

/-- `UBIFS_DENT_NODE_SZ`, and of extended attribute entries -/
def DENT_NODE_SZ : ℕ := 56

/-- `UBIFS_DATA_NODE_SZ` -/
def DATA_NODE_SZ : ℕ := 48

/-- `UBIFS_TRUN_NODE_SZ` -/
def TRUN_NODE_SZ : ℕ := 56

/-- Journal heads. -/
inductive Jhead where
  /-- `GCHD` -/
  | gc
  /-- `BASEHD` -/
  | base
  /-- `DATAHD` -/
  | data
  deriving DecidableEq

/-- What the operations use of an inode. -/
structure Inode where
  ino : ℕ
  nlink : ℕ
  dataLen : ℕ
  /-- `IS_SYNC` -/
  sync : Bool
  /-- `IS_DIRSYNC` -/
  dirsync : Bool

/-- What is written to a journal head, and what is done with the write-buffer then. -/
structure Request where
  head : Jhead
  len : ℕ
  /-- What `write_head` gets. -/
  sync : Bool
  /-- The inode numbers that are added when it is written. -/
  inos : List ℕ

/-- `ubifs_jnl_update` -/
def jnlUpdate (dir inode : Inode) (nameLen : ℕ) (deletion : Bool) : Request :=
  let lastReference := deletion&&inode.nlink==0
  let dlen := DENT_NODE_SZ+nameLen+1
  let ilen := if lastReference then INO_NODE_SZ else INO_NODE_SZ+inode.dataLen
  let sync := dir.dirsync||(!lastReference&&inode.sync)
  ⟨.base,align dlen 8+align ilen 8+INO_NODE_SZ,sync,if sync then [] else [inode.ino,dir.ino]⟩

/-- `ubifs_jnl_write_data` -/
def jnlWriteData (inum outLen : ℕ) : Request := ⟨.data,DATA_NODE_SZ+outLen,false,[inum]⟩

/-- `ubifs_jnl_write_inode` -/
def jnlWriteInode (inode : Inode) : Request :=
  let lastReference := inode.nlink==0
  let sync := !lastReference&&inode.sync
  let len := if lastReference then INO_NODE_SZ else INO_NODE_SZ+inode.dataLen
  ⟨.base,len,sync,if sync then [] else [inode.ino]⟩

/-- `ubifs_jnl_rename` -/
def jnlRename (oldDir newDir : Inode) (newInode : Option Inode) (oldNameLen newNameLen : ℕ)
    (sync : Bool) : Request :=
  let dlen₁ := DENT_NODE_SZ+newNameLen+1
  let dlen₂ := DENT_NODE_SZ+oldNameLen+1
  let ilen := match newInode with
    | some inode => if inode.nlink=0 then INO_NODE_SZ else INO_NODE_SZ+inode.dataLen
    | none => 0
  let len := align dlen₁ 8+align dlen₂ 8+align ilen 8+align INO_NODE_SZ 8
  let len := if oldDir.ino≠newDir.ino then len+INO_NODE_SZ else len
  let inos := match newInode with
    | some inode => [newDir.ino,oldDir.ino,inode.ino]
    | none => [newDir.ino,oldDir.ino]
  ⟨.base,len,sync,if sync then [] else inos⟩

/-- What `ubifs_rename` of `fs/ubifs/dir.c` passes to it as `sync`. -/
def renameSync (oldInode oldDir newDir : Inode) (newInode : Option Inode) : Bool :=
  if oldInode.sync then
    oldDir.dirsync||newDir.dirsync||match newInode with
      | some inode => inode.sync
      | none => false
  else false

/-- `ubifs_jnl_truncate`, with the length of the data node it writes, or zero. -/
def jnlTruncate (inode : Inode) (dlen : ℕ) : Request :=
  ⟨.base,TRUN_NODE_SZ+INO_NODE_SZ+dlen,inode.sync,if inode.sync then [] else [inode.ino]⟩

/-- `ubifs_jnl_delete_xattr` -/
def jnlDeleteXattr (host : Inode) (nameLen : ℕ) : Request :=
  let hlen := host.dataLen+INO_NODE_SZ
  ⟨.base,align (DENT_NODE_SZ+nameLen+1) 8+INO_NODE_SZ+align hlen 8,host.dirsync,
    if host.dirsync then [] else [host.ino]⟩

/-- `ubifs_jnl_change_xattr` -/
def jnlChangeXattr (inode host : Inode) : Request :=
  ⟨.base,align (INO_NODE_SZ+host.dataLen) 8+align (INO_NODE_SZ+inode.dataLen) 8,false,
    if host.dirsync then [] else [host.ino,inode.ino]⟩

/-- The operations, with what they are called with. -/
inductive Op where
  | update (dir inode : Inode) (nameLen : ℕ) (deletion : Bool)
  | writeData (inum outLen : ℕ)
  | writeInode (inode : Inode)
  | rename (oldInode oldDir newDir : Inode) (newInode : Option Inode) (oldNameLen newNameLen : ℕ)
  | truncate (inode : Inode) (dlen : ℕ)
  | deleteXattr (host inode : Inode) (nameLen : ℕ)
  | changeXattr (inode host : Inode)

/-- What an operation writes. -/
def Op.request : Op → Request
  | .update dir inode nameLen deletion => jnlUpdate dir inode nameLen deletion
  | .writeData inum outLen => jnlWriteData inum outLen
  | .writeInode inode => jnlWriteInode inode
  | .rename oldInode oldDir newDir newInode oldNameLen newNameLen =>
    jnlRename oldDir newDir newInode oldNameLen newNameLen
      (renameSync oldInode oldDir newDir newInode)
  | .truncate inode dlen => jnlTruncate inode dlen
  | .deleteXattr host _ nameLen => jnlDeleteXattr host nameLen
  | .changeXattr inode host => jnlChangeXattr inode host

/-- The inodes that the nodes of an operation are written for: those it writes, and the
parent or host of what it writes. -/
def Op.owners : Op → List ℕ
  | .update dir inode _ _ => [inode.ino,dir.ino]
  | .writeData inum _ => [inum]
  | .writeInode inode => [inode.ino]
  | .rename _ oldDir newDir newInode _ _ => match newInode with
    | some inode => [newDir.ino,oldDir.ino,inode.ino]
    | none => [newDir.ino,oldDir.ino]
  | .truncate inode _ => [inode.ino]
  | .deleteXattr host inode _ => [host.ino,inode.ino]
  | .changeXattr inode host => [host.ino,inode.ino]

/-- The operation is one on a synchronous directory or host. -/
def Op.synchronous : Op → Bool
  | .update dir _ _ _ => dir.dirsync
  | .rename _ oldDir newDir _ _ _ => oldDir.dirsync||newDir.dirsync
  | .deleteXattr host _ _ => host.dirsync
  | .changeXattr _ host => host.dirsync
  | _ => false

/-- The inode of an attribute that an operation deletes. -/
def Op.removed : Op → List ℕ
  | .deleteXattr _ inode _ => [inode.ino]
  | _ => []

/-! ## Steps -/

variable {β : Type}

/-- The nodes that an operation has written. -/
structure Group (β : Type) where
  op : Op
  lnum : ℕ
  offs : ℕ
  bytes : List β

/-- The journal, with the nodes of all operations that returned zero. -/
structure State (β : Type) where
  flash : List (Written β)
  wbufs : Jhead → Wbuf β
  roError : Bool
  groups : List (Group β)

/-- The write-buffer of a head. -/
def State.disk (s : State β) (head : Jhead) : Disk β := ⟨s.flash,s.wbufs head⟩

/-- The journal with the write-buffer of a head changed. -/
def State.setDisk (s : State β) (head : Jhead) (d : Disk β) : State β :=
  {s with flash := d.flash, wbufs := Function.update s.wbufs head d.w}

variable (c : Info) (pad : β)

/-- `reserve_space`. Free space is given, if there is some. The first write to flash of
an operation is the one of a seek. -/
def reserveSpace (s : State β) (head : Jhead) (len : ℕ) (space : Option (ℕ×ℕ)) (ok : Bool) :
    Bool×Disk β :=
  let d := s.disk head
  if s.roError then (false,d)
  else if d.w.lnum≠none∧len≤c.lebSize-d.w.offs-d.w.used then (true,d)
  else
    match space with
    | none => (false,d)
    | some (lnum,offs) => ubifsWbufSeek c pad s.roError ok d lnum offs

/-- `write_head` -/
def writeHead (roError : Bool) (ok : ℕ → Bool) (d : Disk β) (buf : List β) (sync : Bool) :
    Bool×Disk β :=
  match ubifsWbufWrite c ok d buf with
  | (false,d) => (false,d)
  | (true,d) => if sync then ubifsWbufSync c pad roError (ok 2) d else (true,d)

/-- The bytes of an operation's nodes, with their padding. -/
def Op.bytes (op : Op) (content : ℕ → β) : List β :=
  (List.range (align op.request.len 8)).map content

/-- An operation of the journal, until its head is released. -/
def jnl (s : State β) (op : Op) (content : ℕ → β) (space : Option (ℕ×ℕ)) (seekOk : Bool)
    (ok : ℕ → Bool) : State β :=
  let r := op.request
  match reserveSpace c pad s r.head r.len space seekOk with
  | (false,d) => s.setDisk r.head d
  | (true,d) =>
    match writeHead c pad s.roError ok d (op.bytes content) r.sync with
    | (false,d) => {s.setDisk r.head d with roError := true}
    | (true,d') =>
      let w := r.inos.foldl ubifsWbufAddIno d'.w
      {s.setDisk r.head ⟨d'.flash,w⟩ with
        groups := ⟨op,d.w.lnum.getD 0,d.w.offs+d.w.used,op.bytes content⟩::s.groups }

/-- One turn of the loop of `ubifs_sync_wbufs_by_inode`. -/
def syncHead (s : State β) (head : Jhead) (ok : Bool) : Bool×State β :=
  match ubifsWbufSync c pad s.roError ok (s.disk head) with
  | (true,d) => (true,s.setDisk head d)
  | (false,d) => (false,{s.setDisk head d with roError := true})

/-- `ubifs_sync_wbufs_by_inode`, over the given heads. -/
def syncWbufs (inum : ℕ) (ok : Jhead → Bool) : List Jhead → State β → Bool×State β
  | [], s => (true,s)
  | head::heads, s =>
    if head=.gc then syncWbufs inum ok heads s
    else if wbufHasIno (s.wbufs head) inum then
      match syncHead c pad s head (ok head) with
      | (true,s) => syncWbufs inum ok heads s
      | (false,s) => (false,s)
    else syncWbufs inum ok heads s

/-- `ubifs_sync_wbufs_by_inode` -/
def ubifsSyncWbufsByInode (s : State β) (inum : ℕ) (ok : Jhead → Bool) : Bool×State β :=
  syncWbufs c pad inum ok [.gc,.base,.data] s

/-- What happens. -/
inductive Event (β : Type) where
  | jnl (op : Op) (content : ℕ → β) (space : Option (ℕ×ℕ)) (seekOk : Bool) (ok : ℕ → Bool)
  /-- A timer, or a commit. -/
  | sync (head : Jhead) (ok : Bool)
  | fsync (inum : ℕ) (ok : Jhead → Bool)

/-- One event. -/
def step (s : State β) : Event β → Option (State β)
  | .jnl op content space seekOk ok => some (jnl c pad s op content space seekOk ok)
  | .sync head ok => some (syncHead c pad s head ok).2
  | .fsync inum ok => some (ubifsSyncWbufsByInode c pad s inum ok).2

/-- A journal that was just mounted. -/
def start : State β where
  flash := []
  wbufs _ := ubifsWbufInit c
  roError := false
  groups := []

end ArdroneKernel.UbifsJournal
