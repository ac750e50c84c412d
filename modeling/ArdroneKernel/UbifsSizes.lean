import ArdroneKernel.LittleEndian

/-!
# Inode sizes after an unclean reboot

`replay_bud` and `apply_replay_entry` of `fs/ubifs/replay.c` as far as sizes of
inodes go, and `ubifs_recover_size_accum`, `fix_size_in_place` and
`ubifs_recover_size` of `fs/ubifs/recovery.c`. The index is which inode has an
inode node where and which blocks have data nodes.
-/

namespace ArdroneKernel.UbifsSizes

open LittleEndian

/-- `UBIFS_BLOCK_SIZE` -/
def BLOCK_SIZE : ℕ := 4096

/-- `UBIFS_INO_NODE_SZ` -/
def INO_NODE_SZ : ℕ := 160

/-- `key_max_inode_size`, which is `max_inode_sz`. -/
def maxInodeSz : ℕ := 2^29*BLOCK_SIZE

/-- What `struct ubifs_info` tells. -/
structure Info where
  /-- `leb_size`. -/
  lebSize : ℕ
  /-- `min_io_size`. -/
  minIoSize : ℕ
  /-- `crc32`, from `UBIFS_CRC32_INIT`. -/
  crc32 : List UInt8 → ℕ

/-- Where a node is on flash. -/
structure Place where
  lnum : ℕ
  offs : ℕ
  deriving DecidableEq

/-- `struct size_entry`. -/
structure Entry where
  inum : ℕ
  /-- `i_size`. -/
  iSize : ℕ
  /-- `d_size`. -/
  dSize : ℕ
  /-- `exists`. -/
  existing : Bool
  /-- `inode`: the size of the inode that is pinned in memory. -/
  inode : Option ℕ
  deriving DecidableEq

/-- The file system while it is mounted. -/
structure State where
  /-- Inode nodes in the index. -/
  ino : ℕ → Option Place
  /-- Data nodes in the index. -/
  data : ℕ → ℕ → Bool
  /-- What reading a LEB gives. -/
  flash : ℕ → List UInt8
  /-- `size_tree`, in the order of its inode numbers. -/
  tree : List Entry

/-- `size` of the inode node at a place. -/
def sizeAt (flash : ℕ → List UInt8) (p : Place) : ℕ := field (flash p.lnum) (p.offs+48) 8

/-! ## The size tree -/

/-- `find_ino` -/
def findIno (tree : List Entry) (inum : ℕ) : Option Entry := tree.find? fun e => e.inum=inum

/-- The place where `add_ino` links an entry. -/
def insertEntry (e : Entry) : List Entry → List Entry
  | [] => [e]
  | x::tree => if e.inum<x.inum then e::x::tree else x::insertEntry e tree

/-- `add_ino` -/
def addIno (tree : List Entry) (inum iSize dSize : ℕ) (existing : Bool) : List Entry :=
  insertEntry ⟨inum,iSize,dSize,existing,none⟩ tree

/-- `remove_ino` -/
def removeIno (tree : List Entry) (inum : ℕ) : List Entry := tree.eraseP fun e => e.inum=inum

/-- The entry of an inode changes. -/
def modifyIno (tree : List Entry) (inum : ℕ) (f : Entry → Entry) : List Entry :=
  tree.map fun e => if e.inum=inum then f e else e

/-- `ubifs_recover_size_accum` with an inode key. -/
def accumIno (tree : List Entry) (inum : ℕ) (deletion : Bool) (newSize : ℕ) : List Entry :=
  if deletion then removeIno tree inum
  else
    match findIno tree inum with
    | some _ => modifyIno tree inum fun e => {e with iSize := newSize,existing := true}
    | none => addIno tree inum newSize 0 true

/-- `ubifs_recover_size_accum` with a data key. -/
def accumData (tree : List Entry) (inum newSize : ℕ) : List Entry :=
  match findIno tree inum with
  | some _ => modifyIno tree inum fun e => if e.dSize<newSize then {e with dSize := newSize} else e
  | none => addIno tree inum 0 newSize false

/-- `ubifs_recover_size_accum` with a truncation key. -/
def accumTrun (tree : List Entry) (inum newSize : ℕ) : List Entry :=
  modifyIno tree inum fun e => {e with dSize := newSize}

/-! ## Replay -/

/-- A journal node. -/
inductive Node where
  /-- An inode node: a deletion if it has no links. -/
  | ino (inum nlink : ℕ) (place : Place)
  /-- A data node of a block, with its length. -/
  | data (inum block len : ℕ)
  /-- A truncation node. -/
  | trun (inum oldSize newSize : ℕ)

/-- `new_size` of a data node in `replay_bud`, in 32-bit arithmetic. -/
def dataNewSize (block len : ℕ) : ℕ := (len+block*BLOCK_SIZE)%2^32

/-- `ubifs_tnc_remove_ino` -/
def ubifsTncRemoveIno (s : State) (inum : ℕ) : State :=
  {s with ino := Function.update s.ino inum none,
          data := Function.update s.data inum fun _ => false}

/-- The second word of a data key. -/
def dataKey (block : ℕ) : ℕ := block|||2^29

/-- `trun_remove_range` -/
def trunRemoveRange (s : State) (inum oldSize newSize : ℕ) : State :=
  let minBlk := newSize/BLOCK_SIZE+if newSize%BLOCK_SIZE=0 then 0 else 1
  let maxBlk := oldSize/BLOCK_SIZE-if oldSize%BLOCK_SIZE=0 then 1 else 0
  {s with data := Function.update s.data inum fun block =>
    s.data inum block && !decide (dataKey minBlk≤dataKey block∧dataKey block≤dataKey maxBlk)}

/-- `apply_replay_entry` with `need_recovery` set. -/
def applyReplayEntry (s : State) : Node → State
  | .ino inum nlink place =>
    if nlink=0 then
      {ubifsTncRemoveIno s inum with tree := accumIno s.tree inum true (sizeAt s.flash place)}
    else
      {s with ino := Function.update s.ino inum (some place),
              tree := accumIno s.tree inum false (sizeAt s.flash place)}
  | .data inum block len =>
    {s with data := Function.update s.data inum (Function.update (s.data inum) block true),
            tree := accumData s.tree inum (dataNewSize block len)}
  | .trun inum oldSize newSize =>
    {trunRemoveRange s inum oldSize newSize with tree := accumTrun s.tree inum newSize}

/-- The nodes of the journal are applied in order. -/
def replay (s : State) (nodes : List Node) : State := nodes.foldl applyReplayEntry s

/-! ## Recovery -/

/-- The last byte up to an index that is not 0xFF. -/
def lastUsed (leb : List UInt8) : ℕ → Option ℕ
  | 0 => if leb.getD 0 0=0xff then none else some 0
  | n+1 => if leb.getD (n+1) 0=0xff then lastUsed leb n else some (n+1)

/-- `ALIGN` -/
def align (x a : ℕ) : ℕ := (x+a-1)/a*a

/-- The buffer of `fix_size_in_place` with the size and the checksum changed. -/
def fixedLeb (c : Info) (leb : List UInt8) (offs size : ℕ) : List UInt8 :=
  let leb := patch leb (offs+48) (leBytes 8 size)
  let len := field leb (offs+16) 4
  patch leb (offs+4) (leBytes 4 (c.crc32 ((leb.drop (offs+8)).take (len-8))))

/-- `ubi_leb_change`: what is not written reads as 0xFF. -/
def lebChange (c : Info) (leb : List UInt8) (len : ℕ) : List UInt8 :=
  leb.take len++List.replicate (c.lebSize-len) 0xff

/-- `fix_size_in_place`, none being a failure. -/
def fixSizeInPlace (c : Info) (s : State) (e : Entry) : Option State :=
  match s.ino e.inum with
  | none => none
  | some p =>
    if e.dSize≤ sizeAt s.flash p then some s
    else
      let leb := fixedLeb c (s.flash p.lnum) p.offs e.dSize
      (lastUsed leb (c.lebSize-1)).map fun last =>
        let written := lebChange c leb (align (last+1) c.minIoSize)
        {s with flash := Function.update s.flash p.lnum written}

/-- The first half of a turn of `ubifs_recover_size`: whether the inode exists. -/
def checkExists (s : State) (e : Entry) : State×Entry :=
  if e.existing then (s,e)
  else
    match s.ino e.inum with
    | none => (ubifsTncRemoveIno s e.inum,e)
    | some p => (s,{e with existing := true,iSize := sizeAt s.flash p})

/-- The second half: the size is fixed in memory or on flash. An entry that stays in the tree is
returned. -/
def fixEntry (c : Info) (roMount : Bool) (s : State) (e : Entry) : Option (State×Option Entry) :=
  if e.existing∧e.iSize<e.dSize then
    if e.inode=none∧roMount then
      match s.ino e.inum with
      | none => none
      | some p =>
        if sizeAt s.flash p<e.dSize then some (s,some {e with inode := some e.dSize})
        else some (s,none)
    else (fixSizeInPlace c s e).map fun s => (s,none)
  else some (s,none)

/-- The loop of `ubifs_recover_size`, with what it leaves of the tree. -/
def recoverLoop (c : Info) (roMount : Bool) : List Entry → State → Option (State×List Entry)
  | [], s => some (s,[])
  | e::tree, s =>
    match fixEntry c roMount (checkExists s e).1 (checkExists s e).2 with
    | none => none
    | some (s,kept) =>
      (recoverLoop c roMount tree s).map fun r => (r.1,kept.toList++r.2)

/-- `ubifs_recover_size` -/
def ubifsRecoverSize (c : Info) (roMount : Bool) (s : State) : Option State :=
  (recoverLoop c roMount s.tree s).map fun r => {r.1 with tree := r.2}

/-! ## What is right -/

/-- The exact end of the furthest data node of an inode since its last truncation or deletion. -/
def furthest (inum : ℕ) (nodes : List Node) : ℕ :=
  nodes.foldl (fun d n => match n with
    | .ino i nlink _ => if i=inum∧nlink=0 then 0 else d
    | .data i block len => if i=inum then max d (block*BLOCK_SIZE+len) else d
    | .trun i _ _ => if i=inum then 0 else d) 0

/-- The size that the last truncation of an inode since its last deletion left. -/
def lastTrun (inum : ℕ) (nodes : List Node) : ℕ :=
  nodes.foldl (fun t n => match n with
    | .ino i nlink _ => if i=inum∧nlink=0 then 0 else t
    | .data _ _ _ => t
    | .trun i _ newSize => if i=inum then newSize else t) 0

/-- The place belongs to the size or checksum of the inode node there. -/
def SizeOrCrc (p : Place) (k : ℕ) : Prop :=
  p.offs+4≤k∧k<p.offs+8∨p.offs+48≤k∧k<p.offs+56

/-- The sizes on flash are right, no data node is without its inode, and nothing else on flash
is different from before. -/
structure Right (nodes : List Node) (flash : ℕ → List UInt8) (s : State) : Prop where
  size : ∀ inum p,s.ino inum=some p →
    sizeAt s.flash p=max (sizeAt flash p) (furthest inum nodes)
  gone : ∀ inum,s.ino inum=none → ∀ block,s.data inum block=false
  bytes : ∀ lnum k,(s.flash lnum)[k]?≠(flash lnum)[k]? →
    ∃ inum p,s.ino inum=some p∧p.lnum=lnum∧SizeOrCrc p k

end ArdroneKernel.UbifsSizes
