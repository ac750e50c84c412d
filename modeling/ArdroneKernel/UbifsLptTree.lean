import ArdroneKernel.UbifsLpt

/-!
# The LEB properties tree in memory

Executable model of the look-ups and of the scan of `fs/ubifs/lpt.c`. Nodes
are read from flash when they are first needed. A nnode stands for itself by
its row and its column, so what a branch points to is the node in the next row
at the column of the branch.
-/

namespace ArdroneKernel.UbifsLpt

open UbifsLprops

def ENOSPC : ℤ := 28

/-- The geometry, with what the properties are checked against. -/
structure LptInfo extends Info where
  /-- `min_io_size`. -/
  minIoSize : ℕ

/-- `struct ubifs_lprops`, with the number of the LEB. -/
structure LebProps where
  lnum : ℕ
  lprops : Lprops
  deriving DecidableEq

/-- `struct ubifs_nnode`. -/
structure MemNnode where
  num : ℕ
  level : ℕ
  /-- The index in the parent. -/
  iip : ℕ
  nbranch : List Nbranch

/-- `struct ubifs_pnode`. -/
structure MemPnode where
  num : ℕ
  iip : ℕ
  lprops : List LebProps

/-- A node in memory, with `DIRTY_CNODE` and `COW_CNODE`. -/
structure Cnode (α : Type) where
  node : α
  dirty : Bool
  cow : Bool

/-- A nnode and where it is. -/
structure NnodeAt where
  row : ℕ
  col : ℕ
  nnode : MemNnode

/-- A pnode and where it is in the lowest row. -/
structure PnodeAt where
  col : ℕ
  pnode : MemPnode

/-- What `ubi_read` finds, the check sum, and what is in uninitialised variables. -/
structure Flash where
  ubiRead : ℕ → ℕ → ℕ → Except ℤ (List UInt8)
  crc16 : List UInt8 → UInt16
  garbage : Place → ℕ

/-- The part of `struct ubifs_info` for the tree. -/
structure Lpt where
  lptLnum : ℕ
  lptOffs : ℕ
  ltabLnum : ℕ
  /-- The nnodes in memory; the root is the first. -/
  nnodes : ℕ → ℕ → Option (Cnode MemNnode)
  pnodes : ℕ → Option (Cnode MemPnode)
  pnodesHave : ℕ
  dirtyNnCnt : ℕ
  dirtyPnCnt : ℕ
  /-- `LTAB_DIRTY`. -/
  ltabDirty : Bool
  /-- By the place of the LEB in the area. -/
  ltab : ℕ → LptLprops

/-- A function that may change what is in memory, and may fail. -/
def LptM (α : Type) : Type := Lpt → Option (Except ℤ α×Lpt)

instance : Monad LptM where
  pure a := fun s => some (.ok a,s)
  bind x f := fun s => (x s).bind fun (r,s) => match r with
    | .error err => some (.error err,s)
    | .ok a => f a s

/-! ## Nodes are read -/

/-- `calc_nnode_num_from_parent` -/
def calcNnodeNumFromParent (hght : ℕ) (parent : Option MemNnode) (iip : ℕ) : ℕ :=
  match parent with
  | none => 1
  | some parent =>
    let shft := (hght-parent.level)*UBIFS_LPT_FANOUT_SHIFT
    (parent.num^^^(1<<<shft))|||((UBIFS_LPT_FANOUT+iip)<<<shft)

section

variable (c : LptInfo)

/-- The level of a nnode. -/
def levelBelow (parent : Option MemNnode) : ℕ :=
  match parent with
  | none => c.lptHght
  | some parent => parent.level-1

/-- `validate_nnode` -/
def validateNnode (nnode : Nnode) (parent : Option MemNnode) (iip : ℕ) : Except ℤ Unit :=
  let lvl := levelBelow c parent
  let sz := if lvl=1 then c.pnodeSz else c.nnodeSz
  if c.bigLpt∧nnode.num≠calcNnodeNumFromParent c.lptHght parent iip then .error (-EINVAL)
  else if lvl<1 then .error (-EINVAL)
  else if nnode.nbranch.any fun b => if b.lnum=0 then b.offs≠0
      else b.lnum<c.lptFirst∨c.lptLast<b.lnum∨c.lebSize<b.offs+sz then .error (-EINVAL)
  else .ok ()

/-- `validate_pnode` -/
def validatePnode (pnode : Pnode) (parent : MemNnode) (iip : ℕ) : Except ℤ Unit :=
  if c.bigLpt∧pnode.num≠calcPnodeNumFromParent c.lptHght parent.num iip then .error (-EINVAL)
  else if pnode.lprops.any fun l => c.lebSize<l.free∨l.free%c.minIoSize≠0∨l.free&&&7≠0∨
      c.lebSize<l.dirty∨l.dirty&&&7≠0∨c.lebSize<l.dirty+l.free then .error (-EINVAL)
  else .ok ()

/-- `set_pnode_lnum`; LEBs that the volume does not have get no number. -/
def setPnodeLnum (num : ℕ) (lprops : List Lprops) : List LebProps :=
  lprops.mapIdx fun i l =>
    let lnum := num<<<UBIFS_LPT_FANOUT_SHIFT+c.mainFirst+i
    ⟨if lnum≥c.lebCnt then 0 else lnum,l⟩

/-- A nnode that has not been written. -/
def emptyNnode (num : ℕ) : Nnode := ⟨num,List.replicate UBIFS_LPT_FANOUT ⟨0,0⟩⟩

/-- A pnode that has not been written: its LEBs are empty. -/
def emptyPnode (num : ℕ) : Pnode :=
  let lprops : Lprops := ⟨c.lebSize,0,{}⟩
  ⟨num,List.replicate UBIFS_LPT_FANOUT
    {lprops with flags := {lprops.flags with cat := ubifsCategorizeLprops c.toLimits lprops}}⟩

variable (f : Flash)

/-- How `ubifs_read_nnode` and `scan_get_nnode` make a nnode. -/
def makeNnode (b : Nbranch) (parent : Option MemNnode) (iip : ℕ) : Option (Except ℤ MemNnode) :=
  let num := calcNnodeNumFromParent c.lptHght parent iip
  andThen
    (if b.lnum=0 then some (.ok (emptyNnode (if c.bigLpt then num else 0)))
    else
      match f.ubiRead b.lnum b.offs c.nnodeSz with
      | .error err => some (.error err)
      | .ok buf => ubifsUnpackNnode c.toInfo f.crc16 f.garbage buf (emptyNnode 0))
    fun nnode =>
      match validateNnode c nnode parent iip with
      | .error err => some (.error err)
      | .ok _ =>
        some (.ok ⟨if c.bigLpt then nnode.num else num,levelBelow c parent,iip,nnode.nbranch⟩)

/-- How `read_pnode` and `scan_get_pnode` make a pnode. -/
def makePnode (parent : MemNnode) (iip : ℕ) : Option (Except ℤ MemPnode) :=
  let num := calcPnodeNumFromParent c.lptHght parent.num iip
  (parent.nbranch[iip]?).bind fun b => andThen
    (if b.lnum=0 then some (.ok (emptyPnode c (if c.bigLpt then num else 0)))
    else
      match f.ubiRead b.lnum b.offs c.pnodeSz with
      | .error err => some (.error err)
      | .ok buf => unpackPnode c.toInfo f.crc16 f.garbage buf ⟨0,[]⟩)
    fun pnode =>
      match validatePnode c pnode parent iip with
      | .error err => some (.error err)
      | .ok _ =>
        let num := if c.bigLpt then pnode.num else num
        some (.ok ⟨num,iip,setPnodeLnum c num pnode.lprops⟩)

/-- The branch that leads to a nnode, from its parent or from the superblock. -/
def branchTo (s : Lpt) (parent : Option NnodeAt) (iip : ℕ) : Option Nbranch :=
  match parent with
  | none => some ⟨s.lptLnum,s.lptOffs⟩
  | some p => p.nnode.nbranch[iip]?

/-- The place of a nnode. -/
def childOf (parent : Option NnodeAt) (iip : ℕ) (nnode : MemNnode) : NnodeAt :=
  match parent with
  | none => ⟨0,0,nnode⟩
  | some p => ⟨p.row+1,UBIFS_LPT_FANOUT*p.col+iip,nnode⟩

end

/-- A nnode is put into memory. -/
def Lpt.setNnode (s : Lpt) (row col : ℕ) (n : Cnode MemNnode) : Lpt :=
  {s with nnodes := Function.update s.nnodes row (Function.update (s.nnodes row) col (some n))}

def Lpt.setPnode (s : Lpt) (col : ℕ) (p : Cnode MemPnode) : Lpt :=
  {s with pnodes := Function.update s.pnodes col (some p)}

section

variable (c : LptInfo) (f : Flash)

/-- `ubifs_read_nnode` -/
def ubifsReadNnode (parent : Option NnodeAt) (iip : ℕ) : LptM NnodeAt := fun s =>
  (branchTo s parent iip).bind fun b =>
    (makeNnode c f b (parent.map NnodeAt.nnode) iip).map fun r =>
      match r with
      | .error err => (.error err,s)
      | .ok nnode =>
        let n := childOf parent iip nnode
        (.ok n,s.setNnode n.row n.col ⟨nnode,false,false⟩)

/-- `read_pnode` -/
def readPnode (parent : NnodeAt) (iip : ℕ) : LptM PnodeAt := fun s =>
  (makePnode c f parent.nnode iip).map fun r =>
    match r with
    | .error err => (.error err,s)
    | .ok pnode =>
      let p : PnodeAt := ⟨UBIFS_LPT_FANOUT*parent.col+iip,pnode⟩
      (.ok p,{s.setPnode p.col ⟨pnode,false,false⟩ with pnodesHave := s.pnodesHave+1})

/-- The root, which the look-ups read when it is not in memory. -/
def getRoot : LptM NnodeAt := fun s =>
  match s.nnodes 0 0 with
  | some n => some (.ok ⟨0,0,n.node⟩,s)
  | none => ubifsReadNnode c f none 0 s

/-- `ubifs_get_nnode` -/
def ubifsGetNnode (parent : NnodeAt) (iip : ℕ) : LptM NnodeAt := fun s =>
  match s.nnodes (parent.row+1) (UBIFS_LPT_FANOUT*parent.col+iip) with
  | some n => some (.ok (childOf (some parent) iip n.node),s)
  | none => ubifsReadNnode c f (some parent) iip s

/-- `ubifs_get_pnode`; the categories are not part of the model. -/
def ubifsGetPnode (parent : NnodeAt) (iip : ℕ) : LptM PnodeAt := fun s =>
  match s.pnodes (UBIFS_LPT_FANOUT*parent.col+iip) with
  | some p => some (.ok ⟨UBIFS_LPT_FANOUT*parent.col+iip,p.node⟩,s)
  | none => readPnode c f parent iip s

/-! ## Look-ups -/

/-- `ubifs_add_lpt_dirt` -/
def ubifsAddLptDirt (s : Lpt) (lnum dirty : ℕ) : Lpt :=
  if dirty=0∨lnum=0 then s
  else
    let l := s.ltab (lnum-c.lptFirst)
    {s with ltab :=
      Function.update s.ltab (lnum-c.lptFirst) {l with dirty := l.dirty+dirty}}

/-- `ubifs_add_nnode_dirt` -/
def ubifsAddNnodeDirt (s : Lpt) (n : NnodeAt) : Option Lpt :=
  match n.row with
  | row+1 => (s.nnodes row (n.col/UBIFS_LPT_FANOUT)).bind fun np =>
    (np.node.nbranch[n.nnode.iip]?).map fun b => ubifsAddLptDirt c s b.lnum c.nnodeSz
  | 0 =>
    let s := ubifsAddLptDirt c s s.lptLnum c.nnodeSz
    some (if s.ltabDirty then s
      else ubifsAddLptDirt c {s with ltabDirty := true} s.ltabLnum c.ltabSz)

/-- `add_pnode_dirt` -/
def addPnodeDirt (s : Lpt) (p : PnodeAt) : Option Lpt :=
  (s.nnodes (c.lptHght-1) (p.col/UBIFS_LPT_FANOUT)).bind fun np =>
    (np.node.nbranch[p.pnode.iip]?).map fun b => ubifsAddLptDirt c s b.lnum c.pnodeSz

/-- `dirty_cow_nnode`: a nnode that is being committed gives its place to a copy. -/
def dirtyCowNnode (n : NnodeAt) : LptM NnodeAt := fun s =>
  (s.nnodes n.row n.col).bind fun cnode =>
    if cnode.cow=false∧cnode.dirty then some (.ok n,s)
    else
      (ubifsAddNnodeDirt c {s with dirtyNnCnt := s.dirtyNnCnt+1} n).map fun s =>
        (.ok n,s.setNnode n.row n.col ⟨cnode.node,true,false⟩)

/-- `dirty_cow_pnode` -/
def dirtyCowPnode (p : PnodeAt) : LptM PnodeAt := fun s =>
  (s.pnodes p.col).bind fun cnode =>
    if cnode.cow=false∧cnode.dirty then some (.ok p,s)
    else
      (addPnodeDirt c {s with dirtyPnCnt := s.dirtyPnCnt+1} p).map fun s =>
        (.ok p,s.setPnode p.col ⟨cnode.node,true,false⟩)

/-- The loop of the look-ups, for some rows, with the shift that is next. -/
def lookupLoop (visit : NnodeAt → LptM NnodeAt) (i : ℕ) :
    ℕ → NnodeAt → ℕ → LptM (NnodeAt×ℕ)
  | 0,nnode,shft => pure (nnode,shft)
  | rows+1,nnode,shft => do
    let iip := i>>>shft&&&(UBIFS_LPT_FANOUT-1)
    let nnode ← ubifsGetNnode c f nnode iip
    let nnode ← visit nnode
    lookupLoop visit i rows nnode (shft-UBIFS_LPT_FANOUT_SHIFT)

/-- The look-ups, with what they do to the nodes on the way. -/
def lookup (visit : NnodeAt → LptM NnodeAt) (visitPnode : PnodeAt → LptM PnodeAt) (lnum : ℕ) :
    LptM (Option LebProps) := do
  let nnode ← getRoot c f
  let nnode ← visit nnode
  let i := lnum-c.mainFirst
  let (nnode,shft) ←
    lookupLoop c f visit i (c.lptHght-1) nnode (c.lptHght*UBIFS_LPT_FANOUT_SHIFT)
  let iip := i>>>shft&&&(UBIFS_LPT_FANOUT-1)
  let p ← ubifsGetPnode c f nnode iip
  let p ← visitPnode p
  pure (p.pnode.lprops[i&&&(UBIFS_LPT_FANOUT-1)]?)

/-- `ubifs_lpt_lookup` -/
def ubifsLptLookup (lnum : ℕ) : LptM (Option LebProps) := lookup c f pure pure lnum

/-- `ubifs_lpt_lookup_dirty` -/
def ubifsLptLookupDirty (lnum : ℕ) : LptM (Option LebProps) :=
  lookup c f (dirtyCowNnode c) (dirtyCowPnode c) lnum

/-! ## The scan -/

/-- A nnode on the path, in the tree or only read. -/
structure ScanNode where
  inTree : Bool
  entry : NnodeAt

/-- The pnode at the end of the path. -/
structure ScanPnode where
  inTree : Bool
  entry : PnodeAt

/-- What the callback answers. -/
inductive Answer where
  /-- A negative error code. -/
  | error (err : ℤ)
  /-- `LPT_SCAN_ADD` and `LPT_SCAN_STOP`. -/
  | ok (add stop : Bool)

/-- The path, the lowest nnode first, and the properties that are next. -/
structure Position where
  path : List ScanNode
  pnode : ScanPnode
  iip : ℕ

/-- `scan_get_nnode` -/
def scanGetNnode (parent : NnodeAt) (iip : ℕ) : LptM ScanNode := fun s =>
  match s.nnodes (parent.row+1) (UBIFS_LPT_FANOUT*parent.col+iip) with
  | some n => some (.ok ⟨true,childOf (some parent) iip n.node⟩,s)
  | none => (parent.nnode.nbranch[iip]?).bind fun b =>
    (makeNnode c f b (some parent.nnode) iip).map fun r =>
      (r.map fun nnode => ⟨false,childOf (some parent) iip nnode⟩,s)

/-- `scan_get_pnode` -/
def scanGetPnode (parent : NnodeAt) (iip : ℕ) : LptM ScanPnode := fun s =>
  match s.pnodes (UBIFS_LPT_FANOUT*parent.col+iip) with
  | some p => some (.ok ⟨true,⟨UBIFS_LPT_FANOUT*parent.col+iip,p.node⟩⟩,s)
  | none => (makePnode c f parent.nnode iip).map fun r =>
    (r.map fun pnode => ⟨false,⟨UBIFS_LPT_FANOUT*parent.col+iip,pnode⟩⟩,s)

/-- The descent to the pnode of a LEB. -/
def descend (i : ℕ) : ℕ → List ScanNode → NnodeAt → ℕ → LptM (List ScanNode×ScanPnode)
  | 0,path,nnode,shft => do
    let pnode ← scanGetPnode c f nnode (i>>>shft&&&(UBIFS_LPT_FANOUT-1))
    pure (path,pnode)
  | rows+1,path,nnode,shft => do
    let n ← scanGetNnode c f nnode (i>>>shft&&&(UBIFS_LPT_FANOUT-1))
    descend i rows (n::path) n.entry (shft-UBIFS_LPT_FANOUT_SHIFT)

/-- The part of the scan from a LEB on, after the label `again`. -/
def scanFrom (lnum : ℕ) : LptM Position := do
  let root ← getRoot c f
  let i := lnum-c.mainFirst
  let (path,pnode) ← descend c f i (c.lptHght-1) [⟨true,root⟩] root
    (c.lptHght*UBIFS_LPT_FANOUT_SHIFT)
  pure ⟨path,pnode,i&&&(UBIFS_LPT_FANOUT-1)⟩

/-- Up until one can go right. -/
def climb : List ScanNode → ℕ → Option (List ScanNode×ℕ)
  | [],_ => none
  | n::path,iip =>
    if iip+1<UBIFS_LPT_FANOUT then some (n::path,iip) else climb path n.entry.nnode.iip

/-- Right, and down to the pnode. -/
def goRight : ℕ → List ScanNode → ℕ → LptM (List ScanNode×ScanPnode)
  | _,[],_ => fun _ => none
  | 0,n::path,iip => do
    let pnode ← scanGetPnode c f n.entry iip
    pure (n::path,pnode)
  | rows+1,n::path,iip => do
    let m ← scanGetNnode c f n.entry iip
    goRight rows (m::n::path) 0

/-- The nodes of the path that are not in the tree are added to it. -/
def addNnodes : List ScanNode → Lpt → Lpt
  | [],s => s
  | n::path,s =>
    let s := addNnodes path s
    if n.inTree then s else s.setNnode n.entry.row n.entry.col ⟨n.entry.nnode,false,false⟩

def addPnode (p : ScanPnode) (s : Lpt) : Lpt :=
  if p.inTree then s
  else {s.setPnode p.entry.col ⟨p.entry.pnode,false,false⟩ with pnodesHave := s.pnodesHave+1}

/-- `LPT_SCAN_ADD` -/
def addPath (pos : Position) (s : Lpt) : Position×Lpt :=
  (⟨pos.path.map fun n => {n with inTree := true},{pos.pnode with inTree := true},pos.iip⟩,
    addPnode pos.pnode (addNnodes pos.path s))

/-- The position after some properties. -/
def nextPosition (lnum : ℕ) (pos : Position) : LptM Position :=
  if lnum+1≥c.lebCnt then scanFrom c f c.mainFirst
  else if pos.iip+1<UBIFS_LPT_FANOUT then pure {pos with iip := pos.iip+1}
  else
    match climb pos.path pos.pnode.entry.pnode.iip with
    | none => fun _ => none
    | some (path,iip) => do
      let (path,pnode) ← goRight c f (c.lptHght-path.length) path (iip+1)
      pure ⟨path,pnode,0⟩

/-- The loop of the scan, with a bound on its rounds: the code it returns, and
what the callback has been called for. -/
def scanLoop (endLnum : ℕ) (scanCb : List (LebProps×Bool) → Answer) :
    ℕ → List (LebProps×Bool) → Position → Lpt → Option ((ℤ×List (LebProps×Bool))×Lpt)
  | 0,_,_,_ => none
  | fuel+1,calls,pos,s => (pos.pnode.entry.pnode.lprops[pos.iip]?).bind fun l =>
    let calls := calls++[⟨l,pos.pnode.inTree⟩]
    match scanCb calls with
    | .error err => some ((err,calls),s)
    | .ok add stop =>
      let (pos,s) := if add then addPath pos s else (pos,s)
      if stop then some ((0,calls),s)
      else if l.lnum=endLnum then some ((-ENOSPC,calls),s)
      else (nextPosition c f l.lnum pos s).bind fun (r,s) =>
        match r with
        | .error err => some ((err,calls),s)
        | .ok pos => scanLoop endLnum scanCb fuel calls pos s

/-- `ubifs_lpt_scan_nolock`; without a start, it is after the end. -/
def ubifsLptScanNolock (fuel : ℕ) (start : Option ℕ) (endLnum : ℕ)
    (scanCb : List (LebProps×Bool) → Answer) (s : Lpt) : Option ((ℤ×List (LebProps×Bool))×Lpt) :=
  let start := start.getD (if endLnum+1≥c.lebCnt then c.mainFirst else endLnum+1)
  (scanFrom c f start s).bind fun (r,s) =>
    match r with
    | .error err => some ((err,[]),s)
    | .ok pos => scanLoop c f endLnum scanCb fuel [] pos s

end

end ArdroneKernel.UbifsLpt
