import Mathlib.Algebra.Order.Ring.Nat

/-!
# The master node of UBIFS

`ubifs_write_master` and `scan_for_master` of `fs/ubifs/master.c` and the recovery of
the master node of `fs/ubifs/recovery.c`. The two LEBs of the master area are made of
slots of `mst_node_alsz` bytes, each of which holds one node with its padding, and of
a rest at the end that no node fits in. Offsets are those of the source, in bytes.
-/

namespace ArdroneKernel.UbifsMaster

/-- `UBIFS_MST_NODE_SZ` -/
def MST_NODE_SZ : ℕ := 512

/-- `UBIFS_MIN_LEB_SZ` -/
def MIN_LEB_SZ : ℕ := 15*1024

/-- `UBIFS_MST_LNUM` and the LEB after it, as false and true. -/
abbrev Lnum := Bool

/-- What `init_constants_early` gets. -/
structure Geometry where
  lebSize : ℕ
  minIoSize : ℕ

/-- What it accepts, and UBI: LEBs have whole minimal I/O units. -/
structure Geometry.Accepted (g : Geometry) : Prop where
  leb : MIN_LEB_SZ≤g.lebSize
  unit : ∃ k,g.minIoSize=2^k
  eight : 8≤g.minIoSize
  dvd : g.minIoSize∣g.lebSize

/-- `mst_node_alsz` -/
def Geometry.alsz (g : Geometry) : ℕ :=
  (MST_NODE_SZ+(g.minIoSize-1))/g.minIoSize*g.minIoSize

/-- A master node: two of its flags, and all else after the common header. -/
structure Mst where
  /-- `UBIFS_MST_RCVRY` -/
  rcvry : Bool
  /-- `UBIFS_MST_DIRTY` -/
  dirty : Bool
  /-- The contents, as a number. -/
  rest : ℕ
  deriving DecidableEq

/-- What is at the place of a node. -/
inductive Slot where
  /-- Nothing but `0xff`. -/
  | empty
  /-- A master node. The padding after it may be damaged. -/
  | node (m : Mst) (padded : Bool)
  /-- What a torn write has left, which is neither a node nor padding. It may still
  start with the magic number of nodes. -/
  | torn (magic : Bool)
  deriving DecidableEq

/-- The slots of a LEB. -/
abbrev Slots := ℕ → Slot

/-- `le32_to_cpu(ch->magic) == UBIFS_NODE_MAGIC` -/
def Slot.magic : Slot → Bool
  | .empty => false
  | .node _ _ => true
  | .torn magic => magic

variable (g : Geometry)

/-- What is at an offset. -/
def slotAt (slots : Slots) (offs : ℕ) : Slot := slots (offs/g.alsz)

/-- `is_empty`, from an offset to the end. -/
def isEmpty (slots : Slots) (offs : ℕ) : Prop :=
  ∀ i∈List.range (g.lebSize/g.alsz+1),offs≤ i*g.alsz → i*g.alsz<g.lebSize → slots i=.empty

instance (slots : Slots) (offs : ℕ) : Decidable (isEmpty g slots offs) :=
  inferInstanceAs (Decidable (∀ i∈List.range (g.lebSize/g.alsz+1),
    offs≤ i*g.alsz → i*g.alsz<g.lebSize → slots i=.empty))

/-! ## Scan -/

/-- The loop of `ubifs_scan` over some slots: the nodes and the offset where it stops,
or nothing for `-EUCLEAN`. -/
def scanNodes (slots : Slots) : ℕ → ℕ → Option (List (ℕ×Mst)×ℕ)
  | 0, offs => some ([],offs)
  | fuel+1, offs =>
    if g.lebSize<offs+8 then some ([],offs)
    else
      match slotAt g slots offs with
      | .empty => some ([],offs)
      | .torn _ => none
      | .node m padded =>
        if padded then
          (scanNodes slots fuel (offs+g.alsz)).map fun found => ((offs,m)::found.1,found.2)
        else none

/-- `ubifs_scan` -/
def ubifsScan (slots : Slots) : Option (List (ℕ×Mst)) :=
  match scanNodes g slots (g.lebSize/g.alsz+1) 0 with
  | none => none
  | some (nodes,offs) => if isEmpty g slots offs then some nodes else none

/-- `scan_for_master`: the node and `mst_offs`, or nothing for `-EUCLEAN`. -/
def scanForMaster (flash : Lnum → Slots) : Option (ℕ×Mst) :=
  match ubifsScan g (flash false), ubifsScan g (flash true) with
  | some nodes, some nodes' =>
    if nodes'.length≠nodes.length then none
    else
      match nodes.getLast?, nodes'.getLast? with
      | some (offs,m), some (offs',m') => if offs'≠offs∨m≠m' then none else some (offs,m)
      | _, _ => none
  | _, _ => none

/-! ## Recovery -/

/-- The first position from an offset on that is definitely not a node. -/
def firstNotNode (slots : Slots) : ℕ → ℕ → ℕ
  | 0, offs => offs
  | fuel+1, offs =>
    if offs+MST_NODE_SZ≤g.lebSize∧(slotAt g slots offs).magic=true then
      firstNotNode slots fuel (offs+g.alsz)
    else offs

/-- The valid master node before a position, and the offset after it, or nothing when
there is more than one area of corruption. -/
def nodeBefore (slots : Slots) (offs : ℕ) : Option (Option (ℕ×Mst)×ℕ) :=
  if offs=0 then some (none,0)
  else
    match slotAt g slots (offs-g.alsz) with
    | .node m _ => some (some (offs-g.alsz,m),offs)
    | _ =>
      if offs-g.alsz=0 then some (none,0)
      else
        match slotAt g slots (offs-g.alsz-g.alsz) with
        | .node m _ => some (some (offs-g.alsz-g.alsz,m),offs-g.alsz)
        | _ => none

/-- `get_master_node`: the node with its offset, and whether there is corruption, or
nothing for `-EINVAL`. -/
def getMasterNode (slots : Slots) : Option (Option (ℕ×Mst)×Bool) :=
  match nodeBefore g slots (firstNotNode g slots (g.lebSize/g.alsz+1) 0) with
  | none => none
  | some (mst,offs) =>
    if offs<g.lebSize then
      if isEmpty g slots (offs+g.alsz) then some (mst,slotAt g slots offs≠.empty) else none
    else some (mst,false)

/-- The choice of `ubifs_recover_master_node`, or nothing for `-EINVAL`. -/
def chooseMaster : Option (ℕ×Mst)×Bool → Option (ℕ×Mst)×Bool → Option Mst
  | (some (offs₁,mst₁),cor₁), (mst₂,_) =>
    if mst₁.rcvry∧offs₁=0∧¬cor₁ then some mst₁
    else
      match mst₂ with
      | some (offs₂,mst₂) =>
        if offs₁=offs₂ then if mst₁≠mst₂ then none else some mst₁
        else if offs₂+g.alsz=offs₁ then if cor₁ then none else some mst₁
        else if offs₁=0∧offs₂+g.alsz≥g.lebSize then if cor₁ then none else some mst₁
        else none
      | none => if offs₁≠0∨cor₁ then none else some mst₁
  | (none,_), (mst₂,_) =>
    match mst₂ with
    | none => none
    | some (offs₂,mst₂) => if offs₂+g.alsz+g.alsz≤g.lebSize then none else some mst₂

/-- `ubifs_recover_master_node` up to its writes. -/
def recoverMasterNode (flash : Lnum → Slots) : Option Mst :=
  match getMasterNode g (flash false) with
  | none => none
  | some found₁ =>
    match getMasterNode g (flash true) with
    | none => none
    | some found₂ => chooseMaster g found₁ found₂

/-- How `ubifs_read_master` gets its node. -/
inductive Found where
  /-- By the scan, at an offset. -/
  | scanned (offs : ℕ) (m : Mst)
  /-- By recovery. -/
  | recovered (m : Mst)
  deriving DecidableEq

/-- The node that was found. -/
def Found.mst : Found → Mst
  | .scanned _ m => m
  | .recovered m => m

/-- `ubifs_read_master` up to the writes of recovery. -/
def readMaster (flash : Lnum → Slots) : Option Found :=
  match scanForMaster g flash with
  | some (offs,m) => some (.scanned offs m)
  | none => (recoverMasterNode g flash).map .recovered

/-! ## Writes -/

/-- A step on the flash. -/
inductive Prim where
  /-- `ubifs_leb_unmap` -/
  | unmap (lnum : Lnum)
  /-- `ubifs_write_node` -/
  | write (lnum : Lnum) (offs : ℕ) (m : Mst)
  /-- `ubi_leb_change` -/
  | change (lnum : Lnum) (m : Mst)

/-- The node that `ubifs_write_master` writes goes to this offset. -/
def nextOffs (mstOffs : ℕ) : ℕ :=
  if mstOffs+g.alsz+MST_NODE_SZ>g.lebSize then 0 else mstOffs+g.alsz

/-- The steps of `ubifs_write_master`. -/
def writeMaster (mstOffs : ℕ) (m : Mst) : List Prim :=
  let offs := nextOffs g mstOffs
  (if mstOffs+g.alsz+MST_NODE_SZ>g.lebSize then [.unmap false] else [])++[.write false offs m]++
    (if offs=0 then [.unmap true] else [])++[.write true offs m]

/-- The steps of `write_rcvrd_mst_node`. -/
def writeRcvrdMstNode (m : Mst) : List Prim :=
  [.change false {m with rcvry := true},.change true {m with rcvry := true}]

/-- A LEB: its contents, or that it is unmapped and what it held before. -/
inductive Leb where
  | mapped (slots : Slots)
  | unmapped (old : Slots)

/-- A LEB without any contents. -/
def blank : Slots := fun _ => .empty

/-- What is read of a LEB. -/
def Leb.slots : Leb → Slots
  | .mapped slots => slots
  | .unmapped _ => blank

/-- What is written over something that is there is damaged. -/
def overwrite (old new : Slot) : Slot := if old=.empty then new else .torn false

/-- A LEB with something written at an offset. -/
def Leb.put (leb : Leb) (offs : ℕ) (slot : Slot) : Leb :=
  .mapped (Function.update leb.slots (offs/g.alsz) (overwrite (slotAt g leb.slots offs) slot))

/-- A step that is done. -/
def apply (flash : Lnum → Leb) : Prim → Lnum → Leb
  | .unmap lnum => Function.update flash lnum (.unmapped (flash lnum).slots)
  | .write lnum offs m =>
    Function.update flash lnum ((flash lnum).put g offs (.node m true))
  | .change lnum m =>
    Function.update flash lnum (.mapped (Function.update blank 0 (.node m true)))

/-- What there is of a step during which the power is cut. -/
inductive Part where
  | nothing
  /-- Of a write, a damaged slot. -/
  | torn (magic : Bool)
  /-- Of a write, the node with damaged padding. -/
  | unpadded

/-- A step during which the power is cut. A LEB is unmapped or changed at once. -/
def applyPart (flash : Lnum → Leb) : Prim → Part → Lnum → Leb
  | .write lnum offs _, .torn magic =>
    Function.update flash lnum ((flash lnum).put g offs (.torn magic))
  | .write lnum offs m, .unpadded =>
    Function.update flash lnum ((flash lnum).put g offs (.node m false))
  | _, _ => flash

/-- A LEB once the power is back. One that was unmapped may hold its old contents. -/
def Leb.settle (keep : Bool) : Leb → Leb
  | .mapped slots => .mapped slots
  | .unmapped old => .mapped (if keep then old else blank)

/-- A power cut after some of the steps of a call. -/
structure Cut where
  done : ℕ
  part : Part
  /-- For each LEB, whether it still holds old contents if it is unmapped. -/
  keep : Lnum → Bool

/-- The flash after some steps and a power cut. -/
def cutAfter (flash : Lnum → Leb) (prims : List Prim) (cut : Cut) : Lnum → Leb :=
  let flash := (prims.take cut.done).foldl (apply g) flash
  let flash := match prims[cut.done]? with
    | some p => applyPart g flash p cut.part
    | none => flash
  fun lnum => (flash lnum).settle (cut.keep lnum)

/-! ## Runs -/

/-- What is in memory. -/
inductive Memory where
  | off
  /-- Mounted in read-write mode: `mst_offs`. -/
  | rw (mstOffs : ℕ)
  /-- Mounted in read-only mode: what was found. What recovery found is kept in
  `rcvrd_mst_node`. -/
  | ro (found : Found)

/-- The master area, with the contents of the last node that was written completely
and of one that was being written when the power was cut. -/
structure State where
  flash : Lnum → Leb
  memory : Memory
  last : ℕ
  pending : Option ℕ

/-- What happens. -/
inductive Event where
  /-- `ubifs_write_master`, of some contents. -/
  | write (dirty : Bool) (rest : ℕ)
  | writeCut (dirty : Bool) (rest : ℕ) (cut : Cut)
  /-- `ubifs_read_master`, of a mount in read-only mode or not. -/
  | mount (ro : Bool)
  | mountCut (cut : Cut)
  /-- `ubifs_write_rcvrd_mst_node`, at a remount to read-write mode. -/
  | remount
  | remountCut (cut : Cut)
  /-- An unmount, or a power cut when nothing is written. -/
  | stop

/-- What is read of the master area. -/
def State.slots (s : State) (lnum : Lnum) : Slots := (s.flash lnum).slots

/-- A power cut during some steps. -/
def State.cutDuring (s : State) (prims : List Prim) (cut : Cut) : State :=
  {s with flash := cutAfter g s.flash prims cut, memory := .off}

/-- What is written of what was found, before the file system is used. -/
def rcvrdPrims : Found → List Prim
  | .scanned _ _ => []
  | .recovered m => writeRcvrdMstNode m

/-- `ubifs_write_rcvrd_mst_node` marks the node it writes. -/
def Found.setDirty : Found → Found
  | .scanned offs m => .scanned offs m
  | .recovered m => .recovered {m with dirty := true}

/-- `mst_offs` -/
def Found.mstOffs : Found → ℕ
  | .scanned offs _ => offs
  | .recovered _ => 0

/-- The file system can be written, with the node that was found. -/
def State.adopt (s : State) (found : Found) : State where
  flash := (rcvrdPrims found).foldl (apply g) s.flash
  memory := .rw found.mstOffs
  last := found.mst.rest
  pending := none

/-- One event. -/
def step (s : State) : Event → Option State
  | .write dirty rest =>
    match s.memory with
    | .rw mstOffs => some {s with
        flash := (writeMaster g mstOffs ⟨false,dirty,rest⟩).foldl (apply g) s.flash
        memory := .rw (nextOffs g mstOffs)
        last := rest }
    | _ => none
  | .writeCut dirty rest cut =>
    match s.memory with
    | .rw mstOffs => some {s.cutDuring g (writeMaster g mstOffs ⟨false,dirty,rest⟩) cut with
        pending := some rest }
    | _ => none
  | .mount ro =>
    match s.memory, readMaster g s.slots with
    | .off, some found => if ro then some {s with memory := .ro found} else some (s.adopt g found)
    | _, _ => none
  | .mountCut cut =>
    match s.memory, readMaster g s.slots with
    | .off, some found => some (s.cutDuring g (rcvrdPrims found) cut)
    | _, _ => none
  | .remount =>
    match s.memory with
    | .ro found => some (s.adopt g found.setDirty)
    | _ => none
  | .remountCut cut =>
    match s.memory with
    | .ro found => some (s.cutDuring g (rcvrdPrims found.setDirty) cut)
    | _ => none
  | .stop => some {s with memory := .off}

/-- The master area that `mkfs.ubifs` makes. -/
def start (m : Mst) : State where
  flash _ := .mapped (Function.update blank 0 (.node m true))
  memory := .off
  last := m.rest
  pending := none

end ArdroneKernel.UbifsMaster
