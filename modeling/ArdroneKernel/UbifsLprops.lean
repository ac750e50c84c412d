import Mathlib.Data.Nat.Notation

/-!
# LEB properties

The properties of a LEB as `fs/ubifs/ubifs.h` has them, and the category that
`ubifs_categorize_lprops` of `lprops.c` gives them.
-/

namespace ArdroneKernel.UbifsLprops

/-- The categories of LEBs. -/
inductive Cat where
  /-- `LPROPS_UNCAT` -/
  | uncat
  /-- `LPROPS_DIRTY` -/
  | dirty
  /-- `LPROPS_DIRTY_IDX` -/
  | dirtyIdx
  /-- `LPROPS_FREE` -/
  | free
  /-- `LPROPS_EMPTY` -/
  | empty
  /-- `LPROPS_FREEABLE` -/
  | freeable
  /-- `LPROPS_FRDI_IDX` -/
  | frdiIdx
  deriving DecidableEq

/-- `flags` of LEB properties, bit by bit. -/
structure Flags where
  /-- `flags & LPROPS_CAT_MASK`. -/
  cat : Cat := .uncat
  /-- `LPROPS_TAKEN`. -/
  taken : Bool := false
  /-- `LPROPS_INDEX`. -/
  index : Bool := false
  deriving DecidableEq

/-- `struct ubifs_lprops`. -/
structure Lprops where
  free : ℕ
  dirty : ℕ
  flags : Flags
  deriving DecidableEq

/-- The sizes of `struct ubifs_info` that tell categories apart. -/
structure Limits where
  /-- `leb_size`. -/
  lebSize : ℕ
  /-- `min_idx_node_sz`. -/
  minIdxNodeSz : ℕ
  /-- `dead_wm`. -/
  deadWm : ℕ

/-- `ubifs_categorize_lprops` -/
def ubifsCategorizeLprops (c : Limits) (lprops : Lprops) : Cat :=
  if lprops.flags.taken then .uncat
  else if lprops.free=c.lebSize then .empty
  else if lprops.free+lprops.dirty=c.lebSize then
    if lprops.flags.index then .frdiIdx else .freeable
  else if lprops.flags.index then
    if c.minIdxNodeSz≤lprops.dirty+lprops.free then .dirtyIdx else .uncat
  else if c.deadWm≤lprops.dirty∧lprops.free<lprops.dirty then .dirty
  else if 0<lprops.free then .free
  else .uncat

end ArdroneKernel.UbifsLprops
