import ArdroneKernel.SlotHeap
import ArdroneKernel.UbifsLprops

/-!
# Categories of LEBs and space statistics

`fs/ubifs/lprops.c`: the heaps and lists of LEB properties by category, and
`ubifs_change_lp` with the statistics of the main area. Properties are
identified by their address. A node of the LEB properties tree comes into
memory with its properties, and is copied before it changes during a commit.
-/

namespace ArdroneKernel.UbifsCategories

open SlotHeap UbifsLprops

/-- `LPT_HEAP_SZ`, which is also `max_cnt` of every heap. -/
def lptHeapSz : ℕ := 256

/-- `MIN_WRITE_SZ`: `UBIFS_DATA_NODE_SZ + 8`. -/
def minWriteSz : ℕ := 48+8

/-- The sizes of `struct ubifs_info` that the accounting uses. -/
structure Sizes extends Limits where
  /-- `dark_wm`. -/
  darkWm : ℕ

/-- `struct ubifs_lp_stats`. -/
@[ext]
structure LpStats where
  emptyLebs : ℤ
  takenEmptyLebs : ℤ
  idxLebs : ℤ
  totalFree : ℤ
  totalDirty : ℤ
  totalUsed : ℤ
  totalDead : ℤ
  totalDark : ℤ
  deriving DecidableEq

/-- What flash holds of the properties of a LEB. -/
structure Packed where
  free : ℕ
  dirty : ℕ
  index : Bool

/-- The properties in memory, with their places, and those on flash only. -/
structure State where
  /-- The properties at an address. -/
  lprops : ℕ → Lprops
  /-- `hpos` at an address: none while list pointers are in its place. -/
  hpos : ℕ → Option ℕ
  /-- `lpt_heap[cat - 1].arr`. -/
  arr : Cat → ℕ → ℕ
  /-- `lpt_heap[cat - 1].cnt`. -/
  cnt : Cat → ℕ
  /-- `uncat_list`, `empty_list`, `freeable_list` and `frdi_idx_list`. -/
  list : Cat → List ℕ
  /-- `freeable_cnt`. -/
  freeableCnt : ℤ
  /-- `lst`. -/
  lst : LpStats
  /-- Where the properties of a LEB are, when they are in memory. -/
  loaded : ℕ → Option ℕ
  /-- The properties of a LEB on flash. -/
  stored : ℕ → Packed

/-- The categories that have a heap: 1 to `LPROPS_HEAP_CNT`. -/
def hasHeap : Cat → Bool
  | .dirty => true
  | .dirtyIdx => true
  | .free => true
  | _ => false

/-- `get_heap_comp_val` -/
def getHeapCompVal (lprops : Lprops) : Cat → ℕ
  | .free => lprops.free
  | .dirtyIdx => lprops.free+lprops.dirty
  | _ => lprops.dirty

/-- The value of properties in the heap of a category. -/
def State.val (s : State) (cat : Cat) (p : ℕ) : ℕ := getHeapCompVal (s.lprops p) cat

/-- `lpt_heap[cat - 1]`, and where its entries have noted to be. -/
def State.heap (s : State) (cat : Cat) : Slots ℕ := ⟨s.arr cat,s.hpos⟩

/-- A heap has changed. -/
def State.setHeap (s : State) (cat : Cat) (h : Slots ℕ) (cnt : ℕ) : State :=
  {s with arr := Function.update s.arr cat h.arr,hpos := h.pos,
          cnt := Function.update s.cnt cat cnt}

/-- The properties at an address change. -/
def State.setLprops (s : State) (p : ℕ) (lp : Lprops) : State :=
  {s with lprops := Function.update s.lprops p lp}

/-- Properties with other category bits. -/
def withCat (lp : Lprops) (cat : Cat) : Lprops := {lp with flags := {lp.flags with cat := cat}}

/-- The category bits at an address change. -/
def State.setCat (s : State) (p : ℕ) (cat : Cat) : State := s.setLprops p (withCat (s.lprops p) cat)

/-- `list_add` on the list of a category. -/
def State.listAdd (s : State) (p : ℕ) (cat : Cat) : State :=
  {s with list := Function.update s.list cat (p::s.list cat),
          hpos := Function.update s.hpos p none}

/-- The pseudo-random slot at the bottom of a full heap. -/
def bottomSlot (p : ℕ) : ℕ := (p>>>4)%(lptHeapSz/2)+(lptHeapSz/2-1)

/-- `add_to_lpt_heap`, with its answer. -/
def addToLptHeap (s : State) (p : ℕ) (cat : Cat) : Bool×State :=
  if lptHeapSz≤ s.cnt cat then
    let cpos := bottomSlot p
    let q := s.arr cat cpos
    if s.val cat q<s.val cat p then
      let s := (s.setCat q .uncat).listAdd q .uncat
      (true,s.setHeap cat (moveUp (s.val cat) p cpos cpos ((s.heap cat).put cpos p))
        (s.cnt cat))
    else (false,s)
  else
    let hpos := s.cnt cat
    (true,s.setHeap cat (moveUp (s.val cat) p hpos hpos ((s.heap cat).put hpos p)) (hpos+1))

/-- `remove_from_lpt_heap`, when its assertions hold. -/
def removeFromLptHeap (s : State) (p : ℕ) (cat : Cat) : Option State :=
  match s.hpos p with
  | none => none
  | some hpos =>
    if hpos<s.cnt cat∧s.arr cat hpos=p then
      let cnt := s.cnt cat-1
      some (s.setHeap cat (remove (s.val cat) cnt hpos (s.heap cat)) cnt)
    else none

/-- `ubifs_add_to_cat` -/
def ubifsAddToCat (s : State) (p : ℕ) (cat : Cat) : State :=
  let onList := fun (s : State) (cat : Cat) => (s.listAdd p cat).setCat p cat
  match cat with
  | .dirty
  | .dirtyIdx
  | .free =>
    match addToLptHeap s p cat with
    | (true,s) => s.setCat p cat
    | (false,s) => onList s .uncat
  | .uncat => onList s .uncat
  | .empty => onList s .empty
  | .freeable => onList {s with freeableCnt := s.freeableCnt+1} .freeable
  | .frdiIdx => onList s .frdiIdx

/-- `list_del` on properties that are on the list of a category. -/
def State.listDel (s : State) (p : ℕ) (cat : Cat) : Option State :=
  if p∈s.list cat then
    some {s with list := Function.update s.list cat ((s.list cat).erase p)}
  else none

/-- `ubifs_remove_from_cat` -/
def ubifsRemoveFromCat (s : State) (p : ℕ) (cat : Cat) : Option State :=
  match cat with
  | .dirty
  | .dirtyIdx
  | .free => removeFromLptHeap s p cat
  | .freeable => {s with freeableCnt := s.freeableCnt-1}.listDel p cat
  | .uncat
  | .empty
  | .frdiIdx => s.listDel p cat

/-- `lpt_heap_replace`: the copy has the `hpos` of the original. -/
def lptHeapReplace (s : State) (p' : ℕ) (cat : Cat) : Option State :=
  match s.hpos p' with
  | none => none
  | some hpos => some {s with arr := Function.update s.arr cat
                                (Function.update (s.arr cat) hpos p')}

/-- `list_replace` on properties that are on the list of a category. -/
def State.listReplace (s : State) (p p' : ℕ) (cat : Cat) : Option State :=
  if p∈s.list cat then
    some {s with list := Function.update s.list cat
                   ((s.list cat).map fun q => if q=p then p' else q),
                 hpos := Function.update s.hpos p' none}
  else none

/-- `ubifs_replace_cat` -/
def ubifsReplaceCat (s : State) (p p' : ℕ) : Option State :=
  let cat := (s.lprops p').flags.cat
  if hasHeap cat then lptHeapReplace s p' cat else s.listReplace p p' cat

/-- `ubifs_ensure_cat` -/
def ubifsEnsureCat (c : Sizes) (s : State) (p : ℕ) : Option State :=
  if (s.lprops p).flags.cat≠.uncat then some s
  else
    let cat := ubifsCategorizeLprops c.toLimits (s.lprops p)
    if cat=.uncat then some s
    else (ubifsRemoveFromCat s p .uncat).map fun s => ubifsAddToCat s p cat

/-- `adjust_lpt_heap` for properties on a heap. -/
def adjustLptHeap (s : State) (p : ℕ) (cat : Cat) : Option State :=
  match s.hpos p with
  | none => none
  | some hpos =>
    some (s.setHeap cat (adjust (s.val cat) p (s.cnt cat) hpos (s.heap cat)) (s.cnt cat))

/-- `change_category` -/
def changeCategory (c : Sizes) (s : State) (p : ℕ) : Option State :=
  let oldCat := (s.lprops p).flags.cat
  let newCat := ubifsCategorizeLprops c.toLimits (s.lprops p)
  if oldCat=newCat then
    if hasHeap newCat then adjustLptHeap s p newCat else some s
  else (ubifsRemoveFromCat s p oldCat).map fun s => ubifsAddToCat s p newCat

/-- `ubifs_calc_dark` -/
def ubifsCalcDark (c : Sizes) (spc : ℕ) : ℤ :=
  if spc<c.darkWm then spc
  else if spc-c.darkWm< minWriteSz then (spc : ℤ)-minWriteSz
  else c.darkWm

/-- `ALIGN(x, 8)` -/
def align8 (x : ℕ) : ℕ := (x+7)/8*8

/-- The statistics before a change: without the space of the properties. -/
def leaveStats (c : Sizes) (lst : LpStats) (lp : Lprops) : LpStats :=
  let lst := if lp.flags.taken∧lp.free=c.lebSize then
    {lst with takenEmptyLebs := lst.takenEmptyLebs-1} else lst
  if lp.flags.index then lst
  else
    let oldSpc := lp.free+lp.dirty
    let lst := if oldSpc<c.deadWm then {lst with totalDead := lst.totalDead-oldSpc}
      else {lst with totalDark := lst.totalDark-ubifsCalcDark c oldSpc}
    {lst with totalUsed := lst.totalUsed-((c.lebSize : ℤ)-oldSpc)}

/-- The statistics after a change: with the space of the properties. -/
def joinStats (c : Sizes) (lst : LpStats) (lp : Lprops) : LpStats :=
  let lst := if lp.flags.index then lst
  else
    let newSpc := lp.free+lp.dirty
    let lst := if newSpc<c.deadWm then {lst with totalDead := lst.totalDead+newSpc}
      else {lst with totalDark := lst.totalDark+ubifsCalcDark c newSpc}
    {lst with totalUsed := lst.totalUsed+((c.lebSize : ℤ)-newSpc)}
  if lp.flags.taken∧lp.free=c.lebSize then
    {lst with takenEmptyLebs := lst.takenEmptyLebs+1} else lst

/-- The free space changes, `LPROPS_NC` being none. -/
def changeFree (c : Sizes) (lst : LpStats) (lp : Lprops) : Option ℕ → LpStats×Lprops
  | none => (lst,lp)
  | some free =>
    let free := align8 free
    let lst := {lst with totalFree := lst.totalFree+((free : ℤ)-lp.free)}
    let lst := if free=c.lebSize then
        if lp.free≠c.lebSize then {lst with emptyLebs := lst.emptyLebs+1} else lst
      else if lp.free=c.lebSize then {lst with emptyLebs := lst.emptyLebs-1} else lst
    (lst,{lp with free := free})

/-- The dirty space changes. -/
def changeDirty (lst : LpStats) (lp : Lprops) : Option ℕ → LpStats×Lprops
  | none => (lst,lp)
  | some dirty =>
    let dirty := align8 dirty
    ({lst with totalDirty := lst.totalDirty+((dirty : ℤ)-lp.dirty)},{lp with dirty := dirty})

/-- The flags change, all of them. -/
def changeFlags (lst : LpStats) (lp : Lprops) : Option Flags → LpStats×Lprops
  | none => (lst,lp)
  | some flags =>
    let lst := if lp.flags.index then
        if flags.index then lst else {lst with idxLebs := lst.idxLebs-1}
      else if flags.index then {lst with idxLebs := lst.idxLebs+1} else lst
    (lst,{lp with flags := flags})

/-- `ubifs_change_lp` on properties of a dirty node. -/
def ubifsChangeLp (c : Sizes) (s : State) (p : ℕ) (free dirty : Option ℕ)
    (flags : Option Flags) : Option State :=
  let lst := leaveStats c s.lst (s.lprops p)
  let (lst,lp) := changeFree c lst (s.lprops p) free
  let (lst,lp) := changeDirty lst lp dirty
  let (lst,lp) := changeFlags lst lp flags
  let lst := joinStats c lst lp
  changeCategory c {s.setLprops p lp with lst := lst} p

/-! ## Properties that come into memory -/

/-- `unpack_pnode`: the properties of a LEB as flash has them. -/
def unpackLprops (c : Sizes) (stored : Packed) : Lprops :=
  let lp : Lprops := ⟨stored.free,stored.dirty,{index := stored.index}⟩
  withCat lp (ubifsCategorizeLprops c.toLimits lp)

/-- Properties are read to an address, and `update_cats` gives them a place. -/
def load (c : Sizes) (s : State) (lnum p : ℕ) : State :=
  let s := {s.setLprops p (unpackLprops c (s.stored lnum)) with
    loaded := Function.update s.loaded lnum (some p)}
  ubifsAddToCat s p (s.lprops p).flags.cat

/-- `dirty_cow_pnode` copies properties to another address, and `replace_cats`
puts the copy in their place. -/
def copy (s : State) (lnum p p' : ℕ) : Option State :=
  ubifsReplaceCat {s.setLprops p' (s.lprops p) with
    hpos := Function.update s.hpos p' (s.hpos p),
    loaded := Function.update s.loaded lnum (some p')} p p'

/-- What is done with LEB properties. -/
inductive Op where
  /-- The properties of a LEB are read to an address. -/
  | load (lnum p : ℕ)
  /-- The properties of a LEB are copied to another address. -/
  | copy (lnum p p' : ℕ)
  /-- `ubifs_change_lp` -/
  | change (p : ℕ) (free dirty : Option ℕ) (flags : Option Flags)
  /-- `ubifs_ensure_cat` -/
  | ensure (p : ℕ)

/-- One operation. It fails where an assertion would. -/
def step (c : Sizes) (s : State) : Op → Option State
  | .load lnum p => some (load c s lnum p)
  | .copy lnum p p' => copy s lnum p p'
  | .change p free dirty flags => ubifsChangeLp c s p free dirty flags
  | .ensure p => ubifsEnsureCat c s p

/-- Operations one after another. -/
def run (c : Sizes) (s : State) : List Op → Option State
  | [] => some s
  | op::ops => (step c s op).bind fun s => run c s ops

/-- Properties at an address are those of a LEB. -/
def Loaded (s : State) (p : ℕ) : Prop := ∃ lnum,s.loaded lnum=some p

/-- What the callers do: they read LEBs of the main area that are not in memory,
copy to addresses that are not in use, and change properties that are in memory,
keeping the category bits of the flags as they are. -/
def Called (mainLebs : ℕ) (s : State) : Op → Prop
  | .load lnum p => lnum< mainLebs∧s.loaded lnum=none∧¬Loaded s p
  | .copy lnum p p' => s.loaded lnum=some p∧¬Loaded s p'
  | .change p _ _ flags => Loaded s p∧∀ f,flags=some f → f.cat=(s.lprops p).flags.cat
  | .ensure p => Loaded s p

/-- Operations that the callers do one after another. -/
def CalledAll (mainLebs : ℕ) (c : Sizes) (s : State) : List Op → Prop
  | [] => True
  | op::ops => Called mainLebs s op∧∀ s',step c s op=some s' → CalledAll mainLebs c s' ops

end ArdroneKernel.UbifsCategories
