import ArdroneKernel.Execution
import Mathlib.Data.Finset.Basic
import Mathlib.Data.Nat.Bitwise

/-!
# The pmem allocator

The space of a pmem device is divided into entries of a page. A bitmap cell
tells, where a block starts, how large it is and whether it is allocated. The
cells after the last entry are other memory of the kernel: what they hold is
arbitrary. Every index the code reads or writes is recorded.
-/

namespace ArdroneKernel.PmemBitmap

/-- `PAGE_SIZE`. -/
def PMEM_MIN_ALLOC : UInt32 := 4096

def PMEM_MAX_ORDER : ℕ := 128

/-- `struct pmem_bits`. -/
structure PmemBits where
  allocated : Bool := false
  /-- Seven bits. -/
  order : ℕ := 0
deriving DecidableEq

/-- The number of entries of a space of `size` bytes. -/
def numEntries (size : UInt32) : ℕ := (size/PMEM_MIN_ALLOC).toNat

/-- The bitmap, and the indices read or written so far. -/
structure State where
  bitmap : ℕ → PmemBits
  indices : List ℕ

/-- The code reads or writes cells of the bitmap. -/
def State.access (s : State) (is : List ℕ) : State := { s with indices := is++s.indices }

/-- `PMEM_IS_FREE` -/
def State.isFree (s : State) (index : ℕ) : Bool := !(s.bitmap index).allocated

/-- `PMEM_ORDER` -/
def State.order (s : State) (index : ℕ) : ℕ := (s.bitmap index).order

def State.setAllocated (s : State) (index : ℕ) (allocated : Bool) : State :=
  { s.access [index] with
    bitmap := Function.update s.bitmap index { s.bitmap index with allocated := allocated } }

def State.setOrder (s : State) (index order : ℕ) : State :=
  { s.access [index] with
    bitmap := Function.update s.bitmap index { s.bitmap index with order := order%2^7 } }

/-- `PMEM_BUDDY_INDEX` -/
def State.buddyIndex (s : State) (index : ℕ) : ℕ := index^^^2^s.order index

/-- `PMEM_NEXT_INDEX` -/
def State.nextIndex (s : State) (index : ℕ) : ℕ := index+2^s.order index

/-- The loop of `pmem_setup` over the bits of the number of entries, the highest first. -/
def setupLoop (numEntries : ℕ) : ℕ → ℕ → State → State
  | 0, _, s => s
  | i+1, index, s =>
    if numEntries.testBit i then
      let s := s.setOrder index i
      setupLoop numEntries i (s.nextIndex index) s
    else setupLoop numEntries i index s

/-- The bitmap `pmem_setup` builds, with what lies after it. -/
def pmemSetup (size : UInt32) (after : ℕ → PmemBits) : State :=
  setupLoop (numEntries size) 32 0
    ⟨fun index => if index<numEntries size then {} else after index,[]⟩

/-- The loop of `pmem_free` that merges buddies. Its rounds are bounded by
the orders a cell can hold. -/
def mergeLoop (numEntries : ℕ) : ℕ → ℕ → State → Option State
  | 0, _, _ => none
  | fuel+1, curr, s =>
    let buddy := s.buddyIndex curr
    let s := s.access [curr,buddy]
    if s.isFree buddy=true∧s.order buddy=s.order curr then
      let s := s.setOrder buddy (s.order buddy+1)
      let s := s.setOrder curr (s.order curr+1)
      let curr := min buddy curr
      if curr<numEntries then mergeLoop numEntries fuel curr s else some s
    else some s

def pmemFree (size : UInt32) (s : State) (index : ℕ) : Option State :=
  mergeLoop (numEntries size) PMEM_MAX_ORDER index (s.setAllocated index false)

/-- The order of the smallest block of `len` bytes. -/
def pmemOrder (len : UInt32) : ℕ :=
  let len := (len+PMEM_MIN_ALLOC-1)/PMEM_MIN_ALLOC
  let len := len-1
  ((List.range 32).find? fun i => len.toNat>>>i=0).getD 32

/-- The loop of `pmem_allocate` over the blocks. -/
def fitLoop (numEntries order : ℕ) : ℕ → ℕ → Option ℕ → State → State×Option ℕ
  | 0, _, best, s => (s,best)
  | fuel+1, curr, best, s =>
    if curr<numEntries then
      let s := s.access [curr]
      if s.isFree curr=true then
        if s.order curr=order then (s,some curr)
        else if s.order curr>order∧∀ b∈best,s.order curr<s.order b then
          fitLoop numEntries order fuel (s.nextIndex curr) (some curr) (s.access best.toList)
        else fitLoop numEntries order fuel (s.nextIndex curr) best (s.access best.toList)
      else fitLoop numEntries order fuel (s.nextIndex curr) best s
    else (s,best)

/-- The loop of `pmem_allocate` that splits the block it found. -/
def splitLoop (order bestFit : ℕ) : ℕ → State → State
  | 0, s => s
  | fuel+1, s =>
    let s := s.access [bestFit]
    if s.order bestFit>order then
      let s := s.setOrder bestFit (s.order bestFit-1)
      let buddy := s.buddyIndex bestFit
      splitLoop order bestFit fuel (s.setOrder buddy (s.order bestFit))
    else s

/-- The index of the block, or -1. -/
def pmemAllocate (size : UInt32) (s : State) (len : UInt32) : ℤ×State :=
  let order := pmemOrder len
  if order>PMEM_MAX_ORDER then (-1,s)
  else
    let (s,bestFit) := fitLoop (numEntries size) order (numEntries size) 0 none s
    match bestFit with
    | none => (-1,s)
    | some bestFit =>
      let s := splitLoop order bestFit (s.order bestFit) s
      (bestFit,s.setAllocated bestFit true)

/-! ## Requests -/

/-- A request to the allocator. -/
inductive Request where
  | allocate (len : UInt32)
  | free (index : ℕ)

/-- The allocator with the blocks in use: those returned and not freed since. -/
structure Session where
  state : State
  live : Finset ℕ

def Session.start (size : UInt32) (after : ℕ → PmemBits) : Session := ⟨pmemSetup size after,∅⟩

/-- Only blocks in use are freed. -/
def step (size : UInt32) (c : Session) : Request → Option Session
  | .allocate len =>
    let (index,s) := pmemAllocate size c.state len
    some ⟨s,if index<0 then c.live else insert index.toNat c.live⟩
  | .free index =>
    if index∈c.live then (pmemFree size c.state index).map fun s => ⟨s,c.live.erase index⟩
    else none

end ArdroneKernel.PmemBitmap
