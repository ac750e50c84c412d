import Mathlib.Algebra.Order.Ring.Nat
import Mathlib.Data.List.Sort

/-!
# Shared memory of the DSP

A segment of shared memory has a list of free blocks, the smallest first, and
a list of blocks in use. A request takes the first free block that is large
enough and gives what is left over back. A block that is freed is combined
with the free blocks before and after it.
-/

namespace ArdroneKernel.DspCmm

def CMM_MAXGPPSEGS : ℕ := 1
def EPERM : ℤ := 1
def ENOMEM : ℤ := 12
def EFAULT : ℤ := 14
def EINVAL : ℤ := 22

/-- `struct cmm_mnode`, without the process that uses the block. -/
structure Mnode where
  /-- Physical address. -/
  pa : ℕ
  /-- Virtual address. -/
  va : ℕ
  /-- Size of the block. -/
  size : ℕ
  deriving DecidableEq

/-- `NEXT_PA`, with 32 bits. -/
def Mnode.nextPa (m : Mnode) : ℕ := (m.pa+m.size)%2^32

/-- `struct cmm_allocator`: a segment. -/
structure Allocator where
  /-- Its physical address. -/
  shmBase : ℕ
  smSize : ℕ
  /-- Its virtual address. -/
  vmBase : ℕ
  freeList : List Mnode
  inUseList : List Mnode

/-- `struct cmm_object`, with the bytes at virtual addresses. -/
structure Cmm where
  minBlockSize : ℕ
  /-- How many nodes are kept for later use. -/
  nodeFreeList : ℕ
  /-- The segments that have been registered. -/
  segTab : ℕ → Option Allocator
  memory : ℕ → UInt8

/-- `get_node`, when so many nodes are kept; whether `kzalloc` has memory. -/
def getNode (kept : ℕ) (mem : Bool) (pa va size : ℕ) : Option (Mnode×ℕ) :=
  if kept=0 then if mem then some (⟨pa,va,size⟩,0) else none
  else some (⟨pa,va,size⟩,kept-1)

/-- The loop of `add_to_free_list` that looks for the block before and the
block after some addresses. -/
def neighbours (thisPa nextPa : ℕ) :
    List Mnode → Option Mnode → Option Mnode → Option Mnode×Option Mnode
  | [],prev,next => (prev,next)
  | m::l,prev,next =>
    let (prev,next) :=
      if thisPa=m.nextPa then (some m,next)
      else if nextPa=m.pa then (prev,some m)
      else (prev,next)
    if prev=none∨next=none then neighbours thisPa nextPa l prev next else (prev,next)

/-- The node and the list, when the block before the node is combined with it. -/
def takePrev (l : List Mnode) (pnode : Mnode) : Option Mnode → Mnode×List Mnode
  | none => (pnode,l)
  | some m => (⟨m.pa,m.va,(pnode.size+m.size)%2^32⟩,l.erase m)

/-- The same for the block after it. -/
def takeNext (l : List Mnode) (pnode : Mnode) : Option Mnode → Mnode×List Mnode
  | none => (pnode,l)
  | some m => (⟨pnode.pa,pnode.va,(pnode.size+m.size)%2^32⟩,l.erase m)

/-- `add_to_free_list`: the list after it, and how many nodes it keeps. -/
def addToFreeList (l : List Mnode) (pnode : Mnode) : List Mnode×ℕ :=
  let (prev,next) := neighbours pnode.pa pnode.nextPa l none none
  let (p,l) := takePrev l pnode prev
  let (p,l) := takeNext l p next
  (l.orderedInsert (fun a b => a.size≤b.size) p,prev.toList.length+next.toList.length)

/-- `get_free_block`: the first block that satisfies the size, and the others. -/
def getFreeBlock (usize : ℕ) (l : List Mnode) : Option (Mnode×List Mnode) :=
  (l.find? fun m => usize≤ m.size).map fun m => (m,l.erase m)

/-- A size as a multiple of the smallest block, with 32 bits. -/
def roundSize (minBlockSize usize : ℕ) : ℕ :=
  (((usize-1)&&&(2^32-1-(minBlockSize-1)))+minBlockSize)%2^32

/-- The loop that clears memory, with its counter of type `s32`. -/
def clearMem (memory : ℕ → UInt8) (va usize : ℕ) : ℕ → UInt8 := fun a =>
  if usize<2^31∧va≤a∧a<va+usize then 0 else memory a

namespace Cmm

/-- The block is used for a size that is a multiple of the smallest block, and
the rest goes back to the free list if it is large enough: the segment, the
node and how many nodes are kept. -/
def splitBlock (s : Cmm) (mem : Bool) (usize : ℕ) (pnode : Mnode) (l : List Mnode) :
    List Mnode×Mnode×ℕ :=
  let deltaSize := pnode.size-usize
  if deltaSize≥s.minBlockSize then
    match getNode s.nodeFreeList mem ((pnode.pa+usize)%2^32) ((pnode.va+usize)%2^32) deltaSize with
    | some (newNode,kept) =>
      let (l,more) := addToFreeList l newNode
      (l,{pnode with size := usize},kept+more)
    | none => (l,{pnode with size := usize},s.nodeFreeList)
  else (l,pnode,s.nodeFreeList)

/-- `cmm_calloc_buf`: the physical address, or none. Whether `kzalloc` has
memory for a node. -/
def cmmCallocBuf (s : Cmm) (usize segId : ℕ) (mem : Bool) : Cmm×Option ℕ :=
  if usize≠0 then
    match s.segTab (segId-1) with
    | none => (s,none)
    | some allocator =>
      let usize := roundSize s.minBlockSize usize
      match getFreeBlock usize allocator.freeList with
      | none => (s,none)
      | some (pnode,l) =>
        let (l,pnode,kept) := s.splitBlock mem usize pnode l
        ({s with
          nodeFreeList := kept
          segTab := Function.update s.segTab (segId-1)
            (some {allocator with freeList := l,inUseList := allocator.inUseList++[pnode]})
          memory := clearMem s.memory pnode.va usize},some pnode.pa)
  else (s,none)

/-- `cmm_free_buf`. -/
def cmmFreeBuf (s : Cmm) (bufPa segId : ℕ) : Cmm×ℤ :=
  let segId := if segId=0 then 1 else segId
  match s.segTab (segId-1) with
  | none => (s,-EFAULT)
  | some allocator =>
    match allocator.inUseList.find? fun m => bufPa=m.pa with
    | none => (s,-EFAULT)
    | some m =>
      let (l,more) := addToFreeList allocator.freeList m
      ({s with
        nodeFreeList := s.nodeFreeList+more
        segTab := Function.update s.segTab (segId-1)
          (some {allocator with freeList := l,inUseList := allocator.inUseList.erase m})},0)

/-- `get_slot`. -/
def getSlot (s : Cmm) : Option ℕ :=
  (List.range CMM_MAXGPPSEGS).find? fun slot => (s.segTab slot).isNone

/-- `cmm_register_gppsm_seg`; whether there is memory for the allocator and
for its node. -/
def cmmRegisterGppsmSeg (s : Cmm) (basePa size baseVa : ℕ) (mem node : Bool) : Cmm×ℤ :=
  match s.getSlot with
  | none => (s,-EPERM)
  | some slot =>
    if size<s.minBlockSize then (s,-EINVAL)
    else if mem then
      match getNode s.nodeFreeList node basePa baseVa size with
      | none => (s,-ENOMEM)
      | some (newNode,kept) =>
        ({s with
          nodeFreeList := kept
          segTab := Function.update s.segTab slot (some ⟨basePa,size,baseVa,[newNode],[]⟩)},0)
    else (s,-ENOMEM)

end Cmm

/-- `cmm_create`, over some memory. -/
def cmmCreate (minBlockSize : ℕ) (memory : ℕ → UInt8) : Cmm := ⟨minBlockSize,0,fun _ => none,memory⟩

/-- Calls of the manager. -/
inductive Event where
  | register (basePa size baseVa : ℕ) (mem node : Bool)
  | calloc (usize segId : ℕ) (mem : Bool)
  | free (bufPa segId : ℕ)
  deriving DecidableEq

/-- A call. -/
def step (s : Cmm) : Event → Option Cmm
  | .register basePa size baseVa mem node =>
    some (s.cmmRegisterGppsmSeg basePa size baseVa mem node).1
  | .calloc usize segId mem => some (s.cmmCallocBuf usize segId mem).1
  | .free bufPa segId => some (s.cmmFreeBuf bufPa segId).1

/-- Segments are where addresses of 32 bits can point, and sizes have 32 bits. -/
def Event.ok : Event → Bool
  | .register basePa size baseVa _ _ => 0<basePa∧basePa+size≤2^32∧baseVa+size≤2^32
  | .calloc usize segId _ => usize<2^32∧0<segId∧segId≤CMM_MAXGPPSEGS
  | .free _ segId => segId≤CMM_MAXGPPSEGS

/-- When a free block is found, its size in the request has not wrapped around,
and there is a node for what is left over. -/
def Event.safe (s : Cmm) : Event → Bool
  | .calloc usize segId mem => usize=0∨(s.segTab (segId-1)).all fun allocator =>
      (getFreeBlock (roundSize s.minBlockSize usize) allocator.freeList).all fun (pnode,_) =>
        0<roundSize s.minBlockSize usize∧
          (roundSize s.minBlockSize usize+s.minBlockSize≤pnode.size → s.nodeFreeList≠0∨mem)
  | _ => true

end ArdroneKernel.DspCmm
