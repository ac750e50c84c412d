import ArdroneKernel.BlockTilings

/-!
# The code and data heap of the DSP

A segment of the DSP's memory has a list of free blocks. Memory is taken from
the lowest block that is large enough; the first header of the list stays even
when its block has become empty. A block that is freed is joined with the
blocks around it.
-/

namespace ArdroneKernel.DspRmm

open BlockTilings

def ENOMEM : ℤ := 12

/-- `struct rmm_header`, without the pointer to the next one. -/
structure Header where
  /-- DSP address of the free block. -/
  addr : ℕ
  /-- Its size. -/
  size : ℕ
  deriving DecidableEq

/-- The address after a free block, with 32 bits. -/
def Header.next (h : Header) : ℕ := (h.addr+h.size)%2^32

/-- A segment and its free list. -/
structure Segment where
  base : ℕ
  length : ℕ
  /-- How many blocks are allocated, in `seg_tab`. -/
  number : ℕ
  freeList : List Header

/-- The join of a new header with the one above it, whose block then gets the
address and size that were freed: the header and those after it. -/
def joinUpper (addr size : ℕ) (rhead : Header) : List Header → Header×List Header
  | [] => (rhead,[])
  | thead::rest =>
    if rhead.next=thead.addr then (⟨addr,(size+thead.size)%2^32⟩,rest)
    else (rhead,thead::rest)

/-- The join of a new header with the one below it. -/
def joinLower (head rhead : Header) (rest : List Header) : List Header :=
  if head.next=rhead.addr then ⟨head.addr,(head.size+rhead.size)%2^32⟩::rest
  else head::rhead::rest

/-- The header `rhead` between `head` and the others, joined with them. -/
def join (addr size : ℕ) (head rhead : Header) (rest : List Header) : List Header :=
  let (rhead,rest) := joinUpper addr size rhead rest
  joinLower head rhead rest

/-- The walk of `free_block` from `head` to the place of an address. -/
def insertAbove (addr size : ℕ) (head : Header) : List Header → List Header
  | [] => join addr size head ⟨addr,size⟩ []
  | next::rest =>
    if addr>next.addr then head::insertAbove addr size next rest
    else join addr size head ⟨addr,size⟩ (next::rest)

/-- `free_block` on a free list; whether `kzalloc` has memory for a header. -/
def freeBlock (mem : Bool) (addr size : ℕ) : List Header → List Header×Bool
  | [] => ([],false)
  | head::rest =>
    if mem then
      if addr≥head.addr then (insertAbove addr size head rest,true)
      -- The first header is overwritten, and the new one becomes a copy of it.
      else (join addr size ⟨addr,size⟩ head rest,true)
    else (head::rest,false)

/-- Bytes from an address to the next multiple of an alignment. -/
def tmpalign (addr align : ℕ) : ℕ := if addr%align≠0 then align-addr%align else 0

/-- The loop of `alloc_block`: the address of the header from which memory is
taken, and the list after it. -/
def allocLoop (size align : ℕ) (first : Bool) : List Header → Option (ℕ×List Header)
  | [] => none
  | head::next =>
    let allocsize := (size+tmpalign head.addr align)%2^32
    if head.size≥allocsize then
      if head.size=allocsize∧first=false then some (head.addr,next)
      else some (head.addr,⟨(head.addr+allocsize)%2^32,head.size-allocsize⟩::next)
    else (allocLoop size align false next).map fun (addr,list) => (addr,head::list)

/-- `alignbytes` of `alloc_block`. -/
def alignbytes (align : ℕ) : ℕ := if align=0 then 1 else align

/-- The hole that the alignment makes is freed. -/
def freeHole (mem : Bool) (addr hole : ℕ) (list : List Header) : List Header :=
  if hole≠0 then (freeBlock mem addr hole list).1 else list

/-- `alloc_block`: the address and the list after it. -/
def allocBlock (mem : Bool) (size align : ℕ) (list : List Header) : Option (ℕ×List Header) :=
  (allocLoop size (alignbytes align) true list).map fun (addr,list) =>
    let hole := tmpalign addr (alignbytes align)
    ((addr+hole)%2^32,freeHole mem addr hole list)

/-- `rmm_alloc` in a segment, without reserving. -/
def rmmAlloc (mem : Bool) (s : Segment) (size align : ℕ) : Segment×Except ℤ ℕ :=
  match allocBlock mem size align s.freeList with
  | none => (s,.error (-ENOMEM))
  | some (dspAddr,list) => ({s with number := s.number+1,freeList := list},.ok dspAddr)

/-- `rmm_free` in a segment, without reserving. -/
def rmmFree (mem : Bool) (s : Segment) (addr size : ℕ) : Segment×Bool :=
  match freeBlock mem addr size s.freeList with
  | (list,true) => ({s with number := s.number-1,freeList := list},true)
  | (list,false) => ({s with freeList := list},false)

/-- Calls with the segment they are about, and whether there is memory for a header. -/
inductive Event where
  | alloc (segid size align : ℕ) (mem : Bool)
  | free (segid addr size : ℕ) (mem : Bool)

/-- The segments, and for each the blocks that have been returned and not freed. -/
structure State where
  target : ℕ → Segment
  live : ℕ → List Block

/-- `rmm_create`: each segment is one free block. -/
def rmmCreate (base length : ℕ → ℕ) : State where
  target i := ⟨base i,length i,0,[⟨base i,length i⟩]⟩
  live _ := []

/-- A call; only live blocks are freed. -/
def step (s : State) : Event → Option State
  | .alloc segid size align mem =>
    match rmmAlloc mem (s.target segid) size align with
    | (t,.ok addr) => some ⟨Function.update s.target segid t,
        Function.update s.live segid (⟨addr,size⟩::s.live segid)⟩
    | (t,.error _) => some {s with target := Function.update s.target segid t}
  | .free segid addr size mem =>
    if (⟨addr,size⟩ : Block)∈s.live segid then
      let (t,ok) := rmmFree mem (s.target segid) addr size
      some ⟨Function.update s.target segid t,if ok then
        Function.update s.live segid ((s.live segid).erase ⟨addr,size⟩) else s.live⟩
    else none

/-- Sizes are positive and do not overflow, and there is memory for headers. -/
def Event.ok : Event → Bool
  | .alloc _ size align mem => 0<size∧size+align<2^32∧mem
  | .free _ _ _ mem => mem

/-- No block is freed at the address of a header that is not the first and
describes an empty block. -/
def Event.clear (s : State) : Event → Bool
  | .alloc .. => true
  | .free segid addr _ _ =>
    (s.target segid).freeList.tail.all fun h => h.addr≠addr∨h.size≠0

end ArdroneKernel.DspRmm
