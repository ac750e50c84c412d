import ArdroneKernel.BlockTilings

/-!
# Reserved addresses of the DSP

A table has one entry for each page of the addresses that can be reserved.
Entries are headers of regions; the headers that were swallowed by a larger
region stay in its interior. The largest free region that has been found is
remembered, and is looked for again when it is too small.
-/

namespace ArdroneKernel.DspDmm

open BlockTilings

def PG_SIZE4K : ℕ := 4096
def ENOENT : ℤ := 2
def ENOMEM : ℤ := 12

/-- `struct map_page`. -/
structure MapPage where
  /-- Pages of the region of which this is the header; 31 bits. -/
  regionSize : ℕ
  /-- Whether the region has been reserved. -/
  reserved : Bool
  /-- Pages of the mapping that starts here; 31 bits. -/
  mappedSize : ℕ
  /-- Whether a mapping starts here. -/
  mapped : Bool
  deriving DecidableEq

/-- The variables of the memory manager. -/
structure Dmm where
  /-- The entries. -/
  virtualMappingTable : ℕ → MapPage
  /-- Whether there is a table. -/
  created : Bool
  /-- The index of the free region that is remembered. -/
  freeRegion : ℕ
  /-- Its size in bytes. -/
  freeSize : ℕ
  /-- The first address. -/
  dynMemMapBeg : ℕ
  /-- How many entries the table has. -/
  tableSize : ℕ

/-- `dmm_create_tables`; whether `__vmalloc` has memory, which returns none
for an empty table. -/
def dmmCreateTables (s : Dmm) (mem : Bool) (addr size : ℕ) : Dmm×ℤ :=
  let tableSize := (size+PG_SIZE4K-1)%2^32/PG_SIZE4K
  if mem∧tableSize≠0 then
    (⟨Function.update (fun _ => ⟨0,false,0,false⟩) 0 ⟨tableSize,false,0,false⟩,true,0,
      tableSize*PG_SIZE4K%2^32,addr%2^32,tableSize⟩,0)
  else
    ({s with created := false,dynMemMapBeg := addr%2^32,tableSize := tableSize},-ENOMEM)

namespace Dmm

/-- `DMM_ADDR_TO_INDEX`, for addresses of 32 bits. -/
def addrToIndex (s : Dmm) (a : ℕ) : ℕ := (a%2^32+(2^32-s.dynMemMapBeg))%2^32/PG_SIZE4K

/-- `DMM_ADDR_VIRTUAL` of an entry. -/
def addrVirtual (s : Dmm) (i : ℕ) : ℕ := (i*PG_SIZE4K+s.dynMemMapBeg)%2^32

/-- An entry of the table, if it has such an entry. -/
def page (s : Dmm) (i : ℕ) : Option MapPage :=
  if i<s.tableSize then some (s.virtualMappingTable i) else none

/-- Write an entry of the table, if it has such an entry. -/
def setPage (s : Dmm) (i : ℕ) (p : MapPage) : Option Dmm :=
  if i<s.tableSize then
    some {s with virtualMappingTable := Function.update s.virtualMappingTable i p}
  else none

/-- `get_region`. -/
def getRegion (s : Dmm) (a : ℕ) : Option ℕ :=
  if s.created∧s.addrToIndex a<s.tableSize then some (s.addrToIndex a) else none

/-- `get_mapped_region`. -/
def getMappedRegion (s : Dmm) (a : ℕ) : Option ℕ :=
  let i := s.addrToIndex a
  if s.created∧i<s.tableSize∧
      ((s.virtualMappingTable i).mapped∨(s.virtualMappingTable i).reserved) then some i
  else none

/-- The loop of `get_free_region`. Both entries it reads are tested to be
below `table_size`; there is no result when it has not ended in time. -/
def freeLoop : ℕ → Dmm → ℕ → Option Dmm
  | 0,_,_ => none
  | fuel+1,s,i =>
    if i<s.tableSize then
      let p := s.virtualMappingTable i
      let nextI := (i+p.regionSize)%2^32
      if p.reserved=false then
        if nextI<s.tableSize∧(s.virtualMappingTable nextI).reserved=false then
          -- The next free region becomes a part of this one, which is looked at again.
          let size := (p.regionSize+(s.virtualMappingTable nextI).regionSize)%2^31
          let q := {p with regionSize := size}
          freeLoop fuel
            {s with virtualMappingTable := Function.update s.virtualMappingTable i q} i
        else
          let regionSize := p.regionSize*PG_SIZE4K%2^32
          if regionSize>s.freeSize then
            freeLoop fuel {s with freeRegion := i,freeSize := regionSize} nextI
          else freeLoop fuel s nextI
      else freeLoop fuel s nextI
    else some s

/-- `get_free_region`: the index of an entry. -/
def getFreeRegion (fuel : ℕ) (s : Dmm) (size : ℕ) : Option (Dmm×Option ℕ) :=
  if s.created then
    (if size>s.freeSize then freeLoop fuel s 0 else some s).map fun t =>
      if size≤t.freeSize then
        ({t with
          freeRegion := (t.freeRegion+size/PG_SIZE4K)%2^32
          freeSize := t.freeSize-size},some t.freeRegion)
      else (t,none)
  else some (s,none)

/-- The part of `dmm_reserve_memory` that cuts the chunk off the region. -/
def takeChunk (s : Dmm) (i rsvSize : ℕ) : Option Dmm := do
  let p ← s.page i
  let t ← if rsvSize<p.regionSize then
      s.setPage (i+rsvSize) ⟨p.regionSize-rsvSize,false,0,false⟩
    else some s
  t.setPage i ⟨rsvSize,true,0,false⟩

/-- `dmm_reserve_memory`: the address, or none when it fails. There is no
result when a loop has not ended in time or an entry is not in the table. -/
def dmmReserveMemory (fuel : ℕ) (s : Dmm) (size : ℕ) : Option (Dmm×Option ℕ) := do
  let (t,node) ← getFreeRegion fuel s size
  match node with
  | some i => return (← t.takeChunk i (size/PG_SIZE4K),some (t.addrVirtual i))
  | none => return (t,none)

/-- The loop of `dmm_un_reserve_memory` over the pages of a chunk. -/
def unmapLoop : ℕ → Dmm → ℕ → ℕ → Option Dmm
  | 0,_,_,_ => none
  | fuel+1,s,chunk,i =>
    if i<(s.virtualMappingTable chunk).regionSize then do
      let p ← s.page (chunk+i)
      if p.mapped then
        unmapLoop fuel (← s.setPage (chunk+i) {p with mapped := false,mappedSize := 0}) chunk
          ((i+p.mappedSize)%2^32)
      else unmapLoop fuel s chunk (i+1)
    else some s

/-- `dmm_un_reserve_memory`. -/
def dmmUnReserveMemory (fuel : ℕ) (s : Dmm) (rsvAddr : ℕ) : Option (Dmm×ℤ) :=
  match s.getMappedRegion rsvAddr with
  | none => some (s,-ENOENT)
  | some chunk => do
    let t ← unmapLoop fuel s chunk 0
    let p ← t.page chunk
    return (← t.setPage chunk {p with reserved := false},0)

/-- `dmm_map_memory`. -/
def dmmMapMemory (s : Dmm) (addr size : ℕ) : Dmm×ℤ :=
  match s.getRegion addr with
  | some i =>
    let p := s.virtualMappingTable i
    let q := {p with mapped := true,mappedSize := size%2^32/PG_SIZE4K%2^31}
    ({s with virtualMappingTable := Function.update s.virtualMappingTable i q},0)
  | none => (s,-ENOENT)

/-- `dmm_un_map_memory`: the size, or none when it fails. -/
def dmmUnMapMemory (s : Dmm) (addr : ℕ) : Dmm×Option ℕ :=
  match s.getMappedRegion addr with
  | some i =>
    let p := s.virtualMappingTable i
    let q := {p with mapped := false,mappedSize := 0}
    ({s with virtualMappingTable := Function.update s.virtualMappingTable i q},
      some (p.mappedSize*PG_SIZE4K%2^32))
  | none => (s,none)

end Dmm

/-- Calls of the memory manager. -/
inductive Event where
  | reserve (size : ℕ)
  | unReserve (rsvAddr : ℕ)
  | map (addr size : ℕ)
  | unMap (addr : ℕ)

/-- The memory manager, and the chunks that it has returned and that have not
been un-reserved at their start since, by index and pages. -/
structure State where
  dmm : Dmm
  live : List Block

/-- The check of sizes in `procwrap_reserve_memory`. -/
def checked (size : ℕ) : Bool := 0<size∧size<2^32∧size%PG_SIZE4K=0

/-- How often the loops may go round. -/
def Dmm.rounds (s : Dmm) : ℕ := 2*s.tableSize+2

/-- A call. There is none when a loop of it does not end in time or reads
beyond the table. -/
def step (s : State) : Event → Option State
  | .reserve size => do
    let (t,addr) ← s.dmm.dmmReserveMemory s.dmm.rounds size
    match addr with
    | some a => return ⟨t,⟨t.addrToIndex a,size/PG_SIZE4K⟩::s.live⟩
    | none => return ⟨t,s.live⟩
  | .unReserve rsvAddr => do
    let (t,_) ← s.dmm.dmmUnReserveMemory s.dmm.rounds rsvAddr
    return ⟨t,s.live.filter fun b => b.start≠s.dmm.addrToIndex rsvAddr⟩
  | .map addr size => some ⟨(s.dmm.dmmMapMemory addr size).1,s.live⟩
  | .unMap addr => some ⟨(s.dmm.dmmUnMapMemory addr).1,s.live⟩

/-- Sizes to reserve have been checked. -/
def Event.ok : Event → Bool
  | .reserve size => checked size
  | _ => true

end ArdroneKernel.DspDmm
