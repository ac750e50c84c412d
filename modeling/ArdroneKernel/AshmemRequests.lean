import ArdroneKernel.Ashmem

/-!
# Requests for ashmem pages

Executable model of `ashmem_pin_unpin`, with its checks in 32-bit arithmetic,
and of `ashmem_pin` and `ashmem_unpin` when no memory is left for a range.
-/

namespace ArdroneKernel.AshmemRequests

open Ashmem

def EINVAL : ℤ := 22
def EFAULT : ℤ := 14
def ENOMEM : ℤ := 12

/-- `PAGE_SIZE` -/
def PAGE_SIZE : UInt32 := 4096

/-- `PAGE_MASK` -/
def PAGE_MASK : UInt32 := ~~~(PAGE_SIZE-1)

/-- `PAGE_ALIGN` -/
def pageAlign (addr : UInt32) : UInt32 := (addr+(PAGE_SIZE-1))&&&PAGE_MASK

/-! ## Ranges without memory -/

/-- What a function returns, and the ranges it leaves. -/
structure Outcome (α : Type) where
  /-- What is returned. -/
  ret : α
  /-- The ranges. -/
  state : State
  /-- `kmem_cache_zalloc` was called, and failed. -/
  refused : Bool

/-- `range_alloc`, with what `kmem_cache_zalloc` returns. -/
def tryRangeAlloc (s : State) (mem : Option ℕ) (asma : ℕ) (prev : Option ℕ) (purged : Bool)
    (pgstart pgend : ℕ) : Outcome ℤ :=
  match mem with
  | none => ⟨-ENOMEM,s,true⟩
  | some addr => ⟨0,rangeAlloc s addr asma prev purged pgstart pgend,false⟩

/-- The loop of `ashmem_pin`; it does not look at what `range_alloc` returns. -/
def tryPinLoop (mem : Option ℕ) (asma pgstart pgend : ℕ) :
    List ℕ → Bool → State → Outcome Bool
  | [], ret, s => ⟨ret,s,false⟩
  | r::rs, ret, s =>
    let range := s.range r
    if range.before pgstart then ⟨ret,s,false⟩
    else if range.meets pgstart pgend then
      let ret := ret||range.purged
      if range.subsumedBy pgstart pgend then
        tryPinLoop mem asma pgstart pgend rs ret (rangeDel s r)
      else if range.pgstart≥pgstart then
        tryPinLoop mem asma pgstart pgend rs ret (rangeShrink s r (pgend+1) range.pgend)
      else if range.pgend≤pgend then
        tryPinLoop mem asma pgstart pgend rs ret (rangeShrink s r range.pgstart (pgstart-1))
      else
        let o := tryRangeAlloc s mem asma (some r) range.purged (pgend+1) range.pgend
        ⟨ret,rangeShrink o.state r range.pgstart (pgstart-1),o.refused⟩
    else tryPinLoop mem asma pgstart pgend rs ret s

/-- `ashmem_pin` -/
def tryAshmemPin (s : State) (mem : Option ℕ) (asma pgstart pgend : ℕ) : Outcome Bool :=
  tryPinLoop mem asma pgstart pgend (s.unpinned asma) false s

/-- The restarts of `ashmem_unpin`. -/
def tryUnpinLoop (mem : Option ℕ) (asma : ℕ) :
    ℕ → ℕ → ℕ → Bool → State → Option (Outcome ℤ)
  | 0, _, _, _, _ => none
  | fuel+1, pgstart, pgend, purged, s =>
    match unpinScan s pgstart pgend (s.unpinned asma) with
    | .subsumed => some ⟨0,s,false⟩
    | .merge r =>
      tryUnpinLoop mem asma fuel (min (s.range r).pgstart pgstart) (max (s.range r).pgend pgend)
        (purged||(s.range r).purged) (rangeDel s r)
    | .insert prev => some (tryRangeAlloc s mem asma prev purged pgstart pgend)

/-- `ashmem_unpin` -/
def tryAshmemUnpin (s : State) (mem : Option ℕ) (asma pgstart pgend : ℕ) : Option (Outcome ℤ) :=
  tryUnpinLoop mem asma ((s.unpinned asma).length+1) pgstart pgend false s

/-! ## The checks of a request -/

/-- `struct ashmem_pin` -/
structure Pin where
  /-- `offset`, in bytes. -/
  offset : UInt32
  /-- `len`, in bytes. -/
  len : UInt32

/-- `ASHMEM_PIN`, `ASHMEM_UNPIN` and `ASHMEM_GET_PIN_STATUS`. -/
inductive Cmd where
  | pin
  | unpin
  | getPinStatus
deriving DecidableEq

/-- The checks of `ashmem_pin_unpin`, with the first and the last page. -/
def pinPages (size : UInt32) (pin : Pin) : Except ℤ (UInt32×UInt32) :=
  let len := if pin.len=0 then pageAlign size-pin.offset else pin.len
  if (pin.offset|||len)&&&~~~PAGE_MASK≠0 then .error (-EINVAL)
  else if -1-pin.offset<len then .error (-EINVAL)
  else if pageAlign size<pin.offset+len then .error (-EINVAL)
  else
    let pgstart := pin.offset/PAGE_SIZE
    .ok (pgstart,pgstart+len/PAGE_SIZE-1)

/-- `ashmem_pin_unpin`: `file` tells whether the area has a backing file, and
`copied` whether the request could be copied. -/
def ashmemPinUnpin (s : State) (file copied : Bool) (size : UInt32) (mem : Option ℕ) (asma : ℕ)
    (cmd : Cmd) (pin : Pin) : Option (Outcome ℤ) :=
  if ¬file then some ⟨-EINVAL,s,false⟩
  else if ¬copied then some ⟨-EFAULT,s,false⟩
  else
    match pinPages size pin with
    | .error err => some ⟨err,s,false⟩
    | .ok (pgstart,pgend) =>
      match cmd with
      | .pin =>
        let o := tryAshmemPin s mem asma pgstart.toNat pgend.toNat
        some ⟨if o.ret then 1 else 0,o.state,o.refused⟩
      | .unpin => tryAshmemUnpin s mem asma pgstart.toNat pgend.toNat
      | .getPinStatus =>
        some ⟨if ashmemGetPinStatus s asma pgstart.toNat pgend.toNat then 0 else 1,s,false⟩

/-! ## Reclaiming -/

/-- `start` in `ashmem_shrink`. -/
def shrinkStart (r : Range) : UInt32 := UInt32.ofNat r.pgstart*PAGE_SIZE

/-- `end` in `ashmem_shrink`. -/
def shrinkEnd (r : Range) : UInt32 := (UInt32.ofNat r.pgend+1)*PAGE_SIZE-1

/-! ## Runs -/

/-- A call of the driver. -/
inductive Call where
  | pinUnpin (file copied : Bool) (mem : Option ℕ) (asma : ℕ) (cmd : Cmd) (pin : Pin)
  | shrink (nrToScan : Int32) (gfpFs : Bool)
  | release (asma : ℕ)

/-- Areas of some sizes, which do not change once an area has a backing file. -/
def callStep (size : ℕ → UInt32) (s : State) : Call → Option State
  | .pinUnpin file copied mem asma cmd pin =>
    (ashmemPinUnpin s file copied (size asma) mem asma cmd pin).map Outcome.state
  | .shrink nrToScan gfpFs => some (ashmemShrink s nrToScan gfpFs).2.1
  | .release asma => some (ashmemRelease s asma)

/-- A request is not the empty one at the end of the area. -/
def Named (size : UInt32) (pin : Pin) : Prop := ¬(pin.len=0∧pin.offset=pageAlign size)

instance (size : UInt32) (pin : Pin) : Decidable (Named size pin) :=
  inferInstanceAs (Decidable ¬(pin.len=0∧pin.offset=pageAlign size))

/-- Memory for a range is not in use, and requests are not empty. -/
def CallOk (size : ℕ → UInt32) (s : State) : Call → Prop
  | .pinUnpin _ _ mem asma _ pin => (∀ addr,mem=some addr → Fresh s addr)∧Named (size asma) pin
  | .shrink _ _ => True
  | .release _ => True

end ArdroneKernel.AshmemRequests
