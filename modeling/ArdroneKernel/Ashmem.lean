import ArdroneKernel.Execution
import Mathlib.Order.Interval.Finset.Nat

/-!
# Pinning of ashmem pages

Each area has a list of ranges of unpinned pages. The ranges that were not
purged are also on a list shared by all areas, from which memory is reclaimed.
A range is an object at an address, so that both lists see its changes.
-/

namespace ArdroneKernel.Ashmem

/-- `struct ashmem_range`, without its links. -/
structure Range where
  asma : ℕ
  /-- The first page. -/
  pgstart : ℕ
  /-- The last page. -/
  pgend : ℕ
  /-- `ASHMEM_WAS_PURGED` -/
  purged : Bool
deriving DecidableEq

/-- `range_size` -/
def Range.size (r : Range) : UInt32 := UInt32.ofNat (r.pgend+1-r.pgstart)

/-- `range_on_lru` -/
def Range.onLru (r : Range) : Bool := !r.purged

/-- `page_range_subsumes_range` -/
def Range.subsumedBy (r : Range) (pgstart pgend : ℕ) : Bool := r.pgstart≥pgstart∧r.pgend≤pgend

/-- `page_range_subsumed_by_range` -/
def Range.subsumes (r : Range) (pgstart pgend : ℕ) : Bool := r.pgstart≤pgstart∧r.pgend≥pgend

/-- `page_in_range` -/
def Range.has (r : Range) (page : ℕ) : Bool := r.pgstart≤page∧r.pgend≥page

/-- `page_range_in_range` -/
def Range.meets (r : Range) (pgstart pgend : ℕ) : Bool :=
  r.has pgstart||r.has pgend||r.subsumedBy pgstart pgend

/-- `range_before_page` -/
def Range.before (r : Range) (page : ℕ) : Bool := r.pgend<page

/-- The ranges, and the lists they are on. -/
structure State where
  range : ℕ → Range
  /-- `unpinned_list` of each area. -/
  unpinned : ℕ → List ℕ
  /-- `ashmem_lru_list` -/
  lru : List ℕ
  lruCount : UInt32

/-- `list_add_tail`: a new entry before another one, or last. -/
def listAddTail (new : ℕ) : Option ℕ → List ℕ → List ℕ
  | none, l => l++[new]
  | some _, [] => [new]
  | some prev, x::xs => if x=prev then new::x::xs else x::listAddTail new (some prev) xs

def lruAdd (s : State) (r : ℕ) : State :=
  { s with lru := listAddTail r none s.lru, lruCount := s.lruCount+(s.range r).size }

def lruDel (s : State) (r : ℕ) : State :=
  { s with lru := s.lru.erase r, lruCount := s.lruCount-(s.range r).size }

/-- A new range at an address, before a range of its area or last. -/
def rangeAlloc (s : State) (addr asma : ℕ) (prev : Option ℕ) (purged : Bool)
    (pgstart pgend : ℕ) : State :=
  let r : Range := ⟨asma,pgstart,pgend,purged⟩
  let s := { s with
    range := Function.update s.range addr r
    unpinned := Function.update s.unpinned asma (listAddTail addr prev (s.unpinned asma)) }
  if r.onLru then lruAdd s addr else s

def rangeDel (s : State) (r : ℕ) : State :=
  let asma := (s.range r).asma
  let s := { s with unpinned := Function.update s.unpinned asma ((s.unpinned asma).erase r) }
  if (s.range r).onLru then lruDel s r else s

def rangeShrink (s : State) (r pgstart pgend : ℕ) : State :=
  let pre := (s.range r).size
  let s := { s with
    range := Function.update s.range r { s.range r with pgstart := pgstart, pgend := pgend } }
  if (s.range r).onLru then { s with lruCount := s.lruCount-(pre-(s.range r).size) } else s

/-- The ranges of an area are deleted when its file is released. -/
def ashmemRelease (s : State) (asma : ℕ) : State := (s.unpinned asma).foldl rangeDel s

/-- The loop of `ashmem_shrink` over the ranges on the LRU list, with the
ranges of pages it truncates. -/
def shrinkLoop : List ℕ → Int32 → State → State×List Range
  | [], _, s => (s,[])
  | r::rs, nrToScan, s =>
    let truncated := s.range r
    let s := lruDel { s with range := Function.update s.range r { truncated with purged := true } } r
    let nrToScan := (nrToScan.toUInt32-(s.range r).size).toInt32
    if nrToScan≤0 then (s,[truncated])
    else
      let res := shrinkLoop rs nrToScan s
      (res.1,truncated::res.2)

/-- `gfpFs` tells whether `__GFP_FS` is set. -/
def ashmemShrink (s : State) (nrToScan : Int32) (gfpFs : Bool) : Int32×State×List Range :=
  if nrToScan≠0∧gfpFs=false then (-1,s,[])
  else if nrToScan=0 then (s.lruCount.toInt32,s,[])
  else
    let res := shrinkLoop s.lru nrToScan s
    (res.1.lruCount.toInt32,res)

/-- The loop of `ashmem_pin`. The result tells whether a page was purged. -/
def pinLoop (addr asma pgstart pgend : ℕ) : List ℕ → Bool → State → Bool×State
  | [], ret, s => (ret,s)
  | r::rs, ret, s =>
    let range := s.range r
    if range.before pgstart then (ret,s)
    else if range.meets pgstart pgend then
      let ret := ret||range.purged
      if range.subsumedBy pgstart pgend then
        pinLoop addr asma pgstart pgend rs ret (rangeDel s r)
      else if range.pgstart≥pgstart then
        pinLoop addr asma pgstart pgend rs ret (rangeShrink s r (pgend+1) range.pgend)
      else if range.pgend≤pgend then
        pinLoop addr asma pgstart pgend rs ret (rangeShrink s r range.pgstart (pgstart-1))
      else
        let s := rangeAlloc s addr asma (some r) range.purged (pgend+1) range.pgend
        (ret,rangeShrink s r range.pgstart (pgstart-1))
    else pinLoop addr asma pgstart pgend rs ret s

/-- `addr` is the address of a range that may be allocated. -/
def ashmemPin (s : State) (addr asma pgstart pgend : ℕ) : Bool×State :=
  pinLoop addr asma pgstart pgend (s.unpinned asma) false s

/-- How the loop of `ashmem_unpin` over the ranges of an area ends. -/
inductive Scan where
  /-- The pages are unpinned already. -/
  | subsumed
  /-- A range is merged with the request. -/
  | merge (r : ℕ)
  /-- The new range goes before this one, or last. -/
  | insert (prev : Option ℕ)

/-- The loop of `ashmem_unpin`, up to its next restart or its end. -/
def unpinScan (s : State) (pgstart pgend : ℕ) : List ℕ → Scan
  | [] => .insert none
  | r::rs =>
    if (s.range r).before pgstart then .insert (some r)
    else if (s.range r).subsumes pgstart pgend then .subsumed
    else if (s.range r).meets pgstart pgend then .merge r
    else unpinScan s pgstart pgend rs

/-- The restarts of `ashmem_unpin`: each one deletes a range. -/
def unpinLoop (addr asma : ℕ) : ℕ → ℕ → ℕ → Bool → State → Option State
  | 0, _, _, _, _ => none
  | fuel+1, pgstart, pgend, purged, s =>
    match unpinScan s pgstart pgend (s.unpinned asma) with
    | .subsumed => some s
    | .merge r =>
      unpinLoop addr asma fuel (min (s.range r).pgstart pgstart) (max (s.range r).pgend pgend)
        (purged||(s.range r).purged) (rangeDel s r)
    | .insert prev => some (rangeAlloc s addr asma prev purged pgstart pgend)

def ashmemUnpin (s : State) (addr asma pgstart pgend : ℕ) : Option State :=
  unpinLoop addr asma ((s.unpinned asma).length+1) pgstart pgend false s

/-- The loop of `ashmem_get_pin_status`: whether a page is unpinned. -/
def statusLoop (s : State) (pgstart pgend : ℕ) : List ℕ → Bool
  | [] => false
  | r::rs =>
    if (s.range r).before pgstart then false
    else if (s.range r).meets pgstart pgend then true
    else statusLoop s pgstart pgend rs

/-- True for `ASHMEM_IS_UNPINNED`. -/
def ashmemGetPinStatus (s : State) (asma pgstart pgend : ℕ) : Bool :=
  statusLoop s pgstart pgend (s.unpinned asma)

/-! ## Runs -/

/-- An operation. Pinning and unpinning take an address for a new range. -/
inductive Op where
  | pin (addr asma pgstart pgend : ℕ)
  | unpin (addr asma pgstart pgend : ℕ)
  | shrink (nrToScan : Int32) (gfpFs : Bool)
  | release (asma : ℕ)

/-- The ranges, with what was done to the pages of each area. -/
structure Session where
  state : State
  /-- The pages unpinned and not pinned since. -/
  pages : ℕ → Finset ℕ
  /-- The pages truncated since they were last unpinned. -/
  truncated : ℕ → Finset ℕ

def Session.start : Session :=
  ⟨⟨fun _ => ⟨0,0,0,false⟩,fun _ => [],[],0⟩,fun _ => ∅,fun _ => ∅⟩

/-- The pages of an area among ranges that were truncated. -/
def truncatedPages (rs : List Range) (asma : ℕ) : Finset ℕ :=
  rs.foldr (fun r pages => if r.asma=asma then Finset.Icc r.pgstart r.pgend∪pages else pages) ∅

/-- No range is at the address. -/
def Fresh (s : State) (addr : ℕ) : Prop := ∀ asma,addr∉s.unpinned asma

/-- An operation on the pages of a request. -/
def step (c : Session) : Op → Option Session
  | .pin addr asma pgstart pgend =>
    some { c with
      state := (ashmemPin c.state addr asma pgstart pgend).2
      pages := Function.update c.pages asma (c.pages asma\Finset.Icc pgstart pgend) }
  | .unpin addr asma pgstart pgend =>
    (ashmemUnpin c.state addr asma pgstart pgend).map fun s =>
      ⟨s,Function.update c.pages asma (c.pages asma∪Finset.Icc pgstart pgend),
        Function.update c.truncated asma (c.truncated asma\Finset.Icc pgstart pgend)⟩
  | .shrink nrToScan gfpFs =>
    let res := ashmemShrink c.state nrToScan gfpFs
    some ⟨res.2.1,c.pages,fun asma => c.truncated asma∪truncatedPages res.2.2 asma⟩
  | .release asma =>
    some ⟨ashmemRelease c.state asma,Function.update c.pages asma ∅,
      Function.update c.truncated asma ∅⟩

/-- The requests of the driver: an interval of pages, and memory that is not in use. -/
def Admitted (c : Session) : Op → Prop
  | .pin addr _ pgstart pgend => Fresh c.state addr∧pgstart≤pgend
  | .unpin addr _ pgstart pgend => Fresh c.state addr∧pgstart≤pgend
  | .shrink _ _ => True
  | .release _ => True

end ArdroneKernel.Ashmem
