import ArdroneKernel.UbifsLprops
import Mathlib.Data.Int.Notation
import Mathlib.Logic.Function.Basic

/-!
# The in-the-gaps method of the TNC commit

`layout_in_gaps` of `fs/ubifs/tnc_commit.c` with the search of `find.c` for
dirty index LEBs. When there are too few empty LEBs, index nodes go into the
gaps that obsolete nodes leave in index LEBs. The LEBs taken for that are noted
in an array, from which `return_gap_lebs` gives them back.
-/

namespace ArdroneKernel.UbifsGaps

open UbifsLprops

/-- What `is_idx_node_in_use` says of an index node on flash. -/
inductive InUse where
  /-- 0: the node is in neither index. -/
  | obsolete
  /-- 1: the node is in the old index only. -/
  | old
  /-- 2: the node is in the index. -/
  | clean
  deriving DecidableEq

/-- An index node that the scan of a LEB finds. -/
structure ScanNode where
  offs : ℕ
  len : ℕ
  inUse : InUse

/-- What a commit starts from and does not change. -/
structure Env where
  /-- `leb_size`. -/
  lebSize : ℕ
  /-- `min_io_size`. -/
  minIoSize : ℕ
  /-- `min_idx_node_sz`. -/
  minIdxNodeSz : ℕ
  /-- `max_idx_node_sz`. -/
  maxIdxNodeSz : ℕ
  /-- `key_len`. -/
  keyLen : ℕ
  /-- `ihead_offs`. -/
  iheadOffs : ℕ
  /-- `ileb_cnt`. -/
  ilebCnt : ℕ
  /-- The index nodes of a LEB. -/
  nodes : ℕ → List ScanNode
  /-- The LEBs in the order in which one call sees their properties: those of the heap and the
  lists first, then the others. -/
  search : ℕ → List ℕ
  /-- Reading, scanning or writing the LEB that one call takes fails. -/
  fails : ℕ → Bool
  /-- One more than the last LEB of the main area. -/
  lebCnt : ℕ
  /-- Only LEBs of the main area are seen. -/
  search_lt : ∀ k,∀ lnum∈search k,lnum<lebCnt

/-- What the commit changes. -/
structure State where
  /-- The properties of a LEB. -/
  lprops : ℕ → Lprops
  /-- `lst.idx_lebs`. -/
  idxLebs : ℕ
  /-- `dirty_idx.arr`, its last entry first. -/
  dirtyIdx : List ℕ
  /-- `idx_gc`: the LEBs that wait for trivial garbage collection. -/
  idxGc : List ℕ
  /-- The children of the znodes from `enext` on. -/
  enext : List ℕ

/-- `ubifs_change_one_lp` -/
def ubifsChangeOneLp (s : State) (lnum : ℕ) (free dirty : Option ℕ) (flags : Flags → Flags) :
    State :=
  let lp := s.lprops lnum
  let lp' : Lprops := ⟨free.elim lp.free fun x => (x+7)/8*8,dirty.elim lp.dirty fun x => (x+7)/8*8,
    flags lp.flags⟩
  {s with
    lprops := Function.update s.lprops lnum lp'
    idxLebs := if lp.flags.index=lp'.flags.index then s.idxLebs
      else if lp'.flags.index then s.idxLebs+1 else s.idxLebs-1}

/-- `lp->flags | LPROPS_TAKEN` -/
def setTaken (f : Flags) : Flags := {f with taken := true}

/-- `lp->flags | LPROPS_INDEX` -/
def setIndex (f : Flags) : Flags := {f with index := true}

/-- `lp->flags & ~LPROPS_TAKEN` -/
def clearTaken (f : Flags) : Flags := {f with taken := false}

/-! ## Finding a LEB -/

/-- The loop of `find_dirtiest_idx_leb`, with what it leaves of the array. -/
def dirtiest (lprops : ℕ → Lprops) : List ℕ → Option ℕ×List ℕ
  | [] => (none,[])
  | lnum::arr =>
    if (lprops lnum).flags.taken∨¬(lprops lnum).flags.index then dirtiest lprops arr
    else (some lnum,arr)

/-- `find_dirtiest_idx_leb` -/
def findDirtiestIdxLeb (s : State) : Option ℕ×State :=
  match dirtiest s.lprops s.dirtyIdx with
  | (none,arr) => (none,{s with dirtyIdx := arr})
  | (some lnum,arr) =>
    (some lnum,ubifsChangeOneLp {s with dirtyIdx := arr} lnum none none setTaken)

/-- `scan_dirty_idx_cb` stops at these properties. -/
def scanDirtyIdxStops (env : Env) (lp : Lprops) : Bool :=
  !lp.flags.taken&&lp.flags.index&&decide (env.minIdxNodeSz≤lp.free+lp.dirty)

/-- `find_dirty_idx_leb` -/
def findDirtyIdxLeb (env : Env) (k : ℕ) (s : State) : Option ℕ×State :=
  match (env.search k).find? fun lnum => scanDirtyIdxStops env (s.lprops lnum) with
  | none => (none,s)
  | some lnum => (some lnum,ubifsChangeOneLp s lnum none none setTaken)

/-- `get_idx_gc_leb` -/
def getIdxGcLeb (s : State) : Option ℕ×State :=
  match s.idxGc with
  | [] => (none,s)
  | lnum::rest => (some lnum,ubifsChangeOneLp {s with idxGc := rest} lnum none none setIndex)

/-- `ubifs_find_dirty_idx_leb`, none being `-ENOSPC`. -/
def ubifsFindDirtyIdxLeb (env : Env) (k : ℕ) (s : State) : Option ℕ×State :=
  match findDirtiestIdxLeb s with
  | (some lnum,s) => (some lnum,s)
  | (none,s) =>
    match findDirtyIdxLeb env k s with
    | (some lnum,s) => (some lnum,s)
    | (none,s) => getIdxGcLeb s

/-! ## Filling gaps -/

/-- `ALIGN` -/
def align (x a : ℕ) : ℕ := (x+a-1)/a*a

/-- `ubifs_idx_node_sz`: a header of 28 bytes, and branches of 12 bytes and a key. -/
def ubifsIdxNodeSz (env : Env) (childCnt : ℕ) : ℕ := 28+(12+env.keyLen)*childCnt

/-- Where the layout of a LEB stands. -/
structure Layout where
  /-- `tot_written`. -/
  written : ℕ
  /-- `dirt`. -/
  dirt : ℕ
  /-- `ileb_len`. -/
  ilebLen : ℕ
  /-- `gap_start`. -/
  gapStart : ℕ
  /-- The children of the znodes from `enext` on. -/
  enext : List ℕ

/-- The loop of `fill_gap`: the nodes written, what remains of the gap and of the znodes. -/
def fillLoop (env : Env) : List ℕ → ℕ → ℕ×ℕ×List ℕ
  | [], gapRemains => (0,gapRemains,[])
  | childCnt::enext, gapRemains =>
    let len := ubifsIdxNodeSz env childCnt
    if len<gapRemains then
      let r := fillLoop env enext (gapRemains-align len 8)
      (r.1+1,r.2)
    else (0,gapRemains,childCnt::enext)

/-- `fill_gap` -/
def fillGap (env : Env) (gapEnd : ℕ) (l : Layout) : Layout :=
  let gap := gapEnd-l.gapStart
  if gap=0 then l
  else
    let (written,gapRemains,enext) := fillLoop env l.enext gap
    let gapPos := gapEnd-gapRemains
    let ilebLen := if gapEnd=env.lebSize then align gapPos env.minIoSize else l.ilebLen
    let padLen := if gapEnd=env.lebSize then ilebLen-gapPos else gapRemains
    {l with written := l.written+written,dirt := l.dirt+padLen,ilebLen := ilebLen,enext := enext}

/-- The loop of `layout_leb_in_gaps` over the nodes of a LEB. -/
def layoutNodes (env : Env) : List ScanNode → Layout → Layout
  | [], l => l
  | snod::nodes, l =>
    match snod.inUse with
    | .obsolete => layoutNodes env nodes l
    | .old =>
      layoutNodes env nodes {fillGap env snod.offs {l with dirt := l.dirt+align snod.len 8} with
        gapStart := align (snod.offs+snod.len) 8}
    | .clean =>
      layoutNodes env nodes {fillGap env snod.offs l with
        gapStart := align (snod.offs+snod.len) 8}

/-- The gaps of a LEB are filled, the one at its end last. -/
def layoutLeb (env : Env) (lnum : ℕ) (enext : List ℕ) : Layout :=
  fillGap env env.lebSize
    {layoutNodes env (env.nodes lnum) ⟨0,0,0,0,enext⟩ with ilebLen := env.lebSize}

/-! ## The loop -/

/-- The commit with the array of LEBs that it takes. -/
structure Progress where
  /-- LEB properties and znodes. -/
  st : State
  /-- `gap_lebs`. -/
  gapLebs : ℕ → ℤ
  /-- The entries of the array written so far. -/
  touched : List ℕ
  /-- The LEBs taken so far. -/
  took : List ℕ

/-- `*p = x` -/
def Progress.write (w : Progress) (p : ℕ) (x : ℤ) : Progress :=
  {w with gapLebs := Function.update w.gapLebs p x,touched := p::w.touched}

/-- How `layout_leb_in_gaps` ends. -/
inductive Laid where
  /-- So many index nodes are written. -/
  | wrote (cnt : ℕ)
  /-- `-ENOSPC`. -/
  | noSpace
  /-- Another error. -/
  | failed
  deriving DecidableEq

/-- What a laid out LEB does to LEB properties. -/
def noteLayout (env : Env) (s : State) (lnum : ℕ) (l : Layout) : State :=
  if l.written=0∧(s.lprops lnum).free≠env.lebSize then {s with enext := l.enext}
  else
    {ubifsChangeOneLp s lnum (some (env.lebSize-l.ilebLen)) (some l.dirt) id with
      enext := l.enext}

/-- `layout_leb_in_gaps`, called with the pointer at entry `p`. -/
def layoutLebInGaps (env : Env) (p : ℕ) (w : Progress) : Laid×Progress :=
  match ubifsFindDirtyIdxLeb env p w.st with
  | (none,s) => (.noSpace,{w with st := s})
  | (some lnum,s) =>
    let w := {w with st := s,took := w.took++[lnum]}.write p lnum
    if env.fails p then (.failed,w)
    else
      let l := layoutLeb env lnum s.enext
      (.wrote l.written,{w with st := noteLayout env s lnum l})

/-- `get_leb_cnt` -/
def getLebCnt (env : Env) (cnt : ℤ) : ℕ :=
  let cnt := (cnt-((env.lebSize-env.iheadOffs)/env.maxIdxNodeSz : ℕ)).toNat
  let d := env.lebSize/env.maxIdxNodeSz
  (cnt+d-1)/d

/-- The loop of `layout_in_gaps`; the answer tells whether it succeeds. -/
def gapLoop (env : Env) : ℕ → ℕ → ℤ → Progress → Option (Bool×Progress)
  | 0, _, _, _ => none
  | fuel+1, p, cnt, w =>
    match layoutLebInGaps env p w with
    | (.failed,w) => some (false,w)
    | (.noSpace,w) => some (true,w.write p (-1))
    | (.wrote written,w) =>
      if env.ilebCnt<getLebCnt env (cnt-written) then gapLoop env fuel (p+1) (cnt-written) w
      else some (true,w.write (p+1) (-1))

/-- `layout_in_gaps` -/
def layoutInGaps (env : Env) (fuel : ℕ) (s : State) (cnt : ℤ) : Option (Bool×Progress) :=
  gapLoop env fuel 0 cnt ⟨s,fun _ => 0,[],[]⟩

/-- The loop of `return_gap_lebs`. -/
def returnGapLebs (gapLebs : ℕ → ℤ) : ℕ → ℕ → State → Option State
  | 0, _, _ => none
  | fuel+1, p, s =>
    if gapLebs p=-1 then some s
    else returnGapLebs gapLebs fuel (p+1)
      (ubifsChangeOneLp s (gapLebs p).toNat none none clearTaken)

/-! ## What the loop promises -/

/-- The loop ends, writes inside the array of `idx_lebs + 1` entries, and what it takes is
given back. -/
def SafeInGaps (env : Env) (s : State) (cnt : ℤ) : Prop :=
  ∃ fuel ok w,layoutInGaps env fuel s cnt=some (ok,w)∧
    (∀ p∈w.touched,p<s.idxLebs+1)∧
    (ok=true → ∃ n s',returnGapLebs w.gapLebs n 0 w.st=some s'∧
      ∀ lnum,(s'.lprops lnum).flags.taken=
        if lnum∈w.took then false else (s.lprops lnum).flags.taken)

/-- So many LEBs that the search finds one after another, when there are that many. -/
def picks (env : Env) : ℕ → ℕ → State → Option (List ℕ)
  | 0, _, _ => some []
  | n+1, k, s =>
    match ubifsFindDirtyIdxLeb env k s with
    | (none,_) => none
    | (some lnum,s) => (picks env n (k+1) s).map fun lebs => lnum::lebs

/-- The number of znodes that go into the gaps of some LEBs. -/
def placed (env : Env) : List ℕ → List ℕ → ℕ
  | [], _ => 0
  | lnum::lebs, enext =>
    (layoutLeb env lnum enext).written+placed env lebs (layoutLeb env lnum enext).enext

/-- More than `n` LEBs can be taken, none of the first fails, and the gaps of `n` of them do not
take enough. -/
def Overruns (env : Env) (n k : ℕ) (s : State) (enext : List ℕ) (cnt : ℤ) : Prop :=
  ∃ lebs,picks env (n+1) k s=some lebs∧(∀ i≤ n,env.fails (k+i)=false)∧
    (n=0∨env.ilebCnt<getLebCnt env (cnt-placed env (lebs.take n) enext))

end ArdroneKernel.UbifsGaps
