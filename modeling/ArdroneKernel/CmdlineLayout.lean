import ArdroneKernel.CmdlineParts
import Mathlib.Data.List.Forall2

/-!
# Where partitions of the command line lie

What the definitions of a device say about its partitions in exact arithmetic, and when
the partitions that drivers are given are these: for one call, and for calls for any
devices one after the other, which find what earlier calls have changed.
-/

namespace ArdroneKernel.CmdlineLayout

open CmdlineParts

/-! ## What is parsed -/

/-- What is true of the partitions of a device that was parsed. -/
def Parsed : List MtdPartition → Prop
  | [] => True
  | p::parts =>
    (0<p.size∧p.size<2^32)∧p.offset<2^32∧(p.size=SIZE_REMAINING → parts=[])∧Parsed parts

theorem readSize_bounds {s : List Char} {r : ℕ×List Char} (h : readSize s=some r) :
    0<r.1∧r.1<2^32 := by
  unfold readSize at h
  split at h
  · cases h
    exact (by decide : 0<SIZE_REMAINING∧SIZE_REMAINING<2^32)
  · dsimp only at h
    split_ifs at h with hsize
    cases h
    unfold PAGE_SIZE at hsize
    omega

theorem readOffset_lt (s : List Char) : (readOffset s).1<2^32 := by
  unfold readOffset
  split
  · exact Nat.mod_lt _ (by decide)
  · exact (by decide : OFFSET_CONTINUOUS<2^32)

theorem newpart_parsed {kzalloc : Bool} {fuel : ℕ} {s : List Char} {thisPart extraMemSize : ℕ}
    {b : Built} (h : newpart kzalloc fuel s thisPart extraMemSize=some b) : Parsed b.parts := by
  induction fuel generalizing s thisPart extraMemSize b with
  | zero => cases h
  | succ fuel ih =>
    rw [newpart] at h
    split at h
    · cases h
    next size s1 hsize =>
    dsimp only at h
    split at h
    · cases h
    next name s2 hname =>
    have ⟨b',hb',heq⟩ := Option.map_eq_some_iff.mp h
    subst heq
    refine ⟨readSize_bounds hsize,readOffset_lt s1,?_⟩
    split at hb'
    · split_ifs at hb' with hfill
      exact ⟨fun hall => absurd hall hfill,ih hb'⟩
    · unfold allocParts at hb'
      split_ifs at hb'
      cases hb'
      exact ⟨fun _ => rfl,trivial⟩

theorem setup_parsed (kzalloc : ℕ → Bool) (cmdline : Option (List Char)) :
    ∀ d∈(mtdpartSetupReal kzalloc cmdline).2,Parsed d.parts := by
  cases cmdline with
  | none => exact fun _ => nofun
  | some s => exact setupLoop_forall (fun _ _ _ _ _ => newpart_parsed) fun _ => nofun

/-! ## What the definitions say -/

/-- A partition without an offset begins where the one before it ends. -/
def place (before : ℕ) (p : MtdPartition) : MtdPartition :=
  {p with offset := if p.offset=OFFSET_CONTINUOUS then before else p.offset}

/-- The partitions in exact arithmetic. A fill-up partition ends with the flash. One that
exceeds the flash is truncated and is the last, and where the flash ends nothing begins. -/
def layout (masterSize : ℕ) : ℕ → List MtdPartition → List MtdPartition
  | _,[] => []
  | before,p::parts =>
    let q := place before p
    if p.size=SIZE_REMAINING then [{q with size := masterSize-q.offset}]
    else if masterSize≤q.offset then []
    else if masterSize<q.offset+q.size then [{q with size := masterSize-q.offset}]
    else q::layout masterSize (q.offset+q.size) parts

/-- The partitions that are returned are those of the definitions, and lie in the flash. -/
structure Right (masterSize before : ℕ) (parts returned : List MtdPartition) : Prop where
  laidOut : returned=layout masterSize before parts
  inside : ∀ q∈returned,q.offset+q.size≤ masterSize

/-- No partition exceeds the flash or is filled up from beyond its end, and none without an
offset begins where the offset has no 32 bits. -/
def Fits (masterSize : ℕ) : ℕ → List MtdPartition → Prop
  | _,[] => True
  | before,p::parts =>
    let q := place before p
    (p.offset=OFFSET_CONTINUOUS → before<2^32)∧
      if p.size=SIZE_REMAINING then q.offset≤ masterSize
      else masterSize≤q.offset∨
        q.offset+q.size≤ masterSize∧Fits masterSize (q.offset+q.size) parts

/-! ## One call -/

variable {M o : ℕ} {p : MtdPartition} {parts : List MtdPartition}

theorem place_lt (ho : o<2^32) (hp : p.offset<2^32) : (place o p).offset<2^32 := by
  unfold place
  split_ifs
  · exact ho
  · exact hp

theorem fixParts_fill (hM : M<2^64) (ho : o<2^32) (hp : p.offset<2^32)
    (hfill : p.size=SIZE_REMAINING) : fixParts M o [p]=
      [{place o p with size := (M+2^64-(place o p).offset)%2^64}] := by
  have hlt := place_lt ho hp
  have hplace : (if p.offset=OFFSET_CONTINUOUS then {p with offset := o} else p)=place o p := by
    unfold place
    split_ifs <;> rfl
  rw [fixParts,hplace]
  rw [Nat.mod_eq_of_lt hlt,if_pos (show (place o p).size=SIZE_REMAINING from hfill),if_neg]
  · rfl
  · dsimp only
    omega

theorem fixParts_cons (ho : o<2^32) (hp : p.offset<2^32) (hs : p.size<2^32)
    (hfill : p.size≠SIZE_REMAINING) : fixParts M o (p::parts)=
      if M<(place o p).offset+p.size then []
      else place o p::fixParts M (((place o p).offset+p.size)%2^32) parts := by
  have hlt := place_lt ho hp
  have hplace : (if p.offset=OFFSET_CONTINUOUS then {p with offset := o} else p)=place o p := by
    unfold place
    split_ifs <;> rfl
  rw [fixParts,hplace]
  rw [Nat.mod_eq_of_lt hlt,if_neg (show (place o p).size≠SIZE_REMAINING from hfill)]
  have hsum : ((place o p).offset+(place o p).size)%2^64=(place o p).offset+p.size := by
    refine Nat.mod_eq_of_lt ?_
    change (place o p).offset+p.size<2^64
    omega
  rw [hsum]
  rfl

/-- An offset that has lost its high bits is another one. -/
theorem place_wrapped (ho : ¬(p.offset=OFFSET_CONTINUOUS → o<2^32)) :
    (place (o%2^32) p).offset<(place o p).offset∧(place o p).offset=o∧
      (place (o%2^32) p).offset+2^32≤o := by
  have ⟨hc,hle⟩ := Classical.not_imp.mp ho
  have hplace : ∀ o,(place o p).offset=o := fun _ => if_pos hc
  rw [hplace,hplace]
  omega

theorem place_same (ho : p.offset=OFFSET_CONTINUOUS → o<2^32) : place (o%2^32) p=place o p := by
  unfold place
  split_ifs with hc
  · rw [Nat.mod_eq_of_lt (ho hc)]
  · rfl

theorem right_fill (hfill : p.size=SIZE_REMAINING) (hM : M<2^64) (hlt : (place o p).offset<2^32) :
    Right M o [p] [{place o p with size := (M+2^64-(place o p).offset)%2^64}] ↔
      (place o p).offset≤M := by
  have hlayout : layout M o [p]=[{place o p with size := M-(place o p).offset}] := if_pos hfill
  constructor
  · intro h
    have hin := h.inside _ (List.mem_singleton_self _)
    exact Nat.le_trans (Nat.le_add_right _ _) hin
  · intro hle
    have hsize : (M+2^64-(place o p).offset)%2^64=M-(place o p).offset := by omega
    rw [hsize]
    refine ⟨hlayout.symm,fun q hq => ?_⟩
    cases List.mem_singleton.mp hq
    exact Nat.le_of_eq (Nat.add_sub_cancel' hle)

theorem right_cons (hfill : p.size≠SIZE_REMAINING) (hpos : 0<p.size)
    (hle : (place o p).offset+p.size≤M) {l : List MtdPartition} :
    Right M o (p::parts) (place o p::l) ↔ Right M ((place o p).offset+p.size) parts l := by
  have hlayout : layout M o (p::parts)=
      place o p::layout M ((place o p).offset+p.size) parts := by
    rw [layout,if_neg hfill,if_neg (by omega),if_neg]
    · rfl
    · change ¬M<(place o p).offset+p.size
      omega
  constructor
  · rintro ⟨hlaid,hin⟩
    exact ⟨List.tail_eq_of_cons_eq (hlaid.trans hlayout),
      fun q hq => hin q (List.mem_cons_of_mem _ hq)⟩
  · rintro ⟨hlaid,hin⟩
    refine ⟨(congrArg _ hlaid).trans hlayout.symm,fun q hq => ?_⟩
    rcases List.mem_cons.mp hq with rfl|hq
    · exact hle
    · exact hin q hq

/-- A partition that exceeds the flash is kept if it begins in it. -/
theorem right_over (hfill : p.size≠SIZE_REMAINING) (hover : M<(place o p).offset+p.size) :
    Right M o (p::parts) [] ↔ M≤ (place o p).offset := by
  constructor
  · intro h
    refine Nat.not_lt.mp fun hin => ?_
    have hlaid := h.laidOut
    rw [layout,if_neg hfill,if_neg (Nat.not_le_of_lt hin),
      if_pos (show M<(place o p).offset+(place o p).size from hover)] at hlaid
    cases hlaid
  · intro hout
    refine ⟨?_,fun _ => nofun⟩
    rw [layout,if_neg hfill,if_pos hout]

/-- An offset of more than 32 bits is not kept. -/
theorem right_wrapped (hM : M<2^64) (ho : o≤M) (h : Parsed (p::parts))
    (hwrap : ¬(p.offset=OFFSET_CONTINUOUS → o<2^32)) :
    ¬Right M o (p::parts) (fixParts M (o%2^32) (p::parts)) := by
  have ⟨⟨hpos,hs⟩,hp,hlast,_⟩ := h
  have hmod := Nat.mod_lt o (show 0<2^32 by decide)
  have ⟨hlt,hstart,hle⟩ := place_wrapped hwrap
  intro hright
  have hhead : ∀ q l,fixParts M (o%2^32) (p::parts)=q::l →
      q.offset=(place (o%2^32) p).offset → False := by
    intro q l hcode hq
    have hlaid := hright.laidOut
    rw [hcode,layout] at hlaid
    split_ifs at hlaid <;>
      exact absurd (congrArg MtdPartition.offset (List.head_eq_of_cons_eq hlaid))
        (fun heq => Nat.ne_of_lt hlt (hq.symm.trans heq))
  by_cases hfill : p.size=SIZE_REMAINING
  · have hnil := hlast hfill
    subst hnil
    exact hhead _ _ (fixParts_fill hM hmod hp hfill) rfl
  · have hcode : fixParts M (o%2^32) (p::parts)=_ := fixParts_cons hmod hp hs hfill
    by_cases hover : M<(place (o%2^32) p).offset+p.size
    · have hlaid := hright.laidOut
      rw [hcode,layout] at hlaid
      split_ifs at hlaid
      omega
    · rw [if_neg hover] at hcode
      exact hhead _ _ hcode rfl

/-- One call returns what the definitions say exactly when these fit the flash. -/
theorem fixParts_right_iff (hM : M<2^64) (ho : o≤M) (h : Parsed parts) :
    Right M o parts (fixParts M (o%2^32) parts) ↔ Fits M o parts := by
  induction parts generalizing o with
  | nil => exact ⟨fun _ => trivial,fun _ => ⟨rfl,fun _ => nofun⟩⟩
  | cons p parts ih =>
    have ⟨⟨hpos,hs⟩,hp,hlast,hrest⟩ := h
    have hmod := Nat.mod_lt o (show 0<2^32 by decide)
    rw [Fits]
    by_cases hwrap : p.offset=OFFSET_CONTINUOUS → o<2^32
    swap
    · exact iff_of_false (right_wrapped hM ho h hwrap) fun hf => hwrap hf.1
    have hplace := place_same hwrap
    have hlt : (place o p).offset<2^32 := hplace▸place_lt hmod hp
    rw [and_iff_right hwrap]
    by_cases hfill : p.size=SIZE_REMAINING
    · have hnil := hlast hfill
      subst hnil
      rw [fixParts_fill hM hmod hp hfill,hplace,if_pos hfill]
      exact right_fill hfill hM hlt
    · rw [fixParts_cons hmod hp hs hfill,hplace,if_neg hfill]
      by_cases hover : M<(place o p).offset+p.size
      · rw [if_pos hover,right_over hfill hover]
        exact ⟨Or.inl,fun hf => hf.resolve_right fun hin => absurd hin.1 (Nat.not_le_of_lt hover)⟩
      · rw [if_neg hover,right_cons hfill hpos (Nat.not_lt.mp hover),ih (Nat.not_lt.mp hover) hrest]
        constructor
        · exact fun hf => Or.inr ⟨Nat.not_lt.mp hover,hf⟩
        · rintro (hout|hin)
          · omega
          · exact hin.2

/-- A partition that lies in the flash stays as it is. -/
theorem fixParts_keep {r : MtdPartition} {l : List MtdPartition} (hM : M<2^64)
    (hlt : r.offset<2^32) (hstart : r.offset=OFFSET_CONTINUOUS → r.offset=o)
    (hin : r.offset+r.size≤M) (hend : r.size=SIZE_REMAINING → r.offset+r.size=M) :
    fixParts M o (r::l)=r::fixParts M ((r.offset+r.size)%2^32) l := by
  have hplace : (if r.offset=OFFSET_CONTINUOUS then {r with offset := o} else r)=r := by
    split_ifs with hc
    · rw [←hstart hc]
    · rfl
  have hfill : (if r.size=SIZE_REMAINING then {r with size := (M+2^64-r.offset)%2^64} else r)=r := by
    split_ifs with hs
    · have hsize : (M+2^64-r.offset)%2^64=r.size := by
        omega
      rw [hsize]
    · rfl
  rw [fixParts,hplace,Nat.mod_eq_of_lt hlt,hfill,Nat.mod_eq_of_lt (by omega : r.offset+r.size<2^64),
    if_neg (Nat.not_lt.mpr hin)]

theorem place_continuous (ho : p.offset=OFFSET_CONTINUOUS → o<2^32)
    (h : (place o p).offset=OFFSET_CONTINUOUS) : (place o p).offset=o%2^32 := by
  unfold place at *
  split_ifs at * with hc
  · exact (Nat.mod_eq_of_lt (ho hc)).symm
  · exact absurd h hc

/-- A call finds the partitions as an earlier one left them. -/
theorem fixParts_again (hM : M<2^64) (h : Parsed parts) (hf : Fits M o parts) :
    fixParts M (o%2^32) (layout M o parts)=layout M o parts := by
  induction parts generalizing o with
  | nil => rfl
  | cons p parts ih =>
    have ⟨_,hp,_,hrest⟩ := h
    have ⟨hwrap,hf⟩ := hf
    have hmod := Nat.mod_lt o (show 0<2^32 by decide)
    have hlt : (place o p).offset<2^32 := place_same hwrap▸place_lt hmod hp
    rw [layout]
    split_ifs at hf ⊢ with hfill hout hover
    · have hend : (place o p).offset+(M-(place o p).offset)=M := Nat.add_sub_cancel' hf
      exact fixParts_keep (r := {place o p with size := M-(place o p).offset}) hM hlt
        (place_continuous hwrap) (Nat.le_of_eq hend) fun _ => hend
    · rfl
    · exact absurd (hf.resolve_left hout).1 (Nat.not_le_of_lt hover)
    · have ⟨hin,hf⟩ := hf.resolve_left hout
      rw [fixParts_keep hM hlt (place_continuous hwrap) hin fun hs => absurd hs hfill]
      exact congrArg _ (ih hrest hf)

/-! ## Calls for any devices -/

/-- The device whose partitions a driver gets. -/
def deviceOf (partitions : List CmdlineMtdPartition) (m : Master) : Option CmdlineMtdPartition :=
  partitions.find? fun d => d.isFor m.name

variable {m : Master} {d : CmdlineMtdPartition} {chain l : List CmdlineMtdPartition}
  {cmdline : Option (List Char)} {kzalloc : ℕ → Bool}

theorem find_found (h : deviceOf chain m=some d) :
    (findPartitions m chain).1=m.copy (fixParts m.size 0 d.parts)∧
      deviceOf (findPartitions m chain).2 m=some {d with parts := fixParts m.size 0 d.parts} := by
  induction chain with
  | nil => cases h
  | cons x chain ih =>
    unfold deviceOf at h ih ⊢
    rw [List.find?_cons] at h
    rw [findPartitions]
    cases hx : x.isFor m.name with
    | true =>
      rw [hx] at h
      cases h
      exact ⟨rfl,List.find?_cons_of_pos hx⟩
    | false =>
      rw [hx] at h
      have ⟨hans,hfind⟩ := ih h
      refine ⟨hans,?_⟩
      exact (List.find?_cons_of_neg (by simp [hx])).trans hfind

/-- What each device may have been changed to. -/
def Changed (allowed : CmdlineMtdPartition → List MtdPartition → Prop)
    (d e : CmdlineMtdPartition) : Prop := e={d with parts := e.parts}∧allowed d e.parts

/-- A call gives its device the same partitions whatever earlier calls have changed. -/
theorem find_changed {allowed : CmdlineMtdPartition → List MtdPartition → Prop}
    (wanted : CmdlineMtdPartition → List MtdPartition)
    (hl : List.Forall₂ (Changed allowed) chain l)
    (hclosed : ∀ d,deviceOf chain m=some d → allowed d (wanted d)∧
      ∀ parts,allowed d parts → fixParts m.size 0 parts=wanted d) :
    (findPartitions m l).1=((deviceOf chain m).map fun d => m.copy (wanted d)).getD (0,none)∧
      List.Forall₂ (Changed allowed) chain (findPartitions m l).2 := by
  induction hl with
  | nil => exact ⟨rfl,.nil⟩
  | @cons d e chain l hd hl ih =>
    have hfor : e.isFor m.name=d.isFor m.name := by
      rw [hd.1]
      rfl
    unfold deviceOf at hclosed ih ⊢
    rw [List.find?_cons] at hclosed ⊢
    rw [findPartitions,hfor]
    cases hx : d.isFor m.name with
    | true =>
      rw [hx] at hclosed
      have ⟨hwanted,hfix⟩ := hclosed d rfl
      have heq := hfix e.parts hd.2
      rw [if_pos rfl,heq]
      refine ⟨rfl,.cons ⟨?_,hwanted⟩ hl⟩
      rw [hd.1]
    | false =>
      rw [hx] at hclosed
      have ⟨hans,hrest⟩ := ih hclosed
      exact ⟨hans,.cons hd hrest⟩

/-- Devices that get the same partitions from the definitions have these in the flash. -/
structure Alike (chain : List CmdlineMtdPartition) (calls : List Master) : Prop where
  fits : ∀ m∈calls,∀ d,deviceOf chain m=some d → Fits m.size 0 d.parts
  same : ∀ m∈calls,∀ m'∈calls,∀ d,deviceOf chain m=some d → deviceOf chain m'=some d →
    layout m.size 0 d.parts=layout m'.size 0 d.parts

/-- What a call returns. -/
def reply (chain : List CmdlineMtdPartition) (m : Master) : Answer :=
  ((deviceOf chain m).map fun d => m.copy (layout m.size 0 d.parts)).getD (0,none)

/-- What a device may have been changed to by some calls. -/
def Given (chain : List CmdlineMtdPartition) (calls : List Master) (d : CmdlineMtdPartition)
    (parts : List MtdPartition) : Prop :=
  parts=d.parts∨∃ m∈calls,deviceOf chain m=some d∧parts=layout m.size 0 d.parts

theorem fixParts_given {calls : List Master} (hsize : ∀ m∈calls,m.size<2^64)
    (hparsed : ∀ d∈chain,Parsed d.parts) (h : Alike chain calls) (hm : m∈calls)
    (hd : deviceOf chain m=some d) {parts : List MtdPartition} (hg : Given chain calls d parts) :
    fixParts m.size 0 parts=layout m.size 0 d.parts := by
  have hp := hparsed d (List.mem_of_find?_eq_some hd)
  have hf := h.fits m hm d hd
  rcases hg with rfl|⟨m',hm',hd',rfl⟩
  · exact ((fixParts_right_iff (hsize m hm) (Nat.zero_le _) hp).mpr hf).laidOut
  · rw [h.same m' hm' m hm d hd' hd]
    exact fixParts_again (hsize m hm) hp hf

theorem parseAll_given {calls done : List Master} (hsize : ∀ m∈calls,m.size<2^64)
    (hparsed : ∀ d∈chain,Parsed d.parts) (h : Alike chain calls) (hdone : ∀ m∈done,m∈calls)
    (hl : List.Forall₂ (Changed (Given chain calls)) chain l) :
    parseAll kzalloc done ⟨cmdline,true,l⟩=done.map (reply chain) := by
  induction done generalizing l with
  | nil => rfl
  | cons m done ih =>
    have hm := hdone m List.mem_cons_self
    have ⟨hans,hrest⟩ := find_changed (m := m) (fun d => layout m.size 0 d.parts) hl
      fun d hd => ⟨.inr ⟨m,hm,hd,rfl⟩,fun parts hg => fixParts_given hsize hparsed h hm hd hg⟩
    rw [List.map_cons,←ih (fun m hm => hdone m (List.mem_cons_of_mem _ hm)) hrest]
    exact congrArg (·::_) hans

theorem parseAll_alike {calls : List Master} (hsize : ∀ m∈calls,m.size<2^64)
    (h : Alike (mtdpartSetupReal kzalloc cmdline).2 calls) :
    parseAll kzalloc calls (State.start cmdline)=
      calls.map (reply (mtdpartSetupReal kzalloc cmdline).2) := by
  cases calls with
  | nil => rfl
  | cons m calls =>
    refine parseAll_given hsize (setup_parsed kzalloc cmdline) h (fun _ => id) ?_
    exact List.forall₂_same.mpr fun d _ => ⟨rfl,.inl rfl⟩

theorem copy_found (hk : m.kmemdup=true) (parts : List MtdPartition) :
    m.copy parts=gives parts := if_pos hk

/-- Two calls for one device. -/
theorem parseAll_twice (hk : m.kmemdup=true)
    (hd : deviceOf (mtdpartSetupReal kzalloc cmdline).2 m=some d) :
    let first := fixParts m.size 0 d.parts
    let second := fixParts m.size 0 first
    parseAll kzalloc [m,m] (State.start cmdline)=
      [gives first,gives second] := by
  intro first second
  have ⟨hans,hdev⟩ := find_found hd
  have hans' := (find_found hdev).1
  rw [copy_found hk] at hans hans'
  exact congrArg₂ (fun x y => [x,y]) hans hans'

/-- For every line, a driver that asks twice gets the partitions of the definitions, within
the flash and the same both times, exactly when these fit the flash. Whatever devices ask
and how often, they all get the partitions of the definitions if these fit the flash of each
and are the same for devices of one name. -/
theorem parsed_right_iff (kzalloc : ℕ → Bool) (s : List Char) :
    (∀ m : Master,m.size<2^64 → m.kmemdup=true →
      ∀ d,deviceOf (mtdpartSetupReal kzalloc (some s)).2 m=some d →
      ((∃ l,Right m.size 0 d.parts l∧parseAll kzalloc [m,m] (State.start (some s))=
        [gives l,gives l]) ↔ Fits m.size 0 d.parts))∧
    ∀ calls : List Master,(∀ m∈calls,m.size<2^64) →
      Alike (mtdpartSetupReal kzalloc (some s)).2 calls →
      ∀ (k : ℕ) (m : Master),calls[k]?=some m → m.kmemdup=true →
      ∀ d,deviceOf (mtdpartSetupReal kzalloc (some s)).2 m=some d →
        ∃ l,Right m.size 0 d.parts l∧
          (parseAll kzalloc calls (State.start (some s)))[k]?=some (gives l) := by
  have hparsed := setup_parsed kzalloc (some s)
  constructor
  · intro m hM hk d hd
    have hp := hparsed d (List.mem_of_find?_eq_some hd)
    have hiff := fixParts_right_iff hM (Nat.zero_le _) hp
    rw [parseAll_twice hk hd]
    constructor
    · rintro ⟨l,hr,heq⟩
      have hl := Option.some.inj (congrArg Prod.snd (List.head_eq_of_cons_eq heq))
      exact hiff.mp (hl▸hr)
    · intro hf
      have hr := hiff.mpr hf
      refine ⟨_,hr,?_⟩
      have hagain : fixParts m.size 0 (fixParts m.size 0 d.parts)=fixParts m.size 0 d.parts := by
        have hlaid : fixParts m.size 0 d.parts=layout m.size 0 d.parts := hr.laidOut
        rw [hlaid]
        exact fixParts_again hM hp hf
      exact congrArg (fun l => [gives (fixParts m.size 0 d.parts),gives l]) hagain
  · intro calls hsize halike k m hget hk d hd
    have hm := List.mem_of_getElem? hget
    have hp := hparsed d (List.mem_of_find?_eq_some hd)
    have hr := (fixParts_right_iff (hsize m hm) (Nat.zero_le _) hp).mpr (halike.fits m hm d hd)
    refine ⟨_,hr,?_⟩
    rw [parseAll_alike hsize halike,List.getElem?_map,hget,Option.map_some,reply,hd]
    refine congrArg some ((copy_found hk _).trans ?_)
    rw [hr.laidOut]

/-- A flash of one megabyte and a half, of which the second partition gets the rest. -/
theorem parsed_right_iff_example :
    let m : Master := ⟨some "nor".toList,1572864,true⟩
    ∃ l,Right m.size 0 [⟨78,1048576,OFFSET_CONTINUOUS,MTD_WRITEABLE⟩,
      ⟨64,SIZE_REMAINING,OFFSET_CONTINUOUS,0⟩] l∧
      (parseAll (fun _ => true) [m,m,m] (State.start (some "nor:1m(boot)ro,-;nand:64k".toList)))[2]?=
        some (gives l) := by
  intro m
  have hparts : (deviceOf (mtdpartSetupReal (fun _ => true)
      (some "nor:1m(boot)ro,-;nand:64k".toList)).2 m).map CmdlineMtdPartition.parts=
      some [⟨78,1048576,OFFSET_CONTINUOUS,MTD_WRITEABLE⟩,⟨64,SIZE_REMAINING,OFFSET_CONTINUOUS,0⟩] := by
    decide +kernel
  have hm : ∀ x∈[m,m,m],x=m := by simp
  have ⟨d,hd,hdparts⟩ := Option.map_eq_some_iff.mp hparts
  have hfits : Fits m.size 0 d.parts := by
    rw [hdparts]
    simp [Fits,place,SIZE_REMAINING,OFFSET_CONTINUOUS,m]
  rw [←hdparts]
  refine (parsed_right_iff (fun _ => true) "nor:1m(boot)ro,-;nand:64k".toList).2 [m,m,m] ?_ ⟨?_,?_⟩
    2 m rfl rfl d hd
  · intro x hx
    rw [hm x hx]
    decide
  · intro x hx e he
    rw [hm x hx] at he ⊢
    cases hd.symm.trans he
    exact hfits
  · intro x hx y hy e _ _
    rw [hm x hx,hm y hy]

/-- A partition that exceeds the flash is left out. -/
theorem exceeding_left_out :
    let m : Master := ⟨some "nor".toList,4096,true⟩
    (mtdpartSetupReal (fun _ => true) (some "nor:8k".toList)).1=true∧
      ∃ d,deviceOf (mtdpartSetupReal (fun _ => true) (some "nor:8k".toList)).2 m=some d∧
        ¬∃ l,Right m.size 0 d.parts l∧
          (parseAll (fun _ => true) [m] (State.start (some "nor:8k".toList)))[0]?=
            some (gives l) := by
  intro m
  have hparts : (deviceOf (mtdpartSetupReal (fun _ => true) (some "nor:8k".toList)).2 m).map
      CmdlineMtdPartition.parts=some [⟨32,8192,OFFSET_CONTINUOUS,0⟩] := by
    decide +kernel
  have ⟨d,hd,hdparts⟩ := Option.map_eq_some_iff.mp hparts
  refine ⟨by decide +kernel,d,hd,?_⟩
  rintro ⟨l,hr,hans⟩
  have hfound := (find_found hd).1
  rw [copy_found rfl,hdparts] at hfound
  have heq : gives (fixParts m.size 0 [⟨32,8192,OFFSET_CONTINUOUS,0⟩])=gives l :=
    Option.some.inj ((congrArg some hfound.symm).trans hans)
  have hl : [] = l := Option.some.inj (congrArg Prod.snd heq)
  have hlaid := hr.laidOut
  rw [←hl,hdparts] at hlaid
  cases hlaid

end ArdroneKernel.CmdlineLayout
