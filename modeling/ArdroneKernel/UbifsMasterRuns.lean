import ArdroneKernel.Execution
import ArdroneKernel.UbifsMasterWrites

/-!
# The master node over power cuts

Whatever is written and whenever the power is cut, the master node is found, if the
slots fill the LEBs and each LEB has two of them. If not, one cut is enough to lose it.
-/

namespace ArdroneKernel.UbifsMaster

open Execution

variable {g : Geometry} {s s' : State} {k : ℕ} {m : Mst}

/-- The last node that was written completely, or the one being written. -/
def State.Allowed (s : State) (rest : ℕ) : Prop := rest=s.last∨s.pending=some rest

/-- The next `ubifs_read_master` succeeds, with a node that is not older than the last
one that was written completely, and both LEBs hold the node in read-write mode. -/
def Survives (g : Geometry) (s : State) : Prop :=
  match s.memory with
  | .off => ∃ found,readMaster g s.slots=some found∧s.Allowed found.mst.rest
  | .ro found => s.Allowed found.mst.rest
  | .rw mstOffs => ∃ m,m.rest=s.last∧scanForMaster g s.slots=some (mstOffs,m)∧
    ∀ lnum,slotAt g (s.slots lnum) mstOffs=.node m true

/-! ## Invariant -/

/-- The node that is in memory and in both LEBs. -/
structure Held (g : Geometry) (s : State) (mstOffs k : ℕ) (m : Mst) : Prop where
  offs : mstOffs=k*g.alsz
  agree : Agree g s.slots k m

/-- What holds in each state. -/
structure Inv (g : Geometry) (s : State) : Prop where
  mapped : ∀ lnum,s.flash lnum=.mapped (s.slots lnum)
  shape : (∀ offs,s.memory≠.rw offs) → Shape g s.Allowed (s.slots false) (s.slots true)
  found : ∀ found,s.memory=.ro found → s.Allowed found.mst.rest∧
    ∀ offs m,found=.scanned offs m → ∃ k,Held g s offs k m
  held : ∀ offs,s.memory=.rw offs → s.pending=none∧∃ k m,Held g s offs k m∧m.rest=s.last

theorem slots_eq {lebs : Lnum → Slots} (hf : ∀ lnum,s.flash lnum=.mapped (lebs lnum)) :
    s.slots=lebs := by
  funext lnum
  unfold State.slots
  rw [hf lnum]
  rfl

theorem start_inv (h : g.Accepted) : Inv g (start m) where
  mapped _ := rfl
  shape _ := .same (last_start h) (last_start h) (.inl rfl)
  found _ heq := by cases heq
  held _ heq := by cases heq

/-- Both LEBs hold the node, and it can be written. -/
theorem inv_of_held {mstOffs : ℕ} (hmem : s.memory=.rw mstOffs)
    (hf : ∀ lnum,s.flash lnum=.mapped (s.slots lnum)) (hh : Held g s mstOffs k m)
    (hlast : m.rest=s.last) (hpend : s.pending=none) : Inv g s where
  mapped := hf
  shape hoff := absurd hmem (hoff mstOffs)
  found _ heq := by rw [hmem] at heq; cases heq
  held offs heq := by
    rw [hmem] at heq
    cases heq
    exact ⟨hpend,k,m,hh,hlast⟩

/-- The power is off. -/
theorem inv_of_shape (hmem : s.memory=.off) (hf : ∀ lnum,s.flash lnum=.mapped (s.slots lnum))
    (hs : Shape g s.Allowed (s.slots false) (s.slots true)) : Inv g s where
  mapped := hf
  shape _ := hs
  found _ heq := by rw [hmem] at heq; cases heq
  held _ heq := by rw [hmem] at heq; cases heq

theorem Inv.survives (h : g.Accepted) (hdvd : g.alsz∣g.lebSize) (hi : Inv g s) : Survives g s := by
  unfold Survives
  cases hmem : s.memory with
  | off =>
    have hs := hi.shape fun offs heq => by rw [hmem] at heq; cases heq
    have ⟨found,hread,hok,_⟩ := hs.read h hdvd
    exact ⟨found,hread,hok⟩
  | ro found => exact (hi.found found hmem).1
  | rw offs =>
    have ⟨_,k,m,hh,hlast⟩ := hi.held offs hmem
    have hoffs := hh.offs
    subst hoffs
    refine ⟨m,hlast,hh.agree.scanForMaster h,fun lnum => ?_⟩
    rw [slotAt_mul h,(hh.agree lnum).last]

/-! ## Steps -/

/-- `ubifs_write_master` -/
theorem Inv.write (h : g.Accepted) (hi : Inv g s) {mstOffs : ℕ} (hmem : s.memory=.rw mstOffs)
    (m' : Mst) : Inv g {s with
      flash := (writeMaster g mstOffs m').foldl (apply g) s.flash
      memory := .rw (nextOffs g mstOffs)
      last := m'.rest } := by
  have ⟨hpend,k,m,hh,_⟩ := hi.held mstOffs hmem
  have ⟨lebs,hf,ha⟩ := write_agree h hi.mapped hh.agree m'
  rw [←hh.offs] at hf
  refine inv_of_held (k := nextSlot g k) (m := m') rfl (fun lnum => ?_) ⟨?_,?_⟩ rfl hpend
  · rw [slots_eq hf]
    exact hf lnum
  · rw [hh.offs]
    exact nextOffs_eq h (hh.agree false).fits
  · rw [slots_eq hf]
    exact ha

/-- `ubifs_write_master`, with a power cut. -/
theorem Inv.writeCut (h : g.Accepted) (htwo : 2≤g.cnt) (hi : Inv g s) {mstOffs : ℕ}
    (hmem : s.memory=.rw mstOffs) (m' : Mst) (cut : Cut) :
    Inv g {s.cutDuring g (writeMaster g mstOffs m') cut with pending := some m'.rest } := by
  have ⟨_,k,m,hh,hlast⟩ := hi.held mstOffs hmem
  rw [hh.offs]
  refine inv_of_shape rfl (fun lnum => cutAfter_mapped) ?_
  have hk := (hh.agree false).fits
  by_cases hfull : k+1=g.cnt
  · exact cut_wrap h hi.mapped hh.agree hfull (by omega) (.inl hlast) (.inr rfl)
  · exact cut_next h hi.mapped hh.agree (lt_of_le_of_ne hk hfull) (.inl hlast) (.inr rfl)

/-- What was found is used. -/
theorem Inv.adopt (h : g.Accepted) (hi : Inv g s) {found : Found}
    (hheld : ∀ offs m,found=.scanned offs m → ∃ k,Held g s offs k m) : Inv g (s.adopt g found) := by
  cases found with
  | scanned offs m =>
    have ⟨k,hh⟩ := hheld offs m rfl
    exact inv_of_held (k := k) (m := m) rfl hi.mapped ⟨hh.offs,hh.agree⟩ rfl rfl
  | recovered m =>
    exact inv_of_held (k := 0) (m := {m with rcvry := true}) rfl
      (fun lnum => by cases lnum <;> rfl) ⟨(Nat.zero_mul _).symm,fun lnum => by
        cases lnum <;> exact last_start h⟩ rfl rfl

/-- What was found is written, with a power cut. -/
theorem Inv.adoptCut (h : g.Accepted) (hi : Inv g s) (hoff : ∀ offs,s.memory≠.rw offs)
    {found : Found} (hok : s.Allowed found.mst.rest) (cut : Cut) :
    Inv g (s.cutDuring g (rcvrdPrims found) cut) := by
  refine inv_of_shape rfl (fun lnum => cutAfter_mapped) ?_
  cases found with
  | scanned offs m =>
    have hsame : ∀ lnum,(s.cutDuring g (rcvrdPrims (.scanned offs m)) cut).slots lnum=s.slots lnum := by
      intro lnum
      unfold State.slots State.cutDuring rcvrdPrims
      dsimp only
      rw [cutAfter_done (by exact Nat.zero_le _),List.foldl_nil,hi.mapped lnum]
      rfl
    rw [hsame false,hsame true]
    exact hi.shape hoff
  | recovered m => exact cut_rcvrd h hi.mapped (hi.shape hoff) hok

theorem Inv.read (h : g.Accepted) (hdvd : g.alsz∣g.lebSize) (hi : Inv g s) (hmem : s.memory=.off)
    {found : Found} (hread : readMaster g s.slots=some found) : s.Allowed found.mst.rest∧
    ∀ offs m,found=.scanned offs m → ∃ k,Held g s offs k m := by
  have hs := hi.shape fun offs heq => by rw [hmem] at heq; cases heq
  have ⟨found',hread',hok,hheld⟩ := hs.read h hdvd
  cases hread.symm.trans hread'
  refine ⟨hok,fun offs m heq => ?_⟩
  have ⟨k,hk,ha⟩ := hheld offs m heq
  exact ⟨k,hk,ha⟩

theorem step_inv (h : g.Accepted) (hdvd : g.alsz∣g.lebSize) (htwo : 2≤g.cnt) (hi : Inv g s)
    {e : Event} (hstep : step g s e=some s') : Inv g s' := by
  cases e with
  | write dirty rest =>
    cases hmem : s.memory with
    | rw mstOffs =>
      unfold step at hstep
      rw [hmem] at hstep
      cases hstep
      exact hi.write h hmem ⟨false,dirty,rest⟩
    | off => unfold step at hstep; rw [hmem] at hstep; cases hstep
    | ro found => unfold step at hstep; rw [hmem] at hstep; cases hstep
  | writeCut dirty rest cut =>
    cases hmem : s.memory with
    | rw mstOffs =>
      unfold step at hstep
      rw [hmem] at hstep
      cases hstep
      exact hi.writeCut h htwo hmem ⟨false,dirty,rest⟩ cut
    | off => unfold step at hstep; rw [hmem] at hstep; cases hstep
    | ro found => unfold step at hstep; rw [hmem] at hstep; cases hstep
  | mount ro =>
    unfold step at hstep
    dsimp only at hstep
    split at hstep
    · rename_i found hmem hread
      have ⟨hok,hheld⟩ := hi.read h hdvd hmem hread
      cases ro with
      | false => cases hstep; exact hi.adopt h hheld
      | true =>
        cases hstep
        refine ⟨hi.mapped,fun _ => hi.shape fun offs heq => ?_,fun found' heq => ?_,fun _ heq => ?_⟩
        · rw [hmem] at heq
          cases heq
        · cases heq
          exact ⟨hok,fun offs m heq => (hheld offs m heq).imp fun k hh => ⟨hh.offs,hh.agree⟩⟩
        · cases heq
    · cases hstep
  | mountCut cut =>
    unfold step at hstep
    dsimp only at hstep
    split at hstep
    · rename_i found hmem hread
      cases hstep
      refine hi.adoptCut h (fun offs heq => ?_) (hi.read h hdvd hmem hread).1 cut
      rw [hmem] at heq
      cases heq
    · cases hstep
  | remount =>
    unfold step at hstep
    dsimp only at hstep
    split at hstep
    · rename_i found hmem
      cases hstep
      refine hi.adopt h fun offs m heq => (hi.found found hmem).2 offs m ?_
      cases found with
      | scanned _ _ => exact heq
      | recovered _ => cases heq
    · cases hstep
  | remountCut cut =>
    unfold step at hstep
    dsimp only at hstep
    split at hstep
    · rename_i found hmem
      cases hstep
      refine hi.adoptCut h (fun offs heq => ?_) ?_ cut
      · rw [hmem] at heq
        cases heq
      · have hok := (hi.found found hmem).1
        cases found with
        | scanned _ _ => exact hok
        | recovered _ => exact hok
    · cases hstep
  | stop =>
    cases hstep
    refine inv_of_shape rfl hi.mapped ?_
    cases hmem : s.memory with
    | off => exact hi.shape fun offs heq => by rw [hmem] at heq; cases heq
    | ro found => exact hi.shape fun offs heq => by rw [hmem] at heq; cases heq
    | rw offs =>
      have ⟨_,k,m,hh,hlast⟩ := hi.held offs hmem
      exact .same (hh.agree false) (hh.agree true) (.inl hlast)

/-! ## A cut that loses the master node -/

/-- The file system can be written. -/
structure Ready (g : Geometry) (s : State) (k : ℕ) (m : Mst) : Prop where
  memory : s.memory=.rw (k*g.alsz)
  mapped : ∀ lnum,s.flash lnum=.mapped (s.slots lnum)
  agree : Agree g s.slots k m

/-- One more node when the LEBs are full, and the power is cut before the second LEB
is unmapped. -/
def cutBetween : Event := .writeCut false 1 ⟨2,.nothing,fun _ => true⟩

/-- Nodes are written until the LEBs are full, and one more with a power cut. -/
def fillAndCut (g : Geometry) : List Event :=
  .mount false::(List.replicate (g.cnt-1) (.write false 0)++[cutBetween])

theorem Ready.write (h : g.Accepted) (hr : Ready g s k m) (dirty : Bool) (rest : ℕ) :
    ∃ t,step g s (.write dirty rest)=some t∧Ready g t (nextSlot g k) ⟨false,dirty,rest⟩ := by
  have ⟨lebs,hf,ha⟩ := write_agree h hr.mapped hr.agree ⟨false,dirty,rest⟩
  refine ⟨_,by unfold step; rw [hr.memory],?_,fun lnum => ?_,?_⟩
  · exact congrArg Memory.rw (nextOffs_eq h (hr.agree false).fits)
  · rw [slots_eq hf]
    exact hf lnum
  · rw [slots_eq hf]
    exact ha

/-- Neither LEB has what the recovery expects when a part of a slot is left. -/
theorem Ready.cutBetween (h : g.Accepted) (hbad : ¬(g.alsz∣g.lebSize∧2*g.alsz≤g.lebSize))
    (hr : Ready g s k m) (hrest : m.rest=0) (hfull : k+1=g.cnt) :
    ∃ u,step g s cutBetween=some u∧¬Survives g u := by
  refine ⟨_,by unfold step UbifsMaster.cutBetween; dsimp only; rw [hr.memory],?_⟩
  rintro ⟨found,hfound,_⟩
  have hroom : k=0∨g.cnt*g.alsz<g.lebSize := by
    rcases Nat.eq_zero_or_pos k with hzero|hpos
    · exact .inl hzero
    · refine .inr (lt_of_le_of_ne (Nat.div_mul_le_self _ _) fun heq => hbad ⟨⟨g.cnt,?_⟩,?_⟩)
      · rw [Nat.mul_comm,heq]
      · rw [←heq]
        exact Nat.mul_le_mul_right _ (by omega)
  have hne : (⟨false,false,1⟩ : Mst)≠m := by
    intro heq
    rw [←heq] at hrest
    cases hrest
  have hflash : s.flash=fun lnum => .mapped (s.slots lnum) := funext hr.mapped
  have hfirst : Last g (cutAfter g s.flash (writeMaster g (k*g.alsz) ⟨false,false,1⟩)
      ⟨2,.nothing,fun _ => true⟩ false).slots 0 ⟨false,false,1⟩ true .empty := by
    rw [hflash,writeMaster_wrap h hfull]
    have hput := put_start h (.node ⟨false,false,1⟩ true)
      (show (Leb.unmapped (s.slots false)).slots=blank from rfl)
    exact hput▸last_start h
  have hsecond : Last g (cutAfter g s.flash (writeMaster g (k*g.alsz) ⟨false,false,1⟩)
      ⟨2,.nothing,fun _ => true⟩ true).slots k m true .empty := by
    rw [hflash,writeMaster_wrap h hfull]
    exact hr.agree true
  rw [read_none h hfirst hsecond hfull rfl hne hroom] at hfound
  cases hfound

/-- Nodes are written until the LEBs are full. -/
theorem Ready.fill (h : g.Accepted) (hbad : ¬(g.alsz∣g.lebSize∧2*g.alsz≤g.lebSize)) {n : ℕ}
    (hr : Ready g s k m) (hrest : m.rest=0) (hn : k+n+1=g.cnt) :
    ∃ u,Run (step g) (fun _ _ => True) s
      (List.replicate n (.write false 0)++[UbifsMaster.cutBetween]) u∧¬Survives g u := by
  induction n generalizing s k m with
  | zero =>
    have ⟨u,hstep,hu⟩ := hr.cutBetween h hbad hrest hn
    exact ⟨u,.cons trivial hstep (.nil u),hu⟩
  | succ n ih =>
    have ⟨t,hstep,ht⟩ := hr.write h false 0
    have hnext : nextSlot g k=k+1 := if_neg (by omega)
    have ⟨u,hrun,hu⟩ := ih ht rfl (by omega)
    exact ⟨u,.cons trivial hstep hrun,hu⟩

/-- One cut loses the master node when there is a part of a slot at the end of a LEB,
or only one slot. -/
theorem fillAndCut_loses (h : g.Accepted) (hbad : ¬(g.alsz∣g.lebSize∧2*g.alsz≤g.lebSize)) :
    ∃ s,Run (step g) (fun _ _ => True) (start ⟨false,false,0⟩) (fillAndCut g) s∧¬Survives g s := by
  have hagree : Agree g (start ⟨false,false,0⟩).slots 0 ⟨false,false,0⟩ := fun _ => last_start h
  have hmount : step g (start ⟨false,false,0⟩) (.mount false)=
      some ((start ⟨false,false,0⟩).adopt g (.scanned (0*g.alsz) ⟨false,false,0⟩)) := by
    unfold step readMaster
    rw [hagree.scanForMaster h]
    rfl
  have hready : Ready g ((start ⟨false,false,0⟩).adopt g (.scanned (0*g.alsz) ⟨false,false,0⟩)) 0
      ⟨false,false,0⟩ := ⟨rfl,fun _ => rfl,hagree⟩
  have hcnt := h.cnt_pos
  have ⟨u,hrun,hu⟩ := hready.fill h hbad rfl (show 0+(g.cnt-1)+1=g.cnt by omega)
  exact ⟨u,.cons trivial hmount hrun,hu⟩

/-! ## Results -/

theorem two_slots_iff (h : g.Accepted) : 2*g.alsz≤g.lebSize ↔ 2≤g.cnt :=
  (Nat.le_div_iff_mul_le h.alsz_pos).symm

/-- The master node survives power cuts if and only if the slots fill the LEBs and each
LEB has two slots. -/
theorem master_survives_iff (h : g.Accepted) :
    (∀ m events s,Run (step g) (fun _ _ => True) (start m) events s → Survives g s) ↔
      g.alsz∣g.lebSize∧2*g.alsz≤g.lebSize := by
  refine ⟨fun hall => ?_,fun ⟨hdvd,htwo⟩ m events s hrun => ?_⟩
  · by_contra hbad
    have ⟨s,hrun,hs⟩ := fillAndCut_loses h hbad
    exact hs (hall _ _ s hrun)
  · have hi : Inv g s := hrun.invariant (Inv g) (start_inv h) fun hi _ hstep =>
      step_inv h hdvd ((two_slots_iff h).mp htwo) hi hstep
    exact hi.survives h hdvd

/-- LEBs of 126 KiB with pages of 2 KiB. -/
def largePage : Geometry := ⟨126*1024,2048⟩

theorem largePage_accepted : largePage.Accepted where
  leb := by decide
  unit := ⟨11,rfl⟩
  eight := by decide
  dvd := by decide

theorem master_survives_iff_example : largePage.Accepted∧
    ∀ m events s,Run (step largePage) (fun _ _ => True) (start m) events s →
      Survives largePage s :=
  ⟨largePage_accepted,(master_survives_iff largePage_accepted).mpr (by decide)⟩

/-- A NOR flash with LEBs of 15 KiB and eight bytes. -/
def unevenLeb : Geometry := ⟨15*1024+8,8⟩

/-- The last eight bytes of a LEB are no slot, and recovery takes them for one. -/
theorem master_lost : ¬∀ g : Geometry,g.Accepted → ∀ m events s,
    Run (step g) (fun _ _ => True) (start m) events s → Survives g s := by
  intro hall
  have haccepted : unevenLeb.Accepted := ⟨by decide,⟨3,rfl⟩,by decide,by decide⟩
  have ⟨s,hrun,hs⟩ := fillAndCut_loses haccepted (by decide)
  exact hs (hall unevenLeb haccepted ⟨false,false,0⟩ (fillAndCut unevenLeb) s hrun)

end ArdroneKernel.UbifsMaster
