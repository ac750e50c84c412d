import ArdroneKernel.UbifsLogSafety

/-!
# The log under its writers

A writer that adds a bud or writes a node keeps the invariant of the log, as
long as it neither enters the old tail of a commit nor fills the log exactly up
to its tail.
-/

namespace ArdroneKernel.UbifsLog

open RingSegments Function

variable {c : Info} {s s' : State} {m l : ℕ}

/-! ## Moving the head -/

theorem same_of_eq (hh : s'.lheadLnum=s.lheadLnum) (ho : s'.lheadOffs=s.lheadOffs)
    (hf : s'.flash=s.flash) (hq : s'.maxSqnum=s.maxSqnum) : Same c s s' m where
  within := fun l => by
    unfold Within toHead
    rw [hh,ho]
  nodes := fun l => by rw [hf]
  mapped := fun l _ => by rw [hf]
  latest := hq.ge

/-- A LEB that is about to take nodes: the one of the head, when it has none
yet, or the one after it. -/
def Opens (c : Info) (s : State) (x : ℕ) : Prop :=
  x=s.lheadLnum∧s.lheadOffs=0∨x=nextLogLnum c s.lheadLnum∧0<s.lheadOffs

/-- The LEB that takes the next nodes is unmapped: the segment stays. -/
theorem same_open (hm : IsLog c m) (hhead : IsLog c s.lheadLnum) (hlog : 0<c.logLebs) {x : ℕ}
    (hx : Opens c s x) (hne : 0<s.lheadOffs → nextLogLnum c s.lheadLnum≠m)
    (hl : s'.lheadLnum=x) (ho : s'.lheadOffs=0) (hf : s'.flash=(ubifsLebUnmap s x).flash)
    (hq : s'.maxSqnum=s.maxSqnum) : Same c s s' m := by
  have hout : ¬Within c s m x := by
    intro ⟨_,hin⟩
    rcases hx with ⟨hxh,hzero⟩|⟨hxn,hpos⟩
    · rcases hin with hlt|⟨_,hpos⟩
      · rw [hxh] at hlt
        exact lt_irrefl _ hlt
      · omega
    · have hd := toHead_next hm hhead hlog (hne hpos)
      rw [hxn] at hin
      rcases hin with hlt|⟨heq,_⟩
      · omega
      · rw [heq] at hd
        unfold toHead at hd
        omega
  refine ⟨fun l => ?_,fun l => ?_,fun l hin => ?_,hq.ge⟩
  · unfold Within toHead
    rw [hl,ho]
    rcases hx with ⟨hxh,hzero⟩|⟨hxn,hpos⟩
    · rw [hxh,hzero]
    · rw [hxn,toHead_next hm hhead hlog (hne hpos)]
      unfold toHead
      refine and_congr_right fun hlog => ⟨fun h => ?_,fun h => ?_⟩
      · rcases h with hlt|⟨_,hno⟩
        · rcases Nat.lt_or_ge (dist c.logLebs m l) (dist c.logLebs m s.lheadLnum) with hlt'|hge
          · exact .inl hlt'
          · exact .inr ⟨dist_inj hm hlog hhead (by omega),hpos⟩
        · exact absurd hno (lt_irrefl _)
      · rcases h with hlt|⟨heq,_⟩
        · exact .inl (by omega)
        · rw [heq]
          exact .inl (Nat.lt_succ_self _)
  · rw [hf]
    exact (flash_unmap s x l).1
  · rw [hf,(flash_unmap s x l).2 fun heq => hout (heq▸hin)]

/-- What `ubifs_add_bud_to_log` does before it writes. -/
theorem addStart_cases (jhead lnum : ℕ) {offs : ℕ} (hr : refused c s offs=false) :
    ∃ x o f,addStart c s jhead lnum offs=
      { s with lheadLnum := x, lheadOffs := o, flash := f, lock := .adding jhead lnum offs }∧
      (switches c s=false∧x=s.lheadLnum∧o=s.lheadOffs∨
        switches c s=true∧x=nextLogLnum c s.lheadLnum∧o=0)∧
      (0<o∧f=s.flash∨o=0∧Opens c s x∧f=(ubifsLebUnmap s x).flash) := by
  unfold addStart
  rw [hr,if_neg Bool.false_ne_true]
  dsimp only
  cases hsw : switches c s with
  | true =>
    have hpos : 0<s.lheadOffs := by
      have := of_decide_eq_true hsw
      omega
    exact ⟨_,0,_,rfl,.inr ⟨rfl,rfl,rfl⟩,.inr ⟨rfl,.inr ⟨rfl,hpos⟩,rfl⟩⟩
  | false =>
    rw [if_neg Bool.false_ne_true]
    by_cases hzero : s.lheadOffs=0
    · rw [if_pos hzero]
      exact ⟨s.lheadLnum,s.lheadOffs,_,rfl,.inl ⟨rfl,rfl,rfl⟩,.inr ⟨hzero,.inl ⟨rfl,hzero⟩,rfl⟩⟩
    · rw [if_neg hzero]
      exact ⟨s.lheadLnum,s.lheadOffs,_,rfl,.inl ⟨rfl,rfl,rfl⟩,
        .inl ⟨Nat.pos_of_ne_zero hzero,rfl⟩⟩

/-! ## Steps of writers -/

theorem Pending.same {n : ℕ} (h : Pending c s n) (hs : Same c s s' n) (hmst : s'.mst=s.mst)
    (hcmt : s'.cmtNo=s.cmtNo) (hreach : toHead c s s.mst.logLnum≤toHead c s' s.mst.logLnum)
    (hnodes : ∀ q,Covers c s n s.cmtNo q s.sinceStart → ∀ x∈s'.sinceStart,Referred c s n x)
    (hheads : ∀ q,Covers c s n s.cmtNo q s.sinceStart → ∀ j l o,s'.wbuf j=some (l,o) →
      o<c.lebSize → Referred c s n (l,o)) : Pending c s' n where
  ne := by rw [hmst]; exact h.ne
  reached := by rw [hmst]; exact h.reached.trans hreach
  covers := by
    have ⟨q,hq⟩ := h.covers
    rw [hcmt]
    exact ⟨q,hq.same hs (hnodes q hq) (hheads q hq)⟩

/-- A step of a writer leaves the commit as far as it is. -/
theorem phaseInv_stay (h : PhaseInv c s) (hp : s'.phase=s.phase) (ht : s'.ltailLnum=s.ltailLnum)
    (hm : s'.mst=s.mst) (hmin : s'.minLogBytes=s.minLogBytes) (hns : s.phase≠.starting)
    (hpend : ∀ n,Pending c s n → Pending c s' n)
    (hw : ∀ t,s.phase=.written t → IsLog c t →
      toHead c s s.mst.logLnum<dist c.logLebs s.mst.logLnum t →
      toHead c s' s.mst.logLnum<dist c.logLebs s.mst.logLnum t) : PhaseInv c s' := by
  unfold PhaseInv at h ⊢
  rw [hp,ht,hm,hmin]
  cases hphase : s.phase with
  | resting =>
    rw [hphase] at h
    exact h
  | starting => exact absurd hphase hns
  | started n =>
    rw [hphase] at h
    exact ⟨h.1,h.2.1,hpend n h.2.2⟩
  | ended n t =>
    rw [hphase] at h
    exact ⟨h.1,h.2.1,h.2.2.1,hpend n h.2.2.2⟩
  | written t =>
    rw [hphase] at h
    exact ⟨h.1,h.2.1,h.2.2.1,hw t hphase h.2.2.1 h.2.2.2⟩

/-- A node that the code lets a writer add has room. -/
theorem Inv.room_of_not_refused (h : Inv c s) (hsizes : Sizes c) {offs : ℕ}
    (hr : refused c s offs=false) : span c s+c.refNodeAlsz+s.minLogBytes≤c.logBytes := by
  have hempty := h.emptyLogBytes hsizes
  have hlt := of_decide_eq_false (Bool.or_eq_false_iff.mp hr).1
  omega

theorem Inv.next_ne_tail (h : Inv c s) (hlog : 0<c.logLebs) (hsw : switches c s=true)
    (hroom : span c s+c.refNodeAlsz≤c.logBytes) :
    toHead c s s.ltailLnum+1<c.logLebs∧nextLogLnum c s.lheadLnum≠s.ltailLnum := by
  have hsw := of_decide_eq_true hsw
  have hlt : toHead c s s.ltailLnum+1<c.logLebs := by
    unfold span at hroom
    exact succ_lt_of_room (x := s.lheadOffs+c.refNodeAlsz) (by omega) (by omega)
  exact ⟨hlt,next_ne h.tail.1 h.head hlog hlt⟩

/-- Where the head moves on to is not the start of a segment. -/
theorem Inv.next_ne_starts (h : Inv c s) (hlog : 0<c.logLebs) (hsw : switches c s=true)
    (hroom : span c s+c.refNodeAlsz≤c.logBytes) (hold : ¬EntersOldTail c s) :
    nextLogLnum c s.lheadLnum≠s.mst.logLnum∧
      ∀ n,Pending c s n → nextLogLnum c s.lheadLnum≠n := by
  have ⟨hlt,hne⟩ := h.next_ne_tail hlog hsw hroom
  have hphase := h.phase
  have ⟨q,hmaster⟩ := h.master
  unfold PhaseInv at hphase
  have hmst : nextLogLnum c s.lheadLnum≠s.mst.logLnum := by
    cases hp : s.phase with
    | resting =>
      rw [hp] at hphase
      rw [←hphase.1]
      exact hne
    | starting =>
      rw [hp] at hphase
      rw [←hphase.1]
      exact hne
    | started n =>
      rw [hp] at hphase
      rw [←hphase.1]
      exact hne
    | ended n t =>
      rw [hp] at hphase
      rw [hphase.2.1]
      unfold EntersOldTail at hold
      rw [hp] at hold
      exact fun heq => hold ⟨hsw,heq⟩
    | written t =>
      rw [hp] at hphase
      rw [←hphase.1]
      exact hne
  refine ⟨hmst,fun n hpend heq => ?_⟩
  have hd := toHead_next hmaster.start.1 h.head hlog hmst
  have hreach := hpend.reached
  rw [heq] at hd
  omega

theorem addStart_inv (h : Inv c s) (hsizes : Sizes c) {jhead lnum offs : ℕ}
    (hns : s.phase≠.starting) (hj : jhead<c.jheadCnt)
    (hok : Spares c s (.addStart jhead lnum offs)) :
    Inv c (addStart c s jhead lnum offs)∧Keeps c s (addStart c s jhead lnum offs) := by
  have hlog : 0<c.logLebs := by
    have := hsizes.logLebs
    omega
  have ⟨href,href'⟩ := hsizes.ref
  cases hr : refused c s offs with
  | true =>
    have hsame : addStart c s jhead lnum offs=s := by
      unfold addStart
      rw [hr,if_pos rfl]
    rw [hsame]
    exact ⟨h,keeps_of_flash h rfl⟩
  | false =>
    have ⟨hend,hold⟩ := hok hr
    have hroom := h.room_of_not_refused hsizes hr
    have ⟨q,hmaster⟩ := h.master
    have ⟨x,o,f,heq,hmove,hflash⟩ := addStart_cases jhead lnum hr
    set t := addStart c s jhead lnum offs
    have hl : t.lheadLnum=x := by rw [heq]
    have ho : t.lheadOffs=o := by rw [heq]
    have hf : t.flash=f := by rw [heq]
    have hq : t.maxSqnum=s.maxSqnum := by rw [heq]
    have hlock : t.lock=.adding jhead lnum offs := by rw [heq]
    have hpend : pend c t=c.refNodeAlsz := by
      unfold pend
      rw [hlock]
    have hsame : ∀ m,IsLog c m → (switches c s=true → nextLogLnum c s.lheadLnum≠m) →
        Same c s t m := by
      intro m hm hne
      rcases hflash with ⟨hpos,hfs⟩|⟨hzero,hopens,hfu⟩
      · rcases hmove with ⟨_,hx,hos⟩|⟨_,_,hzero⟩
        · exact same_of_eq (hl.trans hx) (ho.trans hos) (hf.trans hfs) hq
        · omega
      · refine same_open hm h.head hlog hopens (fun hpos => ?_) hl (ho.trans hzero)
          (hf.trans hfu) hq
        rcases hmove with ⟨_,_,hos⟩|⟨hsw,_,_⟩
        · omega
        · exact hne hsw
    have hstarts := fun hsw => h.next_ne_starts hlog hsw (by omega) hold
    have hsameM := hsame s.mst.logLnum hmaster.start.1 fun hsw => (hstarts hsw).1
    have htoHead : ∀ m,IsLog c m → (switches c s=true → nextLogLnum c s.lheadLnum≠m) →
        switches c s=false∧toHead c t m=toHead c s m∨
          switches c s=true∧toHead c t m=toHead c s m+1 := by
      intro m hm hne
      rcases hmove with ⟨hsw,hx,_⟩|⟨hsw,hx,_⟩
      · refine .inl ⟨hsw,?_⟩
        unfold toHead
        rw [hl,hx]
      · refine .inr ⟨hsw,?_⟩
        have hd := toHead_next hm h.head hlog (hne hsw)
        unfold toHead at hd ⊢
        rw [hl,hx,hd]
    refine ⟨⟨?_,?_,?_,?_,?_,?_,?_,?_,?_⟩,hsameM.keeps h⟩
    · rw [hl]
      rcases hmove with ⟨_,hx,_⟩|⟨_,hx,_⟩
      · exact hx▸h.head
      · rw [hx,nextLogLnum_eq hlog]
        exact next_inRing h.head
    · intro l
      rw [hsameM.nodes,hq]
      exact h.latest l
    · rw [heq]
      exact h.jheads
    · have hmin : t.minLogBytes=s.minLogBytes := by rw [heq]
      have htail : t.ltailLnum=s.ltailLnum := by rw [heq]
      rw [hpend,hmin]
      unfold span at hroom ⊢
      rw [htail,ho]
      have hT := htoHead s.ltailLnum h.tail.1 fun hsw => (h.next_ne_tail hlog hsw (by
        unfold span
        omega)).2
      rcases hmove with ⟨hsw,_,hos⟩|⟨hsw,_,hzero⟩
      · rcases hT with ⟨_,hd⟩|⟨hsw',_⟩
        · rw [hd,hos]
          omega
        · rw [hsw] at hsw'
          cases hsw'
      · rcases hT with ⟨hsw',_⟩|⟨_,hd⟩
        · rw [hsw] at hsw'
          cases hsw'
        · -- The reserve is a whole LEB or nothing, so what is left of this one is not needed.
          rw [hd,hzero]
          have hbeyond := of_decide_eq_true hsw
          have hreserve : s.minLogBytes=0∨s.minLogBytes=c.lebSize := by
            have hphase := h.phase
            unfold PhaseInv at hphase
            split at hphase
            · exact .inr hphase.2
            next hp => exact absurd hp hns
            · exact .inl hphase.2.1
            · exact .inr hphase.2.2.1
            · exact .inr hphase.2.1
          rcases hreserve with hres|hres
          · have hlt : toHead c s s.ltailLnum+1<c.logLebs :=
              succ_lt_of_room (x := s.lheadOffs+c.refNodeAlsz) (by omega) (by omega)
            have hlast : (toHead c s s.ltailLnum+1)*c.lebSize+c.refNodeAlsz≤c.logBytes :=
              room_of_lt (k := 1) hlt (by omega)
            omega
          · have hlt : toHead c s s.ltailLnum+1+1<c.logLebs := by
              refine succ_lt_of_room (x := s.lheadOffs+c.refNodeAlsz) ?_ (by omega)
              rw [Nat.add_mul]
              omega
            have hlast : (toHead c s s.ltailLnum+1)*c.lebSize+(c.lebSize+c.refNodeAlsz)≤
                c.logBytes := room_of_lt (k := 2) (by omega) (by omega)
            omega
    · rcases hmove with ⟨hsw,_,hos⟩|⟨_,_,hzero⟩
      · have := of_decide_eq_false hsw
        omega
      · omega
    · have htail : t.ltailLnum=s.ltailLnum := by rw [heq]
      rw [hpend,hl,ho,htail]
      intro hx hfull
      unfold EndsAtTail at hend
      rcases hmove with ⟨hsw,hxs,hos⟩|⟨hsw,hxs,hzero⟩
      · rw [hsw,if_neg Bool.false_ne_true] at hend
        exact hend ⟨hxs▸hx,hos▸hfull⟩
      · rw [hsw,if_pos rfl] at hend
        rw [hzero,Nat.zero_add] at hfull
        exact hend ⟨hxs▸hx,hfull⟩
    · rw [heq] at hsameM ⊢
      exact ⟨q,hmaster.same hsameM hmaster.nodes hmaster.heads⟩
    · have hM := htoHead s.mst.logLnum hmaster.start.1 fun hsw => (hstarts hsw).1
      refine phaseInv_stay h.phase (by rw [heq]) (by rw [heq]) (by rw [heq]) (by rw [heq]) hns
        (fun n hp => ?_) fun t0 hp ht hlt => ?_
      · have ⟨_,hn⟩ := hp.covers
        refine hp.same (hsame n hn.start.1 fun hsw => (hstarts hsw).2 n hp) (by rw [heq])
          (by rw [heq]) ?_ (fun q hq => ?_) fun q hq => ?_
        · rcases hM with ⟨_,hd⟩|⟨_,hd⟩ <;> omega
        · rw [heq]
          exact hq.nodes
        · rw [heq]
          exact hq.heads
      · rcases hM with ⟨_,hd⟩|⟨hsw,hd⟩
        · omega
        · have hne : dist c.logLebs s.mst.logLnum (nextLogLnum c s.lheadLnum)≠
              dist c.logLebs s.mst.logLnum t0 := by
            intro hdist
            have hnext : IsLog c (nextLogLnum c s.lheadLnum) := by
              rw [nextLogLnum_eq hlog]
              exact next_inRing h.head
            have heq0 := dist_inj hmaster.start.1 hnext ht hdist
            unfold EntersOldTail at hold
            rw [hp] at hold
            exact hold ⟨hsw,heq0⟩
          rw [toHead_next hmaster.start.1 h.head hlog (hstarts hsw).1] at hne
          omega
    · unfold LockInv
      rw [hlock]
      refine ⟨hj,fun hzero => ?_⟩
      rcases hflash with ⟨hpos,_⟩|⟨_,_,hfu⟩
      · omega
      · rw [hl,hf,hfu]
        exact flash_unmap_self s x

/-- Nodes are written at the head, which may move on to a LEB that is not the
start of the segment. -/
theorem grown_at_head {cmtNo q : ℕ} {nodes : List (ℕ×ℕ)} {news : List Node}
    (hm : Covers c s m cmtNo q nodes) (hhead : IsLog c s.lheadLnum) (hlog : 0<c.logLebs)
    (hfresh : s.lheadOffs=0 → (s.flash s.lheadLnum).mapped=false)
    (hat : s'.flash s.lheadLnum=⟨true,kept s s.lheadLnum++news⟩)
    (hother : ∀ l,l≠s.lheadLnum → s'.flash l=s.flash l) (hne : news≠[])
    (hnew : ∀ n∈news,s.maxSqnum<n.sqnum) (hq : s.maxSqnum≤ s'.maxSqnum)
    (hmove : s'.lheadLnum=s.lheadLnum∧0<s'.lheadOffs∨
      s'.lheadLnum=nextLogLnum c s.lheadLnum∧s'.lheadOffs=0∧nextLogLnum c s.lheadLnum≠m) :
    Grown c s s' m q where
  head := hhead
  within := by
    have hbefore : ∀ l,Within c s m l∨l=s.lheadLnum ↔
        IsLog c l∧dist c.logLebs m l≤toHead c s m := by
      intro l
      constructor
      · rintro (⟨hl,hlt|⟨heq,_⟩⟩|heq)
        · exact ⟨hl,hlt.le⟩
        · rw [heq]
          exact ⟨hhead,le_rfl⟩
        · rw [heq]
          exact ⟨hhead,le_rfl⟩
      · intro ⟨hl,hle⟩
        rcases hle.lt_or_eq with hlt|heq
        · exact .inl ⟨hl,.inl hlt⟩
        · exact .inr (dist_inj hm.start.1 hl hhead heq)
    intro l
    rw [hbefore]
    refine and_congr_right fun hl => ?_
    rcases hmove with ⟨hsame,hpos⟩|⟨hnext,hzero,hne⟩
    · have hto : toHead c s' m=toHead c s m := by
        unfold toHead
        rw [hsame]
      rw [hto,hsame]
      constructor
      · rintro (hlt|⟨heq,_⟩)
        · exact hlt.le
        · rw [heq]
          exact le_rfl
      · intro hle
        rcases hle.lt_or_eq with hlt|heq
        · exact .inl hlt
        · exact .inr ⟨dist_inj hm.start.1 hl hhead heq,hpos⟩
    · have hto : toHead c s' m=toHead c s m+1 := by
        have hd := toHead_next hm.start.1 hhead hlog hne
        unfold toHead at hd ⊢
        rw [hnext,hd]
      rw [hto,hzero]
      constructor
      · rintro (hlt|⟨_,hno⟩)
        · omega
        · exact absurd hno (lt_irrefl _)
      · exact fun hle => .inl (Nat.lt_succ_of_le hle)
  other := hother
  mapped := by rw [hat]
  nodes := by
    refine ⟨news,hne,fun n hn => hm.latest.trans (hnew n hn).le,?_⟩
    rw [hat]
    by_cases hin : Within c s m s.lheadLnum
    · refine .inl ⟨hin,?_⟩
      unfold kept
      rw [if_pos (hm.inside _ hin).1]
    · refine .inr ⟨hin,?_⟩
      have hzero : s.lheadOffs=0 := by
        by_contra hpos
        exact hin ⟨hhead,.inr ⟨rfl,Nat.pos_of_ne_zero hpos⟩⟩
      unfold kept
      rw [hfresh hzero]
      rfl
  latest := hq

theorem Pending.grow {n : ℕ} (h : Pending c s n)
    (hs : ∀ q,Covers c s n s.cmtNo q s.sinceStart → Grown c s s' n q)
    (hmst : s'.mst=s.mst) (hcmt : s'.cmtNo=s.cmtNo)
    (hreach : toHead c s s.mst.logLnum≤toHead c s' s.mst.logLnum)
    (hnodes : ∀ q,Covers c s n s.cmtNo q s.sinceStart → ∀ x∈s'.sinceStart,Referred c s' n x)
    (hheads : ∀ q,Covers c s n s.cmtNo q s.sinceStart → ∀ j l o,s'.wbuf j=some (l,o) →
      o<c.lebSize → Referred c s' n (l,o)) : Pending c s' n where
  ne := by rw [hmst]; exact h.ne
  reached := by rw [hmst]; exact h.reached.trans hreach
  covers := by
    have ⟨q,hq⟩ := h.covers
    rw [hcmt]
    exact ⟨q,hq.grow (hs q hq) (hnodes q hq) (hheads q hq)⟩

theorem addWrite_inv (h : Inv c s) (hsizes : Sizes c) {jhead lnum offs : ℕ}
    (hlock : s.lock=.adding jhead lnum offs) (hns : s.phase≠.starting) :
    Inv c (addWrite c s jhead lnum offs)∧Keeps c s (addWrite c s jhead lnum offs) := by
  have hlog : 0<c.logLebs := by
    have := hsizes.logLebs
    omega
  have ⟨href,_⟩ := hsizes.ref
  have hl := h.lock
  unfold LockInv at hl
  rw [hlock] at hl
  have ⟨hj,hfresh⟩ := hl
  have hpend : pend c s=c.refNodeAlsz := by
    unfold pend
    rw [hlock]
  have ⟨q,hmaster⟩ := h.master
  set t := addWrite c s jhead lnum offs with ht
  have hoffs : t.lheadOffs=s.lheadOffs+c.refNodeAlsz := rfl
  have hflash : t.flash=(writeLog s s.lheadLnum (.ref lnum offs jhead)).flash := rfl
  have hgrown : ∀ {m cmtNo q nodes},Covers c s m cmtNo q nodes → Grown c s t m q := by
    intro m cmtNo q nodes hm
    refine grown_at_head hm h.head hlog hfresh (by rw [hflash,flash_write]) (fun l hl => ?_)
      (List.cons_ne_nil _ _) (fun n hn => ?_) (Nat.le_succ _) (.inl ⟨rfl,by omega⟩)
    · rw [hflash,flash_write_of_ne s _ hl]
    · rw [List.mem_singleton.mp hn]
      exact Nat.lt_succ_self _
  have hnew : ∀ {m cmtNo q nodes},Covers c s m cmtNo q nodes → ∀ j l o,t.wbuf j=some (l,o) →
      o<c.lebSize → Referred c t m (l,o) := by
    intro m cmtNo q nodes hm j l o hw ho
    have hwbuf : t.wbuf=update s.wbuf jhead (some (lnum,offs)) := rfl
    rw [hwbuf] at hw
    by_cases hjj : j=jhead
    · rw [hjj,update_self] at hw
      cases hw
      refine ⟨s.lheadLnum,⟨s.maxSqnum+1,.ref lnum offs jhead⟩,?_,?_,offs,jhead,rfl,le_rfl⟩
      · exact ((hgrown hm).within _).mpr (.inr rfl)
      · rw [hflash,flash_write]
        exact List.mem_append_right _ (List.mem_singleton.mpr rfl)
    · rw [update_of_ne hjj] at hw
      exact (hgrown hm).referred (hm.heads j l o hw ho)
  refine ⟨⟨h.head,?_,?_,?_,?_,?_,?_,?_,trivial⟩,(hgrown hmaster).keeps h⟩
  · intro l n hn
    have hmax : t.maxSqnum=s.maxSqnum+1 := rfl
    rw [hmax]
    by_cases hlh : l=s.lheadLnum
    · rw [hflash,hlh,flash_write] at hn
      rcases List.mem_append.mp hn with hn|hn
      · unfold kept at hn
        split at hn
        · exact (h.latest _ n hn).trans (Nat.le_succ _)
        · exact absurd hn List.not_mem_nil
      · rw [List.mem_singleton.mp hn]
    · rw [hflash,flash_write_of_ne s _ hlh] at hn
      exact (h.latest l n hn).trans (Nat.le_succ _)
  · intro j x hw
    have hwbuf : t.wbuf=update s.wbuf jhead (some (lnum,offs)) := rfl
    rw [hwbuf] at hw
    by_cases hjj : j=jhead
    · rw [hjj]
      exact hj
    · rw [update_of_ne hjj] at hw
      exact h.jheads j x hw
  · have hspan : span c t=span c s+c.refNodeAlsz := (Nat.add_assoc _ _ _).symm
    have hroom := h.room
    have hmin : t.minLogBytes=s.minLogBytes := rfl
    have hfree : pend c t=0 := rfl
    omega
  · have hfit := h.fit
    have hfree : pend c t=0 := rfl
    omega
  · have hexact := h.exact
    have hfree : pend c t=0 := rfl
    rw [hpend] at hexact
    exact hexact
  · exact ⟨q,hmaster.grow (hgrown hmaster)
      (fun x hx => (hgrown hmaster).referred (hmaster.nodes x hx)) (hnew hmaster)⟩
  · refine phaseInv_stay h.phase rfl rfl rfl rfl hns (fun n hp => ?_) fun _ _ _ hlt => hlt
    exact hp.grow (fun q hq => hgrown hq) rfl rfl le_rfl
      (fun q hq x hx => (hgrown hq).referred (hq.nodes x hx)) fun q hq => hnew hq

theorem writeNode_inv (h : Inv c s) {jhead len : ℕ} (hns : s.phase≠.starting)
    (hstep : writeNode c s jhead len=some s') : Inv c s'∧Keeps c s s' := by
  have ⟨⟨lnum,offs⟩,hw,hstep⟩ := Option.bind_eq_some_iff.mp hstep
  dsimp only at hstep
  split at hstep
  swap
  · cases hstep
  next hlen =>
    have ⟨q,hmaster⟩ := h.master
    cases hstep
    set t : State := { s with
      wbuf := update s.wbuf jhead (some (lnum,offs+len))
      uncovered := (lnum,offs)::s.uncovered
      sinceStart := (lnum,offs)::s.sinceStart }
    have hsame : ∀ m,Same c s t m := fun m => same_of_eq rfl rfl rfl rfl
    have hat : ∀ {m cmtNo q nodes},Covers c s m cmtNo q nodes → Referred c s m (lnum,offs) :=
      fun hm => hm.heads jhead lnum offs hw (by omega)
    have hheads : ∀ {m cmtNo q nodes},Covers c s m cmtNo q nodes → ∀ j l o,t.wbuf j=some (l,o) →
        o<c.lebSize → Referred c s m (l,o) := by
      intro m cmtNo q nodes hm j l o hwj ho
      have hwbuf : t.wbuf=update s.wbuf jhead (some (lnum,offs+len)) := rfl
      rw [hwbuf] at hwj
      by_cases hjj : j=jhead
      · rw [hjj,update_self] at hwj
        cases hwj
        have ⟨l,n,hl,hn,st,jh,hb,hle⟩ := hat hm
        exact ⟨l,n,hl,hn,st,jh,hb,hle.trans (Nat.le_add_right _ _)⟩
      · rw [update_of_ne hjj] at hwj
        exact hm.heads j l o hwj ho
    refine ⟨⟨h.head,h.latest,?_,h.room,h.fit,h.exact,?_,?_,?_⟩,(hsame _).keeps h⟩
    · intro j x hwj
      have hwbuf : t.wbuf=update s.wbuf jhead (some (lnum,offs+len)) := rfl
      rw [hwbuf] at hwj
      by_cases hjj : j=jhead
      · rw [hjj]
        exact h.jheads jhead _ hw
      · rw [update_of_ne hjj] at hwj
        exact h.jheads j x hwj
    · exact ⟨q,hmaster.same (hsame _) (List.forall_mem_cons.mpr ⟨hat hmaster,hmaster.nodes⟩)
        (hheads hmaster)⟩
    · refine phaseInv_stay h.phase rfl rfl rfl rfl hns (fun n hp => ?_) fun _ _ _ hlt => hlt
      exact hp.same (hsame n) rfl rfl le_rfl
        (fun q hq => List.forall_mem_cons.mpr ⟨hat hq,hq.nodes⟩) fun q hq => hheads hq
    · exact h.lock

end ArdroneKernel.UbifsLog
