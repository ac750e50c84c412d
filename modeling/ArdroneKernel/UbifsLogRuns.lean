import ArdroneKernel.UbifsLogWriters

/-!
# The log under commits

The steps of a commit keep the invariant of the log, so every run does in which
no writer enters the old tail before the commit has unmapped it and no write
fills the log exactly up to its tail.
-/

namespace ArdroneKernel.UbifsLog

open Execution RingSegments Function

variable {c : Info} {s s' : State} {m l : ℕ}

/-! ## The start of a commit -/

theorem startUnmap_inv (h : Inv c s) (hsizes : Sizes c) (hrest : s.phase=.resting)
    (hfree : s.lock=.free) : Inv c (startUnmap c s)∧Keeps c s (startUnmap c s) := by
  have hlog : 0<c.logLebs := by
    have := hsizes.logLebs
    omega
  obtain ⟨q,hmaster⟩ := h.master
  have hsafe := (h.safe hsizes).room hrest hfree
  have hphase := h.phase
  unfold PhaseInv at hphase
  rw [hrest] at hphase
  obtain ⟨htail,hmin⟩ := hphase
  set t := startUnmap c s
  have hl : t.lheadLnum=startLnum c s := rfl
  have hf : t.flash=(ubifsLebUnmap s (startLnum c s)).flash := rfl
  have hopens : Opens c s (startLnum c s) := by
    unfold startLnum Opens
    by_cases hoffs : s.lheadOffs≠0
    · rw [if_pos hoffs]
      exact .inr ⟨rfl,Nat.pos_of_ne_zero hoffs⟩
    · rw [if_neg hoffs]
      exact .inl ⟨rfl,not_not.mp hoffs⟩
  have hne : 0<s.lheadOffs → nextLogLnum c s.lheadLnum≠s.ltailLnum := by
    intro hpos
    have hstart : startLnum c s=nextLogLnum c s.lheadLnum := if_pos (by omega)
    rw [←hstart]
    exact hsafe.1
  have hsame : Same c s t s.mst.logLnum := by
    refine same_open hmaster.start.1 h.head hlog hopens ?_ hl rfl hf rfl
    rw [←htail]
    exact hne
  have hhead : IsLog c (startLnum c s) := by
    rcases hopens with ⟨hx,_⟩|⟨hx,_⟩
    · rw [hx]
      exact h.head
    · rw [hx,nextLogLnum_eq hlog]
      exact next_inRing h.head
  have hsync : ∀ j l o,t.wbuf j=some (l,o) → ∃ o',s.wbuf j=some (l,o')∧o'≤o := by
    intro j l o hw
    obtain ⟨⟨l',o'⟩,hw',heq⟩ := Option.map_eq_some_iff.mp hw
    cases heq
    exact ⟨o',hw',le_align hsizes.minIo⟩
  have hdist := toHead_lt h.tail.1 (s := t) hhead
  have hlock : t.lock=.free := hfree
  have hpend : pend c t=0 := by
    unfold pend
    rw [hlock]
  refine ⟨⟨hhead,?_,?_,?_,?_,?_,?_,?_,?_⟩,hsame.keeps h⟩
  · intro l
    rw [hsame.nodes]
    exact h.latest l
  · intro j x hw
    obtain ⟨o',hw',_⟩ := hsync j x.1 x.2 hw
    exact h.jheads j _ hw'
  · have hspan : span c t=toHead c t s.ltailLnum*c.lebSize := rfl
    have hmin' : t.minLogBytes=s.minLogBytes := rfl
    have hroom : toHead c t s.ltailLnum*c.lebSize+c.lebSize≤c.logBytes :=
      room_of_lt (k := 1) hdist (by omega)
    omega
  · have hoffs : t.lheadOffs=0 := rfl
    omega
  · intro _
    have hoffs : t.lheadOffs=0 := rfl
    have := hsizes.ref
    omega
  · refine ⟨q,hmaster.same hsame hmaster.nodes fun j l o hw ho => ?_⟩
    obtain ⟨o',hw',hle⟩ := hsync j l o hw
    obtain ⟨x,n,hx,hn,st,jh,hb,hst⟩ := hmaster.heads j l o' hw' (by omega)
    exact ⟨x,n,hx,hn,st,jh,hb,hst.trans hle⟩
  · exact ⟨htail,hfree,rfl,flash_unmap_self s _⟩
  · unfold LockInv
    rw [hlock]
    trivial

theorem removeBuds_eq (c : Info) (s : State) : ∃ cmt buds old,
    removeBuds c s={ s with cmtBudBytes := cmt, buds := buds, oldBuds := old } := by
  have hfold : ∀ (bs : List Bud) (t : State),
      (∃ cmt buds old,t={ s with cmtBudBytes := cmt, buds := buds, oldBuds := old }) →
      ∃ cmt buds old,bs.foldl (removeBud c) t=
        { s with cmtBudBytes := cmt, buds := buds, oldBuds := old } := by
    intro bs
    induction bs with
    | nil => exact fun t ht => ht
    | cons b bs ih =>
      intro t ⟨cmt,buds,old,ht⟩
      refine ih _ ?_
      rw [ht]
      unfold removeBud
      split
      · split
        · exact ⟨_,_,_,rfl⟩
        · exact ⟨_,_,_,rfl⟩
      · exact ⟨_,_,_,rfl⟩
  exact hfold s.buds _ ⟨_,_,_,rfl⟩

/-- The bodies of the nodes that open the new tail. -/
def startBodies (c : Info) (s : State) : List NodeBody := .cs s.cmtNo::headRefs c s

/-- What `ubifs_log_start_commit` does after it has unmapped a LEB. -/
theorem startWrite_eq (c : Info) (s : State) : ∃ cmt buds old x o,startWrite c s=
    { s with
      cmtBudBytes := cmt, buds := buds, oldBuds := old, lheadLnum := x, lheadOffs := o
      maxSqnum := s.maxSqnum+(startBodies c s).length
      flash := update s.flash s.lheadLnum
        ⟨true,kept s s.lheadLnum++newNodes s.maxSqnum (startBodies c s)⟩
      minLogBytes := 0, phase := .started s.lheadLnum, sinceStart := [] }∧
    (s.lheadOffs+startLen c s≠c.lebSize∧x=s.lheadLnum∧o=s.lheadOffs+startLen c s∨
      s.lheadOffs+startLen c s=c.lebSize∧x=nextLogLnum c s.lheadLnum∧o=0) := by
  unfold startWrite
  dsimp only
  have hall := writeAll s s.lheadLnum (startBodies c s)
  unfold startBodies at hall
  rw [List.foldl_cons,if_neg (List.cons_ne_nil _ _)] at hall
  rw [hall]
  by_cases hfull : s.lheadOffs+startLen c s=c.lebSize
  · rw [if_pos hfull]
    have ⟨cmt,buds,old,hrem⟩ := removeBuds_eq c { s with
      lheadLnum := nextLogLnum c s.lheadLnum, lheadOffs := 0
      maxSqnum := s.maxSqnum+(startBodies c s).length
      flash := update s.flash s.lheadLnum
        ⟨true,kept s s.lheadLnum++newNodes s.maxSqnum (startBodies c s)⟩ }
    unfold startBodies at hrem
    rw [hrem]
    exact ⟨cmt,buds,old,_,_,rfl,.inr ⟨hfull,rfl,rfl⟩⟩
  · rw [if_neg hfull]
    have ⟨cmt,buds,old,hrem⟩ := removeBuds_eq c { s with
      lheadOffs := s.lheadOffs+startLen c s
      maxSqnum := s.maxSqnum+(startBodies c s).length
      flash := update s.flash s.lheadLnum
        ⟨true,kept s s.lheadLnum++newNodes s.maxSqnum (startBodies c s)⟩ }
    unfold startBodies at hrem
    rw [hrem]
    exact ⟨cmt,buds,old,_,_,rfl,.inl ⟨hfull,rfl,rfl⟩⟩

theorem mem_headRefs {j o : ℕ} (hw : s.wbuf j=some (l,o)) (hj : j<c.jheadCnt)
    (ho : o≠c.lebSize) : .ref l o j∈headRefs c s := by
  refine List.mem_filterMap.mpr ⟨j,List.mem_range.mpr hj,?_⟩
  rw [hw,Option.bind_some]
  exact if_neg ho

theorem startWrite_inv (h : Inv c s) (hsizes : Sizes c) (hstarting : s.phase=.starting)
    (hok : Spares c s .startWrite) : Inv c (startWrite c s)∧Keeps c s (startWrite c s) := by
  have hlog : 0<c.logLebs := by
    have := hsizes.logLebs
    omega
  have ⟨q,hmaster⟩ := h.master
  have ⟨hlen,hlen'⟩ := hsizes.len s
  have hphase := h.phase
  unfold PhaseInv at hphase
  rw [hstarting] at hphase
  have ⟨htail,hfree,hzero,hunmapped⟩ := hphase
  have ⟨cmt,buds,old,x,o,heq,hmove⟩ := startWrite_eq c s
  rw [hzero,Nat.zero_add] at hmove
  set t := startWrite c s
  have hl : t.lheadLnum=x := by rw [heq]
  have ho : t.lheadOffs=o := by rw [heq]
  have htailt : t.ltailLnum=s.ltailLnum := by rw [heq]
  have hmst : t.mst=s.mst := by rw [heq]
  have hq : t.maxSqnum=s.maxSqnum+(startBodies c s).length := by rw [heq]
  have hwbuf : t.wbuf=s.wbuf := by rw [heq]
  have hkept : kept s s.lheadLnum=[] := by
    unfold kept
    rw [hunmapped]
    rfl
  have hat : t.flash s.lheadLnum=⟨true,newNodes s.maxSqnum (startBodies c s)⟩ := by
    rw [heq]
    dsimp only
    rw [update_self,hkept,List.nil_append]
  have hother : ∀ l,l≠s.lheadLnum → t.flash l=s.flash l := by
    intro l hne
    rw [heq]
    exact update_of_ne hne _ _
  have ⟨hnew,hall⟩ := mem_newNodes s.maxSqnum (startBodies c s)
  have hnext : startLen c s=c.lebSize → nextLogLnum c s.lheadLnum≠s.mst.logLnum := by
    intro hfull
    rw [←htail]
    exact fun hend => hok ⟨hfull,hend⟩
  have hgrown : Grown c s t s.mst.logLnum q := by
    have hat' : t.flash s.lheadLnum=
        ⟨true,kept s s.lheadLnum++newNodes s.maxSqnum (startBodies c s)⟩ := by
      rw [hat,hkept,List.nil_append]
    refine grown_at_head hmaster h.head hlog (fun _ => hunmapped) hat' hother
      (List.cons_ne_nil _ _) (fun n hn => (hnew n hn).1) (by omega) ?_
    rcases hmove with ⟨_,hx,hos⟩|⟨hfull,hx,hos⟩
    · exact .inl ⟨hl.trans hx,by omega⟩
    · exact .inr ⟨hl.trans hx,ho.trans hos,hnext hfull⟩
  have hne : s.lheadLnum≠s.mst.logLnum := by
    intro heq
    rcases hmaster.start.2 with hlt|⟨_,hpos⟩
    · unfold toHead at hlt
      rw [heq] at hlt
      exact lt_irrefl _ hlt
    · omega
  have hhead : IsLog c x := by
    rcases hmove with ⟨_,hx,_⟩|⟨_,hx,_⟩
    · rw [hx]
      exact h.head
    · rw [hx,nextLogLnum_eq hlog]
      exact next_inRing h.head
  have htoHead : startLen c s≠c.lebSize∧toHead c t s.mst.logLnum=toHead c s s.mst.logLnum∨
      startLen c s=c.lebSize∧toHead c t s.mst.logLnum=toHead c s s.mst.logLnum+1 := by
    unfold toHead
    rw [hl]
    rcases hmove with ⟨hpart,hx,_⟩|⟨hfull,hx,_⟩
    · exact .inl ⟨hpart,by rw [hx]⟩
    · exact .inr ⟨hfull,by
        rw [hx]
        exact toHead_next hmaster.start.1 h.head hlog (hnext hfull)⟩
  have hlock : t.lock=.free := by
    rw [heq]
    exact hfree
  have hpend : pend c t=0 := by
    unfold pend
    rw [hlock]
  -- The new segment has one LEB, with the commit start node and a reference to each head.
  have hsegment : ∀ l,Within c t s.lheadLnum l ↔ l=s.lheadLnum := by
    intro l
    unfold Within
    rcases hmove with ⟨_,hx,hos⟩|⟨_,hx,hos⟩
    · unfold toHead
      rw [hl,hx,dist_self,ho]
      constructor
      · rintro ⟨_,hlt|⟨heq,_⟩⟩
        · omega
        · exact heq
      · intro heq
        rw [heq]
        exact ⟨h.head,.inr ⟨rfl,by omega⟩⟩
    · have hself : nextLogLnum c s.lheadLnum≠s.lheadLnum := by
        refine next_ne h.head h.head hlog ?_
        have hz : toHead c s s.lheadLnum=0 := dist_self
        have := hsizes.logLebs
        omega
      have hone : toHead c t s.lheadLnum=1 := by
        have hd := toHead_next h.head h.head hlog hself
        have hz : toHead c s s.lheadLnum=0 := dist_self
        unfold toHead at hz ⊢
        rw [hl,hx,hd]
        unfold toHead
        rw [hz]
      rw [hone,ho,hos]
      constructor
      · rintro ⟨hlog,hlt|⟨_,hno⟩⟩
        · exact dist_eq_zero h.head hlog (by omega)
        · exact absurd hno (lt_irrefl _)
      · intro heq
        rw [heq,dist_self]
        exact ⟨h.head,.inl Nat.zero_lt_one⟩
  have hcovers : Covers c t s.lheadLnum s.cmtNo (s.maxSqnum+1) [] := by
    refine ⟨(hsegment _).mpr rfl,?_,fun l hin => ?_,fun l _ hout n hn => ?_,?_,
      fun x hx => absurd hx List.not_mem_nil,fun j l o hw hlt => ?_⟩
    · rw [hat]
      rfl
    · rw [(hsegment l).mp hin,hat]
      exact ⟨rfl,List.cons_ne_nil _ _,fun n hn => (hnew n hn).1⟩
    · rw [hother l fun heq => hout ((hsegment l).mpr heq)] at hn
      exact Nat.lt_succ_of_le (h.latest l n hn)
    · rw [hq]
      exact Nat.add_le_add_left (Nat.succ_le_succ (Nat.zero_le _)) _
    · rw [hwbuf] at hw
      have hmem := mem_headRefs hw (h.jheads j _ hw) hlt.ne
      have ⟨n,hn,hb⟩ := hall _ (List.mem_cons_of_mem _ hmem)
      refine ⟨s.lheadLnum,n,(hsegment _).mpr rfl,?_,o,j,hb,le_rfl⟩
      rw [hat]
      exact hn
  have hreach := toHead_lt hmaster.start.1 h.head
  refine ⟨⟨hl▸hhead,?_,?_,?_,?_,?_,?_,?_,?_⟩,hgrown.keeps h⟩
  · intro l n hn
    rw [hq]
    by_cases hlh : l=s.lheadLnum
    · rw [hlh,hat] at hn
      exact (hnew n hn).2
    · rw [hother l hlh] at hn
      exact (h.latest l n hn).trans (Nat.le_add_right _ _)
  · rw [hwbuf]
    exact h.jheads
  · have hmin : t.minLogBytes=0 := by rw [heq]
    rw [hpend,hmin]
    unfold span
    rw [htailt,htail,ho]
    rcases htoHead with ⟨hpart,hd⟩|⟨hfull,hd⟩
    · rcases hmove with ⟨_,_,hos⟩|⟨hfull,_,_⟩
      · rw [hd,hos]
        exact room_of_lt (k := 1) hreach (by omega)
      · exact absurd hfull hpart
    · rcases hmove with ⟨hpart,_,_⟩|⟨_,_,hos⟩
      · exact absurd hfull hpart
      · rw [hd,hos]
        exact room_of_lt (k := 0) hreach (by omega)
  · rcases hmove with ⟨_,_,hos⟩|⟨_,_,hos⟩ <;> omega
  · intro _
    rcases hmove with ⟨hpart,_,hos⟩|⟨_,_,hos⟩ <;> omega
  · rw [hmst]
    have huncovered : t.uncovered=s.uncovered := by rw [heq]
    refine ⟨q,hmaster.grow hgrown ?_ ?_⟩
    · rw [huncovered]
      exact fun x hx => hgrown.referred (hmaster.nodes x hx)
    · rw [hwbuf]
      exact fun j l o hw hlt => hgrown.referred (hmaster.heads j l o hw hlt)
  · have hstarted : t.phase=.started s.lheadLnum := by rw [heq]
    have hmin : t.minLogBytes=0 := by rw [heq]
    have hcmt : t.cmtNo=s.cmtNo := by rw [heq]
    have hsince : t.sinceStart=[] := by rw [heq]
    unfold PhaseInv
    refine ⟨by rw [htailt,hmst,htail],hmin,⟨by rw [hmst]; exact hne,?_,?_⟩⟩
    · rw [hmst]
      have hto : dist c.logLebs s.mst.logLnum s.lheadLnum=toHead c s s.mst.logLnum := rfl
      rcases htoHead with ⟨_,hd⟩|⟨_,hd⟩ <;> omega
    · rw [hcmt,hsince]
      exact ⟨_,hcovers⟩
  · unfold LockInv
    rw [hlock]
    trivial

/-! ## The end of a commit -/

theorem endCommit_inv (h : Inv c s) (hsizes : Sizes c) {n : ℕ} (hphase : s.phase=.started n)
    (hfree : s.lock=.free) :
    Inv c (ubifsLogEndCommit c s n)∧Keeps c s (ubifsLogEndCommit c s n) := by
  have hlog : 0<c.logLebs := by
    have := hsizes.logLebs
    omega
  have ⟨q,hmaster⟩ := h.master
  have hp := h.phase
  unfold PhaseInv at hp
  rw [hphase] at hp
  have ⟨htail,_,hpending⟩ := hp
  have ⟨q',hcovers⟩ := hpending.covers
  set t := ubifsLogEndCommit c s n
  have hsame : ∀ m,Same c s t m := fun m => same_of_eq rfl rfl rfl rfl
  have hpend : pend c t=0 := by
    unfold pend
    have hlock : t.lock=.free := hfree
    rw [hlock]
  have hfit := h.fit
  have hn := hcovers.start.1
  -- The old tail is between the head and the new tail.
  have hreached := hpending.reached
  have hsplit : toHead c s s.mst.logLnum=dist c.logLebs s.mst.logLnum n+toHead c s n :=
    dist_split hmaster.start.1 hn h.head hreached
  have hpos := dist_pos hmaster.start.1 hn hpending.ne
  have hlt := toHead_lt hmaster.start.1 h.head
  refine ⟨⟨h.head,h.latest,h.jheads,?_,?_,?_,?_,?_,?_⟩,keeps_of_flash h rfl⟩
  · have hspan : span c t+c.lebSize≤c.logBytes := by
      unfold span
      have hto : toHead c t t.ltailLnum=toHead c s n := rfl
      have hos : t.lheadOffs=s.lheadOffs := rfl
      rw [hto,hos,Nat.add_assoc]
      exact room_of_lt (k := 2) (by omega) (by omega)
    have hmin : t.minLogBytes=c.lebSize := rfl
    omega
  · have hos : t.lheadOffs=s.lheadOffs := rfl
    omega
  · intro hlast _
    have hnext : nextLogLnum c s.lheadLnum=n := by
      have hlast : s.lheadLnum+1=n := hlast
      have hn' := hn
      unfold IsLog InRing at hn'
      rw [nextLogLnum_eq hlog]
      unfold next
      rw [if_neg (by omega)]
      exact hlast
    have hd := toHead_next hmaster.start.1 h.head hlog (by rw [hnext]; exact hpending.ne)
    rw [hnext] at hd
    omega
  · exact ⟨q,hmaster.same (hsame _) hmaster.nodes hmaster.heads⟩
  · refine ⟨rfl,htail.symm,rfl,hpending.ne,hreached,q',?_⟩
    exact hcovers.same (hsame n) hcovers.nodes hcovers.heads
  · unfold LockInv
    have hlock : t.lock=.free := hfree
    rw [hlock]
    trivial

theorem writeMaster_inv (h : Inv c s) {n o : ℕ} (hphase : s.phase=.ended n o) :
    Inv c (ubifsWriteMaster s n o)∧Keeps c s (ubifsWriteMaster s n o) := by
  have ⟨q,hmaster⟩ := h.master
  have hp := h.phase
  unfold PhaseInv at hp
  rw [hphase] at hp
  have ⟨htail,hmst,hmin,hpending⟩ := hp
  have ⟨q',hcovers⟩ := hpending.covers
  have hn := hcovers.start.1
  have hsame : Same c s (ubifsWriteMaster s n o) n := same_of_eq rfl rfl rfl rfl
  have hsplit : toHead c s s.mst.logLnum=dist c.logLebs s.mst.logLnum n+toHead c s n :=
    dist_split hmaster.start.1 hn h.head hpending.reached
  have hback := dist_back hmaster.start.1 hn hpending.ne
  have hlt := toHead_lt hmaster.start.1 h.head
  refine ⟨⟨h.head,h.latest,h.jheads,h.room,h.fit,h.exact,?_,?_,?_⟩,keeps_of_flash h rfl⟩
  · exact ⟨q',hcovers.same hsame hcovers.nodes hcovers.heads⟩
  · refine ⟨htail,hmin,hmst▸hmaster.start.1,?_⟩
    have hto : toHead c (ubifsWriteMaster s n o) n=toHead c s n := rfl
    have hlnum : (ubifsWriteMaster s n o).mst.logLnum=n := rfl
    rw [hlnum,hto,←hmst]
    omega
  · have hl := h.lock
    unfold LockInv at hl ⊢
    have hlock : (ubifsWriteMaster s n o).lock=s.lock := rfl
    rw [hlock]
    cases hs : s.lock with
    | free => trivial
    | adding j l o =>
      rw [hs] at hl
      exact hl
    | unmapping x =>
      rw [hs] at hl
      have ⟨⟨t,ht⟩,_⟩ := hl
      rw [hphase] at ht
      cases ht

theorem postCommit_inv (h : Inv c s) {o : ℕ} (hphase : s.phase=.written o) (hfree : s.lock=.free) :
    Inv c { s with oldBuds := [], lock := .unmapping o }∧
      Keeps c s { s with oldBuds := [], lock := .unmapping o } := by
  have ⟨q,hmaster⟩ := h.master
  have hp := h.phase
  have hroom := h.room
  have hfit := h.fit
  have hexact := h.exact
  have hpend : pend c s=0 := by
    unfold pend
    rw [hfree]
  have hp' := hp
  unfold PhaseInv at hp'
  rw [hphase] at hp'
  rw [hpend] at hroom hfit hexact
  refine ⟨⟨h.head,h.latest,h.jheads,hroom,hfit,hexact,?_,?_,⟨o,hphase⟩,hp'.2.2.1,.inr hp'.2.2.2⟩,
    keeps_of_flash h rfl⟩
  · exact ⟨q,hmaster.same (same_of_eq rfl rfl rfl rfl) hmaster.nodes hmaster.heads⟩
  · refine phaseInv_stay hp rfl rfl rfl rfl (by rw [hphase]; exact nofun) (fun n hn => ?_)
      fun _ _ _ hlt => hlt
    exact hn.same (same_of_eq rfl rfl rfl rfl) rfl rfl le_rfl (fun q hq => hq.nodes)
      fun q hq => hq.heads

theorem postUnmap_inv (h : Inv c s) (hsizes : Sizes c) {x : ℕ} (hlock : s.lock=.unmapping x) :
    Inv c (postUnmap c s x)∧Keeps c s (postUnmap c s x) := by
  have hlog : 0<c.logLebs := by
    have := hsizes.logLebs
    omega
  have ⟨q,hmaster⟩ := h.master
  have hl := h.lock
  unfold LockInv at hl
  rw [hlock] at hl
  have ⟨⟨o,hphase⟩,hx,hplace⟩ := hl
  have hp := h.phase
  unfold PhaseInv at hp
  rw [hphase] at hp
  have ⟨htail,hmin,ho,hlt⟩ := hp
  have hpend : pend c s=0 := by
    unfold pend
    rw [hlock]
  have hroom := h.room
  have hfit := h.fit
  have hexact := h.exact
  rw [hpend] at hroom hfit hexact
  unfold postUnmap
  by_cases hend : x=s.ltailLnum
  · rw [if_pos hend]
    refine ⟨⟨h.head,h.latest,h.jheads,hroom,hfit,hexact,?_,⟨htail,hmin⟩,trivial⟩,
      keeps_of_flash h rfl⟩
    exact ⟨q,hmaster.same (same_of_eq rfl rfl rfl rfl) hmaster.nodes hmaster.heads⟩
  · rw [if_neg hend]
    have hne : x≠s.mst.logLnum := htail▸hend
    have hbeyond := hplace.resolve_left hne
    set t : State := { ubifsLebUnmap s x with lock := .unmapping (nextLogLnum c x) }
    have hsame : Same c s t s.mst.logLnum := by
      refine ⟨fun _ => Iff.rfl,fun l => (flash_unmap s x l).1,fun l hin => ?_,le_rfl⟩
      have hlx : l≠x := by
        intro heq
        rw [heq] at hin
        rcases hin.2 with hin|⟨hin,_⟩
        · omega
        · rw [hin] at hbeyond
          exact lt_irrefl _ hbeyond
      have hflash : t.flash l=s.flash l := (flash_unmap s x l).2 hlx
      rw [hflash]
    refine ⟨⟨h.head,?_,h.jheads,hroom,hfit,hexact,?_,?_,⟨o,hphase⟩,?_,?_⟩,hsame.keeps h⟩
    · intro l
      rw [hsame.nodes]
      exact h.latest l
    · exact ⟨q,hmaster.same hsame hmaster.nodes hmaster.heads⟩
    · have hwritten : t.phase=.written o := hphase
      unfold PhaseInv
      rw [hwritten]
      exact ⟨htail,hmin,ho,hlt⟩
    · rw [nextLogLnum_eq hlog]
      exact next_inRing hx
    · rw [nextLogLnum_eq hlog]
      by_cases hnext : next UBIFS_LOG_LNUM c.logLebs x=s.mst.logLnum
      · exact .inl hnext
      · have hd := dist_next hmaster.start.1 hx hnext
        have hmst : t.mst=s.mst := rfl
        have hto : toHead c t s.mst.logLnum=toHead c s s.mst.logLnum := rfl
        rw [hmst,hto,hd]
        exact .inr (by omega)

/-! ## Runs -/

theorem step_inv (h : Inv c s) (hsizes : Sizes c) {op : Op} (hok : Spares c s op)
    (hstep : step c s op=some s') : Inv c s'∧Keeps c s s' := by
  cases op with
  | addStart jhead lnum offs =>
    have hstep : (if s.lock=.free∧s.phase≠.starting∧jhead<c.jheadCnt∧offs≤c.lebSize then
      some (addStart c s jhead lnum offs) else none)=some s' := hstep
    split at hstep
    next hcond =>
      cases hstep
      exact addStart_inv h hsizes hcond.2.1 hcond.2.2.1 hok
    · cases hstep
  | addWrite =>
    unfold step at hstep
    dsimp only at hstep
    split at hstep
    next jhead lnum offs hlock =>
      cases hstep
      refine addWrite_inv h hsizes hlock fun hstarting => ?_
      have hp := h.phase
      unfold PhaseInv at hp
      rw [hstarting] at hp
      have hfree := hp.2.1
      rw [hlock] at hfree
      cases hfree
    · cases hstep
  | writeNode jhead len =>
    have hstep : (if s.phase≠.starting then writeNode c s jhead len else none)=some s' := hstep
    split at hstep
    next hns => exact writeNode_inv h hns hstep
    · cases hstep
  | startUnmap =>
    have hstep : (if s.phase=.resting∧s.lock=.free then some (startUnmap c s) else none)=
      some s' := hstep
    split at hstep
    next hcond =>
      cases hstep
      exact startUnmap_inv h hsizes hcond.1 hcond.2
    · cases hstep
  | startWrite =>
    have hstep : (if s.phase=.starting then some (startWrite c s) else none)=some s' := hstep
    split at hstep
    next hstarting =>
      cases hstep
      exact startWrite_inv h hsizes hstarting hok
    · cases hstep
  | endCommit =>
    unfold step at hstep
    dsimp only at hstep
    split at hstep
    next n hphase hfree =>
      cases hstep
      exact endCommit_inv h hsizes hphase hfree
    · cases hstep
  | writeMaster =>
    unfold step at hstep
    dsimp only at hstep
    split at hstep
    next n o hphase =>
      cases hstep
      exact writeMaster_inv h hphase
    · cases hstep
  | postCommit =>
    unfold step at hstep
    dsimp only at hstep
    split at hstep
    next o hphase hfree =>
      cases hstep
      exact postCommit_inv h hphase hfree
    · cases hstep
  | postUnmap =>
    unfold step at hstep
    dsimp only at hstep
    split at hstep
    next x hlock =>
      cases hstep
      exact postUnmap_inv h hsizes hlock
    · cases hstep

theorem Mounted.inv (h : Mounted c s) (hsizes : Sizes c) : Inv c s := by
  have hlog : 0<c.logLebs := by
    have := hsizes.logLebs
    omega
  have ⟨q,hcovers⟩ := h.covers
  have hpend : pend c s=0 := by
    unfold pend
    rw [h.lock]
  have htail : IsLog c s.ltailLnum := h.tail▸hcovers.start.1
  have hoffs := h.offs
  have hlt := toHead_lt htail h.head
  have hne : toHead c s s.ltailLnum+1≠c.logLebs := by
    intro hend
    refine h.next ?_
    rw [nextLogLnum_eq hlog]
    exact (next_eq_start htail h.head).mpr hend
  refine ⟨h.head,h.latest,h.jheads,?_,?_,fun hlast => ?_,⟨q,hcovers⟩,?_,?_⟩
  · rw [hpend,h.minLogBytes,Nat.add_zero]
    unfold span
    rw [Nat.add_assoc]
    exact room_of_lt (k := 2) (by omega) (by omega)
  · omega
  · refine absurd ?_ h.next
    have ht := htail
    unfold IsLog InRing at ht
    rw [nextLogLnum_eq hlog]
    unfold RingSegments.next
    rw [if_neg (by omega)]
    exact hlast
  · unfold PhaseInv
    rw [h.phase]
    exact ⟨h.tail,h.minLogBytes⟩
  · unfold LockInv
    rw [h.lock]
    trivial

instance (c : Info) (s : State) : Decidable (EndsAtTail c s) :=
  inferInstanceAs (Decidable (ite _ _ _))

instance (c : Info) (s : State) : Decidable (EntersOldTail c s) :=
  match hp : s.phase with
  | .ended _ o => decidable_of_iff (switches c s=true∧nextLogLnum c s.lheadLnum=o)
      (by unfold EntersOldTail; rw [hp])
  | .written o => decidable_of_iff (switches c s=true∧nextLogLnum c s.lheadLnum=o)
      (by unfold EntersOldTail; rw [hp])
  | .resting => .isFalse fun h => by unfold EntersOldTail at h; rw [hp] at h; exact h.2
  | .starting => .isFalse fun h => by unfold EntersOldTail at h; rw [hp] at h; exact h.2
  | .started _ => .isFalse fun h => by unfold EntersOldTail at h; rw [hp] at h; exact h.2

instance (c : Info) (s : State) (op : Op) : Decidable (Spares c s op) :=
  match op with
  | .addStart _ _ _ => inferInstanceAs (Decidable (_ → _))
  | .startWrite => inferInstanceAs (Decidable (¬_))
  | .addWrite => .isTrue trivial
  | .writeNode _ _ => .isTrue trivial
  | .startUnmap => .isTrue trivial
  | .endCommit => .isTrue trivial
  | .writeMaster => .isTrue trivial
  | .postCommit => .isTrue trivial
  | .postUnmap => .isTrue trivial

end ArdroneKernel.UbifsLog
