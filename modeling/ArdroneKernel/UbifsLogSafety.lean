import ArdroneKernel.UbifsLogCover

/-!
# What the log should keep

A mount finds a reference to every bud that it has to replay, no LEB with such
a reference is lost, the empty space is known exactly and a commit has a LEB to
start in. This follows from an invariant about the segments of the log, and
about how far the commit and the owner of the lock are.
-/

namespace ArdroneKernel.UbifsLog

open RingSegments

variable {c : Info} {s s' : State} {m l : ℕ}

/-! ## What should hold -/

/-- A mount finds a reference to every bud with nodes that the index of the
master node does not cover, the empty bytes are known, and a commit can start
in a LEB of which nothing is read and which is not the tail. -/
structure Safe (c : Info) (s : State) : Prop where
  mounts : ∀ erased,∃ lebs,replay c s erased=some lebs∧
    ∀ x∈s.uncovered,∃ leb∈lebs,∃ n∈leb.2,Refers n x
  exact : emptyLogBytes c s=(c.logBytes : ℤ)-usedLogBytes c s
  room : s.phase=.resting → s.lock=.free → startLnum c s≠s.ltailLnum∧
    ∀ erased lebs,replay c s erased=some lebs → ∀ leb∈lebs,leb.1≠startLnum c s

/-- No LEB that is read and refers to such a bud is unmapped or overwritten. -/
def Kept (c : Info) (s s' : State) : Prop :=
  ∀ erased lebs,replay c s erased=some lebs → ∀ leb∈lebs,
    (∃ n∈leb.2,∃ x∈s.uncovered,Refers n x) →
    (s'.flash leb.1).mapped=true∧leb.2 <+: (s'.flash leb.1).nodes

/-- The reference node would end where the LEB of the tail begins. -/
def EndsAtTail (c : Info) (s : State) : Prop :=
  if switches c s then nextLogLnum c s.lheadLnum+1=s.ltailLnum∧c.refNodeAlsz=c.lebSize
  else s.lheadLnum+1=s.ltailLnum∧s.lheadOffs+c.refNodeAlsz=c.lebSize

/-- The head would enter the old tail, which the commit is about to unmap. -/
def EntersOldTail (c : Info) (s : State) : Prop :=
  switches c s=true∧match s.phase with
    | .ended _ oldLtail => nextLogLnum c s.lheadLnum=oldLtail
    | .written oldLtail => nextLogLnum c s.lheadLnum=oldLtail
    | _ => False

/-- A reference node is added neither up to the tail nor in the old tail of a
commit, and a commit does not start with the last empty LEB and fill it. -/
def Spares (c : Info) (s : State) : Op → Prop
  | .addStart _ _ offs => refused c s offs=false → ¬EndsAtTail c s∧¬EntersOldTail c s
  | .startWrite => ¬(startLen c s=c.lebSize∧nextLogLnum c s.lheadLnum=s.ltailLnum)
  | _ => True

/-- What mounting leaves: no commit runs, the LEB after the head is not the
tail, and the log refers to every bud. -/
structure Mounted (c : Info) (s : State) : Prop where
  phase : s.phase=.resting
  lock : s.lock=.free
  minLogBytes : s.minLogBytes=c.lebSize
  tail : s.ltailLnum=s.mst.logLnum
  head : IsLog c s.lheadLnum
  offs : s.lheadOffs≤c.lebSize
  next : nextLogLnum c s.lheadLnum≠s.ltailLnum
  latest : ∀ l,∀ n∈(s.flash l).nodes,n.sqnum≤ s.maxSqnum
  jheads : ∀ j x,s.wbuf j=some x → j<c.jheadCnt
  covers : ∃ q,Covers c s s.mst.logLnum s.mst.cmtNo q s.uncovered

/-! ## Sizes -/

theorem le_align {x a : ℕ} (ha : 0<a) : x≤align x a := by
  unfold align
  have hdiv := Nat.div_add_mod (x+a-1) a
  have hmod := Nat.mod_lt (x+a-1) ha
  rw [Nat.mul_comm] at hdiv
  omega

theorem align_mono {x y a : ℕ} (h : x≤y) : align x a≤align y a :=
  Nat.mul_le_mul_right _ (Nat.div_le_div_right (by omega))

/-- What the sizes that `init_constants_sb` accepts promise. -/
structure Sizes (c : Info) : Prop where
  logLebs : 2≤c.logLebs
  minIo : 0<c.minIoSize
  ref : 0<c.refNodeAlsz∧c.refNodeAlsz≤c.lebSize
  len : ∀ s,0<startLen c s∧startLen c s≤c.lebSize

theorem headRefs_length (c : Info) (s : State) : (headRefs c s).length≤c.jheadCnt := by
  exact (List.length_filterMap_le _ _).trans_eq List.length_range

theorem Accepted.sizes (h : Accepted c) : Sizes c := by
  have ⟨sb,hsb,hinit⟩ := h
  unfold initConstantsSb at hinit
  dsimp only at hinit
  split at hinit
  · cases hinit
  next hleb =>
    split at hinit
    · cases hinit
    · cases hinit
      have ⟨k,_,hmin⟩ := hsb.minIoSize
      have hio : 0<sb.minIoSize := by omega
      have hjheads := hsb.jheadCnt.1
      have hlogs := hsb.logLebs
      refine ⟨hlogs,hio,⟨?_,?_⟩,fun s => ⟨?_,?_⟩⟩
      · exact (by decide : 0<UBIFS_REF_NODE_SZ).trans_le (le_align hio)
      · refine (align_mono ?_).trans (not_lt.mp hleb)
        unfold UBIFS_REF_NODE_SZ UBIFS_CS_NODE_SZ
        omega
      · refine lt_of_lt_of_le ?_ (le_align hio)
        unfold UBIFS_CS_NODE_SZ
        omega
      · refine (align_mono ?_).trans (not_lt.mp hleb)
        exact Nat.add_le_add_left (Nat.mul_le_mul_left _ (headRefs_length _ s)) _

/-! ## The invariant -/

/-- What a writer is about to add to the log. -/
def pend (c : Info) (s : State) : ℕ :=
  match s.lock with
  | .adding _ _ _ => c.refNodeAlsz
  | _ => 0

/-- The segment that the commit opens for the new tail. -/
structure Pending (c : Info) (s : State) (n : ℕ) : Prop where
  ne : n≠s.mst.logLnum
  reached : dist c.logLebs s.mst.logLnum n≤toHead c s s.mst.logLnum
  covers : ∃ q,Covers c s n s.cmtNo q s.sinceStart

/-- What holds while a commit is as far as it is. -/
def PhaseInv (c : Info) (s : State) : Prop :=
  match s.phase with
  | .resting => s.ltailLnum=s.mst.logLnum∧s.minLogBytes=c.lebSize
  | .starting => s.ltailLnum=s.mst.logLnum∧s.lock=.free∧s.lheadOffs=0∧
      (s.flash s.lheadLnum).mapped=false
  | .started n => s.ltailLnum=s.mst.logLnum∧s.minLogBytes=0∧Pending c s n
  | .ended n t => s.ltailLnum=n∧s.mst.logLnum=t∧s.minLogBytes=c.lebSize∧Pending c s n
  | .written t => s.ltailLnum=s.mst.logLnum∧s.minLogBytes=c.lebSize∧IsLog c t∧
      toHead c s s.mst.logLnum<dist c.logLebs s.mst.logLnum t

/-- What holds while somebody has `log_mutex`. -/
def LockInv (c : Info) (s : State) : Prop :=
  match s.lock with
  | .free => True
  | .adding jhead _ _ => jhead<c.jheadCnt∧
      (s.lheadOffs=0 → (s.flash s.lheadLnum).mapped=false)
  | .unmapping x => (∃ t,s.phase=.written t)∧IsLog c x∧
      (x=s.mst.logLnum∨toHead c s s.mst.logLnum<dist c.logLebs s.mst.logLnum x)

/-- What every step keeps. -/
structure Inv (c : Info) (s : State) : Prop where
  head : IsLog c s.lheadLnum
  latest : ∀ l,∀ n∈(s.flash l).nodes,n.sqnum≤ s.maxSqnum
  jheads : ∀ j x,s.wbuf j=some x → j<c.jheadCnt
  room : span c s+s.minLogBytes+pend c s≤c.logBytes
  fit : s.lheadOffs+pend c s≤c.lebSize
  exact : s.lheadLnum+1=s.ltailLnum → s.lheadOffs+pend c s≠c.lebSize
  master : ∃ q,Covers c s s.mst.logLnum s.mst.cmtNo q s.uncovered
  phase : PhaseInv c s
  lock : LockInv c s

theorem Within.span_pos (hleb : 0<c.lebSize) (h : Within c s m m) :
    0<toHead c s m*c.lebSize+s.lheadOffs := by
  rcases h.2 with hlt|⟨_,hoffs⟩
  · rw [dist_self] at hlt
    have := Nat.mul_pos hlt hleb
    omega
  · omega

/-- The tail is in the segment that is read. -/
theorem Inv.tail (h : Inv c s) : Within c s s.ltailLnum s.ltailLnum := by
  have ⟨_,hmaster⟩ := h.master
  have hphase := h.phase
  unfold PhaseInv at hphase
  cases hp : s.phase with
  | resting =>
    rw [hp] at hphase
    rw [hphase.1]
    exact hmaster.start
  | starting =>
    rw [hp] at hphase
    rw [hphase.1]
    exact hmaster.start
  | started n =>
    rw [hp] at hphase
    rw [hphase.1]
    exact hmaster.start
  | ended n t =>
    rw [hp] at hphase
    rw [hphase.1]
    exact hphase.2.2.2.covers.choose_spec.start
  | written t =>
    rw [hp] at hphase
    rw [hphase.1]
    exact hmaster.start

theorem Inv.offs_ne (h : Inv c s) (hsizes : Sizes c) (hlast : s.lheadLnum+1=s.ltailLnum) :
    s.lheadOffs≠c.lebSize := by
  have hexact := h.exact hlast
  have hfit := h.fit
  unfold pend at hexact hfit
  split at hexact
  next hl =>
    rw [hl] at hfit
    dsimp only at hfit
    omega
  · omega

/-- The code knows how much of the log is empty. -/
theorem Inv.emptyLogBytes (h : Inv c s) (hsizes : Sizes c) :
    emptyLogBytes c s=(c.logBytes : ℤ)-span c s := by
  have href := hsizes.ref
  have hfit := h.fit
  exact emptyLogBytes_eq h.head h.tail.1 (by omega) (by omega) fun hlast => h.offs_ne hsizes hlast

/-- There is a LEB after the head that is not the start of a segment. -/
theorem next_ne (hm : IsLog c m) (hhead : IsLog c s.lheadLnum) (hlog : 0<c.logLebs)
    (h : toHead c s m+1<c.logLebs) : nextLogLnum c s.lheadLnum≠m := by
  rw [nextLogLnum_eq hlog]
  intro heq
  have hend := (next_eq_start hm hhead).mp heq
  unfold toHead at h
  omega

theorem toHead_next (hm : IsLog c m) (hhead : IsLog c s.lheadLnum) (hlog : 0<c.logLebs)
    (h : nextLogLnum c s.lheadLnum≠m) :
    dist c.logLebs m (nextLogLnum c s.lheadLnum)=toHead c s m+1 := by
  rw [nextLogLnum_eq hlog] at h ⊢
  exact dist_next hm hhead h

theorem toHead_lt (hm : IsLog c m) (hhead : IsLog c s.lheadLnum) : toHead c s m<c.logLebs :=
  dist_lt hm hhead

/-- Room for more than the rest of a LEB is a LEB that the segment does not reach. -/
theorem succ_lt_of_room {d x : ℕ} (h : d*c.lebSize+x≤c.logBytes) (hx : c.lebSize<x) : d+1<c.logLebs := by
  unfold Info.logBytes at h
  by_contra hle
  have hmul : c.logLebs*c.lebSize≤(d+1)*c.lebSize := Nat.mul_le_mul_right _ (by omega)
  rw [Nat.add_mul,Nat.one_mul] at hmul
  omega

theorem room_of_lt {d k x : ℕ} (h : d+k≤c.logLebs) (hx : x≤k*c.lebSize) :
    d*c.lebSize+x≤c.logBytes := by
  unfold Info.logBytes
  have hmul : (d+k)*c.lebSize≤c.logLebs*c.lebSize := Nat.mul_le_mul_right _ h
  rw [Nat.add_mul] at hmul
  omega

/-! ## What the invariant says -/

theorem Inv.safe (h : Inv c s) (hsizes : Sizes c) : Safe c s := by
  have hlog : 0<c.logLebs := by
    have := hsizes.logLebs
    omega
  have hleb : 0<c.lebSize := by
    have := hsizes.ref
    omega
  have ⟨q,hmaster⟩ := h.master
  have hspan : 0<span c s := h.tail.span_pos hleb
  refine ⟨fun erased => ?_,?_,fun hrest hfree => ?_⟩
  · have ⟨lebs,hreplay,_,hall⟩ := replay_reads erased hmaster h.head hlog
    refine ⟨lebs,hreplay,fun x hx => ?_⟩
    have ⟨l,n,hl,hn,hr⟩ := hmaster.nodes x hx
    exact ⟨_,hall l hl (Nat.zero_le _),n,hn,hr⟩
  · rw [h.emptyLogBytes hsizes]
    unfold usedLogBytes
    rw [if_neg (by omega)]
  · have hphase := h.phase
    unfold PhaseInv at hphase
    rw [hrest] at hphase
    have ⟨htail,hmin⟩ := hphase
    have hroom := h.room
    unfold pend at hroom
    have hstart := h.tail
    -- The next LEB is beyond the head, and the head itself is when it has no node yet.
    have hout : startLnum c s≠s.ltailLnum∧¬Within c s s.ltailLnum (startLnum c s) := by
      unfold startLnum
      by_cases hoffs : s.lheadOffs≠0
      · rw [if_pos hoffs]
        have hlt : toHead c s s.ltailLnum+1<c.logLebs := by
          unfold span at hroom
          exact succ_lt_of_room (x := s.lheadOffs+c.lebSize) (by omega) (by omega)
        have hne := next_ne hstart.1 h.head hlog hlt
        refine ⟨hne,fun ⟨_,hin⟩ => ?_⟩
        rw [toHead_next hstart.1 h.head hlog hne] at hin
        rcases hin with hin|⟨hin,_⟩
        · omega
        · have hself := toHead_next hstart.1 h.head hlog hne
          rw [hin] at hself
          unfold toHead at hself
          omega
      · rw [if_neg hoffs]
        refine ⟨fun heq => ?_,fun ⟨_,hin⟩ => ?_⟩
        · rcases hstart.2 with hlt|⟨_,hpos⟩
          · unfold toHead at hlt
            rw [heq] at hlt
            exact lt_irrefl _ hlt
          · omega
        · rcases hin with hlt|⟨_,hpos⟩
          · exact lt_irrefl _ hlt
          · omega
    refine ⟨hout.1,fun erased lebs hreplay leb hleb' heq => ?_⟩
    have ⟨lebs',hreplay',hall,_⟩ := replay_reads erased hmaster h.head hlog
    rw [hreplay] at hreplay'
    cases hreplay'
    have hin := (hall leb hleb').1
    rw [heq,←htail] at hin
    exact hout.2 hin

/-- The LEBs with nodes that a mount reads are kept. -/
def Keeps (c : Info) (s s' : State) : Prop :=
  ∀ l,Within c s s.mst.logLnum l →
    (s'.flash l).mapped=true∧(s.flash l).nodes <+: (s'.flash l).nodes

theorem Keeps.kept (h : Keeps c s s') (hinv : Inv c s) (hsizes : Sizes c) : Kept c s s' := by
  intro erased lebs hreplay leb hleb _
  have ⟨q,hmaster⟩ := hinv.master
  have ⟨lebs',hreplay',hall,_⟩ := replay_reads erased hmaster hinv.head
    (Nat.lt_of_lt_of_le Nat.zero_lt_two hsizes.logLebs)
  rw [hreplay] at hreplay'
  cases hreplay'
  have ⟨hin,heq⟩ := hall leb hleb
  rw [heq]
  exact h leb.1 hin

theorem keeps_of_flash (h : Inv c s) (hflash : s'.flash=s.flash) : Keeps c s s' := by
  have ⟨q,hmaster⟩ := h.master
  intro l hl
  rw [hflash]
  exact ⟨(hmaster.inside l hl).1,List.prefix_rfl⟩

theorem Same.keeps (hs : Same c s s' s.mst.logLnum) (h : Inv c s) : Keeps c s s' := by
  have ⟨q,hmaster⟩ := h.master
  intro l hl
  rw [hs.mapped l hl,hs.nodes]
  exact ⟨(hmaster.inside l hl).1,List.prefix_rfl⟩

theorem Grown.keeps {q : ℕ} (hs : Grown c s s' s.mst.logLnum q) (h : Inv c s) : Keeps c s s' := by
  have ⟨q,hmaster⟩ := h.master
  intro l hl
  refine ⟨?_,hs.kept hl⟩
  by_cases hhead : l=s.lheadLnum
  · rw [hhead]
    exact hs.mapped
  · rw [hs.other l hhead]
    exact (hmaster.inside l hl).1

end ArdroneKernel.UbifsLog
