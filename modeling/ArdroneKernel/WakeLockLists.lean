import ArdroneKernel.WakeLock
import Mathlib.Data.List.Pairwise

/-!
# Wake locks neither lose nor delay a suspend

Every initialised lock is on the list its flags tell, the locks that do not
expire before those that do. The timer or the queued work follows the last
lock that prevents suspend. Destroying an active lock forgets both, and a lock
left on its list too long after it expired looks active again.
-/

namespace ArdroneKernel.WakeLock

open Execution Function

/-! ## Lists -/

/-- Every initialised lock is on one list, and the locks of an active list
that do not expire come first. -/
structure Placed (s : State) : Prop where
  inactive : ∀ l,l∈s.inactiveLocks ↔ (s.locks l).initialized∧¬(s.locks l).active
  active : ∀ type l,l∈s.activeWakeLocks type ↔
    (s.locks l).initialized∧(s.locks l).active∧(s.locks l).type=type
  inactive_nodup : s.inactiveLocks.Nodup
  active_nodup : ∀ type,(s.activeWakeLocks type).Nodup
  sorted : ∀ type,(s.activeWakeLocks type).Pairwise fun a b =>
    (s.locks a).autoExpire → (s.locks b).autoExpire

variable {s s' : State} {l l' type : ℕ} {list : List ℕ} {ls : List ℕ} {lock : Lock} {r : ℤ}

/-- A lock that was taken off its list and changed is put back where its flags tell. -/
theorem Placed.deactivate (h : Placed s) (hl : (s.locks l).initialized) :
    Placed (deactivate s l) := by
  have hlock : ∀ x,x≠l → (WakeLock.deactivate s l).locks x=s.locks x := fun x hx =>
    update_of_ne hx _ _
  have hself : (WakeLock.deactivate s l).locks l=
      { s.locks l with active := false, autoExpire := false } := update_self _ _ _
  refine ⟨fun x => ?_,fun type x => ?_,?_,fun type => (h.active_nodup type).erase l,fun type => ?_⟩
  · have hmem : x∈(WakeLock.deactivate s l).inactiveLocks ↔ x=l∨x∈s.inactiveLocks.erase l :=
      List.mem_cons
    rw [hmem]
    by_cases hx : x=l
    · rw [hx,hself]
      simp [hl]
    · rw [hlock x hx,List.mem_erase_of_ne hx,h.inactive x]
      simp [hx]
  · have hmem : x∈(WakeLock.deactivate s l).activeWakeLocks type ↔
        x∈(s.activeWakeLocks type).erase l := Iff.rfl
    rw [hmem,(h.active_nodup type).mem_erase_iff]
    by_cases hx : x=l
    · rw [hx,hself]
      simp
    · rw [hlock x hx,h.active type x]
      simp [hx]
  · exact List.nodup_cons.mpr ⟨fun hmem => (h.inactive_nodup.mem_erase_iff.mp hmem).1 rfl,
      h.inactive_nodup.erase l⟩
  · have hsub := (h.sorted type).sublist (List.erase_sublist (a := l))
    refine hsub.imp_of_mem fun {a b} ha hb hab => ?_
    have hne : ∀ x,x∈(s.activeWakeLocks type).erase l → x≠l := fun x hx =>
      ((h.active_nodup type).mem_erase_iff.mp hx).1
    rw [hlock a (hne a ha),hlock b (hne b hb)]
    exact hab

theorem deactivate_lock (hx : l'≠l) : (deactivate s l).locks l'=s.locks l' :=
  update_of_ne hx _ _

theorem deactivate_same (s : State) (l l' : ℕ) : ((deactivate s l).locks l').expires=(s.locks l').expires∧
    ((deactivate s l).locks l').type=(s.locks l').type∧
    ((deactivate s l).locks l').initialized=(s.locks l').initialized := by
  by_cases hx : l'=l
  · have hself : (deactivate s l).locks l=
        { s.locks l with active := false, autoExpire := false } := update_self _ _ _
    rw [hx,hself]
    exact ⟨rfl,rfl,rfl⟩
  · rw [deactivate_lock hx]
    exact ⟨rfl,rfl,rfl⟩

theorem deactivate_timeout : (deactivate s l).timeout l'=s.timeout l' := by
  unfold State.timeout
  rw [(deactivate_same _ _ _).1]
  rfl

/-! ## The walk over a list -/

/-- What the walk over locks that expire leaves: those whose time is over are
inactive, and the largest of the other times was found. -/
structure Walked (s : State) (type : ℕ) (ls : List ℕ) (start : ℤ) (r : ℤ) (s' : State) : Prop where
  placed : Placed s'
  jiffies : s'.jiffies=s.jiffies
  timer : s'.expireTimer=s.expireTimer
  same : ∀ x,(s'.locks x).expires=(s.locks x).expires∧(s'.locks x).type=(s.locks x).type∧
    (s'.locks x).initialized=(s.locks x).initialized
  left : ∀ t x,x∈s'.activeWakeLocks t ↔ x∈s.activeWakeLocks t∧¬(x∈ls∧s.timeout x≤0)
  kept : ∀ t x,x∈s'.activeWakeLocks t → s'.locks x=s.locks x
  start_le : start≤r
  le : ∀ x∈ls,s.timeout x≤r
  attained : r=start∨∃ x∈ls,s.timeout x=r∧0<r
  queued : type≠WAKE_LOCK_SUSPEND → s'.queued=s.queued

/-- The walk goes on from a lock whose time is not over. -/
theorem Walked.skip {start next r : ℤ} (h : Walked s type ls next r s') (hpos : 0<s.timeout l)
    (hnext : next=max start (s.timeout l)) :
    Walked s type (l::ls) start r s' := by
  have hle : start≤next∧s.timeout l≤next := by
    rw [hnext]
    exact ⟨le_max_left _ _,le_max_right _ _⟩
  refine ⟨h.placed,h.jiffies,h.timer,h.same,fun t x => ?_,h.kept,hle.1.trans h.start_le,?_,?_,
    h.queued⟩
  · rw [h.left t x,List.mem_cons]
    refine and_congr_right fun _ => not_congr ⟨fun hx => ⟨.inr hx.1,hx.2⟩,fun hx => ?_⟩
    rcases hx with ⟨rfl|hin,hle⟩
    · omega
    · exact ⟨hin,hle⟩
  · intro x hx
    rcases List.mem_cons.mp hx with rfl|hx
    · exact hle.2.trans h.start_le
    · exact h.le x hx
  · rcases h.attained with hr|⟨x,hx,hr⟩
    · rcases max_cases start (s.timeout l) with hmax|hmax
      · exact .inl (hr.trans (hnext.trans hmax.1))
      · have hr' : r=s.timeout l := hr.trans (hnext.trans hmax.1)
        exact .inr ⟨l,List.mem_cons_self,hr'.symm,hr'▸hpos⟩
    · exact .inr ⟨x,List.mem_cons_of_mem _ hx,hr⟩

/-- The walk goes on from a lock that it makes inactive. -/
theorem Walked.expired {start r : ℤ} (h : Walked (expireWakeLock s l) type ls start r s')
    (hs : Placed s) (hl : l∈s.activeWakeLocks type) (hstart : 0≤ start) (hle : s.timeout l≤0) :
    Walked s type (l::ls) start r s' := by
  have htime : ∀ x,(expireWakeLock s l).timeout x=s.timeout x := fun x => deactivate_timeout
  have hmem : ∀ t x,x∈(expireWakeLock s l).activeWakeLocks t ↔ x∈s.activeWakeLocks t∧x≠l := by
    intro t x
    exact ((hs.active_nodup t).mem_erase_iff).trans And.comm
  refine ⟨h.placed,h.jiffies,h.timer,fun x => ?_,fun t x => ?_,fun t x hx => ?_,h.start_le,?_,?_,
    fun hne => ?_⟩
  · have hd := deactivate_same s l x
    exact ⟨(h.same x).1.trans hd.1,(h.same x).2.1.trans hd.2.1,(h.same x).2.2.trans hd.2.2⟩
  · rw [h.left t x,hmem t x,htime,List.mem_cons]
    by_cases hx : x=l
    · simp [hx,hle]
    · simp [hx]
  · have hx' := (h.left t x).mp hx
    rw [h.kept t x hx]
    exact deactivate_lock ((hmem t x).mp hx'.1).2
  · intro x hx
    rcases List.mem_cons.mp hx with rfl|hx
    · exact hle.trans (hstart.trans h.start_le)
    · exact htime x▸h.le x hx
  · rcases h.attained with hr|⟨x,hx,hr⟩
    · exact .inl hr
    · exact .inr ⟨x,List.mem_cons_of_mem _ hx,htime x▸hr⟩
  · rw [h.queued hne]
    have htype := ((hs.active type l).mp hl).2.2
    have hend : (expireWakeLock s l).queued=
        (s.queued && !((s.locks l).active && (s.locks l).type==WAKE_LOCK_SUSPEND)) := rfl
    have hbeq : ((s.locks l).type==WAKE_LOCK_SUSPEND)=false := beq_eq_false_iff_ne.mpr (htype▸hne)
    rw [hend,hbeq,Bool.and_false,Bool.not_false,Bool.and_true]

/-- The walk over locks all of which expire. -/
theorem hasWakeLockLoop_walked (ls : List ℕ) : ∀ {s : State} {start : ℤ},Placed s → ls.Nodup →
    (∀ x∈ls,x∈s.activeWakeLocks type∧(s.locks x).autoExpire) → 0≤ start →
    Walked s type ls start (hasWakeLockLoop ls start s).1 (hasWakeLockLoop ls start s).2 := by
  induction ls with
  | nil =>
    intro s start hs _ _ _
    exact ⟨hs,rfl,rfl,fun _ => ⟨rfl,rfl,rfl⟩,by simp [hasWakeLockLoop],fun _ _ _ => rfl,le_rfl,
      by simp,.inl rfl,fun _ => rfl⟩
  | cons l ls ih =>
    intro s start hs hnodup hall hstart
    have ⟨hl,hauto⟩ := hall l List.mem_cons_self
    have hrest := fun x hx => hall x (List.mem_cons_of_mem _ hx)
    have ⟨hnot,hnodup'⟩ := List.nodup_cons.mp hnodup
    unfold hasWakeLockLoop
    rw [if_pos hauto]
    by_cases hle : s.timeout l≤0
    · rw [if_pos hle]
      have hinit := ((hs.active type l).mp hl).1
      refine (ih (hs.deactivate hinit) hnodup' (fun x hx => ?_) hstart).expired hs hl hstart hle
      have hne : x≠l := fun heq => hnot (heq▸hx)
      rw [deactivate_lock hne]
      exact ⟨(List.mem_erase_of_ne hne).mpr (hrest x hx).1,(hrest x hx).2⟩
    · rw [if_neg hle]
      by_cases hgt : s.timeout l>start
      · rw [if_pos hgt]
        exact (ih hs hnodup' hrest (by omega)).skip (by omega) (max_eq_right hgt.le).symm
      · rw [if_neg hgt]
        exact (ih hs hnodup' hrest hstart).skip (by omega) (max_eq_left (by omega)).symm

/-- A lock of the type is active and does not expire. -/
def Held (s : State) (type : ℕ) : Prop :=
  ∃ x∈s.activeWakeLocks type,(s.locks x).autoExpire=false

/-- The walk stops at the first lock, where one does not expire. -/
theorem hasWakeLockLocked_held (hs : Placed s) (h : Held s type) :
    hasWakeLockLocked s type=(-1,s) := by
  have ⟨x,hx,hauto⟩ := h
  have hsorted := hs.sorted type
  unfold hasWakeLockLocked
  cases hls : s.activeWakeLocks type with
  | nil =>
    rw [hls] at hx
    cases hx
  | cons a ls =>
    rw [hls] at hx hsorted
    have ha : (s.locks a).autoExpire=false := by
      rcases List.mem_cons.mp hx with rfl|hx
      · exact hauto
      · by_contra hne
        have hax := (List.pairwise_cons.mp hsorted).1 x hx (Bool.not_eq_false _ ▸ hne)
        rw [hauto] at hax
        cases hax
    unfold hasWakeLockLoop
    rw [ha]
    rfl

/-- The walk goes over the whole list, where every lock expires. -/
theorem hasWakeLockLocked_walked (hs : Placed s) (h : ¬Held s type) :
    Walked s type (s.activeWakeLocks type) 0 (hasWakeLockLocked s type).1
      (hasWakeLockLocked s type).2 := by
  refine hasWakeLockLoop_walked _ hs (hs.active_nodup type) (fun x hx => ⟨hx,?_⟩) le_rfl
  by_contra hne
  exact h ⟨x,hx,Bool.not_eq_true _ ▸ hne⟩

/-! ## What the claims of the header are about -/

/-- The locks that expire were not left on their lists for 2^31 ticks after
they expired. -/
def Fresh (s : State) : Prop :=
  ∀ type<WAKE_LOCK_TYPE_COUNT,∀ x∈s.activeWakeLocks type,(s.locks x).autoExpire →
    s.jiffies-2^31≤(s.locks x).expires

/-- No timeout is longer than a `long` can tell. -/
def Short (s : State) : Prop :=
  ∀ type<WAKE_LOCK_TYPE_COUNT,∀ x∈s.activeWakeLocks type,(s.locks x).autoExpire →
    (s.locks x).expires<s.jiffies+2^31

/-- The timer is pending for no later than the last of the locks that prevent
suspend expires, or the system was asked to suspend. -/
def Armed (s : State) : Prop :=
  (∃ t∈s.expireTimer,∃ x∈s.activeWakeLocks WAKE_LOCK_SUSPEND,
    (s.locks x).autoExpire∧t≤(s.locks x).expires)∨s.queued

/-- What `has_wake_lock` should return: -1 when a lock does not expire, else
the largest of the times left, else 0. -/
structure Reports (s : State) (type : ℕ) (r : ℤ) : Prop where
  held : Held s type → r=-1
  le : ¬Held s type → ∀ x∈s.activeWakeLocks type,(s.locks x).expires-s.jiffies≤r
  attained : ¬Held s type → r=0∨
    0<r∧∃ x∈s.activeWakeLocks type,(s.locks x).expires-s.jiffies=r
  nonneg : ¬Held s type → 0≤r

/-- What holds between two operations. -/
structure Sound (s : State) : Prop where
  placed : Placed s
  reports : ∀ type<WAKE_LOCK_TYPE_COUNT,Reports s type (hasWakeLockLocked s type).1
  armed : ¬Held s WAKE_LOCK_SUSPEND → Armed s

theorem timeout_eq (hfresh : s.jiffies-2^31≤(s.locks l).expires)
    (hshort : (s.locks l).expires<s.jiffies+2^31) :
    s.timeout l=(s.locks l).expires-s.jiffies := by
  unfold State.timeout ULONG_SIZE
  rw [Int.bmod_eq_of_le] <;> omega

/-- The time left of a lock is what the code reads. -/
theorem timeout_left (hf : Fresh s) (hs : Short s) (htype : type<WAKE_LOCK_TYPE_COUNT)
    (hl : l∈s.activeWakeLocks type) (hauto : (s.locks l).autoExpire) :
    s.timeout l=(s.locks l).expires-s.jiffies :=
  timeout_eq (hf type htype l hl hauto) (hs type htype l hl hauto)

theorem autoExpire_of_not_held (h : ¬Held s type) (hl : l∈s.activeWakeLocks type) :
    (s.locks l).autoExpire := by
  by_contra hne
  exact h ⟨l,hl,Bool.not_eq_true _ ▸ hne⟩

theorem reports_of_placed (hp : Placed s) (hf : Fresh s) (hs : Short s)
    (htype : type<WAKE_LOCK_TYPE_COUNT) : Reports s type (hasWakeLockLocked s type).1 := by
  by_cases hheld : Held s type
  · rw [hasWakeLockLocked_held hp hheld]
    exact ⟨fun _ => rfl,fun h => absurd hheld h,fun h => absurd hheld h,fun h => absurd hheld h⟩
  · have hw := hasWakeLockLocked_walked hp hheld
    have htime : ∀ x∈s.activeWakeLocks type,s.timeout x=(s.locks x).expires-s.jiffies :=
      fun x hx => timeout_left hf hs htype hx (autoExpire_of_not_held hheld hx)
    refine ⟨fun h => absurd h hheld,fun _ x hx => htime x hx▸hw.le x hx,fun _ => ?_,
      fun _ => hw.start_le⟩
    rcases hw.attained with hr|⟨x,hx,hr,hpos⟩
    · exact .inl hr
    · exact .inr ⟨hpos,x,hx,htime x hx▸hr⟩

/-- The timer does not go off before the last lock that prevents suspend expires. -/
def Latest (s : State) : Prop :=
  ∀ t∈s.expireTimer,∀ x∈s.activeWakeLocks WAKE_LOCK_SUSPEND,(s.locks x).autoExpire →
    (s.locks x).expires≤t

/-- What every operation keeps. -/
structure Inv (s : State) : Prop where
  placed : Placed s
  fresh : Fresh s
  short : Short s
  latest : Latest s
  armed : ¬Held s WAKE_LOCK_SUSPEND → Armed s

theorem Inv.sound (h : Inv s) : Sound s :=
  ⟨h.placed,fun _ htype => reports_of_placed h.placed h.fresh h.short htype,h.armed⟩

/-! ## Arming -/

/-- After the list was walked over, the timer or the work follows. -/
theorem Walked.armed (h : Walked s type ls 0 r s') (htype : type=WAKE_LOCK_SUSPEND)
    (hls : ls=s.activeWakeLocks type) (hf : Fresh s) (hs : Short s) (hheld : ¬Held s type) :
    Armed (s'.arm r) := by
  subst htype hls
  unfold State.arm
  by_cases hr : 0<r
  · rw [if_pos hr]
    rcases h.attained with h0|⟨x,hx,hxr,_⟩
    · omega
    have hauto := autoExpire_of_not_held hheld hx
    have hin : x∈s'.activeWakeLocks WAKE_LOCK_SUSPEND := by
      rw [h.left]
      exact ⟨hx,fun hle => by omega⟩
    have htime := timeout_left hf hs (by decide) hx hauto
    refine .inl ⟨s'.jiffies+r,rfl,x,hin,?_⟩
    have hkept : s'.locks x=s.locks x := h.kept _ x hin
    rw [hkept,h.jiffies]
    exact ⟨hauto,by omega⟩
  · have h0 : r=0 := by
      have := h.start_le
      omega
    rw [h0]
    exact .inr (Bool.or_true _)

/-- A timer that was set goes off when the last lock expires. -/
theorem Walked.latest (h : Walked s type ls 0 r s') (htype : type=WAKE_LOCK_SUSPEND)
    (hls : ls=s.activeWakeLocks type) (hf : Fresh s) (hs : Short s) (hheld : ¬Held s type) :
    Latest (s'.arm r) := by
  subst htype hls
  unfold State.arm
  intro t ht x hx _
  by_cases hr : 0<r
  · rw [if_pos hr] at ht hx ⊢
    have hin := ((h.left _ x).mp hx).1
    have hle := h.le x hin
    rw [timeout_left hf hs (by decide) hin (autoExpire_of_not_held hheld hin)] at hle
    have ht' : s'.jiffies+r=t := Option.some_inj.mp ht
    have hkept : s'.locks x=s.locks x := h.kept _ x hx
    rw [hkept,←ht',h.jiffies]
    omega
  · rw [if_neg hr] at ht
    cases ht

theorem arm_stopped (hr : r≤0) : Latest (s.arm r) := by
  unfold State.arm
  rw [if_neg (by omega)]
  intro t ht
  cases ht

theorem Walked.fresh {start r : ℤ} (h : Walked s type ls start r s') (hf : Fresh s) :
    Fresh s' := by
  intro t ht x hx hauto
  rw [h.kept t x hx] at hauto
  rw [(h.same x).1,h.jiffies]
  exact hf t ht x ((h.left t x).mp hx).1 hauto

theorem Walked.short {start r : ℤ} (h : Walked s type ls start r s') (hs : Short s) :
    Short s' := by
  intro t ht x hx hauto
  rw [h.kept t x hx] at hauto
  rw [(h.same x).1,h.jiffies]
  exact hs t ht x ((h.left t x).mp hx).1 hauto

theorem arm_placed (h : Placed s) : Placed (s.arm r) := by
  unfold State.arm
  split <;> exact ⟨h.inactive,h.active,h.inactive_nodup,h.active_nodup,h.sorted⟩

theorem arm_fresh (h : Fresh s) : Fresh (s.arm r) := by
  unfold State.arm
  split <;> exact h

theorem arm_short (h : Short s) : Short (s.arm r) := by
  unfold State.arm
  split <;> exact h

theorem arm_held : Held (s.arm r) type ↔ Held s type := by
  unfold State.arm
  split <;> rfl

/-- Where the locks that prevent suspend are looked through, the timer is set
or the work queued. -/
theorem look_inv (hp : Placed s) (hf : Fresh s) (hs : Short s) :
    Inv ((hasWakeLockLocked s WAKE_LOCK_SUSPEND).2.arm (hasWakeLockLocked s WAKE_LOCK_SUSPEND).1) := by
  by_cases hheld : Held s WAKE_LOCK_SUSPEND
  · rw [hasWakeLockLocked_held hp hheld]
    exact ⟨arm_placed hp,arm_fresh hf,arm_short hs,arm_stopped (r := -1) (by decide),
      fun h => absurd (arm_held.mpr hheld) h⟩
  · have hw := hasWakeLockLocked_walked hp hheld
    exact ⟨arm_placed hw.placed,arm_fresh (hw.fresh hf),arm_short (hw.short hs),
      hw.latest rfl rfl hf hs hheld,fun _ => hw.armed rfl rfl hf hs hheld⟩

/-! ## Operations -/

/-- An active lock that prevents suspend is destroyed only while another one
does not expire, or expires no earlier than the timer goes off. No lock stays
on an active list for 2^31 ticks after it expired. -/
def Careful (s : State) : Op → Prop
  | .destroy l => ¬((s.locks l).active∧(s.locks l).type=WAKE_LOCK_SUSPEND)∨
      ∃ x∈s.activeWakeLocks WAKE_LOCK_SUSPEND,x≠l∧
        ((s.locks x).autoExpire=false∨∃ t∈s.expireTimer,t≤(s.locks x).expires)
  | .pass ticks => ∀ type<WAKE_LOCK_TYPE_COUNT,∀ x∈s.activeWakeLocks type,
      (s.locks x).autoExpire → s.jiffies+ticks-2^31≤(s.locks x).expires
  | _ => True

instance (s : State) (op : Op) : Decidable (Careful s op) := by
  cases op <;> unfold Careful <;> infer_instance

/-- A lock is moved to the active list of its type with other contents. -/
def relist (s : State) (l : ℕ) (lock : Lock) (list : List ℕ) : State :=
  { (s.listDel l).setLock l lock with
    activeWakeLocks := update (s.listDel l).activeWakeLocks lock.type list }

theorem relist_lock (hx : l'≠l) :
    (relist s l lock list).locks l'=s.locks l' := update_of_ne hx _ _

theorem relist_self : (relist s l lock list).locks l=lock :=
  update_self _ _ _

/-- A lock is put at the head of its list if it does not expire, and else at the end. -/
theorem Placed.relist (h : Placed s) (hinit : lock.initialized) (hactive : lock.active)
    (hlist : (lock.autoExpire=false∧list=l::(s.activeWakeLocks lock.type).erase l)∨
      (lock.autoExpire∧list=(s.activeWakeLocks lock.type).erase l++[l])) :
    Placed (relist s l lock list) := by
  have hmem : ∀ x,x∈list ↔ x=l∨x∈(s.activeWakeLocks lock.type).erase l := by
    intro x
    rcases hlist with ⟨_,rfl⟩|⟨_,rfl⟩
    · exact List.mem_cons
    · rw [List.mem_append,List.mem_singleton,or_comm]
  have hfresh : ∀ type,l∉(s.activeWakeLocks type).erase l := fun type hl =>
    ((h.active_nodup type).mem_erase_iff.mp hl).1 rfl
  have hthere : (WakeLock.relist s l lock list).activeWakeLocks lock.type=list :=
    update_self _ _ _
  have hother : ∀ type,type≠lock.type →
      (WakeLock.relist s l lock list).activeWakeLocks type=(s.activeWakeLocks type).erase l :=
    fun type hne => update_of_ne hne _ _
  have hsorted : ∀ type,((s.activeWakeLocks type).erase l).Pairwise fun a b =>
      ((WakeLock.relist s l lock list).locks a).autoExpire →
        ((WakeLock.relist s l lock list).locks b).autoExpire := by
    intro type
    have hsub := (h.sorted type).sublist (List.erase_sublist (a := l))
    refine hsub.imp_of_mem fun {a b} ha hb hab => ?_
    have hne : ∀ x,x∈(s.activeWakeLocks type).erase l → x≠l := fun x hx heq =>
      hfresh type (heq▸hx)
    rw [relist_lock (hne a ha),relist_lock (hne b hb)]
    exact hab
  refine ⟨fun x => ?_,fun type x => ?_,(h.inactive_nodup).erase l,fun type => ?_,fun type => ?_⟩
  · have hin : x∈(WakeLock.relist s l lock list).inactiveLocks ↔ x∈s.inactiveLocks.erase l :=
      Iff.rfl
    rw [hin,h.inactive_nodup.mem_erase_iff]
    by_cases hx : x=l
    · rw [hx,relist_self]
      simp [hactive]
    · rw [relist_lock hx,h.inactive x]
      simp [hx]
  · by_cases ht : type=lock.type
    · subst ht
      rw [hthere,hmem]
      by_cases hx : x=l
      · rw [hx,relist_self]
        simp [hinit,hactive]
      · rw [relist_lock hx,List.mem_erase_of_ne hx,h.active]
        simp [hx]
    · rw [hother type ht]
      by_cases hx : x=l
      · rw [hx,relist_self]
        exact iff_of_false (hfresh type) fun hl => ht hl.2.2.symm
      · rw [relist_lock hx,List.mem_erase_of_ne hx,h.active]
  · by_cases ht : type=lock.type
    · subst ht
      rw [hthere]
      have hn := (h.active_nodup lock.type).erase l
      rcases hlist with ⟨_,rfl⟩|⟨_,rfl⟩
      · exact List.nodup_cons.mpr ⟨hfresh _,hn⟩
      · refine List.nodup_append.mpr ⟨hn,List.pairwise_singleton _ l,fun a ha b hb heq => ?_⟩
        rw [heq,List.mem_singleton.mp hb] at ha
        exact hfresh _ ha
    · rw [hother type ht]
      exact (h.active_nodup type).erase l
  · by_cases ht : type=lock.type
    · subst ht
      rw [hthere]
      rcases hlist with ⟨hauto,rfl⟩|⟨hauto,rfl⟩
      · refine List.pairwise_cons.mpr ⟨fun x _ hl => ?_,hsorted _⟩
        rw [relist_self,hauto] at hl
        cases hl
      · refine List.pairwise_append.mpr ⟨hsorted _,List.pairwise_singleton _ _,?_⟩
        intro a _ b hb _
        rw [List.mem_singleton.mp hb,relist_self]
        exact hauto
    · rw [hother type ht]
      exact hsorted type

/-- A lock on an active list after another one was moved was on it before. -/
theorem mem_relist {x : ℕ} (hp : Placed (relist s l lock list)) (h : Placed s)
    (hx : x∈(relist s l lock list).activeWakeLocks type) (hne : x≠l) :
    x∈s.activeWakeLocks type := by
  have hx' := (hp.active type x).mp hx
  rw [relist_lock hne] at hx'
  exact (h.active type x).mpr hx'

/-- Locks on active lists are as before, apart from one. -/
structure Moved (s : State) (l : ℕ) (s' : State) : Prop where
  placed : Placed s'
  jiffies : s'.jiffies=s.jiffies
  old : ∀ type x,x∈s'.activeWakeLocks type → x≠l → x∈s.activeWakeLocks type∧s'.locks x=s.locks x

theorem Moved.fresh (h : Moved s l s') (hf : Fresh s)
    (hl : (s'.locks l).autoExpire → s.jiffies-2^31≤(s'.locks l).expires) : Fresh s' := by
  intro type ht x hx hauto
  rw [h.jiffies]
  by_cases hxl : x=l
  · subst hxl
    exact hl hauto
  · have ⟨hold,hsame⟩ := h.old type x hx hxl
    rw [hsame] at hauto ⊢
    exact hf type ht x hold hauto

theorem Moved.short (h : Moved s l s') (hs : Short s)
    (hl : (s'.locks l).autoExpire → (s'.locks l).expires<s.jiffies+2^31) : Short s' := by
  intro type ht x hx hauto
  rw [h.jiffies]
  by_cases hxl : x=l
  · subst hxl
    exact hl hauto
  · have ⟨hold,hsame⟩ := h.old type x hx hxl
    rw [hsame] at hauto ⊢
    exact hs type ht x hold hauto

theorem moved_relist (h : Placed s) (hp : Placed (relist s l lock list)) :
    Moved s l (relist s l lock list) :=
  ⟨hp,rfl,fun _ _ hx hne => ⟨mem_relist hp h hx hne,relist_lock hne⟩⟩

theorem moved_deactivate (h : Placed s) (hl : (s.locks l).initialized) :
    Moved s l (deactivate s l) :=
  ⟨h.deactivate hl,rfl,fun type _ hx hne =>
    ⟨((h.active_nodup type).mem_erase_iff.mp hx).2,deactivate_lock hne⟩⟩

/-- The locks that prevent suspend were left alone. -/
structure Apart (s s' : State) : Prop where
  list : s'.activeWakeLocks WAKE_LOCK_SUSPEND=s.activeWakeLocks WAKE_LOCK_SUSPEND
  locks : ∀ x∈s.activeWakeLocks WAKE_LOCK_SUSPEND,s'.locks x=s.locks x
  timer : s'.expireTimer=s.expireTimer
  queued : s'.queued=s.queued

theorem Apart.armed (h : Apart s s') (harmed : ¬Held s WAKE_LOCK_SUSPEND → Armed s)
    (hheld : ¬Held s' WAKE_LOCK_SUSPEND) : Armed s' := by
  have hold : ¬Held s WAKE_LOCK_SUSPEND := by
    intro ⟨x,hx,hauto⟩
    refine hheld ⟨x,h.list▸hx,?_⟩
    rw [h.locks x hx]
    exact hauto
  rcases harmed hold with ⟨t,ht,x,hx,hauto,hle⟩|hq
  · refine .inl ⟨t,h.timer▸ht,x,h.list▸hx,?_⟩
    rw [h.locks x hx]
    exact ⟨hauto,hle⟩
  · exact .inr (h.queued▸hq)

theorem Apart.latest (h : Apart s s') (hl : Latest s) : Latest s' := by
  intro t ht x hx hauto
  rw [h.list] at hx
  rw [h.locks x hx] at hauto ⊢
  exact hl t (h.timer▸ht) x hx hauto

/-- A lock of another type is not among those that prevent suspend. -/
theorem erase_other (h : Placed s) (hne : (s.locks l).type≠WAKE_LOCK_SUSPEND) :
    (s.activeWakeLocks WAKE_LOCK_SUSPEND).erase l=s.activeWakeLocks WAKE_LOCK_SUSPEND :=
  List.erase_of_not_mem fun hl => hne ((h.active _ l).mp hl).2.2

theorem ne_of_other (h : Placed s) (hne : (s.locks l).type≠WAKE_LOCK_SUSPEND) :
    ∀ x∈s.activeWakeLocks WAKE_LOCK_SUSPEND,x≠l := by
  intro x hx heq
  subst heq
  exact hne ((h.active _ x).mp hx).2.2

theorem apart_relist (h : Placed s) (htype : lock.type=(s.locks l).type)
    (hne : (s.locks l).type≠WAKE_LOCK_SUSPEND) :
    Apart s (relist s l lock list) := by
  refine ⟨?_,fun x hx => relist_lock (ne_of_other h hne x hx),rfl,rfl⟩
  have hother : (relist s l lock list).activeWakeLocks WAKE_LOCK_SUSPEND=
      (s.activeWakeLocks WAKE_LOCK_SUSPEND).erase l :=
    update_of_ne (fun heq => hne (htype.symm.trans heq.symm)) _ _
  rw [hother,erase_other h hne]

theorem apart_deactivate (h : Placed s) (hne : (s.locks l).type≠WAKE_LOCK_SUSPEND) :
    Apart s (deactivate s l) := by
  have hlist : (deactivate s l).activeWakeLocks WAKE_LOCK_SUSPEND=
      (s.activeWakeLocks WAKE_LOCK_SUSPEND).erase l := rfl
  refine ⟨hlist.trans (erase_other h hne),fun x hx => deactivate_lock (ne_of_other h hne x hx),
    rfl,?_⟩
  have hbeq : ((s.locks l).type==WAKE_LOCK_SUSPEND)=false := beq_eq_false_iff_ne.mpr hne
  have hend : (deactivate s l).queued=
    (s.queued && !((s.locks l).active && (s.locks l).type==WAKE_LOCK_SUSPEND)) := rfl
  rw [hend,hbeq,Bool.and_false,Bool.not_false,Bool.and_true]

theorem wakeUnlock_inv (h : Inv s) (hrun : wakeUnlock s l=some s') : Inv s' := by
  unfold wakeUnlock at hrun
  by_cases hinit : (s.locks l).initialized
  · rw [if_pos hinit] at hrun
    have hm := moved_deactivate h.placed hinit
    have hself : ((deactivate s l).locks l).autoExpire=false := by
      have hl : (deactivate s l).locks l=
          { s.locks l with active := false, autoExpire := false } := update_self _ _ _
      rw [hl]
    have hno : ¬((deactivate s l).locks l).autoExpire := by
      rw [hself]
      decide
    have hf := hm.fresh h.fresh fun hauto => absurd hauto hno
    have hs := hm.short h.short fun hauto => absurd hauto hno
    by_cases htype : (s.locks l).type=WAKE_LOCK_SUSPEND
    · rw [if_pos htype,htype] at hrun
      cases hrun
      exact look_inv hm.placed hf hs
    · rw [if_neg htype] at hrun
      cases hrun
      have hap := apart_deactivate h.placed htype
      exact ⟨hm.placed,hf,hs,hap.latest h.latest,hap.armed h.armed⟩
  · rw [if_neg hinit] at hrun
    cases hrun

/-- The contents of a lock that was taken with a timeout or without one. -/
def taken (s : State) (l : ℕ) (timeout : Option ℤ) : Lock :=
  { s.locks l with
    active := true, autoExpire := timeout.isSome
    expires := timeout.elim LONG_MAX (s.jiffies+·) }

/-- The state once the lock is on its list. -/
def takenState (s : State) (l : ℕ) (timeout : Option ℤ) : State :=
  relist s l (taken s l timeout) (timeout.elim (l::(s.activeWakeLocks (s.locks l).type).erase l)
    fun _ => (s.activeWakeLocks (s.locks l).type).erase l++[l])

theorem wakeLockInternal_eq (timeout : Option ℤ) : wakeLockInternal s l timeout=
    if WAKE_LOCK_TYPE_COUNT≤(s.locks l).type∨¬(s.locks l).initialized then none
    else if (s.locks l).type=WAKE_LOCK_SUSPEND then
      match timeout with
      | some _ => some ((hasWakeLockLocked (takenState s l timeout) (s.locks l).type).2.arm
          (hasWakeLockLocked (takenState s l timeout) (s.locks l).type).1)
      | none => some ((takenState s l timeout).arm (-1))
    else some (takenState s l timeout) := by
  cases timeout <;> rfl

theorem takenState_placed (h : Placed s) (hinit : (s.locks l).initialized)
    (timeout : Option ℤ) : Placed (takenState s l timeout) := by
  refine h.relist hinit rfl ?_
  cases timeout with
  | none => exact .inl ⟨rfl,rfl⟩
  | some timeout => exact .inr ⟨rfl,rfl⟩

/-- Taking a lock with a timeout that a `long` below `LONG_MAX` holds, or without one. -/
theorem wakeLockInternal_inv (h : Inv s) {timeout : Option ℤ}
    (hrange : ∀ t∈timeout,-LONG_MAX-1≤t∧t<LONG_MAX)
    (hrun : wakeLockInternal s l timeout=some s') : Inv s' := by
  rw [wakeLockInternal_eq] at hrun
  split at hrun
  · cases hrun
  next hok =>
  push Not at hok
  have hp := takenState_placed h.placed hok.2 timeout
  have hm : Moved s l (takenState s l timeout) := moved_relist h.placed hp
  have hself : (takenState s l timeout).locks l=taken s l timeout := relist_self
  have hbounds : (taken s l timeout).autoExpire → s.jiffies-2^31≤(taken s l timeout).expires∧
      (taken s l timeout).expires<s.jiffies+2^31 := by
    intro hauto
    cases timeout with
    | none => cases hauto
    | some t =>
      have ⟨hlow,hhigh⟩ := hrange t rfl
      unfold LONG_MAX at hlow hhigh
      have hexp : (taken s l (some t)).expires=s.jiffies+t := rfl
      omega
  have hf := hm.fresh h.fresh fun hauto => by
    rw [hself] at hauto ⊢
    exact (hbounds hauto).1
  have hs := hm.short h.short fun hauto => by
    rw [hself] at hauto ⊢
    exact (hbounds hauto).2
  by_cases htype : (s.locks l).type=WAKE_LOCK_SUSPEND
  · rw [if_pos htype,htype] at hrun
    cases timeout with
    | some t =>
      cases hrun
      exact look_inv hp hf hs
    | none =>
      cases hrun
      refine ⟨arm_placed hp,arm_fresh hf,arm_short hs,arm_stopped (by decide),fun hheld => ?_⟩
      have hin : l∈(takenState s l none).activeWakeLocks WAKE_LOCK_SUSPEND := by
        rw [hp.active,hself]
        exact ⟨hok.2,rfl,htype⟩
      refine absurd (arm_held.mpr ⟨l,hin,?_⟩) hheld
      rw [hself]
      rfl
  · rw [if_neg htype] at hrun
    cases hrun
    have hap : Apart s (takenState s l timeout) := apart_relist h.placed rfl htype
    exact ⟨hp,hf,hs,hap.latest h.latest,hap.armed h.armed⟩

theorem wakeLockInit_inv (h : Inv s) (hrun : wakeLockInit s l type=some s') : Inv s' := by
  unfold wakeLockInit at hrun
  by_cases hinit : (s.locks l).initialized
  · rw [if_pos hinit] at hrun
    cases hrun
  rw [if_neg hinit] at hrun
  cases hrun
  set lock : Lock := { s.locks l with
    type := type&&&WAKE_LOCK_TYPE_MASK, initialized := true
    active := false, autoExpire := false } with hlock
  set s' := (s.setLock l lock).addInactive l with hs'
  have hself : s'.locks l=lock := update_self _ _ _
  have hother : ∀ x,x≠l → s'.locks x=s.locks x := fun x hx => update_of_ne hx _ _
  have hnot : ∀ type,l∉s.activeWakeLocks type := fun type hl =>
    hinit ((h.placed.active type l).mp hl).1
  have hnot' : l∉s.inactiveLocks := fun hl => hinit ((h.placed.inactive l).mp hl).1
  have hne : ∀ type,∀ x∈s.activeWakeLocks type,x≠l := fun type x hx heq => hnot type (heq▸hx)
  have hp : Placed s' := by
    refine ⟨fun x => ?_,fun type x => ?_,List.nodup_cons.mpr ⟨hnot',h.placed.inactive_nodup⟩,
      h.placed.active_nodup,fun type => ?_⟩
    · have hmem : x∈s'.inactiveLocks ↔ x=l∨x∈s.inactiveLocks := List.mem_cons
      rw [hmem]
      by_cases hx : x=l
      · rw [hx,hself]
        simp [hlock]
      · rw [hother x hx,h.placed.inactive]
        simp [hx]
    · have hmem : x∈s'.activeWakeLocks type ↔ x∈s.activeWakeLocks type := Iff.rfl
      rw [hmem]
      by_cases hx : x=l
      · rw [hx,hself]
        exact iff_of_false (hnot type) (by simp [hlock])
      · rw [hother x hx,h.placed.active]
    · refine (h.placed.sorted type).imp_of_mem fun {a b} ha hb hab => ?_
      rw [hother a (hne type a ha),hother b (hne type b hb)]
      exact hab
  have hap : Apart s s' := ⟨rfl,fun x hx => hother x (hne _ x hx),rfl,rfl⟩
  refine ⟨hp,fun type ht x hx hauto => ?_,fun type ht x hx hauto => ?_,hap.latest h.latest,
    hap.armed h.armed⟩
  · rw [hother x (hne type x hx)] at hauto ⊢
    exact h.fresh type ht x hx hauto
  · rw [hother x (hne type x hx)] at hauto ⊢
    exact h.short type ht x hx hauto

theorem wakeLockDestroy_inv (h : Inv s) (careful : Careful s (.destroy l))
    (hrun : wakeLockDestroy s l=some s') : Inv s' := by
  unfold wakeLockDestroy at hrun
  by_cases hinit : (s.locks l).initialized
  swap
  · rw [if_neg hinit] at hrun
    cases hrun
  rw [if_pos hinit] at hrun
  cases hrun
  set s' := ((s.ended l).setLock l { s.locks l with initialized := false }).listDel l with hs'
  have hself : s'.locks l={ s.locks l with initialized := false } := update_self _ _ _
  have hother : ∀ x,x≠l → s'.locks x=s.locks x := fun x hx => update_of_ne hx _ _
  have hmem : ∀ type x,x∈s'.activeWakeLocks type ↔ x≠l∧x∈s.activeWakeLocks type :=
    fun type x => (h.placed.active_nodup type).mem_erase_iff
  have hp : Placed s' := by
    refine ⟨fun x => ?_,fun type x => ?_,h.placed.inactive_nodup.erase l,
      fun type => (h.placed.active_nodup type).erase l,fun type => ?_⟩
    · have hmem' : x∈s'.inactiveLocks ↔ x≠l∧x∈s.inactiveLocks :=
        h.placed.inactive_nodup.mem_erase_iff
      rw [hmem']
      by_cases hx : x=l
      · rw [hx,hself]
        simp
      · rw [hother x hx,h.placed.inactive]
        simp [hx]
    · rw [hmem]
      by_cases hx : x=l
      · rw [hx,hself]
        simp
      · rw [hother x hx,h.placed.active]
        simp [hx]
    · have hsub := (h.placed.sorted type).sublist (List.erase_sublist (a := l))
      refine hsub.imp_of_mem fun {a b} ha hb hab => ?_
      rw [hother a ((hmem type a).mp ha).1,hother b ((hmem type b).mp hb).1]
      exact hab
  refine ⟨hp,fun type ht x hx hauto => ?_,fun type ht x hx hauto => ?_,fun t ht x hx hauto => ?_,
    fun hheld => ?_⟩
  · have ⟨hne,hin⟩ := (hmem type x).mp hx
    rw [hother x hne] at hauto ⊢
    exact h.fresh type ht x hin hauto
  · have ⟨hne,hin⟩ := (hmem type x).mp hx
    rw [hother x hne] at hauto ⊢
    exact h.short type ht x hin hauto
  · have ⟨hne,hin⟩ := (hmem _ x).mp hx
    rw [hother x hne] at hauto ⊢
    exact h.latest t ht x hin hauto
  · rcases careful with hfree|⟨x,hx,hne,hcover⟩
    · -- The lock is not among those that prevent suspend.
      have hnot : l∉s.activeWakeLocks WAKE_LOCK_SUSPEND := fun hl =>
        hfree ((h.placed.active _ l).mp hl).2
      have hq : s'.queued=s.queued := by
        have hend : s'.queued=
          (s.queued && !((s.locks l).active && (s.locks l).type==WAKE_LOCK_SUSPEND)) := rfl
        have hno : ((s.locks l).active && (s.locks l).type==WAKE_LOCK_SUSPEND)=false := by
          rw [Bool.eq_false_iff]
          intro hboth
          rw [Bool.and_eq_true,beq_iff_eq] at hboth
          exact hfree hboth
        rw [hend,hno,Bool.not_false,Bool.and_true]
      have hlist : s'.activeWakeLocks WAKE_LOCK_SUSPEND=s.activeWakeLocks WAKE_LOCK_SUSPEND :=
        List.erase_of_not_mem hnot
      have hap : Apart s s' := ⟨hlist,fun x hx => hother x fun heq => hnot (heq▸hx),rfl,hq⟩
      exact hap.armed h.armed hheld
    · have hin : x∈s'.activeWakeLocks WAKE_LOCK_SUSPEND := (hmem _ x).mpr ⟨hne,hx⟩
      by_cases hauto : (s.locks x).autoExpire
      · rcases hcover with hno|⟨t,ht,hle⟩
        · rw [hno] at hauto
          cases hauto
        · refine .inl ⟨t,ht,x,hin,?_⟩
          rw [hother x hne]
          exact ⟨hauto,hle⟩
      · refine absurd ⟨x,hin,?_⟩ hheld
        rw [hother x hne]
        exact Bool.not_eq_true _ ▸ hauto

/-- When the timer goes off, every lock that prevents suspend for a time only
has expired. -/
theorem expireWakeLocks_inv (h : Inv s) {t : ℤ} (ht : s.expireTimer=some t)
    (hdue : t≤ s.jiffies) : Inv (expireWakeLocks s) := by
  set s0 : State := { s with expireTimer := none } with hs0
  have hp : Placed s0 := ⟨h.placed.inactive,h.placed.active,h.placed.inactive_nodup,
    h.placed.active_nodup,h.placed.sorted⟩
  have hf : Fresh s0 := h.fresh
  have hs : Short s0 := h.short
  have hrun : expireWakeLocks s=
      if (hasWakeLockLocked s0 WAKE_LOCK_SUSPEND).1=0 then
        { (hasWakeLockLocked s0 WAKE_LOCK_SUSPEND).2 with queued := true }
      else (hasWakeLockLocked s0 WAKE_LOCK_SUSPEND).2 := rfl
  rw [hrun]
  by_cases hheld : Held s0 WAKE_LOCK_SUSPEND
  · rw [hasWakeLockLocked_held hp hheld,if_neg fun hr => by cases hr]
    exact ⟨hp,hf,hs,fun t ht => absurd ht (by simp [hs0]),fun hno => absurd hheld hno⟩
  · have hw := hasWakeLockLocked_walked hp hheld
    have hzero : (hasWakeLockLocked s0 WAKE_LOCK_SUSPEND).1=0 := by
      rcases hw.attained with hr|⟨x,hx,hr,hpos⟩
      · exact hr
      have hauto := autoExpire_of_not_held hheld hx
      rw [timeout_left hf hs (by decide) hx hauto] at hr
      have hle := h.latest t ht x hx hauto
      have hx' : (s0.locks x).expires=(s.locks x).expires := rfl
      have hj : s0.jiffies=s.jiffies := rfl
      omega
    rw [if_pos hzero]
    have hpl := hw.placed
    refine ⟨⟨hpl.inactive,hpl.active,hpl.inactive_nodup,hpl.active_nodup,hpl.sorted⟩,hw.fresh hf,
      hw.short hs,fun t ht => ?_,fun _ => .inr rfl⟩
    have htimer : (hasWakeLockLocked s0 WAKE_LOCK_SUSPEND).2.expireTimer=none := hw.timer
    rw [htimer] at ht
    cases ht

/-- Every operation keeps the invariant. -/
theorem step_inv {op : Op} (h : Inv s) (careful : Careful s op) (hrun : step s op=some s') :
    Inv s' := by
  cases op with
  | init l type => exact wakeLockInit_inv h hrun
  | lock l =>
    have hrun : wakeLockInternal s l none=some s' := hrun
    exact wakeLockInternal_inv h (fun t ht => by cases ht) hrun
  | lockTimeout l timeout =>
    have hrun : (if -LONG_MAX-1≤timeout∧timeout<LONG_MAX then
      wakeLockInternal s l (some timeout) else none)=some s' := hrun
    split at hrun
    next hrange =>
      refine wakeLockInternal_inv h (fun t ht => ?_) hrun
      exact Option.some_inj.mp ht▸hrange
    · cases hrun
  | unlock l => exact wakeUnlock_inv h hrun
  | destroy l => exact wakeLockDestroy_inv h careful hrun
  | expire =>
    have hrun : (match s.expireTimer with
      | some t => if t≤ s.jiffies then some (expireWakeLocks s) else none
      | none => none)=some s' := hrun
    cases ht : s.expireTimer with
    | none =>
      rw [ht] at hrun
      cases hrun
    | some t =>
      rw [ht] at hrun
      dsimp only at hrun
      split at hrun
      next hdue =>
        cases hrun
        exact expireWakeLocks_inv h ht hdue
      · cases hrun
  | pass ticks =>
    cases hrun
    have hp := h.placed
    refine ⟨⟨hp.inactive,hp.active,hp.inactive_nodup,hp.active_nodup,hp.sorted⟩,careful,
      fun type ht x hx hauto => ?_,h.latest,h.armed⟩
    have hshort := h.short type ht x hx hauto
    dsimp only
    omega

/-- The state after `wakelocks_init`. -/
def startState (jiffies : ℤ) : State where
  locks := update (update (fun _ => {}) mainWakeLock
    ⟨WAKE_LOCK_SUSPEND,true,true,false,LONG_MAX⟩) unknownWakeup
    ⟨WAKE_LOCK_SUSPEND,true,false,false,0⟩
  inactiveLocks := [unknownWakeup]
  activeWakeLocks := update (fun _ => []) WAKE_LOCK_SUSPEND [mainWakeLock]
  jiffies := jiffies
  expireTimer := none
  queued := false

theorem wakelocksInit_eq (jiffies : ℤ) : wakelocksInit jiffies=some (startState jiffies) := by
  have hinit : wakelocksInit jiffies=some { startState jiffies with
      locks := update (update (update (fun _ => {}) mainWakeLock
        ⟨WAKE_LOCK_SUSPEND,true,false,false,0⟩) mainWakeLock
        ⟨WAKE_LOCK_SUSPEND,true,true,false,LONG_MAX⟩) unknownWakeup
        ⟨WAKE_LOCK_SUSPEND,true,false,false,0⟩ } := rfl
  rw [hinit]
  unfold startState
  rw [update_idem]

theorem start_inv (jiffies : ℤ) : Inv (startState jiffies) := by
  have hmain : (startState jiffies).locks mainWakeLock=
    ⟨WAKE_LOCK_SUSPEND,true,true,false,LONG_MAX⟩ := rfl
  have hunknown : (startState jiffies).locks unknownWakeup=
    ⟨WAKE_LOCK_SUSPEND,true,false,false,0⟩ := rfl
  have hother : ∀ x,x≠mainWakeLock → x≠unknownWakeup → (startState jiffies).locks x={} := by
    intro x hm hu
    exact (update_of_ne hu _ _).trans (update_of_ne hm _ _)
  have hsuspend : (startState jiffies).activeWakeLocks WAKE_LOCK_SUSPEND=[mainWakeLock] := rfl
  have hempty : ∀ type,type≠WAKE_LOCK_SUSPEND → (startState jiffies).activeWakeLocks type=[] := by
    intro type hne
    unfold startState
    dsimp only
    rw [update_of_ne hne]
  have hactive : ∀ type x,x∈(startState jiffies).activeWakeLocks type ↔
      type=WAKE_LOCK_SUSPEND∧x=mainWakeLock := by
    intro type x
    by_cases ht : type=WAKE_LOCK_SUSPEND
    · subst ht
      rw [hsuspend,List.mem_singleton]
      exact (and_iff_right rfl).symm
    · rw [hempty type ht]
      exact iff_of_false List.not_mem_nil fun h => ht h.1
  have hno : ∀ type x,x∈(startState jiffies).activeWakeLocks type →
      ¬((startState jiffies).locks x).autoExpire := by
    intro type x hx
    rw [((hactive type x).mp hx).2,hmain]
    decide
  refine ⟨⟨fun x => ?_,fun type x => ?_,List.pairwise_singleton _ _,fun type => ?_,fun type => ?_⟩,
    fun type _ x hx hauto => absurd hauto (hno type x hx),
    fun type _ x hx hauto => absurd hauto (hno type x hx),
    fun t _ x hx hauto => absurd hauto (hno _ x hx),fun hheld => ?_⟩
  · have hin : x∈(startState jiffies).inactiveLocks ↔ x=unknownWakeup := List.mem_singleton
    rw [hin]
    by_cases hu : x=unknownWakeup
    · rw [hu,hunknown]
      decide
    by_cases hm : x=mainWakeLock
    · rw [hm,hmain]
      decide
    · rw [hother x hm hu]
      exact iff_of_false hu (by decide)
  · rw [hactive]
    by_cases hm : x=mainWakeLock
    · rw [hm,hmain]
      exact ⟨fun h => ⟨rfl,rfl,h.1.symm⟩,fun h => ⟨h.2.2.symm,rfl⟩⟩
    by_cases hu : x=unknownWakeup
    · rw [hu,hunknown]
      exact iff_of_false (fun h => by cases h.2) fun h => by cases h.2.1
    · rw [hother x hm hu]
      exact iff_of_false (fun h => hm h.2) fun h => by cases h.1
  · by_cases ht : type=WAKE_LOCK_SUSPEND
    · rw [ht,hsuspend]
      exact List.pairwise_singleton _ _
    · rw [hempty type ht]
      exact List.nodup_nil
  · by_cases ht : type=WAKE_LOCK_SUSPEND
    · rw [ht,hsuspend]
      exact List.pairwise_singleton _ _
    · rw [hempty type ht]
      exact List.Pairwise.nil
  · exact absurd ⟨mainWakeLock,(hactive _ _).mpr ⟨rfl,rfl⟩,by rw [hmain]⟩ hheld

/-- In every run in which locks are destroyed with care and checked in time,
the lists, the answers of `has_wake_lock` and the timer are as they should be. -/
theorem run_suspends {jiffies : ℤ} {ops : List Op} {s₀ s : State}
    (start : wakelocksInit jiffies=some s₀) (h : Run step Careful s₀ ops s) : Sound s := by
  have hs₀ : Inv s₀ := by
    rw [wakelocksInit_eq] at start
    cases start
    exact start_inv jiffies
  exact (h.invariant Inv hs₀ fun hinv hok hstep => step_inv hinv hok hstep).sound

/-- A driver takes a lock for 5 ticks, which the timer expires after the main
lock was released. -/
theorem run_suspends_example : ∃ s₀ s,wakelocksInit 0=some s₀∧
    Run step Careful s₀ [.init 2 0,.lockTimeout 2 5,.unlock 0,.pass 6,.expire] s∧
    Sound s∧s.queued=true := by
  have ⟨s,hrun,hs⟩ := exists_run step (fun s op => decide (Careful s op)) (startState 0)
    [.init 2 0,.lockTimeout 2 5,.unlock 0,.pass 6,.expire] (·.queued) (by decide +kernel)
  have hrun' : Run step Careful (startState 0)
      [.init 2 0,.lockTimeout 2 5,.unlock 0,.pass 6,.expire] s :=
    hrun.mono fun _ _ hok => of_decide_eq_true hok
  exact ⟨_,s,wakelocksInit_eq 0,hrun',run_suspends (wakelocksInit_eq 0) hrun',hs⟩

/-- The last lock that prevents suspend is destroyed while it is active:
nothing is left to start the suspend. -/
theorem run_forgotten : ¬∀ (jiffies : ℤ) (ops : List Op) (s₀ s : State),
    wakelocksInit jiffies=some s₀ → Run step (fun _ _ => True) s₀ ops s → Sound s := by
  intro hall
  have ⟨s,hrun,hs⟩ := exists_run step (fun _ _ => true) (startState 0)
    [.init 2 0,.lock 2,.unlock 0,.destroy 2]
    (fun s => s.activeWakeLocks WAKE_LOCK_SUSPEND==[] && s.expireTimer==none && !s.queued)
    (by decide +kernel)
  rw [Bool.and_eq_true,Bool.and_eq_true,beq_iff_eq,beq_iff_eq,Bool.not_eq_true'] at hs
  have ⟨⟨hlist,htimer⟩,hq⟩ := hs
  have hsound := hall 0 _ _ s (wakelocksInit_eq 0) (hrun.mono fun _ _ _ => trivial)
  have hheld : ¬Held s WAKE_LOCK_SUSPEND := by
    intro ⟨x,hx,_⟩
    rw [hlist] at hx
    cases hx
  rcases hsound.armed hheld with ⟨t,ht,_⟩|harmed
  · rw [htimer] at ht
    cases ht
  · rw [hq] at harmed
    cases harmed

end ArdroneKernel.WakeLock
