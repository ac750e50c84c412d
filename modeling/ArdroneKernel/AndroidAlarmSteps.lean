import ArdroneKernel.AndroidAlarmQueues

/-!
# Steps of the alarm queues

Most steps change one queue only. A queue whose timer is not left alone has it
armed for its first alarm after every such step.
-/

namespace ArdroneKernel.AndroidAlarm

open SearchTree Function

variable {s t u : State} {type q : AlarmType} {base : AlarmQueue} {a b : ℕ} {r : Rebalance}
  {now : ℤ}

/-- A wake-up queue while the system is suspended. -/
def State.LeftAlone (s : State) (type : AlarmType) : Prop := type.isWakeup=true∧s.suspended=true

/-- What holds of a queue before its timer is set. -/
structure Ready (s : State) (type : AlarmType) : Prop where
  ordered : Ordered s.alarm type (s.queue type)
  /-- `alarm_suspend` is going to use the timer. -/
  kept : (s.queue type).stopped=false → s.LeftAlone type → s.suspension.inWindow=true →
    Timely s.alarm (s.queue type)
  halted : (s.queue type).stopped=true → s.callback type=none∧(s.queue type).timer.armed=false
  calling : ∀ now,s.callback type=some (.calling now) → now≤ s.clock type-(s.queue type).delta

/-- What holds of a queue between the steps. -/
structure QueueGood (s : State) (type : AlarmType) : Prop extends Ready s type where
  timely : (s.queue type).stopped=false → ¬s.LeftAlone type → Timely s.alarm (s.queue type)
  armed : (s.queue type).stopped=false → ¬s.LeftAlone type →
    s.callback type=none∨s.callback type=some .leaving →
    (s.queue type).alarms.toList≠[] → (s.queue type).timer.armed=true

/-- Only one queue, its callback and its alarms change. -/
structure Local (s t : State) (type : AlarmType) : Prop where
  queue : ∀ q,q≠type → t.queue q=s.queue q
  callback : ∀ q,q≠type → t.callback q=s.callback q
  alarm : ∀ b,(s.alarm b).type≠type → t.alarm b=s.alarm b
  types : ∀ b,(t.alarm b).type=(s.alarm b).type
  delta : (t.queue type).delta=(s.queue type).delta
  stopped : (t.queue type).stopped=(s.queue type).stopped
  stoppedTime : (t.queue type).stoppedTime=(s.queue type).stoppedTime
  clock : t.clock=s.clock
  suspended : t.suspended=s.suspended
  setting : t.setting=s.setting
  suspension : t.suspension=s.suspension

theorem Local.refl (s : State) (type : AlarmType) : Local s s type :=
  ⟨fun _ _ => rfl,fun _ _ => rfl,fun _ _ => rfl,fun _ => rfl,rfl,rfl,rfl,rfl,rfl,rfl,rfl⟩

theorem Local.trans (h : Local s t type) (h' : Local t u type) : Local s u type where
  queue q hq := (h'.queue q hq).trans (h.queue q hq)
  callback q hq := (h'.callback q hq).trans (h.callback q hq)
  alarm b hb := (h'.alarm b ((h.types b).symm▸hb)).trans (h.alarm b hb)
  types b := (h'.types b).trans (h.types b)
  delta := h'.delta.trans h.delta
  stopped := h'.stopped.trans h.stopped
  stoppedTime := h'.stoppedTime.trans h.stoppedTime
  clock := h'.clock.trans h.clock
  suspended := h'.suspended.trans h.suspended
  setting := h'.setting.trans h.setting
  suspension := h'.suspension.trans h.suspension

/-- Another value for the queue, with the same offset and the same stop. -/
theorem Local.setQueue (s : State) (type : AlarmType) (hdelta : base.delta=(s.queue type).delta)
    (hstopped : base.stopped=(s.queue type).stopped)
    (htime : base.stoppedTime=(s.queue type).stoppedTime) : Local s (s.setQueue type base) type := by
  have hself : (s.setQueue type base).queue type=base := update_self _ _ _
  refine ⟨fun _ hq => update_of_ne hq _ _,fun _ _ => rfl,fun _ _ => rfl,fun _ => rfl,
    ?_,?_,?_,rfl,rfl,rfl,rfl⟩
  · rw [hself,hdelta]
  · rw [hself,hstopped]
  · rw [hself,htime]

theorem Local.setCallback (s : State) (type : AlarmType) (c : Option Callback) :
    Local s (s.setCallback type c) type :=
  ⟨fun _ _ => rfl,fun _ hq => update_of_ne hq _ _,fun _ _ => rfl,fun _ => rfl,rfl,rfl,rfl,
    rfl,rfl,rfl,rfl⟩

theorem Local.note (s : State) (type : AlarmType) (a : ℕ) (x : Happening) :
    Local s (s.note a x) type :=
  ⟨fun _ _ => rfl,fun _ _ => rfl,fun _ _ => rfl,fun _ => rfl,rfl,rfl,rfl,rfl,rfl,rfl,rfl⟩

/-- The state, as far as a queue sees it. -/
theorem QueueGood.congr (h : QueueGood s q) (hqueue : t.queue q=s.queue q)
    (hcallback : t.callback q=s.callback q)
    (halarm : ∀ b∈(s.queue q).alarms.toList,t.alarm b=s.alarm b) (hclock : s.clock q≤t.clock q)
    (hsuspended : t.suspended=s.suspended)
    (hwindow : t.suspension.inWindow=true → s.suspension.inWindow=true) : QueueGood t q := by
  have htimely : Timely s.alarm (s.queue q) → Timely t.alarm (s.queue q) := by
    intro h b hb
    rw [halarm b hb]
    exact h b hb
  constructor
  · constructor
    · rw [hqueue]
      exact h.ordered.congr halarm rfl rfl rfl
    · unfold State.LeftAlone
      rw [hqueue,hsuspended]
      exact fun h1 h2 h3 => htimely (h.kept h1 h2 (hwindow h3))
    · rw [hqueue,hcallback]
      exact h.halted
    · rw [hqueue,hcallback]
      intro now hnow
      have := h.calling now hnow
      omega
  · unfold State.LeftAlone
    rw [hqueue,hsuspended]
    exact fun h1 h2 => htimely (h.timely h1 h2)
  · unfold State.LeftAlone
    rw [hqueue,hcallback,hsuspended]
    exact h.armed

theorem Local.good (hl : Local s t type) (h : QueueGood s q) (hq : q≠type) : QueueGood t q := by
  refine h.congr (hl.queue q hq) (hl.callback q hq) (fun b hb => hl.alarm b ?_)
    (Int.le_of_eq (congrFun hl.clock q).symm) hl.suspended fun hw => hl.suspension▸hw
  rw [h.ordered.own b hb]
  exact hq

/-! ## The timer is set -/

theorem hrtimerStartExpires_le {soft hard : ℤ} (h0 : 0≤ soft) (h : soft≤hard) :
    (hrtimerStartExpires soft hard).expires≤hard := by
  unfold hrtimerStartExpires ktimeAddSafe
  dsimp only
  split <;> omega

/-- The timer for an alarm. -/
def State.timerFor (s : State) (type : AlarmType) (a : ℕ) : Hrtimer :=
  hrtimerStartExpires ((s.queue type).delta+(s.alarm a).softexpires)
    ((s.queue type).delta+(s.alarm a).expires)

theorem updateTimerLocked_cases (s : State) (type : AlarmType) :
    (s.updateTimerLocked type=s∧((s.queue type).stopped=true∨(s.queue type).first=none∨
      s.LeftAlone type))∨
    ∃ a,(s.queue type).first=some a∧(s.queue type).stopped=false∧¬s.LeftAlone type∧
      s.updateTimerLocked type=
        s.setQueue type {s.queue type with timer := s.timerFor type a} := by
  unfold State.updateTimerLocked
  dsimp only
  cases hstopped : (s.queue type).stopped with
  | true => exact Or.inl ⟨rfl,Or.inl rfl⟩
  | false =>
    cases hfirst : (s.queue type).first with
    | none => exact Or.inl ⟨rfl,Or.inr (Or.inl rfl)⟩
    | some a =>
      dsimp only
      by_cases halone : type.isWakeup=true∧s.suspended=true
      · rw [if_pos halone]
        exact Or.inl ⟨rfl,Or.inr (Or.inr halone)⟩
      · rw [if_neg halone]
        exact Or.inr ⟨a,rfl,rfl,halone,rfl⟩

theorem Local.updateTimerLocked (s : State) (type : AlarmType) :
    Local s (s.updateTimerLocked type) type := by
  rcases updateTimerLocked_cases s type with ⟨he,_⟩|⟨a,_,_,_,he⟩
  · rw [he]
    exact Local.refl s type
  · rw [he]
    exact Local.setQueue s type rfl rfl rfl

/-- Setting the timer changes the timer only. -/
theorem updateTimerLocked_keeps (s : State) (type q : AlarmType) :
    ((s.updateTimerLocked type).queue q).alarms=(s.queue q).alarms∧
    ((s.updateTimerLocked type).queue q).first=(s.queue q).first∧
    (s.updateTimerLocked type).alarm=s.alarm∧(s.updateTimerLocked type).callback=s.callback∧
    (s.updateTimerLocked type).history=s.history := by
  rcases updateTimerLocked_cases s type with ⟨he,_⟩|⟨a,_,_,_,he⟩
  · rw [he]
    exact ⟨rfl,rfl,rfl,rfl,rfl⟩
  · rw [he]
    by_cases hq : q=type
    · subst hq
      have hself := update_self q {s.queue q with timer := s.timerFor q a} s.queue
      unfold State.setQueue
      dsimp only
      rw [hself]
      exact ⟨rfl,rfl,rfl,rfl,rfl⟩
    · unfold State.setQueue
      dsimp only
      rw [update_of_ne hq]
      exact ⟨rfl,rfl,rfl,rfl,rfl⟩

/-- Afterwards the queue is good. -/
theorem Ready.update (h : Ready s type) : QueueGood (s.updateTimerLocked type) type := by
  have ho := h.ordered
  rcases updateTimerLocked_cases s type with ⟨he,hwhy⟩|⟨a,hfirst,hstopped,halone,he⟩
  · rw [he]
    have hempty : (s.queue type).first=none → (s.queue type).alarms.toList=[] := fun hf =>
      List.head?_eq_none_iff.mp (ho.first.symm.trans hf)
    refine ⟨h,fun h1 h2 b hb => ?_,fun h1 h2 _ hne => ?_⟩
    · rcases hwhy with hwhy|hwhy|hwhy
      · rw [h1] at hwhy
        cases hwhy
      · rw [hempty hwhy] at hb
        cases hb
      · exact absurd hwhy h2
    · rcases hwhy with hwhy|hwhy|hwhy
      · rw [h1] at hwhy
        cases hwhy
      · exact absurd (hempty hwhy) hne
      · exact absurd hwhy h2
  · rw [he]
    have hmem := ho.first_mem hfirst
    have hself : (s.setQueue type {s.queue type with timer := s.timerFor type a}).queue type=
        {s.queue type with timer := s.timerFor type a} := update_self _ _ _
    have htimely : Timely s.alarm {s.queue type with timer := s.timerFor type a} := by
      intro b hb
      have hle := ho.first_le hfirst hb
      have hrange := ho.range a hmem
      have htimer := hrtimerStartExpires_le (ho.nonneg a hmem)
        (Int.add_le_add_left hrange (s.queue type).delta)
      unfold State.timerFor
      dsimp only
      omega
    constructor
    · constructor
      · rw [hself]
        exact ho.congr (fun _ _ => rfl) rfl rfl rfl
      · rw [hself]
        exact fun _ _ _ => htimely
      · rw [hself]
        intro h1
        rw [hstopped] at h1
        cases h1
      · rw [hself]
        exact h.calling
    · rw [hself]
      exact fun _ _ => htimely
    · rw [hself]
      exact fun _ _ _ _ => rfl

/-! ## Alarms leave and join -/

theorem takeOut_queue (s : State) (r : Rebalance) (type : AlarmType) (a : ℕ) :
    (s.takeOut r type a).queue type={s.queue type with
      alarms := r.run ((s.queue type).alarms.erase a)
      first := if (s.queue type).first=some a then (s.queue type).alarms.next a
        else (s.queue type).first} := update_self _ _ _

theorem Local.takeOut (s : State) (r : Rebalance) (type : AlarmType) (a : ℕ) :
    Local s (s.takeOut r type a) type := Local.setQueue s type rfl rfl rfl

theorem mem_takeOut : b∈((s.takeOut r type a).queue type).alarms.toList ↔
    b∈(s.queue type).alarms.toList∧b≠a := by
  rw [takeOut_queue]
  rw [r.keeps,Tree.toList_erase,List.mem_filter]
  simp

/-- Fewer alarms are no harm to a queue. -/
theorem QueueGood.takeOut (h : QueueGood s type) : QueueGood (s.takeOut r type a) type := by
  have hsub : ∀ b,b∈((s.takeOut r type a).queue type).alarms.toList →
      b∈(s.queue type).alarms.toList := fun b hb => (mem_takeOut.mp hb).1
  have htimely : Timely s.alarm (s.queue type) →
      Timely s.alarm ((s.takeOut r type a).queue type) := by
    intro ht b hb
    have := ht b (hsub b hb)
    rw [takeOut_queue]
    exact this
  have hstopped := (Local.takeOut s r type a).stopped
  have htimer : ((s.takeOut r type a).queue type).timer=(s.queue type).timer := by
    rw [takeOut_queue]
  constructor
  · constructor
    · rw [takeOut_queue]
      exact h.ordered.takeOut r a
    · rw [hstopped]
      exact fun h1 h2 h3 => htimely (h.kept h1 h2 h3)
    · rw [hstopped,htimer]
      exact h.halted
    · rw [(Local.takeOut s r type a).delta]
      exact h.calling
  · rw [hstopped]
    exact fun h1 h2 => htimely (h.timely h1 h2)
  · rw [hstopped,htimer]
    intro h1 h2 h3 hne
    have ⟨b,hb⟩ := List.exists_mem_of_ne_nil _ hne
    exact h.armed h1 h2 h3 (List.ne_nil_of_mem (hsub b hb))

theorem QueueGood.note (h : QueueGood s q) (a : ℕ) (x : Happening) : QueueGood (s.note a x) q :=
  h.congr rfl rfl (fun _ _ => rfl) (Int.le_refl _) rfl id

/-- The timer's callback goes on. -/
theorem QueueGood.setCallback (h : QueueGood s type) {c : Callback}
    (hstopped : (s.queue type).stopped=false) (hleaving : c≠.leaving)
    (hcalling : ∀ now,c=.calling now → now≤ s.clock type-(s.queue type).delta) :
    QueueGood (s.setCallback type (some c)) type := by
  have hself : (s.setCallback type (some c)).callback type=some c := update_self _ _ _
  refine ⟨⟨h.ordered,h.kept,fun hs => ?_,fun now hnow => ?_⟩,h.timely,fun _ _ hrest _ => ?_⟩
  · exact absurd (hstopped.symm.trans hs) (by decide)
  · rw [hself] at hnow
    exact hcalling now (Option.some.inj hnow)
  · rw [hself] at hrest
    rcases hrest with e|e
    · cases e
    · exact absurd (Option.some.inj e) hleaving

theorem updateTimerLocked_setCallback (s : State) (type : AlarmType) (c : Option Callback) :
    (s.updateTimerLocked type).setCallback type c=
      (s.setCallback type c).updateTimerLocked type := by
  unfold State.updateTimerLocked
  dsimp only
  have hqueue : (s.setCallback type c).queue=s.queue := rfl
  rw [hqueue]
  split
  · rfl
  · split
    · rfl
    · split
      next h => exact (if_pos h).symm
      next h => exact (if_neg h).symm

/-- The end of the loop: the timer is set again. -/
theorem QueueGood.finish (h : QueueGood s type) (hstopped : (s.queue type).stopped=false) :
    QueueGood ((s.updateTimerLocked type).setCallback type (some .leaving)) type := by
  rw [updateTimerLocked_setCallback]
  have hself : (s.setCallback type (some .leaving)).callback type=some .leaving :=
    update_self _ _ _
  refine Ready.update ⟨h.ordered,h.kept,fun hs => ?_,fun now hnow => ?_⟩
  · exact absurd (hstopped.symm.trans hs) (by decide)
  · rw [hself] at hnow
    cases hnow

/-- An alarm with new times. -/
def State.retime (s : State) (a : ℕ) (start stop : ℤ) : State :=
  {s with alarm :=
    update s.alarm a {s.alarm a with softexpires := start,expires := stop}}

theorem Local.retime (s : State) (a : ℕ) (start stop : ℤ) :
    Local s (s.retime a start stop) (s.alarm a).type := by
  refine ⟨fun _ _ => rfl,fun _ _ => rfl,fun b hb => ?_,fun b => ?_,rfl,rfl,rfl,rfl,rfl,rfl,rfl⟩
  · exact update_of_ne (fun e => hb (congrArg (fun c => (s.alarm c).type) e)) _ _
  · by_cases hb : b=a
    · subst hb
      have hself : (s.retime b start stop).alarm b=
          {s.alarm b with softexpires := start,expires := stop} := update_self _ _ _
      rw [hself]
    · exact congrArg Alarm.type (update_of_ne hb _ s.alarm)

/-- What the start of an alarm does: the alarm has new times, its node is
linked, and the timer is set if the alarm is first. -/
theorem alarmStartRange_eq (s : State) (r : Rebalance) (a : ℕ) (start stop : ℤ) :
    ∃ left : Bool,∃ base : AlarmQueue,
      left=(unlinked r (s.queue (s.alarm a).type).alarms a).leftmost
        (turn (s.retime a start stop).alarm stop)∧
      base={s.queue (s.alarm a).type with
        alarms := r.run ((unlinked r (s.queue (s.alarm a).type).alarms a).add
          (turn (s.retime a start stop).alarm stop) a)
        first := if left then some a
          else if (s.queue (s.alarm a).type).first=some a then
            (s.queue (s.alarm a).type).alarms.next a
          else (s.queue (s.alarm a).type).first}∧
      s.alarmStartRange r a start stop=
        (if left then ((s.retime a start stop).setQueue (s.alarm a).type base).updateTimerLocked
            (s.alarm a).type
          else (s.retime a start stop).setQueue (s.alarm a).type base).note a .started := by
  refine ⟨_,_,rfl,rfl,?_⟩
  have halarm : (s.retime a start stop).alarm a=
      {s.alarm a with softexpires := start,expires := stop} := update_self _ _ _
  change ((s.retime a start stop).alarmEnqueueLocked r a).note a .started=_
  unfold State.alarmEnqueueLocked
  rw [halarm]
  change State.note (if (unlinked r (s.queue (s.alarm a).type).alarms a).leftmost
    (turn (s.retime a start stop).alarm stop) then _ else _) a .started=_
  cases (unlinked r (s.queue (s.alarm a).type).alarms a).leftmost
    (turn (s.retime a start stop).alarm stop) <;> rfl

/-- The start of an alarm. -/
theorem startRange_queue (h : QueueGood s type) (htype : (s.alarm a).type=type) {start stop : ℤ}
    (hrange : start≤ stop) (hnonneg : 0≤(s.queue type).delta+start)
    (hbehind : s.suspension.inWindow=true → type.isWakeup=true →
      ∃ b∈(s.queue type).alarms.toList,b≠a∧(s.alarm b).expires≤ stop) :
    Local s (s.alarmStartRange r a start stop) type∧
    QueueGood (s.alarmStartRange r a start stop) type∧
    (∀ b,b∈((s.alarmStartRange r a start stop).queue type).alarms.toList ↔
      b=a∨b∈(s.queue type).alarms.toList)∧
    (s.suspension.inWindow=true → type.isWakeup=true →
      ((s.alarmStartRange r a start stop).queue type).timer=(s.queue type).timer)∧
    (s.alarmStartRange r a start stop).history=s.history++[⟨a,.started⟩] := by
  subst htype
  have ⟨left,base,hleft,hbase,he⟩ := alarmStartRange_eq s r a start stop
  have halarm : (s.retime a start stop).alarm a=
      {s.alarm a with softexpires := start,expires := stop} := update_self _ _ _
  have hsame : ∀ b,b≠a → (s.retime a start stop).alarm b=s.alarm b := fun b hb =>
    update_of_ne hb _ _
  have ⟨hmem,hordered,hnot,hfirst⟩ :=
    h.ordered.link r hsame halarm rfl hrange hnonneg
  rw [← hleft] at hordered hnot hfirst
  rw [← hbase] at hordered
  have hmem : ∀ b,b∈base.alarms.toList ↔ b=a∨b∈(s.queue (s.alarm a).type).alarms.toList := by
    intro b
    rw [hbase]
    refine (hmem b).trans ?_
    by_cases hb : b=a <;> simp [hb]
  have htimer : base.timer=(s.queue (s.alarm a).type).timer := by rw [hbase]
  have hlocal : Local s ((s.retime a start stop).setQueue (s.alarm a).type base)
      (s.alarm a).type := by
    refine (Local.retime s a start stop).trans (Local.setQueue _ _ ?_ ?_ ?_) <;> rw [hbase] <;> rfl
  have hself : ((s.retime a start stop).setQueue (s.alarm a).type base).queue (s.alarm a).type=
      base := update_self _ _ _
  have hstopped := hlocal.stopped
  have hdelta := hlocal.delta
  rw [hself] at hstopped hdelta
  -- In the window another alarm is in front of the new one.
  have hwindow : s.suspension.inWindow=true → (s.alarm a).type.isWakeup=true → left=false := by
    intro hw hwake
    have ⟨b,hb,hne,hle⟩ := hbehind hw hwake
    cases left with
    | false => rfl
    | true => exact absurd (hfirst rfl b hb hne) (Int.not_lt.mpr hle)
  cases left with
  | true =>
    have hready : Ready ((s.retime a start stop).setQueue (s.alarm a).type base)
        (s.alarm a).type := by
      refine ⟨?_,fun _ hl hw => ?_,?_,?_⟩
      · rw [hself]
        exact hordered
      · exact absurd (hwindow hw hl.1) (by decide)
      · rw [hself,hstopped,htimer]
        exact h.halted
      · rw [hself,hdelta]
        exact h.calling
    have ⟨halarms,_,_,_,hhistory⟩ := updateTimerLocked_keeps
      ((s.retime a start stop).setQueue (s.alarm a).type base) (s.alarm a).type (s.alarm a).type
    rw [he]
    refine ⟨(hlocal.trans (Local.updateTimerLocked _ _)).trans (Local.note _ _ _ _),
      hready.update.note a _,fun b => ?_,fun hw hwake => ?_,?_⟩
    · have hlist := congrArg Tree.toList (halarms.trans (congrArg AlarmQueue.alarms hself))
      exact (iff_of_eq (congrArg (b∈·) hlist)).trans (hmem b)
    · exact absurd (hwindow hw hwake) (by decide)
    · exact congrArg (·++_) hhistory
  | false =>
    have ⟨c,hc,hne,hle⟩ := hnot rfl
    -- What holds of the alarm in front holds of the new one.
    have htimely : Timely s.alarm (s.queue (s.alarm a).type) →
        Timely (s.retime a start stop).alarm base := by
      intro ht b hb
      rw [htimer,hdelta]
      rcases (hmem b).mp hb with rfl|hb'
      · rw [halarm]
        exact Int.le_trans (ht c hc) (Int.add_le_add_left hle _)
      · by_cases hba : b=a
        · rw [hba,halarm]
          exact Int.le_trans (ht c hc) (Int.add_le_add_left hle _)
        · rw [hsame b hba]
          exact ht b hb'
    have hgood : QueueGood ((s.retime a start stop).setQueue (s.alarm a).type base)
        (s.alarm a).type := by
      refine ⟨⟨?_,?_,?_,?_⟩,?_,?_⟩
      · rw [hself]
        exact hordered
      · rw [hself,hstopped]
        exact fun h1 h2 h3 => htimely (h.kept h1 h2 h3)
      · rw [hself,hstopped,htimer]
        exact h.halted
      · rw [hself,hdelta]
        exact h.calling
      · rw [hself,hstopped]
        exact fun h1 h2 => htimely (h.timely h1 h2)
      · rw [hself,hstopped,htimer]
        exact fun h1 h2 h3 _ => h.armed h1 h2 h3 (List.ne_nil_of_mem hc)
    rw [he]
    refine ⟨hlocal.trans (Local.note _ _ _ _),hgood.note a _,fun b => ?_,fun _ _ => ?_,rfl⟩
    · have hlist := congrArg (fun base => base.alarms.toList) hself
      exact (iff_of_eq (congrArg (b∈·) hlist)).trans (hmem b)
    · exact (congrArg AlarmQueue.timer hself).trans htimer

end ArdroneKernel.AndroidAlarm
