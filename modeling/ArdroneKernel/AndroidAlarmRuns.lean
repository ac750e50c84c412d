import ArdroneKernel.AndroidAlarmSteps
import ArdroneKernel.Execution

/-!
# Runs of the alarms

As long as the conditions of `Event.safe` are met, no alarm is lost: the timer
of every queue that may go off is armed for its first alarm, and the real-time
clock wakes a suspended system in time.
-/

namespace ArdroneKernel.AndroidAlarm

open SearchTree Execution Function

variable {s t : State} {type q : AlarmType} {a b : ℕ} {r : Rebalance} {now : ℤ}

/-- What has happened to an alarm last. -/
def lastHappening (history : List (ℕ×Happening)) (a : ℕ) : Option Happening :=
  (history.reverse.find? (·.1=a)).map (·.2)

theorem lastHappening_append (history : List (ℕ×Happening)) (a b : ℕ) (x : Happening) :
    lastHappening (history++[⟨a,x⟩]) b=if a=b then some x else lastHappening history b := by
  unfold lastHappening
  rw [List.reverse_append,List.reverse_singleton,List.singleton_append]
  by_cases h : a=b
  · rw [if_pos h,List.find?_cons_of_pos (by simpa using h)]
    rfl
  · rw [if_neg h,List.find?_cons_of_neg (by simpa using h)]

/-- The queues that go by the wall time are stopped. -/
def Halted (s : State) : Prop := ∀ type,(s.queue type).stopped=decide (type≠.systemtime)

/-- What holds while the time is being set. -/
def SettingGood (s : State) : Prop :=
  match s.setting with
  | .idle => ∀ type,(s.queue type).stopped=false
  | .stopped newTime before => Halted s∧∀ type,(s.queue type).delta=
      if type=.elapsedRealtime∨type=.elapsedRealtimeWakeup then
        before type-((s.queue .elapsedRealtime).stoppedTime-newTime)
      else before type
  | .timeSet success before => Halted s∧(success=false → ∀ type,(s.queue type).delta=before type)

/-- What holds while the system is being suspended. -/
def SuspensionGood (s : State) : Prop :=
  match s.suspension with
  | .readOne found => found=false → (s.queue .rtcWakeup).alarms.toList=[]
  | .chosen type => type.isWakeup=true∧∀ q,q.isWakeup=true → (s.queue q).alarms.toList≠[] →
      (s.queue type).timer.expires≤(s.queue q).timer.expires
  | _ => True

/-- What holds between the steps. -/
structure Good (s : State) : Prop where
  queues : ∀ type,QueueGood s type
  even : (s.queue .elapsedRealtimeWakeup).delta=(s.queue .elapsedRealtime).delta
  setting : SettingGood s
  awake : s.suspended=decide (s.suspension≠.awake)
  window : s.suspension.inWindow=true → s.setting.isIdle=true
  suspension : SuspensionGood s
  history : ∀ a,a∈(s.queue (s.alarm a).type).alarms.toList ↔
    lastHappening s.history a=some .started

theorem Good.suspended (h : Good s) (hw : s.suspension.inWindow=true) : s.suspended=true := by
  rw [h.awake]
  refine decide_eq_true fun e => ?_
  rw [e] at hw
  cases hw

/-- A queue with a callback is not stopped. -/
theorem Good.running (h : Good s) {c : Callback} (hc : s.callback type=some c) :
    (s.queue type).stopped=false := by
  cases hs : (s.queue type).stopped with
  | false => rfl
  | true =>
    have := ((h.queues type).halted hs).1
    rw [hc] at this
    cases this

/-- A queue is not stopped in the window. -/
theorem Good.not_stopped (h : Good s) (hw : s.suspension.inWindow=true) (type : AlarmType) :
    (s.queue type).stopped=false := by
  have hidle := h.window hw
  have hset := h.setting
  unfold SettingGood at hset
  cases he : s.setting with
  | idle =>
    rw [he] at hset
    exact hset type
  | stopped newTime before =>
    rw [he] at hidle
    cases hidle
  | timeSet success before =>
    rw [he] at hidle
    cases hidle

theorem SettingGood.congr (h : SettingGood s) (hset : t.setting=s.setting)
    (hstopped : ∀ q,(t.queue q).stopped=(s.queue q).stopped)
    (hdelta : ∀ q,(t.queue q).delta=(s.queue q).delta)
    (htime : ∀ q,(t.queue q).stoppedTime=(s.queue q).stoppedTime) : SettingGood t := by
  unfold SettingGood Halted at *
  simpa only [hset,hstopped,hdelta,htime] using h

/-- A step that changes one queue. -/
theorem Good.local (h : Good s) (hl : Local s t type) (hgood : QueueGood t type)
    (hwindow : s.suspension.inWindow=true → type.isWakeup=true →
      (t.queue type).timer.expires=(s.queue type).timer.expires∧
      ((t.queue type).alarms.toList≠[] → (s.queue type).alarms.toList≠[]))
    (hhistory : ∀ a,(a∈(t.queue (s.alarm a).type).alarms.toList ↔
      lastHappening t.history a=some .started)) : Good t := by
  have hall : ∀ f : AlarmQueue → Prop,∀ q,(q≠type → f (s.queue q)) → (q=type → f (t.queue q)) →
      f (t.queue q) := by
    intro f q h1 h2
    by_cases hq : q=type
    · exact h2 hq
    · rw [hl.queue q hq]
      exact h1 hq
  have hdelta : ∀ q,(t.queue q).delta=(s.queue q).delta := fun q =>
    hall (fun base => base.delta=(s.queue q).delta) q (fun _ => rfl) fun e => e▸hl.delta
  have hstopped : ∀ q,(t.queue q).stopped=(s.queue q).stopped := fun q =>
    hall (fun base => base.stopped=(s.queue q).stopped) q (fun _ => rfl) fun e => e▸hl.stopped
  have htime : ∀ q,(t.queue q).stoppedTime=(s.queue q).stoppedTime := fun q =>
    hall (fun base => base.stoppedTime=(s.queue q).stoppedTime) q (fun _ => rfl)
      fun e => e▸hl.stoppedTime
  -- What `alarm_suspend` has read stays as it was.
  have hwake : s.suspension.inWindow=true → ∀ q,q.isWakeup=true →
      (t.queue q).timer.expires=(s.queue q).timer.expires∧
      ((t.queue q).alarms.toList≠[] → (s.queue q).alarms.toList≠[]) := by
    intro hw q hq
    by_cases he : q=type
    · subst he
      exact hwindow hw hq
    · rw [hl.queue q he]
      exact ⟨rfl,id⟩
  refine ⟨fun q => ?_,?_,h.setting.congr hl.setting hstopped hdelta htime,?_,?_,?_,fun a => ?_⟩
  · by_cases hq : q=type
    · exact hq▸hgood
    · exact hl.good (h.queues q) hq
  · rw [hdelta,hdelta]
    exact h.even
  · rw [hl.suspended,hl.suspension]
    exact h.awake
  · rw [hl.suspension,hl.setting]
    exact h.window
  · have hsus := h.suspension
    unfold SuspensionGood at *
    rw [hl.suspension]
    cases he : s.suspension with
    | readOne found =>
      rw [he] at hsus hwake
      intro hf
      by_contra hne
      exact (hwake rfl .rtcWakeup rfl).2 hne (hsus hf)
    | chosen w =>
      rw [he] at hsus hwake
      refine ⟨hsus.1,fun q hq hne => ?_⟩
      rw [(hwake rfl w hsus.1).1,(hwake rfl q hq).1]
      exact hsus.2 q hq ((hwake rfl q hq).2 hne)
    | _ => trivial
  · rw [hl.types]
    exact hhistory a

/-! ## Steps of the alarms -/

/-- The history of an alarm whose queue has changed as noted. -/
theorem Good.noted (h : Good s) (a : ℕ) (x : Happening) {t : State}
    (hhistory : t.history=s.history++[⟨a,x⟩])
    (hself : a∈(t.queue (s.alarm a).type).alarms.toList ↔ x=.started)
    (hother : ∀ b,b≠a → (b∈(t.queue (s.alarm b).type).alarms.toList ↔
      b∈(s.queue (s.alarm b).type).alarms.toList)) (b : ℕ) :
    b∈(t.queue (s.alarm b).type).alarms.toList ↔ lastHappening t.history b=some .started := by
  rw [hhistory,lastHappening_append]
  by_cases hb : a=b
  · subst hb
    rw [if_pos rfl]
    exact hself.trans Option.some_inj.symm
  · rw [if_neg hb]
    exact (hother b (Ne.symm hb)).trans (h.history b)

theorem Good.tick (h : Good s) (d : ℕ) :
    Good {s with realtime := s.realtime+d,monotonic := s.monotonic+d} := by
  refine ⟨fun q => (h.queues q).congr rfl rfl (fun _ _ => rfl) ?_ rfl id,h.even,
    h.setting.congr rfl (fun _ => rfl) (fun _ => rfl) fun _ => rfl,h.awake,h.window,h.suspension,
    h.history⟩
  cases q <;> exact Int.le_add_of_nonneg_right (Int.natCast_nonneg d)

theorem Good.start (h : Good s) {start stop : ℤ} (hok : (Event.startRange a start stop).ok=true)
    (hsafe : (Event.startRange a start stop).safe s=true) :
    Good (s.alarmStartRange r a start stop) := by
  have hrange := of_decide_eq_true hok
  have ⟨hnonneg,hbehind⟩ := of_decide_eq_true hsafe
  have hbehind : s.suspension.inWindow=true → (s.alarm a).type.isWakeup=true →
      ∃ b∈(s.queue (s.alarm a).type).alarms.toList,b≠a∧(s.alarm b).expires≤ stop := by
    intro hw hwake
    have ⟨b,hb,hor⟩ := List.any_eq_true.mp (hbehind ⟨hw,hwake⟩)
    exact ⟨b,hb,of_decide_eq_true hor⟩
  have ⟨hl,hgood,hmem,htimer,hhistory⟩ := startRange_queue (r := r)
    (h.queues (s.alarm a).type) rfl hrange hnonneg hbehind
  refine h.local hl hgood (fun hw hwake => ⟨by rw [htimer hw hwake],fun _ => ?_⟩)
    (h.noted a _ hhistory ?_ fun b hb => ?_)
  · have ⟨b,hb,_⟩ := hbehind hw hwake
    exact List.ne_nil_of_mem hb
  · exact iff_of_true ((hmem a).mpr (Or.inl rfl)) rfl
  · by_cases htype : (s.alarm b).type=(s.alarm a).type
    · rw [htype,hmem b]
      exact or_iff_right hb
    · rw [hl.queue _ htype]

/-- In the window the timer of a wake-up queue is left alone. -/
theorem updateTimerLocked_window (h : Good s) (hw : s.suspension.inWindow=true)
    (hwake : type.isWakeup=true) (hsus : t.suspended=s.suspended) :
    t.updateTimerLocked type=t := by
  rcases updateTimerLocked_cases t type with ⟨he,_⟩|⟨_,_,_,halone,_⟩
  · exact he
  · exact absurd ⟨hwake,hsus.trans (h.suspended hw)⟩ halone

theorem takeOut_timer :
    ((s.takeOut r type a).queue type).timer.expires=(s.queue type).timer.expires∧
    (((s.takeOut r type a).queue type).alarms.toList≠[] →
      (s.queue type).alarms.toList≠[]) := by
  refine ⟨by rw [takeOut_queue],fun hne => ?_⟩
  have ⟨b,hb⟩ := List.exists_mem_of_ne_nil _ hne
  exact List.ne_nil_of_mem (mem_takeOut.mp hb).1

/-- An alarm has left its queue, and this is noted. -/
theorem Good.left (h : Good s) (htype : (s.alarm a).type=type) {x : Happening} (hx : x≠.started)
    (hl : Local s t type) (hhistory : t.history=s.history++[⟨a,x⟩])
    (hlist : (t.queue type).alarms=((s.takeOut r type a).queue type).alarms) (b : ℕ) :
    b∈(t.queue (s.alarm b).type).alarms.toList ↔ lastHappening t.history b=some .started := by
  refine h.noted a x hhistory ?_ (fun c hc => ?_) b
  · rw [htype,hlist]
    exact iff_of_false (fun hmem => (mem_takeOut.mp hmem).2 rfl) hx
  · by_cases hct : (s.alarm c).type=type
    · rw [hct,hlist]
      exact mem_takeOut.trans (and_iff_left hc)
    · rw [hl.queue _ hct]

theorem Good.cancel (h : Good s) (r : Rebalance) (a : ℕ) :
    Good (s.alarmTryToCancel r a).1 := by
  unfold State.alarmTryToCancel
  dsimp only
  split
  next hmem =>
    have hout := (h.queues (s.alarm a).type).takeOut (r := r) (a := a)
    have hlocal := Local.takeOut s r (s.alarm a).type a
    split
    · have ⟨halarms,_,_,_,hhistory⟩ := updateTimerLocked_keeps
        (s.takeOut r (s.alarm a).type a) (s.alarm a).type (s.alarm a).type
      have hl := (hlocal.trans (Local.updateTimerLocked _ _)).trans (Local.note _ _ a .cancelled)
      refine h.local hl (hout.toReady.update.note a _) (fun hw hwake => ?_)
        (h.left (r := r) rfl (by decide) hl (congrArg (·++_) hhistory) halarms)
      rw [updateTimerLocked_window (t := s.takeOut r (s.alarm a).type a) h hw hwake rfl]
      exact takeOut_timer
    · have hl := hlocal.trans (Local.note _ _ a .cancelled)
      exact h.local hl (hout.note a _) (fun _ _ => takeOut_timer)
        (h.left (r := r) rfl (by decide) hl rfl rfl)
  next hmem =>
    refine h.local (Local.note s (s.alarm a).type a _) ((h.queues _).note a _)
      (fun _ _ => ⟨rfl,id⟩) (h.noted a _ rfl ?_ fun _ _ => Iff.rfl)
    exact iff_of_false hmem (by decide)

/-- A step that leaves the lists and the history alone. -/
theorem Good.quiet (h : Good s) (hl : Local s t type) (hgood : QueueGood t type)
    (halarms : (t.queue type).alarms=(s.queue type).alarms) (hhistory : t.history=s.history)
    (hwindow : s.suspension.inWindow=true → type.isWakeup=true →
      (t.queue type).timer.expires=(s.queue type).timer.expires) : Good t := by
  refine h.local hl hgood (fun hw hwake => ⟨hwindow hw hwake,fun hne => halarms▸hne⟩) fun b => ?_
  rw [hhistory,← h.history b]
  by_cases hb : (s.alarm b).type=type
  · rw [hb,halarms]
  · rw [hl.queue _ hb]

/-- A round of the loop of the callback. -/
theorem Good.callAlarms (h : Good s) {c : Callback} (hc : s.callback type=some c)
    (hnow : now≤ s.clock type-(s.queue type).delta) : Good (s.callAlarms r type now) := by
  have hstopped := h.running hc
  have hfinish : Good ((s.updateTimerLocked type).setCallback type (some .leaving)) := by
    have ⟨halarms,_,_,_,hhistory⟩ := updateTimerLocked_keeps s type type
    refine h.quiet ((Local.updateTimerLocked s type).trans (Local.setCallback _ _ _))
      ((h.queues type).finish hstopped) halarms hhistory fun hw hwake => ?_
    rw [updateTimerLocked_window h hw hwake rfl]
    rfl
  unfold State.callAlarms
  split
  · exact hfinish
  next a hfirst =>
    split
    · exact hfinish
    · have htype := (h.queues type).ordered.own a ((h.queues type).ordered.first_mem hfirst)
      have hl := ((Local.takeOut s r type a).trans
        (Local.setCallback _ _ (some (.calling now)))).trans (Local.note _ _ a .called)
      have hgood := (h.queues type).takeOut (r := r) (a := a)
      refine h.local hl ((hgood.setCallback ?_ (by simp) fun now' e => ?_).note a _)
        (fun _ _ => takeOut_timer) (h.left (r := r) htype (by decide) hl rfl rfl)
      · rw [(Local.takeOut s r type a).stopped]
        exact hstopped
      · cases e
        rw [(Local.takeOut s r type a).delta]
        exact hnow

/-! ## The wall time is set -/

/-- A queue that has been stopped. -/
def State.stoppedQueue (s : State) (type : AlarmType) : AlarmQueue :=
  {s.queue type with
    timer := {(s.queue type).timer with armed := false}
    stopped := true
    stoppedTime := s.realtime}

theorem stop_eq (s : State) (type : AlarmType) (hc : s.callback type=none) :
    s.stop type={s with queue := update s.queue type (s.stoppedQueue type)} := by
  unfold State.stop State.hrtimerTryToCancel State.setQueue
  rw [if_pos hc]
  dsimp only
  rw [update_self,update_idem]
  rfl

/-- The queues after the first section of `alarm_set_rtc`. -/
def State.stoppedQueues (s : State) (newTime : ℤ) (type : AlarmType) : AlarmQueue :=
  if type=.systemtime then s.queue type
  else if type=.elapsedRealtime∨type=.elapsedRealtimeWakeup then {s.stoppedQueue type with
    delta := (s.queue .elapsedRealtime).delta-(s.realtime-newTime)}
  else s.stoppedQueue type

theorem alarmSetRtc_eq (hc : ∀ type∈State.realtimeQueues,s.callback type=none) (newTime : ℤ) :
    s.alarmSetRtc newTime={s with
      queue := s.stoppedQueues newTime
      setting := .stopped newTime fun type => (s.queue type).delta} := by
  have hfold : State.realtimeQueues.foldl State.stop s=
      {s with queue := fun q => if q=.systemtime then s.queue q else s.stoppedQueue q} := by
    unfold State.realtimeQueues
    simp only [List.foldl_cons,List.foldl_nil]
    rw [stop_eq s .rtcWakeup (hc _ (by decide)),stop_eq _ .rtc (by exact hc .rtc (by decide)),
      stop_eq _ .elapsedRealtimeWakeup (by exact hc .elapsedRealtimeWakeup (by decide)),
      stop_eq _ .elapsedRealtime (by exact hc .elapsedRealtime (by decide))]
    congr 1
    funext q
    cases q <;> rfl
  unfold State.alarmSetRtc
  rw [hfold]
  dsimp only
  congr 1
  funext q
  cases q <;> rfl

theorem Good.setRtc (h : Good s) {newTime : ℤ} (hidle : s.setting=.idle)
    (hsafe : (Event.setRtc newTime).safe s=true) : Good (s.alarmSetRtc newTime) := by
  have ⟨hwindow,hcall,hnonneg⟩ := of_decide_eq_true hsafe
  have hcall : ∀ q∈State.realtimeQueues,s.callback q=none := fun q hq =>
    of_decide_eq_true (List.all_eq_true.mp hcall q hq)
  have hnonneg : ∀ q,q=.elapsedRealtime∨q=.elapsedRealtimeWakeup →
      ∀ a∈(s.queue q).alarms.toList,
        0≤(s.queue .elapsedRealtime).delta-(s.realtime-newTime)+(s.alarm a).softexpires := by
    intro q hq a ha
    have hmem : q∈[AlarmType.elapsedRealtimeWakeup,.elapsedRealtime] := by
      rcases hq with rfl|rfl <;> decide
    exact of_decide_eq_true (List.all_eq_true.mp (List.all_eq_true.mp hnonneg q hmem) a ha)
  have hset := h.setting
  unfold SettingGood at hset
  rw [hidle] at hset
  rw [alarmSetRtc_eq hcall]
  have halarms : ∀ q,(s.stoppedQueues newTime q).alarms=(s.queue q).alarms := by
    intro q
    cases q <;> rfl
  refine ⟨fun q => ?_,rfl,?_,h.awake,fun hw => ?_,?_,fun a => ?_⟩
  · by_cases hq : q=.systemtime
    · subst hq
      exact (h.queues .systemtime).congr rfl rfl (fun _ _ => rfl) (Int.le_refl _) rfl id
    · have hcallback : s.callback q=none := by
        refine hcall q ?_
        cases q <;> first | exact absurd rfl hq | decide
      have hstopped : (s.stoppedQueues newTime q).stopped=true := by
        cases q <;> first | exact absurd rfl hq | rfl
      have hordered : Ordered s.alarm q (s.stoppedQueues newTime q) := by
        have ho := (h.queues q).ordered
        refine ⟨?_,?_,?_,?_,?_,?_⟩
        · rw [halarms]
          exact ho.sorted
        · rw [halarms]
          exact ho.nodup
        · rw [halarms]
          exact ho.own
        · rw [halarms]
          refine Eq.trans ?_ ho.first
          cases q <;> rfl
        · rw [halarms]
          exact ho.range
        · by_cases he : q=.elapsedRealtime∨q=.elapsedRealtimeWakeup
          · unfold State.stoppedQueues
            rw [if_neg hq,if_pos he]
            exact hnonneg q he
          · unfold State.stoppedQueues
            rw [if_neg hq,if_neg he]
            exact ho.nonneg
      refine ⟨⟨hordered,fun hs => ?_,fun _ => ⟨hcallback,?_⟩,fun now hnow => ?_⟩,fun hs => ?_,
        fun hs => ?_⟩
      · exact absurd (hstopped.symm.trans hs) (by decide)
      · cases q <;> first | exact absurd rfl hq | rfl
      · exact absurd (hcallback.symm.trans hnow) nofun
      · exact absurd (hstopped.symm.trans hs) (by decide)
      · exact absurd (hstopped.symm.trans hs) (by decide)
  · refine ⟨fun q => ?_,fun q => ?_⟩
    · by_cases hq : q=.systemtime
      · subst hq
        exact hset .systemtime
      · cases q <;> first | exact absurd rfl hq | rfl
    · have heven := h.even
      cases q <;> first | rfl | exact congrArg (·-_) heven.symm
  · rw [hwindow] at hw
    cases hw
  · unfold SuspensionGood at *
    cases he : s.suspension with
    | readOne found =>
      rw [he] at hwindow
      cases hwindow
    | chosen w =>
      rw [he] at hwindow
      cases hwindow
    | _ => trivial
  · rw [halarms]
    exact h.history a

theorem Good.doSettimeofday (h : Good s) {newTime : ℤ} {before : AlarmType → ℤ} {success : Bool}
    (hset : s.setting=.stopped newTime before)
    (hsafe : (Event.doSettimeofday success).safe s=true) :
    Good {s with
      realtime := if success then newTime else s.realtime
      setting := .timeSet success before} := by
  have hs := h.setting
  unfold SettingGood at hs
  rw [hset] at hs
  have ⟨hhalted,hdelta⟩ := hs
  unfold Event.safe at hsafe
  rw [hset] at hsafe
  have hor := of_decide_eq_true hsafe
  have hnone : ∀ q,q≠.systemtime → s.callback q=none := fun q hq =>
    ((h.queues q).halted ((hhalted q).trans (decide_eq_true hq))).1
  refine ⟨fun q => ?_,h.even,⟨hhalted,fun hfail q => ?_⟩,h.awake,fun hw => ?_,h.suspension,
    h.history⟩
  · have hq := h.queues q
    refine ⟨⟨hq.ordered,hq.kept,hq.halted,fun now hnow => ?_⟩,hq.timely,hq.armed⟩
    by_cases he : q=.systemtime
    · subst he
      exact hq.calling now hnow
    · exact absurd ((hnone q he).symm.trans hnow) nofun
  · -- The new time is the time that was read, so the offsets have not changed.
    have hnew := hor.resolve_left fun e => by
      rw [hfail] at e
      cases e
    have := hdelta q
    rw [hnew,Int.sub_self,Int.sub_zero,ite_self] at this
    exact this
  · have := h.window hw
    rw [hset] at this
    cases this

/-- What the last section of `alarm_set_rtc` leaves as it is. -/
structure Restarted (s t : State) (l : List AlarmType) : Prop where
  alarm : t.alarm=s.alarm
  callback : t.callback=s.callback
  history : t.history=s.history
  suspended : t.suspended=s.suspended
  suspension : t.suspension=s.suspension
  alarms : ∀ q,(t.queue q).alarms=(s.queue q).alarms
  delta : ∀ q,(t.queue q).delta=(s.queue q).delta
  stopped : ∀ q,(t.queue q).stopped=if q∈l then false else (s.queue q).stopped

theorem restart_spec (hgood : ∀ q,QueueGood s q) (hw : s.suspension.inWindow=false)
    (hc : s.callback type=none) :
    (∀ q,QueueGood (s.restart type) q)∧Restarted s (s.restart type) [type] := by
  have hself : (s.setQueue type {s.queue type with stopped := false}).queue type=
      {s.queue type with stopped := false} := update_self _ _ _
  have hother : ∀ q,q≠type →
      (s.setQueue type {s.queue type with stopped := false}).queue q=s.queue q := fun q hq =>
    update_of_ne hq _ _
  have hready : Ready (s.setQueue type {s.queue type with stopped := false}) type := by
    refine ⟨?_,fun _ _ h => ?_,fun hs => ?_,fun now hnow => ?_⟩
    · rw [hself]
      exact (hgood type).ordered.congr (fun _ _ => rfl) rfl rfl rfl
    · exact absurd (hw.symm.trans h) (by decide)
    · rw [hself] at hs
      cases hs
    · exact absurd (hc.symm.trans hnow) nofun
  have hl := Local.updateTimerLocked (s.setQueue type {s.queue type with stopped := false}) type
  have hkeeps := fun q =>
    updateTimerLocked_keeps (s.setQueue type {s.queue type with stopped := false}) type q
  have ⟨_,_,halarm,hcallback,hhistory⟩ := hkeeps type
  refine ⟨fun q => ?_,halarm,hcallback,hhistory,hl.suspended,hl.suspension,fun q => ?_,fun q => ?_,
    fun q => ?_⟩
  · by_cases hq : q=type
    · exact hq▸hready.update
    · refine hl.good ?_ hq
      exact (hgood q).congr (hother q hq) rfl (fun _ _ => rfl) (Int.le_refl _) rfl id
  · refine (hkeeps q).1.trans ?_
    by_cases hq : q=type
    · rw [hq,hself]
    · rw [hother q hq]
  · by_cases hq : q=type
    · rw [hq]
      refine hl.delta.trans ?_
      rw [hself]
    · exact congrArg AlarmQueue.delta ((hl.queue q hq).trans (hother q hq))
  · by_cases hq : q=type
    · rw [hq,if_pos List.mem_cons_self]
      exact hl.stopped.trans (congrArg AlarmQueue.stopped hself)
    · rw [if_neg fun hmem => hq (List.mem_singleton.mp hmem)]
      exact congrArg AlarmQueue.stopped ((hl.queue q hq).trans (hother q hq))

theorem restart_all (l : List AlarmType) (hgood : ∀ q,QueueGood s q)
    (hw : s.suspension.inWindow=false) (hc : ∀ q∈l,s.callback q=none) :
    (∀ q,QueueGood (l.foldl State.restart s) q)∧Restarted s (l.foldl State.restart s) l := by
  induction l generalizing s with
  | nil => exact ⟨hgood,rfl,rfl,rfl,rfl,rfl,fun _ => rfl,fun _ => rfl,fun _ => rfl⟩
  | cons type l ih =>
    have ⟨hgood1,h1⟩ := restart_spec hgood hw (hc type List.mem_cons_self)
    have ⟨hgood2,h2⟩ := ih hgood1 (h1.suspension▸hw) fun q hq => by
      rw [h1.callback]
      exact hc q (List.mem_cons_of_mem _ hq)
    refine ⟨hgood2,h2.alarm.trans h1.alarm,h2.callback.trans h1.callback,
      h2.history.trans h1.history,h2.suspended.trans h1.suspended,
      h2.suspension.trans h1.suspension,fun q => (h2.alarms q).trans (h1.alarms q),
      fun q => (h2.delta q).trans (h1.delta q),fun q => (h2.stopped q).trans ?_⟩
    rw [h1.stopped q]
    by_cases hq : q=type <;> by_cases hl : q∈l <;> simp [hq,hl]

theorem Good.setRtcEnd (h : Good s) {success : Bool} {before : AlarmType → ℤ}
    (hset : s.setting=.timeSet success before) : Good s.alarmSetRtcEnd∧
      ∀ q,(s.alarmSetRtcEnd.queue q).delta=(s.queue q).delta := by
  have hs := h.setting
  unfold SettingGood at hs
  rw [hset] at hs
  have hw : s.suspension.inWindow=false := by
    cases hw : s.suspension.inWindow with
    | false => rfl
    | true =>
      have := h.window hw
      rw [hset] at this
      cases this
  have hnone : ∀ q∈State.realtimeQueues,s.callback q=none := by
    intro q hq
    refine ((h.queues q).halted ((hs.1 q).trans (decide_eq_true ?_))).1
    rintro rfl
    exact absurd hq (by decide)
  have ⟨hgood,hr⟩ := restart_all State.realtimeQueues h.queues hw hnone
  have hstopped : ∀ q,((State.realtimeQueues.foldl State.restart s).queue q).stopped=false := by
    intro q
    rw [hr.stopped q,hs.1 q]
    cases q <;> rfl
  refine ⟨⟨fun q => ?_,?_,hstopped,?_,fun _ => rfl,?_,fun a => ?_⟩,hr.delta⟩
  · exact (hgood q).congr rfl rfl (fun _ _ => rfl) (Int.le_refl _) rfl id
  · exact (hr.delta _).trans (h.even.trans (hr.delta _).symm)
  · exact hr.suspended.trans (h.awake.trans (congrArg (fun x => decide (x≠.awake)) hr.suspension.symm))
  · -- Nothing is being read from the queues.
    have hno : s.alarmSetRtcEnd.suspension=s.suspension := hr.suspension
    unfold SuspensionGood
    rw [hno]
    cases he : s.suspension with
    | readOne found =>
      rw [he] at hw
      cases hw
    | chosen w =>
      rw [he] at hw
      cases hw
    | _ => trivial
  · unfold State.alarmSetRtcEnd
    rw [hr.alarm,hr.alarms,hr.history]
    exact h.history a

/-! ## The system is suspended -/

/-- `alarm_suspend` goes on, within the window or out of it. -/
theorem Good.move (h : Good s) (x : Suspension) (alarm : Option ℤ) (hsus : s.suspended=true)
    (hx : x≠.awake) (hwindow : x.inWindow=true → s.suspension.inWindow=true)
    (hgood : SuspensionGood {s with suspension := x}) :
    Good {s with rtcAlarm := alarm,suspension := x} :=
  ⟨fun q => (h.queues q).congr rfl rfl (fun _ _ => rfl) (Int.le_refl _) rfl hwindow,h.even,
    h.setting.congr rfl (fun _ => rfl) (fun _ => rfl) fun _ => rfl,
    hsus.trans (decide_eq_true hx).symm,fun hw => h.window (hwindow hw),hgood,h.history⟩

theorem Good.suspend (h : Good s) (hawake : s.suspension=.awake)
    (hsafe : Event.suspend.safe s=true) :
    Good {s with suspended := true,suspension := .noted} := by
  have hsus : s.suspended=false := h.awake.trans (by rw [hawake]; rfl)
  have halone : ∀ q,¬s.LeftAlone q := fun q hl => by
    have := hl.2
    rw [hsus] at this
    cases this
  refine ⟨fun q => ?_,h.even,h.setting.congr rfl (fun _ => rfl) (fun _ => rfl) fun _ => rfl,rfl,
    fun _ => hsafe,trivial,h.history⟩
  have hq := h.queues q
  exact ⟨⟨hq.ordered,fun h1 _ _ => hq.timely h1 (halone q),hq.halted,hq.calling⟩,
    fun h1 _ => hq.timely h1 (halone q),fun h1 _ => hq.armed h1 (halone q)⟩

/-- The timer of a wake-up queue is cancelled. -/
theorem Good.cancelTimer (h : Good s) (hw : s.suspension.inWindow=true)
    (hwake : type.isWakeup=true) (hc : s.callback type=none) :
    Good (s.hrtimerTryToCancel type) := by
  unfold State.hrtimerTryToCancel
  rw [if_pos hc]
  have hself : (s.setQueue type {s.queue type with timer :=
      {(s.queue type).timer with armed := false}}).queue type={s.queue type with timer :=
      {(s.queue type).timer with armed := false}} := update_self _ _ _
  have hq := h.queues type
  have halone : s.LeftAlone type := ⟨hwake,h.suspended hw⟩
  refine h.quiet (Local.setQueue s type rfl rfl rfl) ⟨⟨?_,?_,?_,?_⟩,?_,?_⟩ ?_ rfl fun _ _ => ?_
  · rw [hself]
    exact hq.ordered.congr (fun _ _ => rfl) rfl rfl rfl
  · rw [hself]
    exact hq.kept
  · rw [hself]
    exact fun hs => ⟨hc,rfl⟩
  · rw [hself]
    exact hq.calling
  · exact fun _ hnot => absurd halone hnot
  · exact fun _ hnot => absurd halone hnot
  · rw [hself]
  · rw [hself]

/-- A timer that is not armed is not changed when it is cancelled. -/
theorem hrtimerTryToCancel_eq (harmed : (s.queue type).timer.armed=false) :
    s.hrtimerTryToCancel type=s := by
  unfold State.hrtimerTryToCancel
  split
  · have htimer : ({(s.queue type).timer with armed := false} : Hrtimer)=(s.queue type).timer := by
      rw [← harmed]
    rw [htimer]
    unfold State.setQueue
    rw [update_eq_self]
  · rfl

/-- What `alarm_suspend` has chosen. -/
theorem Good.choose_spec (h : Good s) {found : Bool} (hfound : s.suspension=.readOne found) :
    (s.choose found=none → ∀ q,q.isWakeup=true → (s.queue q).alarms.toList=[])∧
    ∀ w,s.choose found=some w → w.isWakeup=true∧∀ q,q.isWakeup=true →
      (s.queue q).alarms.toList≠[] → (s.queue w).timer.expires≤(s.queue q).timer.expires := by
  have hsus := h.suspension
  unfold SuspensionGood at hsus
  rw [hfound] at hsus
  have htwo : (s.queue .elapsedRealtimeWakeup).first=none →
      (s.queue .elapsedRealtimeWakeup).alarms.toList=[] := fun he =>
    List.head?_eq_none_iff.mp ((h.queues _).ordered.first.symm.trans he)
  have hcases : ∀ q : AlarmType,q.isWakeup=true → q=.rtcWakeup∨q=.elapsedRealtimeWakeup := by
    intro q hq
    exact of_decide_eq_true hq
  unfold State.choose
  dsimp only
  split
  next hpick =>
    refine ⟨nofun,fun w hw => ?_⟩
    cases hw
    refine ⟨rfl,fun q hq hne => ?_⟩
    rcases hcases q hq with rfl|rfl
    · rcases hpick.2 with hf|hlt
      · exact absurd (hsus hf) hne
      · exact Int.le_of_lt hlt
    · exact Int.le_refl _
  next hpick =>
    have hnot : (s.queue .elapsedRealtimeWakeup).alarms.toList≠[] →
        found=true∧(s.queue .rtcWakeup).timer.expires≤
          (s.queue .elapsedRealtimeWakeup).timer.expires := by
      intro hne
      have hfirst : (s.queue .elapsedRealtimeWakeup).first≠none := fun he => hne (htwo he)
      refine ⟨?_,?_⟩
      · by_contra hf
        exact hpick ⟨hfirst,Or.inl (Bool.eq_false_iff.mpr hf)⟩
      · by_contra hlt
        exact hpick ⟨hfirst,Or.inr (Int.not_le.mp hlt)⟩
    split
    next hf =>
      refine ⟨nofun,fun w hw => ?_⟩
      cases hw
      refine ⟨rfl,fun q hq hne => ?_⟩
      rcases hcases q hq with rfl|rfl
      · exact Int.le_refl _
      · exact (hnot hne).2
    next hf =>
      refine ⟨fun _ q hq => ?_,nofun⟩
      rcases hcases q hq with rfl|rfl
      · exact hsus (Bool.eq_false_iff.mpr hf)
      · by_contra hne
        exact hf (hnot hne).1

theorem updateTimerLocked_suspension (s : State) (type : AlarmType) (x : Suspension) :
    ({s with suspension := x} : State).updateTimerLocked type=
      {s.updateTimerLocked type with suspension := x} := by
  unfold State.updateTimerLocked
  dsimp only
  split
  · rfl
  · split
    · rfl
    · split
      · rfl
      · rfl

/-- A queue that does not change is as ready as before. -/
theorem Local.ready (hl : Local s t type) (h : Ready s q) (hq : q≠type)
    (hsus : t.suspended=false) : Ready t q := by
  refine ⟨?_,fun _ halone => ?_,?_,?_⟩
  · rw [hl.queue q hq]
    refine h.ordered.congr (fun b hb => hl.alarm b ?_) rfl rfl rfl
    rw [h.ordered.own b hb]
    exact hq
  · exact absurd (hsus.symm.trans halone.2) (by decide)
  · rw [hl.queue q hq,hl.callback q hq]
    exact h.halted
  · rw [hl.queue q hq,hl.callback q hq,hl.clock]
    exact h.calling

/-- The system is not suspended any more. -/
theorem Good.wake (h : Good s) : Good s.wake := by
  have he : s.wake=(({s with suspended := false,suspension := .awake} : State).updateTimerLocked
      .rtcWakeup).updateTimerLocked .elapsedRealtimeWakeup := by
    have hsus := updateTimerLocked_suspension {s with suspended := false} .rtcWakeup .awake
    rw [hsus,updateTimerLocked_suspension]
    rfl
  rw [he]
  generalize hs0 : ({s with suspended := false,suspension := .awake} : State)=s0
  have hsus : s0.suspended=false := by rw [← hs0]
  have hready : ∀ q,Ready s0 q := by
    intro q
    have hq := h.queues q
    rw [← hs0]
    exact ⟨hq.ordered,fun _ halone => absurd halone.2 Bool.false_ne_true,hq.halted,hq.calling⟩
  have hrest : ∀ q,q.isWakeup=false → QueueGood s0 q := by
    intro q hwake
    have hq := h.queues q
    have halone : ∀ t : State,¬t.LeftAlone q := fun t hl => by
      have := hl.1
      rw [hwake] at this
      cases this
    refine ⟨hready q,?_,?_⟩
    · rw [← hs0]
      exact fun h1 _ => hq.timely h1 (halone s)
    · rw [← hs0]
      exact fun h1 _ => hq.armed h1 (halone s)
  have hl1 := Local.updateTimerLocked s0 .rtcWakeup
  have hl2 := Local.updateTimerLocked (s0.updateTimerLocked .rtcWakeup) .elapsedRealtimeWakeup
  have hk1 := updateTimerLocked_keeps s0 .rtcWakeup
  have hk2 := updateTimerLocked_keeps (s0.updateTimerLocked .rtcWakeup) .elapsedRealtimeWakeup
  have hone := (hready .rtcWakeup).update
  have htwo := (hl1.ready (q := .elapsedRealtimeWakeup) (hready _) (by decide)
    (hl1.suspended.trans hsus)).update
  have hfield : ∀ {α : Type} (f : AlarmQueue → α),
      (f ((s0.updateTimerLocked .rtcWakeup).queue .rtcWakeup)=f (s0.queue .rtcWakeup)) →
      (f (((s0.updateTimerLocked .rtcWakeup).updateTimerLocked .elapsedRealtimeWakeup).queue
        .elapsedRealtimeWakeup)=
          f ((s0.updateTimerLocked .rtcWakeup).queue .elapsedRealtimeWakeup)) →
      ∀ q,f (((s0.updateTimerLocked .rtcWakeup).updateTimerLocked .elapsedRealtimeWakeup).queue q)=
        f (s.queue q) := by
    intro α f h1 h2 q
    have hs : s.queue=s0.queue := by rw [← hs0]
    rw [hs]
    by_cases hq2 : q=.elapsedRealtimeWakeup
    · rw [hq2,h2,hl1.queue _ (by decide)]
    · rw [hl2.queue q hq2]
      by_cases hq1 : q=.rtcWakeup
      · rw [hq1,h1]
      · rw [hl1.queue q hq1]
  have hdelta := hfield AlarmQueue.delta hl1.delta hl2.delta
  have hstopped := hfield AlarmQueue.stopped hl1.stopped hl2.stopped
  have htime := hfield AlarmQueue.stoppedTime hl1.stoppedTime hl2.stoppedTime
  have halarms := hfield AlarmQueue.alarms (hk1 _).1 (hk2 _).1
  have hsuspension := hl2.suspension.trans hl1.suspension
  refine ⟨fun q => ?_,?_,h.setting.congr ?_ hstopped hdelta htime,?_,fun hw => ?_,?_,fun a => ?_⟩
  · by_cases hq2 : q=.elapsedRealtimeWakeup
    · exact hq2▸htwo
    · refine hl2.good ?_ hq2
      by_cases hq1 : q=.rtcWakeup
      · exact hq1▸hone
      · refine hl1.good (hrest q ?_) hq1
        exact decide_eq_false fun e => e.elim hq1 hq2
  · rw [hdelta,hdelta]
    exact h.even
  · rw [hl2.setting,hl1.setting,← hs0]
  · rw [hl2.suspended,hl1.suspended,hsuspension,← hs0]
    rfl
  · rw [hsuspension,← hs0] at hw
    cases hw
  · unfold SuspensionGood
    rw [hsuspension,← hs0]
    trivial
  · rw [halarms,(hk2 .rtcWakeup).2.2.1,(hk1 .rtcWakeup).2.2.1,(hk2 .rtcWakeup).2.2.2.2,
      (hk1 .rtcWakeup).2.2.2.2,← hs0]
    exact h.history a

/-! ## Runs -/

/-- A timer runs its callback. -/
theorem Good.fire (h : Good s) (harmed : (s.queue type).timer.armed=true) :
    Good ((s.setQueue type {s.queue type with timer :=
      {(s.queue type).timer with armed := false}}).setCallback type (some .waiting)) := by
  have hself : (s.setQueue type {s.queue type with timer :=
      {(s.queue type).timer with armed := false}}).queue type={s.queue type with timer :=
      {(s.queue type).timer with armed := false}} := update_self _ _ _
  have hq := h.queues type
  have hstopped : (s.queue type).stopped=false := by
    cases hs : (s.queue type).stopped with
    | false => rfl
    | true => exact absurd ((hq.halted hs).2.symm.trans harmed) (by decide)
  have hgood : QueueGood ((s.setQueue type {s.queue type with timer :=
      {(s.queue type).timer with armed := false}}).setCallback type (some .waiting)) type := by
    have hcall : (update s.callback type (some .waiting)) type=some .waiting :=
      update_self _ _ _
    refine ⟨⟨?_,?_,fun hs => ?_,fun now hnow => ?_⟩,?_,fun _ _ hrest => ?_⟩
    · change Ordered s.alarm type ((s.setQueue type _).queue type)
      rw [hself]
      exact hq.ordered.congr (fun _ _ => rfl) rfl rfl rfl
    · change ((s.setQueue type _).queue type).stopped=false → _ → _ →
        Timely s.alarm ((s.setQueue type _).queue type)
      rw [hself]
      exact hq.kept
    · change ((s.setQueue type _).queue type).stopped=true at hs
      rw [hself] at hs
      exact absurd (hstopped.symm.trans hs) (by decide)
    · exact absurd (hcall.symm.trans hnow) nofun
    · change ((s.setQueue type _).queue type).stopped=false → _ →
        Timely s.alarm ((s.setQueue type _).queue type)
      rw [hself]
      exact hq.timely
    · rcases hrest with e|e
      · exact absurd (hcall.symm.trans e) nofun
      · exact absurd (hcall.symm.trans e) nofun
  have hl : Local s (s.setQueue type {s.queue type with timer :=
      {(s.queue type).timer with armed := false}}) type := Local.setQueue s type rfl rfl rfl
  refine h.quiet (hl.trans (Local.setCallback _ _ _)) hgood ?_ rfl fun _ _ => ?_
  · change ((s.setQueue type _).queue type).alarms=_
    rw [hself]
  · change ((s.setQueue type _).queue type).timer.expires=_
    rw [hself]

/-- A timer is not in its callback any more. -/
theorem Good.leave (h : Good s) (hc : s.callback type=some .leaving) :
    Good (s.setCallback type none) := by
  have hq := h.queues type
  have hcall : (update s.callback type none) type=none := update_self _ _ _
  refine h.quiet (Local.setCallback s type none) ⟨⟨hq.ordered,hq.kept,fun hs => ?_,fun now hnow => ?_⟩,
    hq.timely,fun h1 h2 _ => hq.armed h1 h2 (Or.inr hc)⟩ rfl rfl fun _ _ => rfl
  · exact ⟨hcall,(hq.halted hs).2⟩
  · exact absurd (hcall.symm.trans hnow) nofun

theorem step_good {e : Event} (h : Good s) (hok : e.ok=true) (hsafe : e.safe s=true)
    (hstep : step r s e=some t) : Good t := by
  cases e with
  | tick d =>
    cases hstep
    exact h.tick d
  | startRange a start stop =>
    cases hstep
    exact h.start hok hsafe
  | tryToCancel a =>
    cases hstep
    exact h.cancel r a
  | fire type =>
    unfold step at hstep
    dsimp only at hstep
    split at hstep
    next hcan =>
      cases hstep
      exact h.fire hcan.1
    · cases hstep
  | triggered type =>
    unfold step at hstep
    dsimp only at hstep
    split at hstep
    next hc =>
      cases hstep
      refine h.callAlarms hc ?_
      unfold State.now
      dsimp only
      rw [h.running hc]
      exact Int.le_refl _
    · cases hstep
  | returned type =>
    unfold step at hstep
    dsimp only at hstep
    split at hstep
    next now hc =>
      cases hstep
      exact h.callAlarms hc ((h.queues type).calling now hc)
    · cases hstep
  | leave type =>
    unfold step at hstep
    dsimp only at hstep
    split at hstep
    next hc =>
      cases hstep
      exact h.leave hc
    · cases hstep
  | setRtc newTime =>
    unfold step at hstep
    dsimp only at hstep
    split at hstep
    next hidle =>
      cases hstep
      exact h.setRtc hidle hsafe
    · cases hstep
  | doSettimeofday success =>
    unfold step at hstep
    dsimp only at hstep
    split at hstep
    next newTime before hset =>
      cases hstep
      exact h.doSettimeofday hset hsafe
    · cases hstep
  | setRtcEnd =>
    unfold step at hstep
    dsimp only at hstep
    split at hstep
    next success before hset =>
      cases hstep
      exact (h.setRtcEnd hset).1
    · cases hstep
  | suspend =>
    unfold step at hstep
    dsimp only at hstep
    split at hstep
    next hawake =>
      cases hstep
      exact h.suspend hawake hsafe
    · cases hstep
  | cancelOne =>
    unfold step at hstep
    dsimp only at hstep
    split at hstep
    next hcan =>
      cases hstep
      have hw : s.suspension.inWindow=true := by rw [hcan.1]; rfl
      have hgood := h.cancelTimer hw (by rfl) hcan.2
      have hsus : (s.hrtimerTryToCancel .rtcWakeup).suspension=s.suspension := by
        unfold State.hrtimerTryToCancel
        split <;> rfl
      have hw' : (s.hrtimerTryToCancel .rtcWakeup).suspension.inWindow=true := by
        rw [hsus]
        exact hw
      exact hgood.move .cancelledOne _ (hgood.suspended hw') (by decide) (fun _ => hw') trivial
    · cases hstep
  | cancelTwo =>
    have hsafe := of_decide_eq_true hsafe
    unfold step at hstep
    change (if s.suspension=.cancelledOne∧s.callback .systemtime=none then _ else none)=_ at hstep
    split at hstep
    next hcan =>
      cases hstep
      have hw : s.suspension.inWindow=true := by rw [hcan.1]; rfl
      rw [hrtimerTryToCancel_eq hsafe]
      exact h.move .cancelledTwo _ (h.suspended hw) (by decide) (fun _ => hw) trivial
    · cases hstep
  | readOne =>
    unfold step at hstep
    dsimp only at hstep
    split at hstep
    next hcan =>
      cases hstep
      have hw : s.suspension.inWindow=true := by rw [hcan]; rfl
      refine h.move (.readOne _) _ (h.suspended hw) (by simp) (fun _ => hw) fun hf => ?_
      have hnone := Option.isSome_eq_false_iff.mp hf
      exact List.head?_eq_none_iff.mp
        ((h.queues .rtcWakeup).ordered.first.symm.trans (Option.isNone_iff_eq_none.mp hnone))
    · cases hstep
  | readTwo =>
    unfold step at hstep
    dsimp only at hstep
    split at hstep
    next found hread =>
      have hw : s.suspension.inWindow=true := by rw [hread]; rfl
      have ⟨_,hsome⟩ := h.choose_spec hread
      split at hstep
      next w hchoose =>
        cases hstep
        exact h.move (.chosen w) _ (h.suspended hw) (by simp) (fun _ => hw) (hsome w hchoose)
      · cases hstep
        exact h.move .asleep _ (h.suspended hw) (by decide) (fun _ => hw) trivial
    · cases hstep
  | setAlarm xtime rtcNow rtcLater =>
    unfold step at hstep
    dsimp only at hstep
    split at hstep
    next w hchosen =>
      cases hstep
      have hw : s.suspension.inWindow=true := by rw [hchosen]; rfl
      unfold State.setAlarm
      dsimp only
      split
      · exact h.move .aborting _ (h.suspended hw) (by decide) (fun _ => hw) trivial
      · exact h.move .asleep _ (h.suspended hw) (by decide) (fun _ => hw) trivial
    · cases hstep
  | abort =>
    unfold step at hstep
    dsimp only at hstep
    split at hstep
    next hcan =>
      cases hstep
      exact h.wake
    · cases hstep
  | resume =>
    unfold step at hstep
    dsimp only at hstep
    split at hstep
    next hcan =>
      cases hstep
      have hgood := h.wake
      exact ⟨fun q => (hgood.queues q).congr rfl rfl (fun _ _ => rfl) (Int.le_refl _) rfl id,
        hgood.even,hgood.setting,hgood.awake,hgood.window,hgood.suspension,hgood.history⟩
    · cases hstep

theorem alarmLateInit_good (realtime monotonic : ℤ) (kind : ℕ → AlarmType) :
    Good (alarmLateInit realtime monotonic kind) := by
  have hempty : ∀ q,∃ delta,(alarmLateInit realtime monotonic kind).queue q=
      AlarmQueue.empty delta := by
    intro q
    cases q <;> exact ⟨_,rfl⟩
  refine ⟨fun q => ?_,rfl,fun q => ?_,rfl,nofun,trivial,fun a => ?_⟩
  · have ⟨delta,he⟩ := hempty q
    refine ⟨⟨?_,?_,?_,nofun⟩,?_,?_⟩
    · rw [he]
      exact ⟨List.Pairwise.nil,List.nodup_nil,nofun,rfl,nofun,nofun⟩
    · rw [he]
      exact fun _ _ _ => nofun
    · rw [he]
      exact nofun
    · rw [he]
      exact fun _ _ => nofun
    · rw [he]
      exact fun _ _ _ hne => absurd rfl hne
  · have ⟨delta,he⟩ := hempty q
    rw [he]
    rfl
  · have ⟨delta,he⟩ := hempty (kind a)
    change a∈((alarmLateInit realtime monotonic kind).queue (kind a)).alarms.toList ↔ _
    rw [he]
    exact iff_of_false nofun nofun

/-! ## What is promised -/

/-- A state in which no alarm is lost. -/
structure Kept (s : State) : Prop where
  /-- The first alarm of a queue is the leftmost of its tree, which is in order. -/
  first : ∀ type,(s.queue type).first=(s.queue type).alarms.toList.head?∧
    (s.queue type).alarms.toList.Pairwise fun a b => (s.alarm a).expires≤(s.alarm b).expires
  /-- The trees have the alarms that have been started, and not cancelled or called since. -/
  live : ∀ type a,a∈(s.queue type).alarms.toList ↔
    (s.alarm a).type=type∧lastHappening s.history a=some .started
  /-- A timer that may go off does so in time. -/
  timer : ∀ type a,(s.queue type).first=some a → (s.queue type).stopped=false →
    s.callback type=none∨s.callback type=some .leaving →
    ¬(type.isWakeup=true∧s.suspended=true) → (s.queue type).timer.armed=true∧
      (s.queue type).timer.expires≤(s.queue type).delta+(s.alarm a).expires

/-- The steps of `alarm_suspend`. -/
def Event.suspends : Event → Bool
  | .suspend | .cancelOne | .cancelTwo | .readOne | .readTwo | .setAlarm _ _ _ | .abort => true
  | _ => false

/-- What is promised of a step. -/
structure Promised (s : State) (e : Event) (t : State) : Prop where
  /-- An alarm is called when the time of its queue has reached it. -/
  called : ∀ type a,e=.triggered type∨e=.returned type → t.history=s.history++[⟨a,.called⟩] →
    (s.alarm a).type=type∧(s.alarm a).softexpires≤ s.clock type-(s.queue type).delta
  /-- When the time could not be set all offsets are what they were before. -/
  failed : ∀ before,e=.setRtcEnd → s.setting=.timeSet false before →
    ∀ type,(t.queue type).delta=before type
  /-- `alarm_suspend` returns zero without an alarm of the real-time clock. -/
  none : e=.readTwo → t.suspension=.asleep →
    ∀ type,type.isWakeup=true → (t.queue type).first=none
  /-- It returns zero with one. -/
  rtc : ∀ xtime rtcNow rtcLater,e=.setAlarm xtime rtcNow rtcLater → t.suspension=.asleep →
    ∃ time,t.rtcAlarm=some time∧∀ type a,type.isWakeup=true → (t.queue type).first=some a →
      time*1000000000+(xtime-rtcNow*1000000000)≤(t.queue type).delta+(t.alarm a).expires
  /-- It changes no other timer. -/
  others : e.suspends=true → ∀ type,type.isWakeup=false →
    (t.queue type).timer=(s.queue type).timer

theorem Good.kept (h : Good s) : Kept s := by
  refine ⟨fun type => ⟨(h.queues type).ordered.first,(h.queues type).ordered.sorted⟩,
    fun type a => ?_,fun type a hfirst hstopped hrest halone => ?_⟩
  · rw [← h.history a]
    constructor
    · intro hmem
      have htype := (h.queues type).ordered.own a hmem
      exact ⟨htype,htype.symm▸hmem⟩
    · rintro ⟨rfl,hmem⟩
      exact hmem
  · have hmem := (h.queues type).ordered.first_mem hfirst
    exact ⟨(h.queues type).armed hstopped halone hrest (List.ne_nil_of_mem hmem),
      (h.queues type).timely hstopped halone a hmem⟩

/-- The loop calls the first alarm only when its time has been reached. -/
theorem callAlarms_called (h : QueueGood s type)
    (hhistory : (s.callAlarms r type now).history=s.history++[⟨a,.called⟩]) :
    (s.alarm a).type=type∧(s.alarm a).softexpires≤now := by
  have hnot : ∀ {α : Type} (l : List α) (x : α),l≠l++[x] := fun l x e => by
    have := congrArg List.length e
    rw [List.length_append,List.length_singleton] at this
    omega
  have hfinish : ((s.updateTimerLocked type).setCallback type (some .leaving)).history=
      s.history := (updateTimerLocked_keeps s type type).2.2.2.2
  unfold State.callAlarms at hhistory
  split at hhistory
  · rw [hfinish] at hhistory
    exact absurd hhistory (hnot _ _)
  next b hfirst =>
    split at hhistory
    · rw [hfinish] at hhistory
      exact absurd hhistory (hnot _ _)
    next hsoft =>
      have he : b=a := congrArg Prod.fst
        (List.singleton_inj.mp (List.append_cancel_left hhistory))
      subst he
      exact ⟨h.ordered.own b (h.ordered.first_mem hfirst),Int.not_lt.mp hsoft⟩

theorem Good.promised {e : Event} (h : Good s) (hsafe : e.safe s=true)
    (hstep : step r s e=some t) : Promised s e t := by
  constructor
  · rintro type a (rfl|rfl) hhistory
    · unfold step at hstep
      dsimp only at hstep
      split at hstep
      next hc =>
        cases hstep
        have ⟨htype,hsoft⟩ := callAlarms_called (h.queues type) hhistory
        unfold State.now at hsoft
        dsimp only at hsoft
        rw [h.running hc] at hsoft
        exact ⟨htype,hsoft⟩
      · cases hstep
    · unfold step at hstep
      dsimp only at hstep
      split at hstep
      next now hc =>
        cases hstep
        have ⟨htype,hsoft⟩ := callAlarms_called (h.queues type) hhistory
        exact ⟨htype,Int.le_trans hsoft ((h.queues type).calling now hc)⟩
      · cases hstep
  · rintro before rfl hset type
    unfold step at hstep
    rw [hset] at hstep
    cases hstep
    have hs := h.setting
    unfold SettingGood at hs
    rw [hset] at hs
    rw [(h.setRtcEnd hset).2]
    exact hs.2 rfl type
  · rintro rfl hasleep type hwake
    unfold step at hstep
    dsimp only at hstep
    split at hstep
    next found hread =>
      split at hstep
      next w hchoose =>
        cases hstep
        cases hasleep
      next hchoose =>
        cases hstep
        refine (h.queues type).ordered.first.trans ?_
        rw [(h.choose_spec hread).1 hchoose type hwake]
        rfl
    · cases hstep
  · rintro xtime rtcNow rtcLater rfl hasleep
    unfold step at hstep
    dsimp only at hstep
    split at hstep
    next w hchosen =>
      cases hstep
      have hw : s.suspension.inWindow=true := by rw [hchosen]; rfl
      have hsus := h.suspension
      unfold SuspensionGood at hsus
      rw [hchosen] at hsus
      unfold Event.safe at hsafe
      rw [hchosen] at hsafe
      have hepoch := of_decide_eq_true hsafe
      unfold State.setAlarm at hasleep ⊢
      dsimp only at hasleep ⊢
      split at hasleep
      · cases hasleep
      next hlater =>
        rw [if_neg hlater]
        refine ⟨_,rfl,fun type a hwake hfirst => ?_⟩
        have hmem := (h.queues type).ordered.first_mem hfirst
        have htimely := (h.queues type).kept (h.not_stopped hw type) ⟨hwake,h.suspended hw⟩ hw a hmem
        have hle := hsus.2 type hwake (List.ne_nil_of_mem hmem)
        dsimp only
        omega
    · cases hstep
  · intro hsuspends type hwake
    have hone : type≠.rtcWakeup := by
      rintro rfl
      cases hwake
    have htwo : type≠.elapsedRealtimeWakeup := by
      rintro rfl
      cases hwake
    cases e with
    | suspend =>
      unfold step at hstep
      dsimp only at hstep
      split at hstep <;> cases hstep
      rfl
    | cancelOne =>
      unfold step at hstep
      dsimp only at hstep
      split at hstep
      next hcan =>
        cases hstep
        unfold State.hrtimerTryToCancel State.setQueue
        rw [if_pos hcan.2]
        dsimp only
        rw [update_of_ne hone]
      · cases hstep
    | cancelTwo =>
      unfold step at hstep
      change (if s.suspension=.cancelledOne∧s.callback .systemtime=Option.none then _
        else Option.none)=_ at hstep
      split at hstep
      next hcan =>
        cases hstep
        rw [hrtimerTryToCancel_eq (of_decide_eq_true hsafe)]
      · cases hstep
    | readOne =>
      unfold step at hstep
      dsimp only at hstep
      split at hstep <;> cases hstep
      rfl
    | readTwo =>
      unfold step at hstep
      dsimp only at hstep
      split at hstep
      · split at hstep <;> cases hstep <;> rfl
      · cases hstep
    | setAlarm xtime rtcNow rtcLater =>
      unfold step at hstep
      dsimp only at hstep
      split at hstep
      · cases hstep
        unfold State.setAlarm
        dsimp only
        split <;> rfl
      · cases hstep
    | abort =>
      unfold step at hstep
      dsimp only at hstep
      split at hstep
      · cases hstep
        have hl1 := Local.updateTimerLocked {s with suspended := false} .rtcWakeup
        have hl2 := Local.updateTimerLocked
          (({s with suspended := false} : State).updateTimerLocked .rtcWakeup)
          .elapsedRealtimeWakeup
        exact congrArg AlarmQueue.timer ((hl2.queue type htwo).trans (hl1.queue type hone))
      · cases hstep
    | _ => cases hsuspends

/-- In every run whose steps meet the conditions no alarm is lost, and the next
step that meets them gives what is promised. -/
theorem alarms_kept {realtime monotonic : ℤ} {kind : ℕ → AlarmType} {es : List Event}
    (hrun : Run (step r) (fun s e => e.ok=true∧e.safe s=true)
      (alarmLateInit realtime monotonic kind) es s) :
    Kept s∧∀ e t,e.ok=true → e.safe s=true → step r s e=some t → Promised s e t := by
  have h := hrun.invariant Good (alarmLateInit_good realtime monotonic kind)
    fun hs hok hstep => step_good hs hok.1 hok.2 hstep
  exact ⟨h.kept,fun _ _ _ hsafe hstep => h.promised hsafe hstep⟩

/-- One alarm is called and another wakes the system. -/
theorem alarms_kept_example : ∃ s,
    Run (step Rebalance.none) (fun s e => e.ok=true∧e.safe s=true)
      (alarmLateInit 5000000000 1000000000 fun a => if a=0 then .rtc else .elapsedRealtimeWakeup)
      [.startRange 0 5000000100 5000000200,.startRange 1 90000000000 90000000000,.tick 150,
        .fire .rtc,.triggered .rtc,.returned .rtc,.leave .rtc,.suspend,.cancelOne,.cancelTwo,
        .readOne,.readTwo,.setAlarm 5000000150 3 3] s∧
    s.rtcAlarm=some 91∧s.history=[⟨0,.started⟩,⟨1,.started⟩,⟨0,.called⟩]∧Kept s := by
  have ⟨s,hrun,hs⟩ := exists_run (step Rebalance.none) (fun s e => e.ok&&e.safe s)
    (alarmLateInit 5000000000 1000000000 fun a => if a=0 then .rtc else .elapsedRealtimeWakeup)
    [.startRange 0 5000000100 5000000200,.startRange 1 90000000000 90000000000,.tick 150,
      .fire .rtc,.triggered .rtc,.returned .rtc,.leave .rtc,.suspend,.cancelOne,.cancelTwo,
      .readOne,.readTwo,.setAlarm 5000000150 3 3]
    (fun s : State => decide (s.rtcAlarm=some 91∧
      s.history=[⟨0,.started⟩,⟨1,.started⟩,⟨0,.called⟩])) (by decide +kernel)
  have hrun := hrun.mono fun s e h => Bool.and_eq_true_iff.mp h
  have ⟨halarm,hhistory⟩ := of_decide_eq_true hs
  exact ⟨s,hrun,halarm,hhistory,(alarms_kept hrun).1⟩

/-- A suspension leaves the timer of an alarm by the system time cancelled after
the system has resumed; setting the time changes an offset although it fails;
and while the time is being set back an alarm is called long before its time. -/
theorem alarms_lost :
    (∃ s,Run (step Rebalance.none) (fun _ e => e.ok=true)
      (alarmLateInit 5000000000 1000000000 fun _ => .systemtime)
      [.startRange 0 9000000000 9000000000,.suspend,.cancelOne,.cancelTwo,.readOne,.readTwo,
        .resume] s∧
      (s.queue .systemtime).first=some 0∧(s.queue .systemtime).stopped=false∧
      s.callback .systemtime=none∧(s.queue .systemtime).timer.armed=false)∧
    (∃ s,Run (step Rebalance.none) (fun _ e => e.ok=true)
      (alarmLateInit 5000000000 1000000000 fun _ => .rtc)
      [.setRtc 7000000000,.doSettimeofday false,.setRtcEnd] s∧
      (s.queue .elapsedRealtime).delta=6000000000∧s.realtime=5000000000)∧
    ∃ s,Run (step Rebalance.none) (fun _ e => e.ok=true)
      (alarmLateInit 100000000000 0 fun _ => .elapsedRealtime)
      [.startRange 0 10 10,.startRange 1 4000000000 4000000000,.tick 10,.fire .elapsedRealtime,
        .setRtc 95000000010,.triggered .elapsedRealtime,.returned .elapsedRealtime] s∧
      s.monotonic=10∧(s.alarm 1).softexpires=4000000000∧
      s.history=[⟨0,.started⟩,⟨1,.started⟩,⟨0,.called⟩,⟨1,.called⟩] := by
  have ⟨s₁,hrun₁,hs₁⟩ := exists_run (step Rebalance.none) (fun _ e => e.ok)
    (alarmLateInit 5000000000 1000000000 fun _ => .systemtime)
    [.startRange 0 9000000000 9000000000,.suspend,.cancelOne,.cancelTwo,.readOne,.readTwo,
      .resume]
    (fun s : State => decide ((s.queue .systemtime).first=some 0∧
      (s.queue .systemtime).stopped=false∧s.callback .systemtime=none∧
      (s.queue .systemtime).timer.armed=false)) (by decide +kernel)
  have ⟨s₂,hrun₂,hs₂⟩ := exists_run (step Rebalance.none) (fun _ e => e.ok)
    (alarmLateInit 5000000000 1000000000 fun _ => .rtc)
    [.setRtc 7000000000,.doSettimeofday false,.setRtcEnd]
    (fun s : State => decide ((s.queue .elapsedRealtime).delta=6000000000∧
      s.realtime=5000000000)) (by decide +kernel)
  have ⟨s₃,hrun₃,hs₃⟩ := exists_run (step Rebalance.none) (fun _ e => e.ok)
    (alarmLateInit 100000000000 0 fun _ => .elapsedRealtime)
    [.startRange 0 10 10,.startRange 1 4000000000 4000000000,.tick 10,.fire .elapsedRealtime,
      .setRtc 95000000010,.triggered .elapsedRealtime,.returned .elapsedRealtime]
    (fun s : State => decide (s.monotonic=10∧(s.alarm 1).softexpires=4000000000∧
      s.history=[⟨0,.started⟩,⟨1,.started⟩,⟨0,.called⟩,⟨1,.called⟩])) (by decide +kernel)
  exact ⟨⟨s₁,hrun₁,of_decide_eq_true hs₁⟩,⟨s₂,hrun₂,of_decide_eq_true hs₂⟩,
    s₃,hrun₃,of_decide_eq_true hs₃⟩

end ArdroneKernel.AndroidAlarm
