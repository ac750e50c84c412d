import ArdroneKernel.SearchTree
import Mathlib.Algebra.Order.Ring.Int

/-!
# Alarms

Every type of alarm has a queue, a search tree by time of expiry, and a timer
of the kernel that is set for the first alarm of the queue. While the wall time
is being set the queues that depend on it are stopped, and while the system is
suspended the timers of the wake-up queues are left alone. The alarm of the
real-time clock then wakes the system.
-/

namespace ArdroneKernel.AndroidAlarm

open SearchTree

/-- `enum android_alarm_type`. -/
inductive AlarmType where
  | rtcWakeup
  | rtc
  | elapsedRealtimeWakeup
  | elapsedRealtime
  | systemtime
  deriving DecidableEq

def AlarmType.number : AlarmType → ℕ
  | rtcWakeup => 0
  | rtc => 1
  | elapsedRealtimeWakeup => 2
  | elapsedRealtime => 3
  | systemtime => 4

/-- `ANDROID_ALARM_ELAPSED_REALTIME_WAKEUP_MASK` and the others. -/
def AlarmType.mask (type : AlarmType) : ℕ := 1<<<type.number

/-- The queue at an index of `alarms`. -/
def queueAt : ℕ → Option AlarmType
  | 0 => some .rtcWakeup
  | 1 => some .rtc
  | 2 => some .elapsedRealtimeWakeup
  | 3 => some .elapsedRealtime
  | 4 => some .systemtime
  | _ => none

/-- `struct alarm`; times are in nanoseconds. -/
structure Alarm where
  type : AlarmType
  softexpires : ℤ
  expires : ℤ

/-- `struct hrtimer`, as far as it is used here. -/
structure Hrtimer where
  /-- Whether it is enqueued. -/
  armed : Bool
  expires : ℤ
  softexpires : ℤ
  deriving DecidableEq

/-- `struct alarm_queue`, with numbers for its alarms. -/
structure AlarmQueue where
  alarms : SearchTree.Tree ℕ
  first : Option ℕ
  timer : Hrtimer
  delta : ℤ
  stopped : Bool
  stoppedTime : ℤ

/-- Where `alarm_timer_triggered` is. -/
inductive Callback where
  /-- It has not taken the lock yet. -/
  | waiting
  /-- It calls the function of an alarm; the time of the queue at its start. -/
  | calling (now : ℤ)
  /-- It has given up the lock, and the timer still counts as in its callback. -/
  | leaving
  deriving DecidableEq

/-- Where `alarm_set_rtc` is. -/
inductive Setting where
  | idle
  /-- Queues are stopped; the new time, and the offsets before the call. -/
  | stopped (newTime : ℤ) (before : AlarmType → ℤ)
  /-- `do_settimeofday` has returned; whether it succeeded. -/
  | timeSet (success : Bool) (before : AlarmType → ℤ)

/-- Where the suspension of the device is. -/
inductive Suspension where
  | awake
  /-- `alarm_suspend` has noted that the system is suspended. -/
  | noted
  /-- It has cancelled one timer. -/
  | cancelledOne
  /-- It has cancelled the other. -/
  | cancelledTwo
  /-- It has read whether there is an alarm of type `RTC_WAKEUP`. -/
  | readOne (found : Bool)
  /-- It has chosen a queue. -/
  | chosen (type : AlarmType)
  /-- The alarm is about to go off. -/
  | aborting
  /-- It has returned zero. -/
  | asleep
  deriving DecidableEq

/-- What may happen to an alarm. -/
inductive Happening where
  | started
  | cancelled
  | called
  deriving DecidableEq

/-- The clocks, the alarms and their queues, and where each function is. -/
structure State where
  realtime : ℤ
  monotonic : ℤ
  alarm : ℕ → Alarm
  queue : AlarmType → AlarmQueue
  callback : AlarmType → Option Callback
  suspended : Bool
  setting : Setting
  suspension : Suspension
  /-- When the real-time clock is to wake the system, in its seconds. -/
  rtcAlarm : Option ℤ
  /-- What has happened to alarms, in order. -/
  history : List (ℕ×Happening)

/-- `ktime_add_safe`: a sum that is negative is taken for an overflow. -/
def ktimeAddSafe (lhs rhs : ℤ) : ℤ :=
  let res := lhs+rhs
  if res<0∨res<lhs∨res<rhs then 9223372036*1000000000 else res

/-- `hrtimer_start_expires`; the range of the timer has 32 bits. -/
def hrtimerStartExpires (soft hard : ℤ) : Hrtimer := ⟨true,ktimeAddSafe soft ((hard-soft)%2^32),soft⟩

def AlarmType.isWakeup (type : AlarmType) : Bool := type=rtcWakeup∨type=elapsedRealtimeWakeup

namespace State

/-- The time by which a queue's timer goes. -/
def clock (s : State) : AlarmType → ℤ
  | .systemtime => s.monotonic
  | _ => s.realtime

def setQueue (s : State) (type : AlarmType) (base : AlarmQueue) : State :=
  {s with queue := Function.update s.queue type base}

def setCallback (s : State) (type : AlarmType) (c : Option Callback) : State :=
  {s with callback := Function.update s.callback type c}

def note (s : State) (a : ℕ) (h : Happening) : State := {s with history := s.history++[⟨a,h⟩]}

/-- `hrtimer_try_to_cancel`: nothing happens in the timer's callback. -/
def hrtimerTryToCancel (s : State) (type : AlarmType) : State :=
  if s.callback type=none then
    s.setQueue type {s.queue type with timer := {(s.queue type).timer with armed := false}}
  else s

/-- `update_timer_locked`. That it cancels the timer first makes no difference. -/
def updateTimerLocked (s : State) (type : AlarmType) : State :=
  let base := s.queue type
  if base.stopped then s
  else
    match base.first with
    | none => s
    | some a =>
      if type.isWakeup∧s.suspended then s
      else
        let timer :=
          hrtimerStartExpires (base.delta+(s.alarm a).softexpires) (base.delta+(s.alarm a).expires)
        s.setQueue type {base with timer := timer}

/-- The walk of `alarm_enqueue_locked` for an alarm with some expiry. -/
def walk (s : State) (expires : ℤ) (entry : ℕ) : Turn :=
  if expires<(s.alarm entry).expires then .left else .right

/-- `alarm_enqueue_locked`. -/
def alarmEnqueueLocked (s : State) (rebalance : Rebalance) (a : ℕ) : State :=
  let type := (s.alarm a).type
  let base := s.queue type
  let first := if base.first=some a then base.alarms.next a else base.first
  let alarms := if a∈base.alarms.toList then rebalance.run (base.alarms.erase a) else base.alarms
  let dir := s.walk (s.alarm a).expires
  let linked := rebalance.run (alarms.add dir a)
  if alarms.leftmost dir then
    (s.setQueue type {base with alarms := linked,first := some a}).updateTimerLocked type
  else s.setQueue type {base with alarms := linked,first := first}

/-- `alarm_start_range`. -/
def alarmStartRange (s : State) (rebalance : Rebalance) (a : ℕ) (start stop : ℤ) : State :=
  let s := {s with alarm :=
    Function.update s.alarm a {s.alarm a with softexpires := start,expires := stop}}
  (s.alarmEnqueueLocked rebalance a).note a .started

/-- The queue without one of its alarms. -/
def takeOut (s : State) (rebalance : Rebalance) (type : AlarmType) (a : ℕ) : State :=
  let base := s.queue type
  s.setQueue type {base with
    alarms := rebalance.run (base.alarms.erase a)
    first := if base.first=some a then base.alarms.next a else base.first}

/-- `alarm_try_to_cancel`. -/
def alarmTryToCancel (s : State) (rebalance : Rebalance) (a : ℕ) : State×ℤ :=
  let type := (s.alarm a).type
  let base := s.queue type
  if a∈base.alarms.toList then
    let s := s.takeOut rebalance type a
    (((if base.first=some a then s.updateTimerLocked type else s).note a .cancelled),1)
  else (s.note a .cancelled,if s.callback type=none then 0 else -1)

/-- One round of the loop of `alarm_timer_triggered`: an alarm is called, or
the timer is set again. -/
def callAlarms (s : State) (rebalance : Rebalance) (type : AlarmType) (now : ℤ) : State :=
  match (s.queue type).first with
  | none => (s.updateTimerLocked type).setCallback type (some .leaving)
  | some a =>
    if (s.alarm a).softexpires>now then
      (s.updateTimerLocked type).setCallback type (some .leaving)
    else ((s.takeOut rebalance type a).setCallback type (some (.calling now))).note a .called

/-- The time of a queue, as `alarm_timer_triggered` reads it. -/
def now (s : State) (type : AlarmType) : ℤ :=
  let base := s.queue type
  (if base.stopped then base.stoppedTime else s.clock type)-base.delta

/-- The queues that go by the wall time. -/
def realtimeQueues : List AlarmType := [.rtcWakeup,.rtc,.elapsedRealtimeWakeup,.elapsedRealtime]

/-- The first section of `alarm_set_rtc`, for one queue. -/
def stop (s : State) (type : AlarmType) : State :=
  let s := s.hrtimerTryToCancel type
  s.setQueue type {s.queue type with stopped := true,stoppedTime := s.realtime}

/-- Its last section, for one queue. -/
def restart (s : State) (type : AlarmType) : State :=
  (s.setQueue type {s.queue type with stopped := false}).updateTimerLocked type

def setDelta (s : State) (type : AlarmType) (delta : ℤ) : State :=
  s.setQueue type {s.queue type with delta := delta}

/-- The first section of `alarm_set_rtc`. -/
def alarmSetRtc (s : State) (newTime : ℤ) : State :=
  let before := fun type => (s.queue type).delta
  let s := realtimeQueues.foldl stop s
  let delta := (s.queue .elapsedRealtime).delta-(s.realtime-newTime)
  {(s.setDelta .elapsedRealtime delta).setDelta .elapsedRealtimeWakeup delta with
    setting := .stopped newTime before}

/-- The last section of `alarm_set_rtc`. -/
def alarmSetRtcEnd (s : State) : State := {realtimeQueues.foldl restart s with setting := .idle}

/-- `suspended` is cleared, and the timers of the wake-up queues are set again. -/
def wake (s : State) : State :=
  {(({s with suspended := false} : State).updateTimerLocked .rtcWakeup).updateTimerLocked
    .elapsedRealtimeWakeup with suspension := .awake}

/-- `alarm_suspend` compares the timers of the wake-up queues with alarms. -/
def choose (s : State) (found : Bool) : Option AlarmType :=
  let one := s.queue .rtcWakeup
  let two := s.queue .elapsedRealtimeWakeup
  if two.first≠none∧(found=false∨two.timer.expires<one.timer.expires) then
    some .elapsedRealtimeWakeup
  else if found then some .rtcWakeup
  else none

/-- The end of `alarm_suspend` for a queue, with the wall time, and the
seconds of the real-time clock before and after its alarm is set. -/
def setAlarm (s : State) (type : AlarmType) (xtime rtcNow rtcLater : ℤ) : State :=
  let rtcDelta := xtime-rtcNow*1000000000
  let rtcAlarmTime := (((s.queue type).timer.expires-rtcDelta)/1000000000)%2^32
  if (rtcLater+1)%2^32≥rtcAlarmTime then {s with rtcAlarm := none,suspension := .aborting}
  else {s with rtcAlarm := some rtcAlarmTime,suspension := .asleep}

end State

/-- What can happen next: time passes, an alarm is started or cancelled, a
timer runs its callback and goes through it, or one of the functions that set
the time or suspend the system goes on. -/
inductive Event where
  | tick (d : ℕ)
  | startRange (a : ℕ) (start stop : ℤ)
  | tryToCancel (a : ℕ)
  | fire (type : AlarmType)
  | triggered (type : AlarmType)
  | returned (type : AlarmType)
  | leave (type : AlarmType)
  | setRtc (newTime : ℤ)
  | doSettimeofday (success : Bool)
  | setRtcEnd
  | suspend
  | cancelOne
  | cancelTwo
  | readOne
  | readTwo
  | setAlarm (xtime rtcNow rtcLater : ℤ)
  | abort
  | resume
  deriving DecidableEq

/-- A step, when it is possible. -/
def step (rebalance : Rebalance) (s : State) : Event → Option State
  | .tick d => some {s with realtime := s.realtime+d,monotonic := s.monotonic+d}
  | .startRange a start stop => some (s.alarmStartRange rebalance a start stop)
  | .tryToCancel a => some (s.alarmTryToCancel rebalance a).1
  | .fire type =>
    let timer := (s.queue type).timer
    if timer.armed∧timer.softexpires≤ s.clock type∧s.callback type=none then
      some ((s.setQueue type {s.queue type with timer := {timer with armed := false}}).setCallback
        type (some .waiting))
    else none
  | .triggered type =>
    if s.callback type=some .waiting then some (s.callAlarms rebalance type (s.now type)) else none
  | .returned type =>
    match s.callback type with
    | some (.calling now) => some (s.callAlarms rebalance type now)
    | _ => none
  | .leave type =>
    if s.callback type=some .leaving then some (s.setCallback type none) else none
  | .setRtc newTime =>
    match s.setting with
    | .idle => some (s.alarmSetRtc newTime)
    | _ => none
  | .doSettimeofday success =>
    match s.setting with
    | .stopped newTime before =>
      some {s with
        realtime := if success then newTime else s.realtime
        setting := .timeSet success before}
    | _ => none
  | .setRtcEnd =>
    match s.setting with
    | .timeSet _ _ => some s.alarmSetRtcEnd
    | _ => none
  | .suspend =>
    if s.suspension=.awake then some {s with suspended := true,suspension := .noted} else none
  | .cancelOne =>
    -- `hrtimer_cancel` waits until no callback is running.
    if s.suspension=.noted∧s.callback .rtcWakeup=none then
      some {s.hrtimerTryToCancel .rtcWakeup with suspension := .cancelledOne}
    else none
  | .cancelTwo =>
    -- The index is the mask of the type.
    match queueAt AlarmType.elapsedRealtimeWakeup.mask with
    | none => none
    | some type =>
      if s.suspension=.cancelledOne∧s.callback type=none then
        some {s.hrtimerTryToCancel type with suspension := .cancelledTwo}
      else none
  | .readOne =>
    if s.suspension=.cancelledTwo then
      some {s with suspension := .readOne (s.queue .rtcWakeup).first.isSome}
    else none
  | .readTwo =>
    match s.suspension with
    | .readOne found =>
      match s.choose found with
      | some type => some {s with suspension := .chosen type}
      | none => some {s with suspension := .asleep}
    | _ => none
  | .setAlarm xtime rtcNow rtcLater =>
    match s.suspension with
    | .chosen type => some (s.setAlarm type xtime rtcNow rtcLater)
    | _ => none
  | .abort => if s.suspension=.aborting then some s.wake else none
  | .resume => if s.suspension=.asleep then some {s.wake with rtcAlarm := none} else none

/-- An alarm expires no earlier than it may be called. -/
def Event.ok : Event → Bool
  | .startRange _ start stop => start≤ stop
  | _ => true

/-- Nothing is being set. -/
def Setting.isIdle : Setting → Bool
  | .idle => true
  | _ => false

/-- `alarm_suspend` has not used the timers of the wake-up queues yet. -/
def Suspension.inWindow : Suspension → Bool
  | .awake | .aborting | .asleep => false
  | _ => true

/-- When alarms are kept. No time at which a timer is to go off is negative;
the wall time is not set while the callback of a queue that it stops is
running, nor while the system is being suspended, and it is set
successfully; no new first alarm of a wake-up queue is started before the
alarm of the real-time clock is set, for a time that the clock has; and the
timer that `alarm_suspend` cancels by the wrong index is not armed. -/
def Event.safe (s : State) : Event → Bool
  | .startRange a start stop =>
    let base := s.queue (s.alarm a).type
    0≤base.delta+start∧(s.suspension.inWindow∧(s.alarm a).type.isWakeup →
      base.alarms.toList.any fun b => b≠a∧(s.alarm b).expires≤ stop)
  | .setRtc newTime =>
    let delta := (s.queue .elapsedRealtime).delta-(s.realtime-newTime)
    s.suspension.inWindow=false∧(State.realtimeQueues.all fun type => s.callback type=none)∧
      [AlarmType.elapsedRealtimeWakeup,.elapsedRealtime].all fun type =>
        (s.queue type).alarms.toList.all fun a => 0≤delta+(s.alarm a).softexpires
  | .doSettimeofday success =>
    match s.setting with
    | .stopped newTime _ => success∨newTime=(s.queue .elapsedRealtime).stoppedTime
    | _ => true
  | .suspend => s.setting.isIdle
  | .cancelTwo => (s.queue .systemtime).timer.armed=false
  | .setAlarm xtime rtcNow _ =>
    match s.suspension with
    | .chosen type => xtime-rtcNow*1000000000≤(s.queue type).timer.expires
    | _ => true
  | _ => true

/-- A queue without alarms. -/
def AlarmQueue.empty (delta : ℤ) : AlarmQueue := ⟨.nil,none,⟨false,0,0⟩,delta,false,0⟩

/-- The state after `alarm_late_init`. -/
def alarmLateInit (realtime monotonic : ℤ) (type : ℕ → AlarmType) : State where
  realtime := realtime
  monotonic := monotonic
  alarm a := ⟨type a,0,0⟩
  queue
    | .elapsedRealtimeWakeup | .elapsedRealtime => AlarmQueue.empty (realtime-monotonic)
    | _ => AlarmQueue.empty 0
  callback _ := none
  suspended := false
  setting := .idle
  suspension := .awake
  rtcAlarm := none
  history := []

end ArdroneKernel.AndroidAlarm
