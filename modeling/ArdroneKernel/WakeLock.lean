import ArdroneKernel.Execution
import Mathlib.Data.Int.ModEq

/-!
# Wake locks

Executable model of `kernel/power/wakelock.c`: the lists of locks, the timer
that expires them and the work that suspends the system. Jiffies are counted
without a bound; what the code reads of them is the difference of two counts
as a `long`. An operation that would reach a `BUG_ON`, or would take a lock
off a list it is not on, has no result.
-/

namespace ArdroneKernel.WakeLock

/-- The number of values of an `unsigned long`. -/
def ULONG_SIZE : ℕ := 2^32

/-- `LONG_MAX`. -/
def LONG_MAX : ℤ := 2^31-1

def WAKE_LOCK_SUSPEND : ℕ := 0

def WAKE_LOCK_IDLE : ℕ := 1

def WAKE_LOCK_TYPE_COUNT : ℕ := 2

def WAKE_LOCK_TYPE_MASK : ℕ := 0x0f

/-- `struct wake_lock`, its flags one by one. -/
structure Lock where
  /-- `flags & WAKE_LOCK_TYPE_MASK`. -/
  type : ℕ := 0
  /-- `WAKE_LOCK_INITIALIZED`. -/
  initialized : Bool := false
  /-- `WAKE_LOCK_ACTIVE`. -/
  active : Bool := false
  /-- `WAKE_LOCK_AUTO_EXPIRE`. -/
  autoExpire : Bool := false
  /-- `expires`. -/
  expires : ℤ := 0
  deriving DecidableEq

/-- The state of the wake locks. -/
structure State where
  /-- The locks by their addresses. -/
  locks : ℕ → Lock
  /-- `inactive_locks`. -/
  inactiveLocks : List ℕ
  /-- `active_wake_locks`. -/
  activeWakeLocks : ℕ → List ℕ
  /-- `jiffies`. -/
  jiffies : ℤ
  /-- When `expire_timer` goes off, if it is pending. -/
  expireTimer : Option ℤ
  /-- `suspend_work` has been queued since an active lock that prevents suspend
  was last released, expired or destroyed. -/
  queued : Bool

namespace State

variable (s : State)

/-- Other contents of a lock. -/
def setLock (l : ℕ) (lock : Lock) : State :=
  { s with locks := Function.update s.locks l lock }

/-- `list_del`, from the list the lock is on. -/
def listDel (l : ℕ) : State :=
  { s with
    inactiveLocks := s.inactiveLocks.erase l
    activeWakeLocks := fun type => (s.activeWakeLocks type).erase l }

/-- `list_add` to `inactive_locks`. -/
def addInactive (l : ℕ) : State := { s with inactiveLocks := l::s.inactiveLocks }

/-- `list_add` to an active list. -/
def addActive (type l : ℕ) : State :=
  { s with
    activeWakeLocks := Function.update s.activeWakeLocks type (l::s.activeWakeLocks type) }

/-- `list_add_tail` to an active list. -/
def addActiveTail (type l : ℕ) : State :=
  { s with
    activeWakeLocks := Function.update s.activeWakeLocks type (s.activeWakeLocks type++[l]) }

/-- A lock ceases to be active. -/
def ended (l : ℕ) : State :=
  { s with
    queued := s.queued && !((s.locks l).active && (s.locks l).type==WAKE_LOCK_SUSPEND) }

/-- `queue_work`, or `mod_timer` and `del_timer` after the locks were looked through. -/
def arm (hasLock : ℤ) : State :=
  if 0<hasLock then { s with expireTimer := some (s.jiffies+hasLock) }
  else { s with expireTimer := none, queued := s.queued || hasLock==0 }

/-- `(long)(lock->expires - jiffies)` -/
def timeout (l : ℕ) : ℤ := ((s.locks l).expires-s.jiffies).bmod ULONG_SIZE

end State

/-- `wake_lock_init` -/
def wakeLockInit (s : State) (l type : ℕ) : Option State :=
  if (s.locks l).initialized then none
  else some ((s.setLock l
    { s.locks l with
      type := type&&&WAKE_LOCK_TYPE_MASK, initialized := true
      active := false, autoExpire := false }).addInactive l)

/-- `wake_lock_destroy` -/
def wakeLockDestroy (s : State) (l : ℕ) : Option State :=
  if (s.locks l).initialized then
    some (((s.ended l).setLock l { s.locks l with initialized := false }).listDel l)
  else none

/-- What `expire_wake_lock` and `wake_unlock` do to a lock and its list. -/
def deactivate (s : State) (l : ℕ) : State :=
  (((s.ended l).setLock l { s.locks l with active := false, autoExpire := false }).listDel
    l).addInactive l

/-- `expire_wake_lock` -/
def expireWakeLock (s : State) (l : ℕ) : State := deactivate s l

/-- The loop of `has_wake_lock_locked`. -/
def hasWakeLockLoop : List ℕ → ℤ → State → ℤ×State
  | [], maxTimeout, s => (maxTimeout,s)
  | l::ls, maxTimeout, s =>
    if (s.locks l).autoExpire then
      let timeout := s.timeout l
      if timeout≤0 then hasWakeLockLoop ls maxTimeout (expireWakeLock s l)
      else if timeout>maxTimeout then hasWakeLockLoop ls timeout s
      else hasWakeLockLoop ls maxTimeout s
    else (-1,s)

/-- `has_wake_lock_locked` -/
def hasWakeLockLocked (s : State) (type : ℕ) : ℤ×State :=
  hasWakeLockLoop (s.activeWakeLocks type) 0 s

/-- `expire_wake_locks`, when the timer goes off. -/
def expireWakeLocks (s : State) : State :=
  let (hasLock,s) := hasWakeLockLocked { s with expireTimer := none } WAKE_LOCK_SUSPEND
  if hasLock=0 then { s with queued := true } else s

/-- `wake_lock_internal`, with a timeout or without one. -/
def wakeLockInternal (s : State) (l : ℕ) (timeout : Option ℤ) : Option State :=
  let lock := s.locks l
  if WAKE_LOCK_TYPE_COUNT≤lock.type∨¬lock.initialized then none
  else
    let s := s.listDel l
    match timeout with
    | some timeout =>
      let s := (s.setLock l
        { lock with
          active := true, autoExpire := true
          expires := s.jiffies+timeout }).addActiveTail lock.type l
      if lock.type=WAKE_LOCK_SUSPEND then
        let (expireIn,s) := hasWakeLockLocked s lock.type
        some (s.arm expireIn)
      else some s
    | none =>
      let s := (s.setLock l
        { lock with
          active := true, autoExpire := false
          expires := LONG_MAX }).addActive lock.type l
      if lock.type=WAKE_LOCK_SUSPEND then some (s.arm (-1)) else some s

/-- `wake_unlock` -/
def wakeUnlock (s : State) (l : ℕ) : Option State :=
  if (s.locks l).initialized then
    let type := (s.locks l).type
    let s := deactivate s l
    if type=WAKE_LOCK_SUSPEND then
      let (hasLock,s) := hasWakeLockLocked s type
      some (s.arm hasLock)
    else some s
  else none

/-! ## Operations -/

/-- What happens to wake locks. -/
inductive Op where
  /-- `wake_lock_init` -/
  | init (l type : ℕ)
  /-- `wake_lock` -/
  | lock (l : ℕ)
  /-- `wake_lock_timeout` -/
  | lockTimeout (l : ℕ) (timeout : ℤ)
  /-- `wake_unlock` -/
  | unlock (l : ℕ)
  /-- `wake_lock_destroy` -/
  | destroy (l : ℕ)
  /-- `expire_timer` goes off. -/
  | expire
  /-- Time passes. -/
  | pass (ticks : ℕ)

/-- Timeouts are values of a `long` below `LONG_MAX`, and the timer goes off
when it is due. -/
def step (s : State) : Op → Option State
  | .init l type => wakeLockInit s l type
  | .lock l => wakeLockInternal s l none
  | .lockTimeout l timeout =>
    if -LONG_MAX-1≤timeout∧timeout<LONG_MAX then wakeLockInternal s l (some timeout) else none
  | .unlock l => wakeUnlock s l
  | .destroy l => wakeLockDestroy s l
  | .expire =>
    match s.expireTimer with
    | some t => if t≤ s.jiffies then some (expireWakeLocks s) else none
    | none => none
  | .pass ticks => some { s with jiffies := s.jiffies+ticks }

/-- The address of `main_wake_lock`. -/
def mainWakeLock : ℕ := 0

/-- The address of `unknown_wakeup`. -/
def unknownWakeup : ℕ := 1

/-- The state after `wakelocks_init`, at a time. -/
def wakelocksInit (jiffies : ℤ) : Option State :=
  let s : State := ⟨fun _ => {},[],fun _ => [],jiffies,none,false⟩
  (wakeLockInit s mainWakeLock WAKE_LOCK_SUSPEND).bind fun s =>
    (wakeLockInternal s mainWakeLock none).bind fun s =>
      wakeLockInit s unknownWakeup WAKE_LOCK_SUSPEND

end ArdroneKernel.WakeLock
