import Mathlib.Algebra.Order.Ring.Int

/-!
# The PWM driver of the OMAP

`drivers/parrot/char/pwm/omap_pwm.c`: each PWM is a timer whose load value gives the frequency
and whose match value gives the width. All PWMs share one mask. What must never be done (a
division by zero, an index past the array, a call on a timer that is not held) is recorded.
-/

namespace ArdroneKernel.Pwm

open Function

def PWM_NB_TIMER : ℕ := 12

def MAX_UINT32 : ℕ := 0xffffffff

def PWM_WIDTH_MAX : ℕ := 10000

def EFAULT : ℤ := 14
def EBUSY : ℤ := 16
def ENODEV : ℤ := 19
def EINVAL : ℤ := 22

/-- `struct s_omap_pwm` -/
structure OmapPwm where
  /-- The timer obtained last, also after it was freed, and `none` for `NULL`. -/
  timer : Option ℕ
  pwmActive : Bool
  /-- Between 0 and `PWM_WIDTH_MAX`. -/
  ratio : ℕ
  /-- In Hz. -/
  freq : ℕ

/-- A timer of `arch/arm/plat-omap/dmtimer.c`. -/
structure DmTimer where
  /-- Obtained and not freed since. -/
  reserved : Bool
  /-- The load value written last. -/
  load : ℕ
  /-- The match value written last. -/
  matched : ℕ

/-- What must never be done. -/
inductive Fault where
  | divideByZero
  /-- An index that `omap_pwm` does not have. -/
  | index
  /-- A call on the timer `NULL`. -/
  | null
  /-- A call on a timer that was freed. -/
  | freed
  deriving DecidableEq

structure Omap where
  omapPwm : ℕ → OmapPwm
  pwmPrecisionMask : ℕ
  timers : ℕ → DmTimer
  /-- The last one first. -/
  faults : List Fault

/-- After `omap_pwm_init`. -/
def init : Omap where
  omapPwm _ := ⟨none,false,0,0⟩
  pwmPrecisionMask := MAX_UINT32
  timers _ := ⟨false,0,0⟩
  faults := []

namespace Omap

def fault (s : Omap) (f : Fault) : Omap := {s with faults := f::s.faults}

/-- `omap_pwm[n]` is used. -/
def index (s : Omap) (n : ℕ) : Omap := if n<PWM_NB_TIMER then s else s.fault .index

def setPwm (s : Omap) (n : ℕ) (p : OmapPwm) : Omap :=
  {s with omapPwm := update s.omapPwm n p}

def setTimer (s : Omap) (k : ℕ) (t : DmTimer) : Omap :=
  {s with timers := update s.timers k t}

/-- A function of the timers' driver is called with `omap_pwm[n].timer`. -/
def call (s : Omap) (n : ℕ) (f : DmTimer → DmTimer) : Omap :=
  match (s.omapPwm n).timer with
  | none => s.fault .null
  | some k =>
    let s' := s.setTimer k (f (s.timers k))
    if (s.timers k).reserved then s' else s'.fault .freed

/-- A division, with what it gives. -/
def divide (s : Omap) (a b : ℕ) : Omap×ℕ :=
  (if b=0 then s.fault .divideByZero else s,a/b)

end Omap

/-! ## The driver -/

def omapPwmIsActive (s : Omap) (n : ℕ) : Bool :=
  if n<PWM_NB_TIMER then (s.omapPwm n).pwmActive else false

/-- What `omap_dm_timer_request_specific` returned is stored. -/
def storeTimer (s : Omap) (n : ℕ) (got : Bool) : Omap :=
  let s := (s.index n).setPwm n {s.omapPwm n with timer := if got then some n else none}
  if got then s.setTimer n {s.timers n with reserved := true} else s

/-- `omap_pwm_set_active`, and whether `omap_dm_timer_request_specific` obtains the timer. -/
def omapPwmSetActive (s : Omap) (n : ℕ) (active got : Bool) : Omap×ℤ :=
  if active then
    let s := storeTimer s n got
    if (s.omapPwm n).timer=none then (s,-ENODEV)
    else
      -- omap_dm_timer_set_pwm
      let s := s.call n id
      let s := s.call n fun t => {t with load := s.pwmPrecisionMask}
      let s := s.call n fun t => {t with matched := s.pwmPrecisionMask}
      -- omap_dm_timer_set_prescaler
      let s := s.call n id
      (s.setPwm n {s.omapPwm n with pwmActive := true},0)
  else
    let s := s.index n
    -- omap_dm_timer_free, if there is a timer
    let s :=
      if (s.omapPwm n).timer=none then s else s.call n fun t => {t with reserved := false}
    (s.setPwm n {s.omapPwm n with pwmActive := false},0)

/-- `compute_ratio`. The product has 64 bits, the result 32. -/
def computeRatio (pwmPrecisionMask ratio : ℕ) : ℕ :=
  if PWM_WIDTH_MAX<ratio then (2^32-EINVAL).toNat
  else
    let val :=
      (ratio*(MAX_UINT32-pwmPrecisionMask)+PWM_WIDTH_MAX/2)/PWM_WIDTH_MAX%2^32
    if val=MAX_UINT32-pwmPrecisionMask∧val≠0 then MAX_UINT32-pwmPrecisionMask-1 else val

/-- `omap_pwm_request`. What `omap_pwm_set_active` returns is dropped. -/
def omapPwmRequest (s : Omap) (timer : ℕ) (got : Bool) : Omap×ℤ :=
  if PWM_NB_TIMER≤timer then (s,-EINVAL)
  else if omapPwmIsActive s timer then (s,-EBUSY)
  else ((omapPwmSetActive s timer true got).1,0)

def omapPwmRelease (s : Omap) (timer : ℕ) : Omap×ℤ :=
  if PWM_NB_TIMER≤timer then (s,-EINVAL)
  else if omapPwmIsActive s timer=false then (s,-EBUSY)
  else ((omapPwmSetActive s timer false false).1,0)

/-- `omap_pwm_start`: enable, start and trigger. -/
def omapPwmStart (s : Omap) (timer : ℕ) : Omap×ℤ :=
  if PWM_NB_TIMER<timer then (s,-EINVAL)
  else ((((s.index timer).call timer id).call timer id).call timer id,0)

/-- `omap_pwm_stop`: stop and disable. -/
def omapPwmStop (s : Omap) (timer : ℕ) : Omap×ℤ :=
  if PWM_NB_TIMER<timer then (s,-EINVAL)
  else (((s.index timer).call timer id).call timer id,0)

def omapPwmSetWidth (s : Omap) (timer ratio : ℕ) : Omap×ℤ :=
  if PWM_NB_TIMER<timer then (s,-EINVAL)
  else if PWM_WIDTH_MAX<ratio then (s,-EINVAL)
  else
    let s := (s.index timer).setPwm timer {s.omapPwm timer with ratio := ratio}
    let value := (s.pwmPrecisionMask+computeRatio s.pwmPrecisionMask ratio)%2^32
    (s.call timer fun t => {t with matched := value},0)

/-- `omap_pwm_get_width`, with an error or what is stored for the caller. -/
def omapPwmGetWidth (s : Omap) (timer : ℕ) : Omap×Except ℤ ℕ :=
  if PWM_NB_TIMER<timer then (s,.error (-EINVAL))
  else
    let (s,currentRatio) :=
      (s.index timer).divide
        (computeRatio s.pwmPrecisionMask (s.omapPwm timer).ratio*PWM_WIDTH_MAX)
        (MAX_UINT32-s.pwmPrecisionMask)
    (s,.ok (currentRatio%2^32))

/-- `omap_pwm_set_freq`, under the rate of the timers' clock. -/
def omapPwmSetFreq (rate : ℕ) (s : Omap) (timer freq : ℕ) : Omap×ℤ :=
  if PWM_NB_TIMER<timer then (s,-EINVAL)
  else
    -- omap_dm_timer_set_source, omap_dm_timer_get_fclk
    let s := ((s.index timer).call timer id).call timer id
    if rate/2≤freq∨freq=0 then (s,-EINVAL)
    else
      let (s,pwmRatio) := s.divide (rate/2) freq
      let (s,pwmSpeed) := s.divide (rate/2) pwmRatio
      let s := s.setPwm timer {s.omapPwm timer with freq := pwmSpeed}
      let s := {s with pwmPrecisionMask := MAX_UINT32-pwmRatio}
      let s := s.call timer fun t => {t with load := s.pwmPrecisionMask}
      let (s,ratio) := omapPwmGetWidth s timer
      -- No error is possible here, the index was checked above.
      ((omapPwmSetWidth s timer (ratio.toOption.getD 0)).1,0)

/-- `omap_pwm_get_freq`, with an error or what is stored for the caller. -/
def omapPwmGetFreq (s : Omap) (timer : ℕ) : Omap×Except ℤ ℕ :=
  if PWM_NB_TIMER<timer then (s,.error (-EINVAL))
  else (s.index timer,.ok (s.omapPwm timer).freq)

/-! ## What the calls change -/

namespace Omap

variable (s : Omap) (n k : ℕ) (p : OmapPwm) (t : DmTimer) (f : DmTimer → DmTimer) (e : Fault)

@[simp] theorem omapPwm_fault : (s.fault e).omapPwm=s.omapPwm := rfl

@[simp] theorem mask_fault : (s.fault e).pwmPrecisionMask=s.pwmPrecisionMask := rfl

@[simp] theorem timers_fault : (s.fault e).timers=s.timers := rfl

@[simp] theorem omapPwm_setPwm :
    (s.setPwm n p).omapPwm=update s.omapPwm n p := rfl

@[simp] theorem mask_setPwm : (s.setPwm n p).pwmPrecisionMask=s.pwmPrecisionMask := rfl

@[simp] theorem timers_setPwm : (s.setPwm n p).timers=s.timers := rfl

@[simp] theorem faults_setPwm : (s.setPwm n p).faults=s.faults := rfl

@[simp] theorem omapPwm_setTimer : (s.setTimer k t).omapPwm=s.omapPwm := rfl

@[simp] theorem mask_setTimer : (s.setTimer k t).pwmPrecisionMask=s.pwmPrecisionMask := rfl

@[simp] theorem timers_setTimer :
    (s.setTimer k t).timers=update s.timers k t := rfl

@[simp] theorem faults_setTimer : (s.setTimer k t).faults=s.faults := rfl

@[simp] theorem omapPwm_index : (s.index n).omapPwm=s.omapPwm := by
  unfold index
  split <;> rfl

@[simp] theorem mask_index : (s.index n).pwmPrecisionMask=s.pwmPrecisionMask := by
  unfold index
  split <;> rfl

@[simp] theorem timers_index : (s.index n).timers=s.timers := by
  unfold index
  split <;> rfl

@[simp] theorem omapPwm_divide (a b : ℕ) : (s.divide a b).1.omapPwm=s.omapPwm := by
  unfold divide
  split <;> rfl

@[simp] theorem mask_divide (a b : ℕ) :
    (s.divide a b).1.pwmPrecisionMask=s.pwmPrecisionMask := by
  unfold divide
  split <;> rfl

@[simp] theorem timers_divide (a b : ℕ) : (s.divide a b).1.timers=s.timers := by
  unfold divide
  split <;> rfl

@[simp] theorem divide_quotient (a b : ℕ) : (s.divide a b).2=a/b := rfl

@[simp] theorem omapPwm_call : (s.call n f).omapPwm=s.omapPwm := by
  unfold call
  split
  · rfl
  · dsimp only
    split <;> rfl

@[simp] theorem mask_call : (s.call n f).pwmPrecisionMask=s.pwmPrecisionMask := by
  unfold call
  split
  · rfl
  · dsimp only
    split <;> rfl

variable {s n k f e}

theorem timers_call (h : (s.omapPwm n).timer=some k) :
    (s.call n f).timers=update s.timers k (f (s.timers k)) := by
  unfold call
  rw [h]
  dsimp only
  split <;> rfl

/-- A call that leaves the timer as it is. -/
@[simp] theorem timers_call_id : (s.call n id).timers=s.timers := by
  cases h : (s.omapPwm n).timer with
  | none =>
    unfold call
    rw [h]
    rfl
  | some k => rw [timers_call h,id_eq,update_eq_self]

/-- What was recorded stays recorded. -/
theorem mem_call (h : e∈s.faults) : e∈(s.call n f).faults := by
  unfold call
  split
  · exact List.mem_cons_of_mem _ h
  · split
    · exact h
    · exact List.mem_cons_of_mem _ h

theorem mem_divide (h : e∈s.faults) (a b : ℕ) : e∈(s.divide a b).1.faults := by
  unfold divide
  split
  · exact List.mem_cons_of_mem _ h
  · exact h

theorem mem_index (h : e∈s.faults) : e∈(s.index n).faults := by
  unfold index
  split
  · exact h
  · exact List.mem_cons_of_mem _ h

/-- A call on the timer `NULL` is recorded. -/
theorem null_call (h : (s.omapPwm n).timer=none) : Fault.null∈(s.call n f).faults := by
  unfold call
  rw [h]
  exact List.mem_cons_self

/-! Nothing is recorded of an access that is allowed. -/

theorem index_faults (h : n<PWM_NB_TIMER) : (s.index n).faults=s.faults := by
  unfold index
  rw [if_pos h]

theorem divide_faults (a : ℕ) {b : ℕ} (h : b≠0) : (s.divide a b).1.faults=s.faults := by
  unfold divide
  rw [if_neg h]

theorem call_faults (h : (s.omapPwm n).timer=some k) (hres : (s.timers k).reserved=true) :
    (s.call n f).faults=s.faults := by
  unfold call
  rw [h]
  dsimp only
  rw [if_pos hres]
  rfl

end Omap

/-! ## What the functions change -/

/-- The width that is read back of a stored ratio. -/
def readWidth (pwmPrecisionMask ratio : ℕ) : ℕ :=
  computeRatio pwmPrecisionMask ratio*PWM_WIDTH_MAX/(MAX_UINT32-pwmPrecisionMask)%2^32

/-- The match value for a ratio. -/
def matchValue (pwmPrecisionMask ratio : ℕ) : ℕ :=
  (pwmPrecisionMask+computeRatio pwmPrecisionMask ratio)%2^32

variable {s : Omap} {timer ratio freq rate k : ℕ} {e : Fault}

theorem getWidth_value (ht : timer<PWM_NB_TIMER) :
    (omapPwmGetWidth s timer).2=
      .ok (readWidth s.pwmPrecisionMask (s.omapPwm timer).ratio) := by
  unfold omapPwmGetWidth
  rw [if_neg (Nat.lt_asymm ht)]
  rfl

theorem getFreq_value (ht : timer<PWM_NB_TIMER) :
    (omapPwmGetFreq s timer).2=.ok (s.omapPwm timer).freq := by
  unfold omapPwmGetFreq
  rw [if_neg (Nat.lt_asymm ht)]

/-- What a PWM and its timer become, nothing else changes. -/
structure Changed (s s' : Omap) (n k mask : ℕ) (p : OmapPwm) (t : DmTimer) : Prop where
  omapPwm : s'.omapPwm=update s.omapPwm n p
  mask : s'.pwmPrecisionMask=mask
  timers : s'.timers=update s.timers k t

theorem setWidth_changed (ht : timer<PWM_NB_TIMER) (hr : ratio≤PWM_WIDTH_MAX)
    (hk : (s.omapPwm timer).timer=some k) :
    Changed s (omapPwmSetWidth s timer ratio).1 timer k s.pwmPrecisionMask
      {s.omapPwm timer with ratio := ratio}
      {s.timers k with matched := matchValue s.pwmPrecisionMask ratio} := by
  unfold omapPwmSetWidth
  rw [if_neg (Nat.lt_asymm ht),if_neg (Nat.not_lt.mpr hr)]
  refine ⟨?_,?_,?_⟩
  · simp only [Omap.omapPwm_call,Omap.omapPwm_setPwm,Omap.omapPwm_index]
  · simp only [Omap.mask_call,Omap.mask_setPwm,Omap.mask_index]
  · rw [Omap.timers_call (k := k) (by simpa using hk)]
    simp only [Omap.timers_setPwm,Omap.timers_index,Omap.mask_setPwm,Omap.mask_index]
    rfl

theorem setWidth_null (ht : timer<PWM_NB_TIMER) (hr : ratio≤PWM_WIDTH_MAX)
    (hk : (s.omapPwm timer).timer=none) :
    Fault.null∈(omapPwmSetWidth s timer ratio).1.faults := by
  unfold omapPwmSetWidth
  rw [if_neg (Nat.lt_asymm ht),if_neg (Nat.not_lt.mpr hr)]
  exact Omap.null_call (by simpa using hk)

theorem setWidth_refused (ht : timer<PWM_NB_TIMER) (hr : PWM_WIDTH_MAX<ratio) :
    omapPwmSetWidth s timer ratio=(s,-EINVAL) := by
  unfold omapPwmSetWidth
  rw [if_neg (Nat.lt_asymm ht),if_pos hr]

theorem setWidth_returns (ht : timer<PWM_NB_TIMER) (hr : ratio≤PWM_WIDTH_MAX) :
    (omapPwmSetWidth s timer ratio).2=0 := by
  unfold omapPwmSetWidth
  rw [if_neg (Nat.lt_asymm ht),if_neg (Nat.not_lt.mpr hr)]

theorem setWidth_mem (h : e∈s.faults) : e∈(omapPwmSetWidth s timer ratio).1.faults := by
  unfold omapPwmSetWidth
  split
  · exact h
  · split
    · exact h
    · exact Omap.mem_call (Omap.mem_index h)

theorem getWidth_mem (h : e∈s.faults) : e∈(omapPwmGetWidth s timer).1.faults := by
  unfold omapPwmGetWidth
  split
  · exact h
  · exact Omap.mem_divide (Omap.mem_index h)
      (computeRatio s.pwmPrecisionMask (s.omapPwm timer).ratio*PWM_WIDTH_MAX)
      (MAX_UINT32-s.pwmPrecisionMask)

theorem getWidth_fields (s : Omap) (timer : ℕ) :
    (omapPwmGetWidth s timer).1.omapPwm=s.omapPwm∧
      (omapPwmGetWidth s timer).1.pwmPrecisionMask=s.pwmPrecisionMask∧
      (omapPwmGetWidth s timer).1.timers=s.timers := by
  unfold omapPwmGetWidth
  split
  · exact ⟨rfl,rfl,rfl⟩
  · exact ⟨by simp,by simp,by simp⟩

/-- The state in which `omap_pwm_set_freq` sets the width again. -/
def freqSet (rate : ℕ) (s : Omap) (timer freq : ℕ) : Omap :=
  let n := rate/2/freq
  let s := ((s.index timer).call timer id).call timer id
  let s := (s.divide (rate/2) freq).1
  let s := (s.divide (rate/2) n).1
  let s := s.setPwm timer {s.omapPwm timer with freq := rate/2/n}
  let s := {s with pwmPrecisionMask := MAX_UINT32-n}
  s.call timer fun t => {t with load := s.pwmPrecisionMask}

theorem freqSet_omapPwm (rate : ℕ) (s : Omap) (timer freq : ℕ) :
    (freqSet rate s timer freq).omapPwm=
      update s.omapPwm timer
        {s.omapPwm timer with freq := rate/2/(rate/2/freq)} := by
  simp [freqSet]

theorem freqSet_mask (rate : ℕ) (s : Omap) (timer freq : ℕ) :
    (freqSet rate s timer freq).pwmPrecisionMask=MAX_UINT32-rate/2/freq := by
  simp [freqSet]

theorem freqSet_timers (hk : (s.omapPwm timer).timer=some k) :
    (freqSet rate s timer freq).timers=
      update s.timers k
        {s.timers k with load := MAX_UINT32-rate/2/freq} := by
  unfold freqSet
  rw [Omap.timers_call (k := k) (by simpa using hk)]
  simp

theorem setFreq_eq (ht : timer<PWM_NB_TIMER) (hf : freq≠0) (hlt : freq<rate/2) :
    omapPwmSetFreq rate s timer freq=
      ((omapPwmSetWidth (omapPwmGetWidth (freqSet rate s timer freq) timer).1 timer
        (readWidth (MAX_UINT32-rate/2/freq) (s.omapPwm timer).ratio)).1,0) := by
  have haccepted : ¬(rate/2≤freq∨freq=0) := by
    rintro (h|h)
    · exact absurd hlt (Nat.not_lt.mpr h)
    · exact hf h
  have hread : (omapPwmGetWidth (freqSet rate s timer freq) timer).2.toOption.getD 0=
      readWidth (MAX_UINT32-rate/2/freq) (s.omapPwm timer).ratio := by
    rw [getWidth_value ht,freqSet_mask,freqSet_omapPwm,update_self]
    rfl
  rw [← hread]
  unfold omapPwmSetFreq
  rw [if_neg (Nat.lt_asymm ht)]
  rw [if_neg haccepted]
  rfl

/-- A timer that was obtained gets the mask as its load and match values. -/
theorem setActive_obtained (s : Omap) (n : ℕ) :
    Changed s (omapPwmSetActive s n true true).1 n n s.pwmPrecisionMask
      {s.omapPwm n with timer := some n,pwmActive := true}
      ⟨true,s.pwmPrecisionMask,s.pwmPrecisionMask⟩ := by
  unfold omapPwmSetActive
  rw [if_pos rfl]
  have htimer : ((storeTimer s n true).omapPwm n).timer=some n := by
    simp [storeTimer]
  rw [if_neg (by rw [htimer]; nofun)]
  refine ⟨?_,?_,?_⟩
  · simp [storeTimer]
  · simp [storeTimer]
  · rw [Omap.timers_setPwm,Omap.timers_call_id,
      Omap.timers_call (k := n) (by simpa using htimer),
      Omap.timers_call (k := n) (by simpa using htimer),Omap.timers_call_id]
    simp [storeTimer]

theorem setActive_missing (s : Omap) (n : ℕ) :
    (omapPwmSetActive s n true false).1=
      (s.index n).setPwm n {s.omapPwm n with timer := none} := by
  unfold omapPwmSetActive
  have htimer : ((storeTimer s n false).omapPwm n).timer=none := by
    simp [storeTimer]
  rw [if_pos htimer]
  rfl

theorem setActive_freed (hk : (s.omapPwm timer).timer=some k) (got : Bool) :
    Changed s (omapPwmSetActive s timer false got).1 timer k s.pwmPrecisionMask
      {s.omapPwm timer with pwmActive := false} {s.timers k with reserved := false} := by
  unfold omapPwmSetActive
  rw [if_neg (by nofun)]
  dsimp only
  rw [if_neg (by rw [Omap.omapPwm_index,hk]; nofun)]
  refine ⟨?_,?_,?_⟩
  · simp
  · simp
  · rw [Omap.timers_setPwm,Omap.timers_call (k := k) (by simpa using hk)]
    simp

theorem setActive_nothing (hk : (s.omapPwm timer).timer=none) (got : Bool) :
    (omapPwmSetActive s timer false got).1=
      (s.index timer).setPwm timer {s.omapPwm timer with pwmActive := false} := by
  unfold omapPwmSetActive
  rw [if_neg (by nofun)]
  dsimp only
  rw [if_pos (by rwa [Omap.omapPwm_index]),Omap.omapPwm_index]

/-- A frequency that is refused changes nothing. -/
theorem setFreq_refused (ht : timer<PWM_NB_TIMER) (h : rate/2≤freq∨freq=0) :
    omapPwmSetFreq rate s timer freq=
      (((s.index timer).call timer id).call timer id,-EINVAL) := by
  unfold omapPwmSetFreq
  rw [if_neg (Nat.lt_asymm ht)]
  rw [if_pos h]

theorem setFreq_null (ht : timer<PWM_NB_TIMER) (hk : (s.omapPwm timer).timer=none) :
    Fault.null∈(omapPwmSetFreq rate s timer freq).1.faults := by
  have hcall : Fault.null∈((s.index timer).call timer id).faults :=
    Omap.null_call (by simpa using hk)
  by_cases h : rate/2≤freq∨freq=0
  · rw [setFreq_refused ht h]
    exact Omap.mem_call hcall
  · have ⟨hlt,hf⟩ := not_or.mp h
    rw [setFreq_eq ht hf (Nat.lt_of_not_le hlt)]
    apply setWidth_mem
    apply getWidth_mem
    apply Omap.mem_call
    exact Omap.mem_divide (Omap.mem_divide (Omap.mem_call hcall) _ _) _ _

end ArdroneKernel.Pwm
