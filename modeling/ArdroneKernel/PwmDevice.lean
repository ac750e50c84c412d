import ArdroneKernel.Execution
import ArdroneKernel.OmapPwm

/-!
# The PWM device

`drivers/parrot/char/pwm/pwm.c`: an open file may hold one PWM. The files are numbered, a file
that is open has the number of the PWM it holds, or `PWM_ID_NONE`.
-/

namespace ArdroneKernel.Pwm

open Execution Function

def PWM_ID_NONE : ℕ := 0xffffffff

/-- The commands, with what the user passes. -/
inductive Ioctl where
  | request (pwm : ℕ)
  | release (pwm : ℕ)
  | start
  | stop
  | setFreq (freq : ℕ)
  | getFreq
  | setWidth (width : ℕ)
  | getWidth
  deriving DecidableEq

/-- What happens outside of the driver during a call. -/
structure Outcome where
  /-- The user copy, if there is one, succeeds. -/
  copied : Bool
  /-- `omap_dm_timer_request_specific` obtains the timer. -/
  obtained : Bool
  /-- The rate of the timers' clock. -/
  rate : ℕ

/-- The driver, and the PWM of one file after a call, with what the call returns. -/
structure Answer where
  omap : Omap
  idUsed : ℕ
  ret : ℤ

def ioctlPwmRequest (s : Omap) (idUsed id : ℕ) (obtained : Bool) : Answer :=
  if idUsed≠PWM_ID_NONE then ⟨s,idUsed,-EBUSY⟩
  else
    let (s,err) := omapPwmRequest s id obtained
    if err≠0 then ⟨s,idUsed,-EBUSY⟩ else ⟨s,id,err⟩

/-- `ioctl_pwm_release`. What `pwm_release` of the driver returns is dropped. -/
def ioctlPwmRelease (s : Omap) (idUsed id : ℕ) : Answer :=
  if idUsed≠id then ⟨s,idUsed,-EINVAL⟩ else ⟨(omapPwmRelease s id).1,PWM_ID_NONE,0⟩

/-- `ioctl_pwm_start`, `ioctl_pwm_stop`, `ioctl_pwm_set_freq` and `ioctl_pwm_set_width`, by the
function of the driver. -/
def ioctlPwmSet (s : Omap) (idUsed : ℕ) (op : Omap → ℕ → Omap×ℤ) : Answer :=
  if idUsed=PWM_ID_NONE then ⟨s,idUsed,-EINVAL⟩
  else
    let (s,err) := op s idUsed
    ⟨s,idUsed,err⟩

/-- `ioctl_pwm_get_freq` and `ioctl_pwm_get_width`, and the copy to the user that follows. -/
def ioctlPwmGet (s : Omap) (idUsed : ℕ) (op : Omap → ℕ → Omap×Except ℤ ℕ) (copied : Bool) :
    Answer :=
  let r := if idUsed=PWM_ID_NONE then (s,.error (-EINVAL)) else op s idUsed
  let err := match r.2 with
    | .ok _ => 0
    | .error err => err
  ⟨r.1,idUsed,if copied then err else -EFAULT⟩

/-- `pwm_ioctl`. A copy from the user that fails leaves a zero. For `PWM_REQUEST` and
`PWM_RELEASE` its error is overwritten. -/
def pwmIoctl (s : Omap) (idUsed : ℕ) (cmd : Ioctl) (o : Outcome) : Answer :=
  match cmd with
  | .request pwm => ioctlPwmRequest s idUsed (if o.copied then pwm else 0) o.obtained
  | .release pwm => ioctlPwmRelease s idUsed (if o.copied then pwm else 0)
  | .start => ioctlPwmSet s idUsed omapPwmStart
  | .stop => ioctlPwmSet s idUsed omapPwmStop
  | .setFreq freq =>
    if o.copied then ioctlPwmSet s idUsed (omapPwmSetFreq o.rate · · freq)
    else ⟨s,idUsed,-EFAULT⟩
  | .setWidth width =>
    if o.copied then ioctlPwmSet s idUsed (omapPwmSetWidth · · width)
    else ⟨s,idUsed,-EFAULT⟩
  | .getFreq => ioctlPwmGet s idUsed omapPwmGetFreq o.copied
  | .getWidth => ioctlPwmGet s idUsed omapPwmGetWidth o.copied

/-- `pwm_release`, when a file is closed. -/
def pwmRelease (s : Omap) (idUsed : ℕ) : Omap :=
  if idUsed≠PWM_ID_NONE then (ioctlPwmRelease s idUsed idUsed).omap else s

/-! ## Open files -/

structure Device where
  omap : Omap
  /-- `id_used` of the files that are open. -/
  files : ℕ → Option ℕ

inductive DeviceEvent where
  /-- A file that is not in use is opened. -/
  | opened (file : ℕ)
  | ioctl (file : ℕ) (cmd : Ioctl) (o : Outcome)
  | closed (file : ℕ)

namespace Device

def start : Device := ⟨init,fun _ => none⟩

/-- An event, with what the call returns. -/
def call (d : Device) : DeviceEvent → Option (Device×ℤ)
  | .opened file =>
    if d.files file=none then
      some ({d with files := update d.files file (some PWM_ID_NONE)},0)
    else none
  | .ioctl file cmd o =>
    (d.files file).map fun idUsed =>
      let r := pwmIoctl d.omap idUsed cmd o
      (⟨r.omap,update d.files file (some r.idUsed)⟩,r.ret)
  | .closed file =>
    (d.files file).map fun idUsed =>
      (⟨pwmRelease d.omap idUsed,update d.files file none⟩,0)

def step (d : Device) (e : DeviceEvent) : Option Device := (d.call e).map Prod.fst

/-! ## What is safe -/

/-- Nothing forbidden was done, and the driver agrees with the files on who holds what. -/
structure Safe (d : Device) : Prop where
  faults : d.omap.faults=[]
  exclusive : ∀ a b i,d.files a=some i → d.files b=some i → i≠PWM_ID_NONE → a=b
  active : ∀ i,(d.omap.omapPwm i).pwmActive=true↔i≠PWM_ID_NONE∧∃ a,d.files a=some i

/-- A file holds a PWM, whose timer is obtained. -/
def Holds (d : Device) (file i : ℕ) : Prop :=
  d.files file=some i∧
    ∃ k,(d.omap.omapPwm i).timer=some k∧(d.omap.timers k).reserved=true

/-- A call tells the truth: a request that returns zero has the timer, a user copy that fails
changes nothing. -/
def Truthful (d : Device) (e : DeviceEvent) (d' : Device) (ret : ℤ) : Prop :=
  match e with
  | .ioctl file cmd o =>
    (∀ pwm,cmd=.request pwm → ret=0 → d'.Holds file pwm)∧
      (o.copied=false → cmd≠.start → cmd≠.stop → d'=d)
  | _ => True

/-- A request that reaches the timers is copied and obtains the timer, a failed copy does not
release PWM 0, and a width is read only after some frequency was set. -/
def Careful (d : Device) : DeviceEvent → Prop
  | .ioctl file cmd o => ∀ idUsed∈d.files file,
    match cmd with
    | .request pwm =>
      let id := if o.copied then pwm else 0
      idUsed=PWM_ID_NONE∧id<PWM_NB_TIMER∧(d.omap.omapPwm id).pwmActive=false →
        o.copied=true∧o.obtained=true
    | .release _ => o.copied=true∨idUsed≠0
    | .getWidth => idUsed=PWM_ID_NONE∨d.omap.pwmPrecisionMask≠MAX_UINT32
    | _ => True
  | _ => True

end Device

/-! ## Calls on a PWM that is held -/

/-- A PWM whose timer is its own, and obtained. -/
structure Ready (s : Omap) (n : ℕ) : Prop where
  lt : n<PWM_NB_TIMER
  timer : (s.omapPwm n).timer=some n
  reserved : (s.timers n).reserved=true

/-- Nothing forbidden is done, and who holds which timer stays as it is. -/
structure Kept (s s' : Omap) : Prop where
  faults : s'.faults=s.faults
  timer : ∀ n,(s'.omapPwm n).timer=(s.omapPwm n).timer
  active : ∀ n,(s'.omapPwm n).pwmActive=(s.omapPwm n).pwmActive
  reserved : ∀ k,(s'.timers k).reserved=(s.timers k).reserved
  mask : s.pwmPrecisionMask≤MAX_UINT32 → s'.pwmPrecisionMask≤MAX_UINT32

variable {s s' s'' : Omap} {n : ℕ}

namespace Kept

theorem refl (s : Omap) : Kept s s := ⟨rfl,fun _ => rfl,fun _ => rfl,fun _ => rfl,id⟩

theorem trans (h : Kept s s') (h' : Kept s' s'') : Kept s s'' where
  faults := h'.faults.trans h.faults
  timer n := (h'.timer n).trans (h.timer n)
  active n := (h'.active n).trans (h.active n)
  reserved k := (h'.reserved k).trans (h.reserved k)
  mask hle := h'.mask (h.mask hle)

theorem ready (h : Kept s s') (ready : Ready s n) : Ready s' n where
  lt := ready.lt
  timer := (h.timer n).trans ready.timer
  reserved := (h.reserved n).trans ready.reserved

theorem setPwm (s : Omap) {p : OmapPwm} (ht : p.timer=(s.omapPwm n).timer)
    (ha : p.pwmActive=(s.omapPwm n).pwmActive) : Kept s (s.setPwm n p) where
  faults := rfl
  timer m := by
    rw [Omap.omapPwm_setPwm]
    by_cases hm : m=n
    · rw [hm,update_self,ht]
    · rw [update_of_ne hm]
  active m := by
    rw [Omap.omapPwm_setPwm]
    by_cases hm : m=n
    · rw [hm,update_self,ha]
    · rw [update_of_ne hm]
  reserved _ := rfl
  mask := id

theorem setMask (s : Omap) (n : ℕ) : Kept s {s with pwmPrecisionMask := MAX_UINT32-n} :=
  ⟨rfl,fun _ => rfl,fun _ => rfl,fun _ => rfl,fun _ => Nat.sub_le _ _⟩

theorem divide (s : Omap) (a : ℕ) {b : ℕ} (hb : b≠0) : Kept s (s.divide a b).1 where
  faults := Omap.divide_faults a hb
  timer _ := by rw [Omap.omapPwm_divide]
  active _ := by rw [Omap.omapPwm_divide]
  reserved _ := by rw [Omap.timers_divide]
  mask hle := by rwa [Omap.mask_divide]

end Kept

namespace Ready

theorem index (ready : Ready s n) : Kept s (s.index n) where
  faults := Omap.index_faults ready.lt
  timer _ := by rw [Omap.omapPwm_index]
  active _ := by rw [Omap.omapPwm_index]
  reserved _ := by rw [Omap.timers_index]
  mask hle := by rwa [Omap.mask_index]

theorem call (ready : Ready s n) {f : DmTimer → DmTimer}
    (hf : ∀ t,(f t).reserved=t.reserved) : Kept s (s.call n f) where
  faults := Omap.call_faults ready.timer ready.reserved
  timer _ := by rw [Omap.omapPwm_call]
  active _ := by rw [Omap.omapPwm_call]
  reserved k := by
    rw [Omap.timers_call ready.timer]
    by_cases hk : k=n
    · rw [hk,update_self,hf]
    · rw [update_of_ne hk]
  mask hle := by rwa [Omap.mask_call]

theorem start (ready : Ready s n) : Kept s (omapPwmStart s n).1 := by
  unfold omapPwmStart
  rw [if_neg (Nat.lt_asymm ready.lt)]
  have h1 := ready.index
  have h2 := h1.trans ((h1.ready ready).call (f := id) fun _ => rfl)
  have h3 := h2.trans ((h2.ready ready).call (f := id) fun _ => rfl)
  exact h3.trans ((h3.ready ready).call (f := id) fun _ => rfl)

theorem stop (ready : Ready s n) : Kept s (omapPwmStop s n).1 := by
  unfold omapPwmStop
  rw [if_neg (Nat.lt_asymm ready.lt)]
  have h1 := ready.index
  have h2 := h1.trans ((h1.ready ready).call (f := id) fun _ => rfl)
  exact h2.trans ((h2.ready ready).call (f := id) fun _ => rfl)

theorem setWidth (ready : Ready s n) (ratio : ℕ) : Kept s (omapPwmSetWidth s n ratio).1 := by
  unfold omapPwmSetWidth
  rw [if_neg (Nat.lt_asymm ready.lt)]
  split
  · exact Kept.refl s
  · have h1 := ready.index
    have h2 := h1.trans (Kept.setPwm (n := n) (s.index n)
      (p := {s.omapPwm n with ratio := ratio}) (by rw [Omap.omapPwm_index])
      (by rw [Omap.omapPwm_index]))
    dsimp only
    exact h2.trans ((h2.ready ready).call fun _ => rfl)

/-- Reading changes nothing. -/
theorem getFreq (ready : Ready s n) : (omapPwmGetFreq s n).1=s := by
  unfold omapPwmGetFreq
  rw [if_neg (Nat.lt_asymm ready.lt)]
  exact if_pos ready.lt

theorem getWidth (ready : Ready s n) (h : MAX_UINT32-s.pwmPrecisionMask≠0) :
    (omapPwmGetWidth s n).1=s := by
  have hindex : s.index n=s := if_pos ready.lt
  unfold omapPwmGetWidth
  rw [if_neg (Nat.lt_asymm ready.lt),hindex]
  exact if_neg h

/-- The state in which `omap_pwm_set_freq` sets the width again. -/
theorem freqSet (ready : Ready s n) {rate freq : ℕ} (hf : freq≠0) (hlt : freq<rate/2) :
    Kept s (freqSet rate s n freq) := by
  have hn : rate/2/freq≠0 :=
    Nat.ne_of_gt (Nat.div_pos (Nat.le_of_lt hlt) (Nat.pos_of_ne_zero hf))
  have h1 := ready.index
  have h2 := h1.trans ((h1.ready ready).call (f := id) fun _ => rfl)
  have h3 := h2.trans ((h2.ready ready).call (f := id) fun _ => rfl)
  have h4 := h3.trans (Kept.divide _ (rate/2) hf)
  have h5 := h4.trans (Kept.divide _ (rate/2) hn)
  have h6 := h5.trans (Kept.setPwm (n := n) _
    (p := {s.omapPwm n with freq := rate/2/(rate/2/freq)}) (h5.timer n).symm
    (h5.active n).symm)
  have h7 := h6.trans (Kept.setMask _ (rate/2/freq))
  have h8 := h7.trans ((h7.ready ready).call
    (f := fun t => {t with load := MAX_UINT32-rate/2/freq}) fun _ => rfl)
  unfold Pwm.freqSet
  dsimp only
  rw [Omap.omapPwm_divide,Omap.omapPwm_divide,Omap.omapPwm_call,Omap.omapPwm_call,
    Omap.omapPwm_index]
  exact h8

theorem setFreq (ready : Ready s n) (rate freq : ℕ) :
    Kept s (omapPwmSetFreq rate s n freq).1 := by
  by_cases h : rate/2≤freq∨freq=0
  · rw [setFreq_refused ready.lt h]
    have h1 := ready.index
    have h2 := h1.trans ((h1.ready ready).call (f := id) fun _ => rfl)
    exact h2.trans ((h2.ready ready).call (f := id) fun _ => rfl)
  · have ⟨hle,hf⟩ := not_or.mp h
    have hlt := Nat.lt_of_not_le hle
    have hn : 0<rate/2/freq := Nat.div_pos (Nat.le_of_lt hlt) (Nat.pos_of_ne_zero hf)
    rw [setFreq_eq ready.lt hf hlt]
    have h1 := ready.freqSet hf hlt
    have hmask : MAX_UINT32-(Pwm.freqSet rate s n freq).pwmPrecisionMask≠0 := by
      rw [freqSet_mask]
      unfold MAX_UINT32
      omega
    rw [(h1.ready ready).getWidth hmask]
    exact h1.trans ((h1.ready ready).setWidth _)

end Ready

/-! ## Who holds what -/

/-- Holds between two calls. -/
structure Device.Good (d : Device) : Prop where
  safe : d.Safe
  mask : d.omap.pwmPrecisionMask≤MAX_UINT32
  ready : ∀ a i,d.files a=some i → i≠PWM_ID_NONE → Ready d.omap i

theorem start_safe : Device.start.Good where
  safe := {
    faults := rfl
    exclusive := fun _ _ _ h => nomatch h
    active := fun _ => ⟨nofun,fun h => nomatch h.2.choose_spec⟩ }
  mask := Nat.le_refl _
  ready _ _ h := nomatch h

theorem setActive_obtained_faults (hn : n<PWM_NB_TIMER) :
    (omapPwmSetActive s n true true).1.faults=s.faults := by
  have ready : Ready (storeTimer s n true) n := by
    refine ⟨hn,?_,?_⟩
    · simp [storeTimer]
    · simp [storeTimer]
  have hstored : (storeTimer s n true).faults=s.faults := by
    simp [storeTimer,Omap.index_faults hn]
  have h1 := ready.call (f := id) fun _ => rfl
  have h2 := h1.trans ((h1.ready ready).call (f := fun t =>
    {t with load := ((storeTimer s n true).call n id).pwmPrecisionMask}) fun _ => rfl)
  have h3 := h2.trans ((h2.ready ready).call (f := fun t =>
    {t with matched := (((storeTimer s n true).call n id).call n fun t =>
      {t with load := ((storeTimer s n true).call n id).pwmPrecisionMask}).pwmPrecisionMask})
    fun _ => rfl)
  have h4 := h3.trans ((h3.ready ready).call (f := id) fun _ => rfl)
  unfold omapPwmSetActive
  rw [if_pos rfl]
  rw [if_neg (by rw [ready.timer]; simp)]
  exact h4.faults.trans hstored

theorem setActive_freed_faults (ready : Ready s n) (got : Bool) :
    (omapPwmSetActive s n false got).1.faults=s.faults := by
  have h1 := ready.index
  unfold omapPwmSetActive
  rw [if_neg (by nofun)]
  dsimp only
  rw [if_neg (by rw [Omap.omapPwm_index,ready.timer]; nofun)]
  have ready' := h1.ready ready
  exact (Omap.call_faults ready'.timer ready'.reserved).trans h1.faults

namespace Device.Good

variable {d : Device} {a i : ℕ}

/-- A file holds what the driver has as active. -/
theorem active_of (good : d.Good) (h : d.files a=some i) (hi : i≠PWM_ID_NONE) :
    omapPwmIsActive d.omap i=true := by
  unfold omapPwmIsActive
  rw [if_pos (good.ready a i h hi).lt]
  exact (good.safe.active i).mpr ⟨hi,a,h⟩

/-- Calls that keep everything. -/
theorem kept (good : d.Good) {o : Omap} (h : Kept d.omap o) : Good {d with omap := o} where
  safe := {
    faults := h.faults.trans good.safe.faults
    exclusive := good.safe.exclusive
    active := fun i => by
      rw [h.active i]
      exact good.safe.active i }
  mask := h.mask good.mask
  ready a i ha hi := h.ready (good.ready a i ha hi)

/-- A file that holds nothing still holds nothing. -/
theorem idle (good : d.Good) (ha : ∀ i,d.files a=some i → i=PWM_ID_NONE) {v : Option ℕ}
    (hv : ∀ i,v=some i → i=PWM_ID_NONE) :
    Good {d with files := update d.files a v} := by
  have hfiles (b i : ℕ) (hi : i≠PWM_ID_NONE) :
      update d.files a v b=some i↔d.files b=some i := by
    by_cases hb : b=a
    · rw [hb,update_self]
      exact ⟨fun h => absurd (hv i h) hi,fun h => absurd (ha i h) hi⟩
    · rw [update_of_ne hb]
  refine ⟨⟨good.safe.faults,?_,?_⟩,good.mask,?_⟩
  · intro b c i hb hc hi
    exact good.safe.exclusive b c i ((hfiles b i hi).mp hb) ((hfiles c i hi).mp hc) hi
  · intro i
    rw [good.safe.active i]
    constructor
    · rintro ⟨hi,b,hb⟩
      exact ⟨hi,b,(hfiles b i hi).mpr hb⟩
    · rintro ⟨hi,b,hb⟩
      exact ⟨hi,b,(hfiles b i hi).mp hb⟩
  · intro b i hb hi
    exact good.ready b i ((hfiles b i hi).mp hb) hi

/-- A file gets a PWM that nobody holds. -/
theorem take (good : d.Good) (ha : d.files a=some PWM_ID_NONE) (hi : i<PWM_NB_TIMER)
    (hfree : (d.omap.omapPwm i).pwmActive=false) :
    Good ⟨(omapPwmSetActive d.omap i true true).1,update d.files a (some i)⟩ := by
  have hchanged := setActive_obtained d.omap i
  have hne : i≠PWM_ID_NONE := by
    unfold PWM_NB_TIMER at hi
    unfold PWM_ID_NONE
    omega
  have hnobody (b : ℕ) : d.files b≠some i := by
    intro hb
    have hactive := (good.safe.active i).mpr ⟨hne,b,hb⟩
    rw [hfree] at hactive
    cases hactive
  have hcases (b j : ℕ) (hb : update d.files a (some i) b=some j) :
      b=a∧j=i∨b≠a∧d.files b=some j∧j≠i := by
    by_cases hba : b=a
    · rw [hba,update_self] at hb
      cases hb
      exact .inl ⟨hba,rfl⟩
    · rw [update_of_ne hba] at hb
      refine .inr ⟨hba,hb,?_⟩
      rintro rfl
      exact hnobody b hb
  refine ⟨⟨?_,?_,?_⟩,Nat.le_trans (Nat.le_of_eq hchanged.mask) good.mask,?_⟩
  · exact (setActive_obtained_faults hi).trans good.safe.faults
  · intro b c j hb hc hj
    obtain ⟨rfl,rfl⟩|⟨_,hb,hji⟩ := hcases b j hb
    · obtain ⟨rfl,_⟩|⟨_,_,hne'⟩ := hcases c j hc
      · rfl
      · exact absurd rfl hne'
    · obtain ⟨_,rfl⟩|⟨_,hc,_⟩ := hcases c j hc
      · exact absurd rfl hji
      · exact good.safe.exclusive b c j hb hc hj
  · intro j
    rw [hchanged.omapPwm]
    by_cases hji : j=i
    · rw [hji,update_self]
      exact ⟨fun _ => ⟨hne,a,update_self _ _ _⟩,fun _ => rfl⟩
    · rw [update_of_ne hji,good.safe.active j]
      constructor
      · rintro ⟨hj,b,hb⟩
        refine ⟨hj,b,(update_of_ne ?_ _ _).trans hb⟩
        rintro rfl
        rw [ha] at hb
        cases hb
        exact hj rfl
      · rintro ⟨hj,b,hb⟩
        obtain ⟨_,rfl⟩|⟨_,hb,_⟩ := hcases b j hb
        · exact absurd rfl hji
        · exact ⟨hj,b,hb⟩
  · intro b j hb hj
    obtain ⟨_,rfl⟩|⟨_,hb,hji⟩ := hcases b j hb
    · refine ⟨hi,?_,?_⟩
      · rw [hchanged.omapPwm,update_self]
      · rw [hchanged.timers,update_self]
    · have hready := good.ready b j hb hj
      refine ⟨hready.lt,?_,?_⟩
      · rw [hchanged.omapPwm,update_of_ne hji]
        exact hready.timer
      · rw [hchanged.timers,update_of_ne hji]
        exact hready.reserved

/-- A file gives up its PWM. -/
theorem give (good : d.Good) (ha : d.files a=some i) (hi : i≠PWM_ID_NONE) {v : Option ℕ}
    (hv : ∀ j,v=some j → j=PWM_ID_NONE) :
    Good ⟨(omapPwmRelease d.omap i).1,update d.files a v⟩ := by
  have hready := good.ready a i ha hi
  have hchanged := setActive_freed hready.timer false
  have hrelease : (omapPwmRelease d.omap i).1=(omapPwmSetActive d.omap i false false).1 := by
    unfold omapPwmRelease
    rw [if_neg (Nat.not_le.mpr hready.lt),if_neg (by rw [good.active_of ha hi]; nofun)]
  rw [hrelease]
  have hcases (b j : ℕ) (hj : j≠PWM_ID_NONE) (hb : update d.files a v b=some j) :
      b≠a∧d.files b=some j∧j≠i := by
    by_cases hba : b=a
    · rw [hba,update_self] at hb
      exact absurd (hv j hb) hj
    · rw [update_of_ne hba] at hb
      refine ⟨hba,hb,?_⟩
      rintro rfl
      exact hba (good.safe.exclusive b a j hb ha hj)
  refine ⟨⟨?_,?_,?_⟩,Nat.le_trans (Nat.le_of_eq hchanged.mask) good.mask,?_⟩
  · exact (setActive_freed_faults hready false).trans good.safe.faults
  · intro b c j hb hc hj
    exact good.safe.exclusive b c j (hcases b j hj hb).2.1 (hcases c j hj hc).2.1 hj
  · intro j
    rw [hchanged.omapPwm]
    by_cases hji : j=i
    · rw [hji,update_self]
      constructor
      · nofun
      · rintro ⟨hj,b,hb⟩
        exact absurd rfl (hcases b i hj hb).2.2
    · rw [update_of_ne hji,good.safe.active j]
      constructor
      · rintro ⟨hj,b,hb⟩
        refine ⟨hj,b,(update_of_ne ?_ _ _).trans hb⟩
        rintro rfl
        rw [ha] at hb
        cases hb
        exact hji rfl
      · rintro ⟨hj,b,hb⟩
        exact ⟨hj,b,(hcases b j hj hb).2.1⟩
  · intro b j hb hj
    have ⟨_,hb,hji⟩ := hcases b j hj hb
    have hother := good.ready b j hb hj
    refine ⟨hother.lt,?_,?_⟩
    · rw [hchanged.omapPwm,update_of_ne hji]
      exact hother.timer
    · rw [hchanged.timers,update_of_ne hji]
      exact hother.reserved

/-- A file keeps what it holds. -/
theorem same (good : d.Good) (ha : d.files a=some i) {o : Omap} (h : Kept d.omap o) :
    Good ⟨o,update d.files a (some i)⟩ := by
  rw [← ha,update_eq_self]
  exact good.kept h

theorem set (good : d.Good) (ha : d.files a=some i) {op : Omap → ℕ → Omap×ℤ}
    (hop : Ready d.omap i → Kept d.omap (op d.omap i).1) :
    let r := ioctlPwmSet d.omap i op
    Good ⟨r.omap,update d.files a (some r.idUsed)⟩ := by
  intro r
  by_cases hi : i=PWM_ID_NONE
  · have hr : r=⟨d.omap,i,-EINVAL⟩ := if_pos hi
    rw [hr]
    exact good.same ha (Kept.refl _)
  · have hr : r=⟨(op d.omap i).1,i,(op d.omap i).2⟩ := if_neg hi
    rw [hr]
    exact good.same ha (hop (good.ready a i ha hi))

end Device.Good

/-! ## Requests, releases and readings -/

variable {i id : ℕ} {obtained : Bool}

/-- A request that does not reach the timers. -/
theorem request_refused
    (h : ¬(i=PWM_ID_NONE∧id<PWM_NB_TIMER∧(s.omapPwm id).pwmActive=false)) :
    ioctlPwmRequest s i id obtained=⟨s,i,-EBUSY⟩ := by
  unfold ioctlPwmRequest
  by_cases hi : i≠PWM_ID_NONE
  · rw [if_pos hi]
  · have hnone := not_not.mp hi
    rw [if_neg hi]
    unfold omapPwmRequest omapPwmIsActive
    by_cases hid : PWM_NB_TIMER≤ id
    · rw [if_pos hid]
      rfl
    · have hlt := Nat.lt_of_not_le hid
      rw [if_neg hid,if_pos hlt]
      by_cases hactive : (s.omapPwm id).pwmActive=true
      · rw [if_pos hactive]
        rfl
      · exact absurd ⟨hnone,hlt,Bool.not_eq_true _ ▸ hactive⟩ h

/-- A request that reaches the timers returns zero. -/
theorem request_reaches (hi : i=PWM_ID_NONE) (hid : id<PWM_NB_TIMER)
    (hactive : (s.omapPwm id).pwmActive=false) :
    ioctlPwmRequest s i id obtained=⟨(omapPwmSetActive s id true obtained).1,id,0⟩ := by
  unfold ioctlPwmRequest omapPwmRequest omapPwmIsActive
  rw [if_neg (not_not.mpr hi),if_neg (Nat.not_le.mpr hid),if_pos hid,hactive]
  rfl

theorem release_refused (h : i≠id) : ioctlPwmRelease s i id=⟨s,i,-EINVAL⟩ := by
  unfold ioctlPwmRelease
  rw [if_pos h]

theorem release_held (s : Omap) (i : ℕ) :
    ioctlPwmRelease s i i=⟨(omapPwmRelease s i).1,PWM_ID_NONE,0⟩ := by
  unfold ioctlPwmRelease
  rw [if_neg fun h => h rfl]

theorem release_none (s : Omap) : omapPwmRelease s PWM_ID_NONE=(s,-EINVAL) := by
  unfold omapPwmRelease
  rw [if_pos (by decide)]

/-- A reading, also of a file that holds nothing. -/
theorem get_same {op : Omap → ℕ → Omap×Except ℤ ℕ} (h : i≠PWM_ID_NONE → (op s i).1=s)
    (copied : Bool) :
    (ioctlPwmGet s i op copied).omap=s∧(ioctlPwmGet s i op copied).idUsed=i := by
  refine ⟨?_,rfl⟩
  change (if i=PWM_ID_NONE then (s,.error (-EINVAL)) else op s i).1=s
  split
  · rfl
  · next hi => exact h hi

namespace Device

variable {d d' : Device} {a : ℕ} {ret : ℤ}

/-- A careful reading changes nothing. -/
theorem Good.reading (good : d.Good) (ha : d.files a=some i) {o : Outcome} {cmd : Ioctl}
    (hcmd : cmd=.getFreq∨cmd=.getWidth) (careful : d.Careful (.ioctl a cmd o)) :
    (pwmIoctl d.omap i cmd o).omap=d.omap∧(pwmIoctl d.omap i cmd o).idUsed=i := by
  obtain rfl|rfl := hcmd
  · exact get_same (fun hi => (good.ready a i ha hi).getFreq) o.copied
  · refine get_same (fun hi => (good.ready a i ha hi).getWidth ?_) o.copied
    have hmask := (careful i ha).resolve_left hi
    have hle := good.mask
    omega

theorem Good.ioctl (good : d.Good) (ha : d.files a=some i) {cmd : Ioctl} {o : Outcome}
    (careful : d.Careful (.ioctl a cmd o)) :
    let r := pwmIoctl d.omap i cmd o
    Good ⟨r.omap,update d.files a (some r.idUsed)⟩ := by
  have hcareful := careful i ha
  have hstill : Good ⟨d.omap,update d.files a (some i)⟩ := good.same ha (Kept.refl _)
  cases cmd with
  | request pwm =>
    unfold pwmIoctl
    by_cases h : i=PWM_ID_NONE∧(if o.copied=true then pwm else 0)<PWM_NB_TIMER∧
        (d.omap.omapPwm (if o.copied=true then pwm else 0)).pwmActive=false
    · have ⟨hi,hid,hactive⟩ := h
      have ⟨_,hgot⟩ := hcareful h
      dsimp only
      rw [request_reaches hi hid hactive,hgot]
      exact good.take (by rw [ha,hi]) hid hactive
    · dsimp only
      rw [request_refused h]
      exact hstill
  | release pwm =>
    unfold pwmIoctl
    dsimp only
    by_cases h : i=if o.copied=true then pwm else 0
    · rw [← h,release_held]
      by_cases hi : i=PWM_ID_NONE
      · rw [hi,release_none]
        rw [hi] at hstill
        exact hstill
      · exact good.give ha hi fun j hj => (Option.some.inj hj).symm
    · rw [release_refused h]
      exact hstill
  | start => exact good.set ha Ready.start
  | stop => exact good.set ha Ready.stop
  | setFreq freq =>
    unfold pwmIoctl
    dsimp only
    split
    · exact good.set ha fun ready => ready.setFreq o.rate freq
    · exact hstill
  | setWidth width =>
    unfold pwmIoctl
    dsimp only
    split
    · exact good.set ha fun ready => ready.setWidth width
    · exact hstill
  | getFreq =>
    have ⟨homap,hid⟩ := good.reading ha (.inl rfl) careful
    dsimp only
    rwa [homap,hid]
  | getWidth =>
    have ⟨homap,hid⟩ := good.reading ha (.inr rfl) careful
    dsimp only
    rwa [homap,hid]

theorem call_ioctl {cmd : Ioctl} {o : Outcome} (ha : d.files a=some i) :
    d.call (.ioctl a cmd o)=
      some (⟨(pwmIoctl d.omap i cmd o).omap,
        update d.files a (some (pwmIoctl d.omap i cmd o).idUsed)⟩,
        (pwmIoctl d.omap i cmd o).ret) := by
  unfold call
  dsimp only
  rw [ha]
  rfl

/-- One call keeps the invariant. -/
theorem Good.call (good : d.Good) {e : DeviceEvent} (careful : d.Careful e)
    (h : d.call e=some (d',ret)) : d'.Good := by
  cases e with
  | opened file =>
    unfold Device.call at h
    dsimp only at h
    split at h
    · next hnone =>
      cases h
      apply good.idle
      · intro j hj
        rw [hnone] at hj
        cases hj
      · intro j hj
        exact (Option.some.inj hj).symm
    · cases h
  | ioctl file cmd o =>
    cases ha : d.files file with
    | none =>
      unfold Device.call at h
      dsimp only at h
      rw [ha] at h
      cases h
    | some i =>
      cases (call_ioctl ha).symm.trans h
      exact good.ioctl ha careful
  | closed file =>
    cases ha : d.files file with
    | none =>
      unfold Device.call at h
      dsimp only at h
      rw [ha] at h
      cases h
    | some i =>
      unfold Device.call at h
      dsimp only at h
      rw [ha] at h
      cases h
      unfold pwmRelease
      by_cases hi : i=PWM_ID_NONE
      · rw [if_neg (not_not.mpr hi)]
        apply good.idle
        · intro j hj
          rw [ha] at hj
          cases hj
          exact hi
        · nofun
      · rw [if_pos hi,release_held]
        exact good.give ha hi nofun

/-- A careful call tells the truth. -/
theorem Good.truthful (good : d.Good) {e : DeviceEvent} (careful : d.Careful e)
    (h : d.call e=some (d',ret)) : d.Truthful e d' ret := by
  cases e with
  | opened file => trivial
  | closed file => trivial
  | ioctl file cmd o =>
    cases ha : d.files file with
    | none =>
      unfold Device.call at h
      dsimp only at h
      rw [ha] at h
      cases h
    | some i =>
      have hgood := good.call careful h
      cases (call_ioctl ha).symm.trans h
      have hcareful := careful i ha
      have hsame : (⟨d.omap,update d.files file (some i)⟩ : Device)=d := by
        rw [← ha,update_eq_self]
      constructor
      · rintro pwm rfl hret
        by_cases hreach : i=PWM_ID_NONE∧(if o.copied=true then pwm else 0)<PWM_NB_TIMER∧
            (d.omap.omapPwm (if o.copied=true then pwm else 0)).pwmActive=false
        · have ⟨hcopied,_⟩ := hcareful hreach
          have ⟨hi,hid,hactive⟩ := hreach
          unfold pwmIoctl at hgood ⊢
          dsimp only at hgood ⊢
          rw [request_reaches hi hid hactive] at hgood ⊢
          rw [if_pos hcopied] at hgood hid ⊢
          have hne : pwm≠PWM_ID_NONE := by
            unfold PWM_NB_TIMER at hid
            unfold PWM_ID_NONE
            omega
          have ready := hgood.ready file pwm (update_self _ _ _) hne
          exact ⟨update_self _ _ _,pwm,ready.timer,ready.reserved⟩
        · unfold pwmIoctl at hret
          dsimp only at hret
          rw [request_refused hreach] at hret
          exact absurd hret (show -EBUSY≠0 by decide)
      · intro hcopied hstart hstop
        cases cmd with
        | start => exact absurd rfl hstart
        | stop => exact absurd rfl hstop
        | request pwm =>
          have hreach : ¬(i=PWM_ID_NONE∧(if o.copied=true then pwm else 0)<PWM_NB_TIMER∧
              (d.omap.omapPwm (if o.copied=true then pwm else 0)).pwmActive=false) := by
            intro hreach
            rw [(hcareful hreach).1] at hcopied
            cases hcopied
          unfold pwmIoctl
          dsimp only
          rw [request_refused hreach]
          exact hsame
        | release pwm =>
          have hi : i≠0 := hcareful.resolve_left (by rw [hcopied]; nofun)
          unfold pwmIoctl
          dsimp only
          rw [hcopied,if_neg (by nofun),release_refused hi]
          exact hsame
        | setFreq freq =>
          unfold pwmIoctl
          rw [hcopied]
          exact hsame
        | setWidth width =>
          unfold pwmIoctl
          rw [hcopied]
          exact hsame
        | getFreq =>
          have ⟨homap,hid⟩ := good.reading ha (.inl rfl) careful
          rwa [homap,hid]
        | getWidth =>
          have ⟨homap,hid⟩ := good.reading ha (.inr rfl) careful
          rwa [homap,hid]

/-- A call that is not careful does something forbidden, or does not tell the truth. -/
theorem Good.careful_of (good : d.Good) {e : DeviceEvent} (h : d.call e=some (d',ret))
    (hsafe : d'.Safe) (htruth : d.Truthful e d' ret) : d.Careful e := by
  cases e with
  | opened file => trivial
  | closed file => trivial
  | ioctl file cmd o =>
    intro i ha
    cases (call_ioctl ha).symm.trans h
    have ⟨hrequest,hcopy⟩ := htruth
    cases cmd with
    | request pwm =>
      intro hreach
      have ⟨hi,hid,hactive⟩ := hreach
      unfold pwmIoctl at hrequest hcopy
      dsimp only at hrequest hcopy
      rw [request_reaches hi hid hactive] at hrequest hcopy
      cases hcopied : o.copied with
      | false =>
        have hd := hcopy hcopied nofun nofun
        have hfile : d.files file=some (if o.copied=true then pwm else 0) := by
          rw [← hd]
          exact update_self _ _ _
        rw [ha,hi,hcopied] at hfile
        exact absurd (Option.some.inj hfile) (show PWM_ID_NONE≠0 by decide)
      | true =>
        refine ⟨rfl,?_⟩
        cases hgot : o.obtained with
        | true => rfl
        | false =>
          have ⟨_,k,htimer,_⟩ := hrequest pwm rfl rfl
          rw [hgot,hcopied] at htimer
          change ((omapPwmSetActive d.omap pwm true false).1.omapPwm pwm).timer=some k at htimer
          rw [setActive_missing,Omap.omapPwm_setPwm,update_self] at htimer
          cases htimer
    | release pwm =>
      cases hcopied : o.copied with
      | true => exact .inl rfl
      | false =>
        refine .inr ?_
        rintro rfl
        have hd := hcopy hcopied nofun nofun
        have hfile : d.files file=some PWM_ID_NONE := by
          rw [← hd]
          unfold pwmIoctl
          dsimp only
          rw [hcopied,if_neg (by nofun),release_held]
          exact update_self _ _ _
        rw [ha] at hfile
        exact absurd (Option.some.inj hfile) (by decide)
    | getWidth =>
      by_cases hi : i=PWM_ID_NONE
      · exact .inl hi
      · refine .inr ?_
        intro hmask
        have hfaults := hsafe.faults
        unfold pwmIoctl ioctlPwmGet at hfaults
        dsimp only at hfaults
        rw [if_neg hi] at hfaults
        unfold omapPwmGetWidth at hfaults
        rw [if_neg (Nat.lt_asymm (good.ready file i ha hi).lt),hmask] at hfaults
        cases hfaults
    | start => trivial
    | stop => trivial
    | setFreq freq => trivial
    | setWidth width => trivial
    | getFreq => trivial

/-! ## Runs -/

theorem run_keeps {es : List DeviceEvent} (h : Run step Careful Device.start es d) : d.Good := by
  refine h.invariant Good start_safe fun {d d' e} good careful hstep => ?_
  have ⟨r,hcall,hr⟩ := Option.map_eq_some_iff.mp hstep
  cases hr
  exact good.call careful hcall

/-- After careful calls everything is safe, and a further call leaves it so and tells the truth
exactly if it is careful. -/
theorem device_safe {es : List DeviceEvent} (h : Run step Careful Device.start es d) :
    d.Safe∧∀ e d' ret,d.call e=some (d',ret) → (d.Careful e↔d'.Safe∧d.Truthful e d' ret) := by
  have good := run_keeps h
  refine ⟨good.safe,?_⟩
  intro e d' ret hcall
  constructor
  · intro careful
    exact ⟨(good.call careful hcall).safe,good.truthful careful hcall⟩
  · rintro ⟨hsafe,htruth⟩
    exact good.careful_of hcall hsafe htruth

/-- Two files ask for PWM 9, and the first one gets it. -/
theorem device_safe_example :
    ∃ es d,(d : Device).Safe∧d.files 0=some 9∧d.files 1=some PWM_ID_NONE∧
      Run step Careful Device.start es d := by
  have hrun : Run step Careful Device.start
      [.opened 0,.opened 1,.ioctl 0 (.request 9) ⟨true,true,26000000⟩,
        .ioctl 1 (.request 9) ⟨true,true,26000000⟩,
        .ioctl 0 (.setFreq 1000) ⟨true,true,26000000⟩] _ :=
    Run.cons trivial rfl <| Run.cons trivial rfl <|
      Run.cons (fun _ _ _ => ⟨rfl,rfl⟩) rfl <| Run.cons (fun _ _ _ => ⟨rfl,rfl⟩) rfl <|
      Run.cons (fun _ _ => trivial) rfl (Run.nil _)
  exact ⟨_,_,(device_safe hrun).1,rfl,rfl,hrun⟩

/-- A request returns zero without a timer, after which a second file gets the same PWM. A
request whose user copy fails takes PWM 0. A width read before any frequency divides by zero. -/
theorem device_unsafe :
    (∃ d d',Run step (fun _ _ => True) Device.start [.opened 0,.opened 1] d∧
      d.call (.ioctl 0 (.request 9) ⟨true,false,26000000⟩)=some (d',0)∧¬d'.Holds 0 9∧
      ∃ d'',d'.call (.ioctl 1 (.request 9) ⟨true,true,26000000⟩)=some (d'',0)∧
        d''.files 0=some 9∧d''.files 1=some 9)∧
    (∃ d d',Run step (fun _ _ => True) Device.start [.opened 0] d∧
      d.call (.ioctl 0 (.request 9) ⟨false,false,26000000⟩)=some (d',0)∧d'≠d)∧
    ∃ d,Run step (fun _ _ => True) Device.start
      [.opened 0,.ioctl 0 (.request 9) ⟨true,true,26000000⟩,
        .ioctl 0 .getWidth ⟨true,true,26000000⟩] d∧Fault.divideByZero∈d.omap.faults := by
  refine ⟨?_,?_,?_⟩
  · refine ⟨_,_,Run.cons trivial rfl (Run.cons trivial rfl (Run.nil _)),rfl,?_,_,rfl,rfl,rfl⟩
    rintro ⟨_,k,htimer,_⟩
    cases htimer
  · refine ⟨_,_,Run.cons trivial rfl (Run.nil _),rfl,?_⟩
    intro h
    have hfile := congrFun (congrArg Device.files h) 0
    cases hfile
  · exact ⟨_,Run.cons trivial rfl (Run.cons trivial rfl (Run.cons trivial rfl (Run.nil _))),
      List.mem_cons_self⟩

end Device

end ArdroneKernel.Pwm
