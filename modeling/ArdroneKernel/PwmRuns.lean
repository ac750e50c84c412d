import ArdroneKernel.Execution
import ArdroneKernel.PwmWidths
import Mathlib.Data.Fintype.Basic

/-!
# What the PWMs output

Requests, releases, frequencies and widths for any of the PWMs, in any order, beside what each
PWM was last asked for.
-/

namespace ArdroneKernel.Pwm

open Execution Function

/-- What was accepted of a PWM since it was requested. -/
structure Asked where
  freq : Option ℕ
  width : Option ℕ

structure State where
  omap : Omap
  /-- `none` for a PWM that is not requested. -/
  asked : Fin PWM_NB_TIMER → Option Asked

def start : State := ⟨init,fun _ => none⟩

inductive Event where
  /-- And whether the timer is obtained. -/
  | request (t : Fin PWM_NB_TIMER) (got : Bool)
  | release (t : Fin PWM_NB_TIMER)
  | setFreq (t : Fin PWM_NB_TIMER) (freq : ℕ)
  | setWidth (t : Fin PWM_NB_TIMER) (ratio : ℕ)

/-- The PWM that an event is about. -/
def Event.pwm : Event → Fin PWM_NB_TIMER
  | .request t _ | .release t | .setFreq t _ | .setWidth t _ => t

namespace State

/-- The frequency that was accepted last. -/
def freqOf (s : State) (t : Fin PWM_NB_TIMER) : Option ℕ := (s.asked t).bind Asked.freq

/-- The width that was accepted last. -/
def widthOf (s : State) (t : Fin PWM_NB_TIMER) : Option ℕ := (s.asked t).bind Asked.width

def ask (s : State) (t : Fin PWM_NB_TIMER) (a : Option Asked) : State :=
  {s with asked := update s.asked t a}

/-- A call that returned, after which a PWM is asked for something else if it returned zero. A
call on the timer `NULL` does not return. -/
def returned (s : State) (t : Fin PWM_NB_TIMER) (a : Option Asked) (r : Omap×ℤ) :
    Option State :=
  if Fault.null∈r.1.faults then none
  else some (if r.2=0 then {s with omap := r.1}.ask t a else {s with omap := r.1})

end State

def step (rate : ℕ) (s : State) : Event → Option State
  | .request t got => s.returned t (some ⟨none,none⟩) (omapPwmRequest s.omap t got)
  | .release t => s.returned t none (omapPwmRelease s.omap t)
  | .setFreq t freq =>
    s.returned t ((s.asked t).map fun a => {a with freq := some freq})
      (omapPwmSetFreq rate s.omap t freq)
  | .setWidth t ratio =>
    s.returned t ((s.asked t).map fun a => {a with width := some ratio})
      (omapPwmSetWidth s.omap t ratio)

/-! ## When it goes well -/

/-- All other PWMs with a frequency divide the clock by the same number. -/
def SameDivider (rate : ℕ) (s : State) (t : Fin PWM_NB_TIMER) (freq : ℕ) : Prop :=
  ∀ u,u≠t → ∀ g∈s.freqOf u,divider rate g=divider rate freq

/-- Setting the width again, to what is read back of the stored one, keeps the width. -/
def WidthKept (rate : ℕ) (s : State) (t : Fin PWM_NB_TIMER) (freq : ℕ) : Prop :=
  ∀ r∈s.widthOf t,
    let n := divider rate freq
    let ρ := (s.omap.omapPwm t).ratio
    n≤5000∧ρ*n≤r*n+5000∧r*n≤ρ*n+5000∨
      5000<n∧ρ=r∧r<PWM_WIDTH_MAX∧(r*n%10000=0∨5000≤r*n%10000)

/-- An accepted frequency leaves the mask of the other PWMs, and the width, as they are. -/
def FreqFits (rate : ℕ) (s : State) : Event → Prop
  | .setFreq t freq =>
    freq≠0∧freq<rate/2 → SameDivider rate s t freq∧WidthKept rate s t freq
  | _ => True

instance (rate : ℕ) (s : State) (t : Fin PWM_NB_TIMER) (freq : ℕ) :
    Decidable (SameDivider rate s t freq) :=
  inferInstanceAs (Decidable (∀ u,u≠t → ∀ g∈s.freqOf u,divider rate g=divider rate freq))

instance (rate : ℕ) (s : State) (t : Fin PWM_NB_TIMER) (freq : ℕ) :
    Decidable (WidthKept rate s t freq) :=
  inferInstanceAs (Decidable (∀ r∈s.widthOf t,_∨_))

instance (rate : ℕ) (s : State) : (e : Event) → Decidable (FreqFits rate s e)
  | .setFreq t freq =>
    inferInstanceAs (Decidable
      (freq≠0∧freq<rate/2 → SameDivider rate s t freq∧WidthKept rate s t freq))
  | .request _ _ | .release _ | .setWidth _ _ => .isTrue trivial

/-! ## What a PWM outputs -/

/-- A PWM outputs a frequency and a width. -/
structure Outputs (rate : ℕ) (s : State) (t : Fin PWM_NB_TIMER) (f r : ℕ) : Prop where
  timer : (s.omap.omapPwm t).timer=some t.val
  load : (s.omap.timers t).load=2^32-1-rate/2/f
  matched : |(((s.omap.timers t).matched:ℤ)-(s.omap.timers t).load)*10000-r*(rate/2/f:ℕ)|≤
    10000
  freq : (omapPwmGetFreq s.omap t).2=.ok (rate/2/(rate/2/f))
  width : ∃ w : ℕ,(omapPwmGetWidth s.omap t).2=.ok w∧
    |(w:ℤ)-r| * (rate/2/f:ℕ)≤(rate/2/f:ℕ)+10000

/-- A PWM outputs and reports what it did. -/
structure Unmoved (s s' : State) (t : Fin PWM_NB_TIMER) : Prop where
  timer : (s'.omap.omapPwm t).timer=(s.omap.omapPwm t).timer
  load : (s'.omap.timers t).load=(s.omap.timers t).load
  matched : (s'.omap.timers t).matched=(s.omap.timers t).matched
  freq : (omapPwmGetFreq s'.omap t).2=(omapPwmGetFreq s.omap t).2
  width : (omapPwmGetWidth s'.omap t).2=(omapPwmGetWidth s.omap t).2

/-! ## The invariant -/

/-- What is known of a PWM whose frequency, or width, was accepted. -/
structure Tuned (rate : ℕ) (s : State) (t : Fin PWM_NB_TIMER) : Prop where
  accepted : ∀ f∈s.freqOf t,f≠0∧f<rate/2
  small : ∀ r∈s.widthOf t,r≤PWM_WIDTH_MAX
  timer : ∀ f∈s.freqOf t,(s.omap.omapPwm t).timer=some t.val
  mask : ∀ f∈s.freqOf t,s.omap.pwmPrecisionMask=MAX_UINT32-divider rate f
  load : ∀ f∈s.freqOf t,(s.omap.timers t).load=MAX_UINT32-divider rate f
  freq : ∀ f∈s.freqOf t,(s.omap.omapPwm t).freq=rate/2/divider rate f
  matched : ∀ f∈s.freqOf t,∀ r∈s.widthOf t,
    (s.omap.timers t).matched=
      matchValue (MAX_UINT32-divider rate f) (s.omap.omapPwm t).ratio
  near : ∀ f∈s.freqOf t,∀ r∈s.widthOf t,
    Near (divider rate f) (s.omap.omapPwm t).ratio r

/-- Holds after every step of a run that goes well. -/
structure Good (rate : ℕ) (s : State) : Prop where
  own : ∀ n k,(s.omap.omapPwm n).timer=some k → k=n
  ratio : ∀ n,(s.omap.omapPwm n).ratio≤PWM_WIDTH_MAX
  tuned : ∀ t,Tuned rate s t

variable {rate : ℕ} {s s' : State} {t u : Fin PWM_NB_TIMER} {o : Omap}

theorem start_good (rate : ℕ) : Good rate start where
  own _ _ := nofun
  ratio _ := Nat.zero_le _
  tuned _ := ⟨nofun,nofun,nofun,nofun,nofun,nofun,nofun,nofun⟩

/-- What the invariant says about outputs. -/
theorem Good.outputs (good : Good rate s) (hrate : rate<2^32) {f r : ℕ} (hf : f∈s.freqOf t)
    (hr : r∈s.widthOf t) : Outputs rate s t f r := by
  have tuned := good.tuned t
  have ⟨hne,hlt⟩ := tuned.accepted f hf
  have hpos := divider_pos hne hlt
  have hle := divider_le hrate f
  have hρ := good.ratio t
  have hnear := tuned.near f hf r hr
  refine ⟨tuned.timer f hf,tuned.load f hf,?_,?_,?_⟩
  · rw [tuned.matched f hf r hr,tuned.load f hf]
    exact hnear.matched hpos hle hρ
  · rw [getFreq_value t.isLt,tuned.freq f hf]
    rfl
  · refine ⟨_,getWidth_value t.isLt,?_⟩
    rw [tuned.mask f hf]
    exact hnear.read hpos hle hρ

/-! ## One step -/

/-- What is known of a PWM stays known while its own data stay, and the mask if it uses it. -/
theorem Tuned.congr (tuned : Tuned rate s u)
    (hpwm : s'.omap.omapPwm u=s.omap.omapPwm u)
    (htimer : s'.omap.timers u=s.omap.timers u) (hasked : s'.asked u=s.asked u)
    (hmask : ∀ f∈s.freqOf u,s'.omap.pwmPrecisionMask=s.omap.pwmPrecisionMask) :
    Tuned rate s' u := by
  have hfreq : s'.freqOf u=s.freqOf u := by
    unfold State.freqOf
    rw [hasked]
  have hwidth : s'.widthOf u=s.widthOf u := by
    unfold State.widthOf
    rw [hasked]
  refine ⟨?_,?_,?_,?_,?_,?_,?_,?_⟩
  · rw [hfreq]
    exact tuned.accepted
  · rw [hwidth]
    exact tuned.small
  · rw [hfreq,hpwm]
    exact tuned.timer
  · rw [hfreq]
    intro f hf
    rw [hmask f hf]
    exact tuned.mask f hf
  · rw [hfreq,htimer]
    exact tuned.load
  · rw [hfreq,hpwm]
    exact tuned.freq
  · rw [hfreq,hwidth,hpwm,htimer]
    exact tuned.matched
  · rw [hfreq,hwidth,hpwm]
    exact tuned.near

/-- What a call does: a PWM and its timer change, and the mask if no other PWM uses it. -/
structure Moved (rate : ℕ) (s s' : State) (t : Fin PWM_NB_TIMER) (mask : ℕ) (p : OmapPwm)
    (tm : DmTimer) : Prop where
  changed : Changed s.omap s'.omap t t mask p tm
  asked : ∀ u,u≠t → s'.asked u=s.asked u
  mask : ∀ u,u≠t → ∀ g∈s.freqOf u,mask=MAX_UINT32-divider rate g

namespace Moved

variable {mask : ℕ} {p : OmapPwm} {tm : DmTimer}

theorem pwm_self (h : Moved rate s s' t mask p tm) : s'.omap.omapPwm t=p := by
  rw [h.changed.omapPwm,update_self]

theorem timer_self (h : Moved rate s s' t mask p tm) : s'.omap.timers t=tm := by
  rw [h.changed.timers,update_self]

theorem pwm_other (h : Moved rate s s' t mask p tm) {n : ℕ} (hn : n≠t) :
    s'.omap.omapPwm n=s.omap.omapPwm n := by
  rw [h.changed.omapPwm,update_of_ne hn]

theorem timer_other (h : Moved rate s s' t mask p tm) {n : ℕ} (hn : n≠t) :
    s'.omap.timers n=s.omap.timers n := by
  rw [h.changed.timers,update_of_ne hn]

theorem mask_other (h : Moved rate s s' t mask p tm) (tuned : Tuned rate s u) (hu : u≠t)
    (f : ℕ) (hf : f∈s.freqOf u) : s'.omap.pwmPrecisionMask=s.omap.pwmPrecisionMask := by
  rw [h.changed.mask,tuned.mask f hf,h.mask u hu f hf]

/-- The invariant is about the PWM alone. -/
theorem good (h : Moved rate s s' t mask p tm) (good : Good rate s)
    (hown : ∀ k,p.timer=some k → k=t) (hratio : p.ratio≤PWM_WIDTH_MAX)
    (htuned : Tuned rate s' t) : Good rate s' := by
  refine ⟨?_,?_,?_⟩
  · intro n k hk
    by_cases hn : n=t
    · cases hn
      rw [h.pwm_self] at hk
      exact hown k hk
    · rw [h.pwm_other hn] at hk
      exact good.own n k hk
  · intro n
    by_cases hn : n=t
    · cases hn
      rw [h.pwm_self]
      exact hratio
    · rw [h.pwm_other hn]
      exact good.ratio n
  · intro u
    by_cases hu : u=t
    · cases hu
      exact htuned
    · have hne : u.val≠t.val := fun heq => hu (Fin.ext heq)
      have tuned := good.tuned u
      exact tuned.congr (h.pwm_other hne) (h.timer_other hne) (h.asked u hu)
        (h.mask_other tuned hu)

/-- A PWM with a frequency does not notice what is done to another one. -/
theorem unmoved (h : Moved rate s s' t mask p tm) (good : Good rate s) (hu : u≠t) {f : ℕ}
    (hf : f∈s.freqOf u) : Unmoved s s' u := by
  have hne : u.val≠t.val := fun heq => hu (Fin.ext heq)
  refine ⟨?_,?_,?_,?_,?_⟩
  · rw [h.pwm_other hne]
  · rw [h.timer_other hne]
  · rw [h.timer_other hne]
  · rw [getFreq_value u.isLt,getFreq_value u.isLt,h.pwm_other hne]
  · rw [getWidth_value u.isLt,getWidth_value u.isLt,h.pwm_other hne,
      h.mask_other (good.tuned u) hu f hf]

end Moved

/-- A step about a PWM that keeps what is known of it. -/
def Steps (rate : ℕ) (s s' : State) (t : Fin PWM_NB_TIMER) : Prop :=
  ∃ mask p tm,Moved rate s s' t mask p tm∧(∀ k,p.timer=some k → k=t)∧
    p.ratio≤PWM_WIDTH_MAX∧Tuned rate s' t

theorem returned_cases {a : Option Asked} {r : Omap×ℤ} (h : s.returned t a r=some s') :
    Fault.null∉r.1.faults∧
      (r.2=0∧s'={s with omap := r.1}.ask t a∨r.2≠0∧s'={s with omap := r.1}) := by
  unfold State.returned at h
  split at h
  · cases h
  · next hnull =>
    refine ⟨hnull,?_⟩
    split at h
    · next hzero =>
      cases h
      exact .inl ⟨hzero,rfl⟩
    · next hne =>
      cases h
      exact .inr ⟨hne,rfl⟩

theorem ask_self (s : State) (t : Fin PWM_NB_TIMER) (a : Option Asked) :
    (s.ask t a).asked t=a := update_self _ _ _

theorem ask_other (s : State) (a : Option Asked) (hu : u≠t) :
    (s.ask t a).asked u=s.asked u := update_of_ne hu _ _

/-- A call that was accepted. -/
theorem Moved.ask {mask : ℕ} {p : OmapPwm} {tm : DmTimer} (h : Changed s.omap o t t mask p tm)
    (a : Option Asked) (hmask : ∀ u,u≠t → ∀ g∈s.freqOf u,mask=MAX_UINT32-divider rate g) :
    Moved rate s (({s with omap := o} : State).ask t a) t mask p tm :=
  ⟨h,fun _ hu => ask_other _ a hu,hmask⟩

/-- A PWM of which nothing was accepted. -/
theorem tuned_nothing (hf : s.freqOf t=none) (hw : s.widthOf t=none) : Tuned rate s t := by
  have hnof (f : ℕ) : f∉s.freqOf t := by
    rw [hf]
    nofun
  have hnow (r : ℕ) : r∉s.widthOf t := by
    rw [hw]
    nofun
  exact ⟨fun f h => absurd h (hnof f),fun r h => absurd h (hnow r),
    fun f h => absurd h (hnof f),fun f h => absurd h (hnof f),fun f h => absurd h (hnof f),
    fun f h => absurd h (hnof f),fun f h => absurd h (hnof f),fun f h => absurd h (hnof f)⟩

/-- A call that changes nothing, or records faults only. -/
theorem Good.still (good : Good rate s) (t : Fin PWM_NB_TIMER)
    (hpwm : s'.omap.omapPwm=s.omap.omapPwm)
    (hmask : s'.omap.pwmPrecisionMask=s.omap.pwmPrecisionMask)
    (htimers : s'.omap.timers=s.omap.timers) (hasked : s'.asked=s.asked) :
    Steps rate s s' t := by
  refine ⟨s.omap.pwmPrecisionMask,s.omap.omapPwm t,s.omap.timers t,⟨⟨?_,hmask,?_⟩,?_,?_⟩,
    good.own t,good.ratio t,?_⟩
  · rw [hpwm,update_eq_self]
  · rw [htimers,update_eq_self]
  · intro u _
    rw [hasked]
  · intro u _ g hg
    exact (good.tuned u).mask g hg
  · exact (good.tuned t).congr (by rw [hpwm]) (by rw [htimers]) (by rw [hasked])
      fun _ _ => hmask

/-- A call after which nothing is accepted of the PWM. -/
theorem Good.reset (good : Good rate s) {a : Option Asked}
    (ha : a.bind Asked.freq=none∧a.bind Asked.width=none) {p : OmapPwm} {tm : DmTimer}
    (h : Changed s.omap o t t s.omap.pwmPrecisionMask p tm) (hown : ∀ k,p.timer=some k → k=t)
    (hratio : p.ratio≤PWM_WIDTH_MAX) :
    Steps rate s ({s with omap := o}.ask t a) t := by
  refine ⟨_,_,_,Moved.ask h a fun u _ g hg => (good.tuned u).mask g hg,hown,hratio,?_⟩
  apply tuned_nothing
  · unfold State.freqOf
    rw [ask_self]
    exact ha.1
  · unfold State.widthOf
    rw [ask_self]
    exact ha.2

theorem request_steps (good : Good rate s) {got : Bool}
    (h : step rate s (.request t got)=some s') : Steps rate s s' t := by
  have ⟨_,hcases⟩ := returned_cases h
  unfold omapPwmRequest at hcases
  rw [if_neg (Nat.not_le.mpr t.isLt)] at hcases
  by_cases hactive : omapPwmIsActive s.omap t=true
  · rw [if_pos hactive] at hcases
    obtain ⟨hret,_⟩|⟨_,hs'⟩ := hcases
    · exact absurd hret (show -EBUSY≠0 by decide)
    · cases hs'
      exact good.still t rfl rfl rfl rfl
  · rw [if_neg hactive] at hcases
    obtain ⟨_,hs'⟩|⟨hne,_⟩ := hcases
    · cases hs'
      cases got with
      | true =>
        apply good.reset ⟨rfl,rfl⟩ (setActive_obtained s.omap t)
        · intro k hk
          cases hk
          rfl
        · exact good.ratio t
      | false =>
        have hmissing := setActive_missing s.omap t
        have hchanged : Changed s.omap (omapPwmSetActive s.omap t true false).1 t t
            s.omap.pwmPrecisionMask {s.omap.omapPwm t with timer := none}
            (s.omap.timers t) := by
          rw [hmissing]
          refine ⟨by simp,by simp,?_⟩
          simp
        exact good.reset ⟨rfl,rfl⟩ hchanged nofun (good.ratio t)
    · exact absurd rfl hne

theorem release_steps (good : Good rate s) (h : step rate s (.release t)=some s') :
    Steps rate s s' t := by
  have ⟨_,hcases⟩ := returned_cases h
  unfold omapPwmRelease at hcases
  rw [if_neg (Nat.not_le.mpr t.isLt)] at hcases
  by_cases hactive : omapPwmIsActive s.omap t=false
  · rw [if_pos hactive] at hcases
    obtain ⟨hret,_⟩|⟨_,hs'⟩ := hcases
    · exact absurd hret (show -EBUSY≠0 by decide)
    · cases hs'
      exact good.still t rfl rfl rfl rfl
  · rw [if_neg hactive] at hcases
    obtain ⟨_,hs'⟩|⟨hne,_⟩ := hcases
    · cases hs'
      cases htimer : (s.omap.omapPwm t).timer with
      | some k =>
        have hk := good.own t k htimer
        cases hk
        exact good.reset ⟨rfl,rfl⟩ (setActive_freed htimer false) (good.own t) (good.ratio t)
      | none =>
        have hchanged : Changed s.omap (omapPwmSetActive s.omap t false false).1 t t
            s.omap.pwmPrecisionMask {s.omap.omapPwm t with pwmActive := false}
            (s.omap.timers t) := by
          rw [setActive_nothing htimer]
          refine ⟨by simp,by simp,?_⟩
          simp
        exact good.reset ⟨rfl,rfl⟩ hchanged (good.own t) (good.ratio t)
    · exact absurd rfl hne

/-- What a width that is accepted changes in what is asked for. -/
theorem mem_freqOf_width {r f : ℕ} :
    f∈(({s with omap := o} : State).ask t
      ((s.asked t).map fun a : Asked => {a with width := some r})).freqOf t ↔ f∈s.freqOf t := by
  unfold State.freqOf
  rw [ask_self]
  cases s.asked t with
  | none => rfl
  | some a => rfl

theorem mem_widthOf_width {r w : ℕ}
    (h : w∈(({s with omap := o} : State).ask t
      ((s.asked t).map fun a : Asked => {a with width := some r})).widthOf t) :
    w=r := by
  unfold State.widthOf at h
  rw [ask_self] at h
  cases ha : s.asked t with
  | none =>
    rw [ha] at h
    cases h
  | some a =>
    rw [ha] at h
    cases h
    rfl

/-- What a frequency that is accepted changes in what is asked for. -/
theorem mem_freqOf_freq {g f : ℕ}
    (h : f∈(({s with omap := o} : State).ask t
      ((s.asked t).map fun a : Asked => {a with freq := some g})).freqOf t) :
    f=g := by
  unfold State.freqOf at h
  rw [ask_self] at h
  cases ha : s.asked t with
  | none =>
    rw [ha] at h
    cases h
  | some a =>
    rw [ha] at h
    cases h
    rfl

theorem mem_widthOf_freq {g w : ℕ} :
    w∈(({s with omap := o} : State).ask t
      ((s.asked t).map fun a : Asked => {a with freq := some g})).widthOf t ↔ w∈s.widthOf t := by
  unfold State.widthOf
  rw [ask_self]
  cases s.asked t with
  | none => rfl
  | some a => rfl

theorem setWidth_steps (good : Good rate s) (hrate : rate<2^32) {r : ℕ}
    (h : step rate s (.setWidth t r)=some s') : Steps rate s s' t := by
  have ⟨hnull,hcases⟩ := returned_cases h
  by_cases hr : r≤PWM_WIDTH_MAX
  · cases htimer : (s.omap.omapPwm t).timer with
    | none => exact absurd (setWidth_null t.isLt hr htimer) hnull
    | some k =>
      have hk := good.own t k htimer
      cases hk
      obtain ⟨_,hs'⟩|⟨hne,_⟩ := hcases
      · have hchanged := setWidth_changed t.isLt hr htimer
        have moved := Moved.ask hchanged ((s.asked t).map fun a => {a with width := some r})
          fun u _ g hg => (good.tuned u).mask g hg
        rw [← hs'] at moved
        refine ⟨_,_,_,moved,good.own t,hr,?_⟩
        have tuned := good.tuned t
        have hmask := moved.changed.mask
        have hpwm := moved.pwm_self
        have htm := moved.timer_self
        have hfreq (f : ℕ) (hf : f∈s'.freqOf t) : f∈s.freqOf t := by
          rw [hs'] at hf
          exact mem_freqOf_width.mp hf
        have hwidth (w : ℕ) (hw : w∈s'.widthOf t) : w=r := by
          rw [hs'] at hw
          exact mem_widthOf_width hw
        refine ⟨?_,?_,?_,?_,?_,?_,?_,?_⟩
        · intro f hf
          exact tuned.accepted f (hfreq f hf)
        · intro w hw
          rw [hwidth w hw]
          exact hr
        · intro f hf
          rw [hpwm]
          exact htimer
        · intro f hf
          rw [hmask]
          exact tuned.mask f (hfreq f hf)
        · intro f hf
          rw [htm]
          exact tuned.load f (hfreq f hf)
        · intro f hf
          rw [hpwm]
          exact tuned.freq f (hfreq f hf)
        · intro f hf w hw
          rw [htm,hpwm,tuned.mask f (hfreq f hf)]
        · intro f hf w hw
          have ⟨hne,hlt⟩ := tuned.accepted f (hfreq f hf)
          rw [hpwm,hwidth w hw]
          exact near_self (divider_pos hne hlt) (divider_le hrate f) hr
      · exact absurd (setWidth_returns t.isLt hr) hne
  · have hrefused := setWidth_refused (s := s.omap) t.isLt (Nat.lt_of_not_le hr)
    rw [hrefused] at hcases
    obtain ⟨hret,_⟩|⟨_,hs'⟩ := hcases
    · exact absurd hret (show -EINVAL≠0 by decide)
    · cases hs'
      exact good.still t rfl rfl rfl rfl

/-- Widths stay near when the frequency fits. -/
theorem WidthKept.near {f r : ℕ} (h : WidthKept rate s t f) (hr : r∈s.widthOf t)
    (hpos : 0<divider rate f) (hle : divider rate f≤MAX_UINT32)
    (hρ : (s.omap.omapPwm t).ratio≤PWM_WIDTH_MAX) (hmax : r≤PWM_WIDTH_MAX) :
    Near (divider rate f)
      (readWidth (MAX_UINT32-divider rate f) (s.omap.omapPwm t).ratio) r := by
  obtain ⟨hfew,hdown,hup⟩|⟨hmany,heq,hlt,hround⟩ := h r hr
  · unfold Near
    rw [computeRatio_readWidth hpos hfew hρ]
    exact near_of_close hpos hle hρ hmax hdown hup
  · rw [heq,readWidth_self hmany hle hlt hround]
    exact near_self hpos hle hmax

theorem setFreq_steps (good : Good rate s) (hrate : rate<2^32) {f : ℕ}
    (hfits : FreqFits rate s (.setFreq t f))
    (h : step rate s (.setFreq t f)=some s') : Steps rate s s' t := by
  have ⟨hnull,hcases⟩ := returned_cases h
  cases htimer : (s.omap.omapPwm t).timer with
  | none => exact absurd (setFreq_null t.isLt htimer) hnull
  | some k =>
    have hk := good.own t k htimer
    cases hk
    by_cases hrefused : rate/2≤f∨f=0
    · rw [setFreq_refused t.isLt hrefused] at hcases
      obtain ⟨hret,_⟩|⟨_,hs'⟩ := hcases
      · exact absurd hret (show -EINVAL≠0 by decide)
      · rw [hs']
        apply good.still t
        · simp
        · simp
        · simp
        · rfl
    · have ⟨hle,hne⟩ := not_or.mp hrefused
      have hlt := Nat.lt_of_not_le hle
      have ⟨hsame,hkept⟩ := hfits ⟨hne,hlt⟩
      have hret : (omapPwmSetFreq rate s.omap t f).2=0 := by
        rw [setFreq_eq t.isLt hne hlt]
      have hpos := divider_pos hne hlt
      have hmax := divider_le hrate f
      have hρ := good.ratio t
      obtain ⟨_,hs'⟩|⟨hnot,_⟩ := hcases
      · have hchanged := setFreq_changed t.isLt hrate hne hlt hρ htimer
        have moved := Moved.ask hchanged ((s.asked t).map fun a => {a with freq := some f})
          fun u hu g hg => congrArg (MAX_UINT32-·) (hsame u hu g hg).symm
        rw [← hs'] at moved
        refine ⟨_,_,_,moved,good.own t,readWidth_le hpos hmax hρ,?_⟩
        have tuned := good.tuned t
        have hmask := moved.changed.mask
        have hpwm := moved.pwm_self
        have htm := moved.timer_self
        have hfreq (g : ℕ) (hg : g∈s'.freqOf t) : g=f := by
          rw [hs'] at hg
          exact mem_freqOf_freq hg
        have hwidth (w : ℕ) (hw : w∈s'.widthOf t) : w∈s.widthOf t := by
          rw [hs'] at hw
          exact mem_widthOf_freq.mp hw
        refine ⟨?_,?_,?_,?_,?_,?_,?_,?_⟩
        · intro g hg
          rw [hfreq g hg]
          exact ⟨hne,hlt⟩
        · intro w hw
          exact tuned.small w (hwidth w hw)
        · intro g hg
          rw [hpwm]
          exact htimer
        · intro g hg
          rw [hfreq g hg]
          exact hmask
        · intro g hg
          rw [hfreq g hg,htm]
        · intro g hg
          rw [hfreq g hg,hpwm]
        · intro g hg w hw
          rw [hfreq g hg,htm,hpwm]
        · intro g hg w hw
          rw [hfreq g hg,hpwm]
          exact hkept.near (hwidth w hw) hpos hmax hρ (tuned.small w (hwidth w hw))
      · exact absurd hret hnot

/-! ## Runs -/

/-- Every step is about one PWM. -/
theorem step_steps (good : Good rate s) (hrate : rate<2^32) {e : Event}
    (hfits : FreqFits rate s e) (h : step rate s e=some s') : Steps rate s s' e.pwm := by
  cases e with
  | request t got => exact request_steps good h
  | release t => exact release_steps good h
  | setFreq t f => exact setFreq_steps good hrate hfits h
  | setWidth t r => exact setWidth_steps good hrate h

theorem Steps.good (h : Steps rate s s' t) (good : Good rate s) : Good rate s' := by
  obtain ⟨_,_,_,moved,hown,hratio,htuned⟩ := h
  exact moved.good good hown hratio htuned

theorem run_good (hrate : rate<2^32) {es : List Event}
    (h : Run (step rate) (FreqFits rate) start es s) : Good rate s :=
  h.invariant (Good rate) (start_good rate) fun good hfits hstep =>
    (step_steps good hrate hfits hstep).good good

/-- As long as accepted frequencies fit, every PWM outputs the frequency and the width it was
asked for last, and nothing done to another PWM changes this. -/
theorem outputs_asked (hrate : rate<2^32) {es : List Event}
    (h : Run (step rate) (FreqFits rate) start es s) (t : Fin PWM_NB_TIMER) {f r : ℕ}
    (hf : f∈s.freqOf t) (hr : r∈s.widthOf t) :
    Outputs rate s t f r∧
      ∀ e s',e.pwm≠t → FreqFits rate s e → step rate s e=some s' → Unmoved s s' t := by
  have good := run_good hrate h
  refine ⟨good.outputs hrate hf hr,?_⟩
  intro e s' hother hfits hstep
  obtain ⟨_,_,_,moved,_⟩ := step_steps good hrate hfits hstep
  exact moved.unmoved good (Ne.symm hother) hf

/-- Two PWMs at 1 kHz, of which one gets its frequency again. -/
theorem outputs_asked_example :
    ∃ es s,Outputs 26000000 s ⟨9,by decide⟩ 1000 2500∧
      Run (step 26000000) (FreqFits 26000000) start es s := by
  have ⟨s,hrun,hasked⟩ := exists_run (step 26000000)
    (fun s e => decide (FreqFits 26000000 s e)) start
    [.request ⟨9,by decide⟩ true,.request ⟨10,by decide⟩ true,.setFreq ⟨9,by decide⟩ 1000,
      .setWidth ⟨9,by decide⟩ 2500,.setFreq ⟨10,by decide⟩ 1000,
      .setWidth ⟨10,by decide⟩ 7500,.setFreq ⟨9,by decide⟩ 1000]
    (fun s => decide (s.freqOf ⟨9,by decide⟩=some 1000∧s.widthOf ⟨9,by decide⟩=some 2500))
    (by decide +kernel)
  have ⟨hf,hr⟩ := of_decide_eq_true hasked
  have hrun' := hrun.mono fun _ _ h => of_decide_eq_true h
  exact ⟨_,s,(outputs_asked (by decide) hrun' ⟨9,by decide⟩ hf hr).1,hrun'⟩

/-- A second PWM moves the mask, under which the first one sets its width again. And a frequency
set after a width of 2 leaves a width of 1. -/
theorem outputs_lost :
    (∃ s,Run (step 26000000) (fun _ _ => True) start
      [.request ⟨9,by decide⟩ true,.request ⟨10,by decide⟩ true,.setFreq ⟨9,by decide⟩ 1000,
        .setFreq ⟨10,by decide⟩ 50,.setWidth ⟨9,by decide⟩ 5000] s∧
      s.freqOf ⟨9,by decide⟩=some 1000∧s.widthOf ⟨9,by decide⟩=some 5000∧
      ¬Outputs 26000000 s ⟨9,by decide⟩ 1000 5000)∧
    ∃ s,Run (step 26000000) (fun _ _ => True) start
      [.request ⟨9,by decide⟩ true,.setWidth ⟨9,by decide⟩ 2,.setFreq ⟨9,by decide⟩ 7] s∧
      s.freqOf ⟨9,by decide⟩=some 7∧s.widthOf ⟨9,by decide⟩=some 2∧
      ¬Outputs 26000000 s ⟨9,by decide⟩ 7 2 := by
  let far (t : Fin PWM_NB_TIMER) (f r : ℕ) (s : State) : Bool :=
    decide (s.freqOf t=some f∧s.widthOf t=some r∧
      ¬|(((s.omap.timers t).matched:ℤ)-(s.omap.timers t).load)*10000-
        r*(26000000/2/f:ℕ)|≤10000)
  constructor
  · have ⟨s,hrun,hfar⟩ := exists_run (step 26000000) (fun _ _ => true) start
      [.request ⟨9,by decide⟩ true,.request ⟨10,by decide⟩ true,.setFreq ⟨9,by decide⟩ 1000,
        .setFreq ⟨10,by decide⟩ 50,.setWidth ⟨9,by decide⟩ 5000]
      (far ⟨9,by decide⟩ 1000 5000) (by decide +kernel)
    have ⟨hf,hr,hnot⟩ := of_decide_eq_true hfar
    exact ⟨s,hrun.mono fun _ _ _ => trivial,hf,hr,fun h => hnot h.matched⟩
  · have ⟨s,hrun,hfar⟩ := exists_run (step 26000000) (fun _ _ => true) start
      [.request ⟨9,by decide⟩ true,.setWidth ⟨9,by decide⟩ 2,.setFreq ⟨9,by decide⟩ 7]
      (far ⟨9,by decide⟩ 7 2) (by decide +kernel)
    have ⟨hf,hr,hnot⟩ := of_decide_eq_true hfar
    exact ⟨s,hrun.mono fun _ _ _ => trivial,hf,hr,fun h => hnot h.matched⟩

end ArdroneKernel.Pwm
