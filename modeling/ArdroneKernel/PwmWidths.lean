import ArdroneKernel.OmapPwm
import Mathlib.Algebra.Order.Ring.Abs

/-!
# Widths of the PWMs

A width is counted in ticks of the timer, of which a period has as many as the divider of the
frequency. The driver rounds a width to ticks, and reads it back by rounding down.
-/

namespace ArdroneKernel.Pwm

/-! ## Rounding to ticks -/

variable {n r ρ : ℕ}

theorem sub_mask (hn : n≤MAX_UINT32) : MAX_UINT32-(MAX_UINT32-n)=n := Nat.sub_sub_self hn

/-- A width in ticks before a whole period is refused. -/
theorem computeRatio_eq (hn : n≤MAX_UINT32) (hr : r≤PWM_WIDTH_MAX) :
    computeRatio (MAX_UINT32-n) r=
      if (r*n+5000)/10000=n∧(r*n+5000)/10000≠0 then n-1 else (r*n+5000)/10000 := by
  unfold computeRatio
  rw [if_neg (Nat.not_lt.mpr hr),sub_mask hn]
  have hle : r*n≤10000*n := Nat.mul_le_mul_right n hr
  have hsmall : (r*n+PWM_WIDTH_MAX/2)/PWM_WIDTH_MAX<2^32 := by
    unfold MAX_UINT32 at hn
    unfold PWM_WIDTH_MAX
    omega
  rw [Nat.mod_eq_of_lt hsmall]
  rfl

/-- A width never takes a whole period. -/
theorem computeRatio_lt (hpos : 0<n) (hn : n≤MAX_UINT32) (hr : r≤PWM_WIDTH_MAX) :
    computeRatio (MAX_UINT32-n) r<n := by
  have hle : r*n≤10000*n := Nat.mul_le_mul_right n hr
  rw [computeRatio_eq hn hr]
  split
  · omega
  · omega

/-- Rounding, and what is refused, take less than a tick. -/
theorem computeRatio_bounds (hpos : 0<n) (hn : n≤MAX_UINT32) (hr : r≤PWM_WIDTH_MAX) :
    computeRatio (MAX_UINT32-n) r*10000≤r*n+5000∧
      r*n≤computeRatio (MAX_UINT32-n) r*10000+10000 := by
  have hle : r*n≤10000*n := Nat.mul_le_mul_right n hr
  rw [computeRatio_eq hn hr]
  split
  · omega
  · omega

/-! ## Reading back -/

theorem readWidth_eq (hpos : 0<n) (hn : n≤MAX_UINT32) (hr : r≤PWM_WIDTH_MAX) :
    readWidth (MAX_UINT32-n) r=computeRatio (MAX_UINT32-n) r*10000/n := by
  unfold readWidth
  rw [sub_mask hn]
  have hlt := computeRatio_lt hpos hn hr
  have hquot : computeRatio (MAX_UINT32-n) r*PWM_WIDTH_MAX/n≤10000 := by
    apply Nat.div_le_of_le_mul
    unfold PWM_WIDTH_MAX
    omega
  rw [Nat.mod_eq_of_lt (by omega)]
  rfl

theorem readWidth_le (hpos : 0<n) (hn : n≤MAX_UINT32) (hr : r≤PWM_WIDTH_MAX) :
    readWidth (MAX_UINT32-n) r≤PWM_WIDTH_MAX := by
  rw [readWidth_eq hpos hn hr]
  have hlt := computeRatio_lt hpos hn hr
  apply Nat.div_le_of_le_mul
  unfold PWM_WIDTH_MAX
  omega

/-- What is read back, in ticks. -/
theorem readWidth_bounds (hpos : 0<n) (hn : n≤MAX_UINT32) (hr : r≤PWM_WIDTH_MAX) :
    readWidth (MAX_UINT32-n) r*n≤computeRatio (MAX_UINT32-n) r*10000∧
      computeRatio (MAX_UINT32-n) r*10000<readWidth (MAX_UINT32-n) r*n+n := by
  rw [readWidth_eq hpos hn hr]
  have hdiv := Nat.div_mul_le_self (computeRatio (MAX_UINT32-n) r*10000) n
  have hmod := Nat.lt_div_mul_add (a := computeRatio (MAX_UINT32-n) r*10000) hpos
  exact ⟨hdiv,hmod⟩

/-- With few ticks, a width that was read back takes as many ticks again. -/
theorem computeRatio_readWidth (hpos : 0<n) (hfew : n≤5000) (hr : r≤PWM_WIDTH_MAX) :
    computeRatio (MAX_UINT32-n) (readWidth (MAX_UINT32-n) r)=
      computeRatio (MAX_UINT32-n) r := by
  have hn : n≤MAX_UINT32 := Nat.le_trans hfew (by decide)
  have hlt := computeRatio_lt hpos hn hr
  have ⟨hdown,hup⟩ := readWidth_bounds hpos hn hr
  rw [computeRatio_eq hn (readWidth_le hpos hn hr)]
  have hround : (readWidth (MAX_UINT32-n) r*n+5000)/10000=
      computeRatio (MAX_UINT32-n) r := by omega
  rw [hround,if_neg fun h => Nat.ne_of_lt hlt h.1]

/-- A width that is not rounded down to ticks is read back as it is. -/
theorem readWidth_self (hmany : 5000<n) (hn : n≤MAX_UINT32) (hr : r<PWM_WIDTH_MAX)
    (hup : r*n%10000=0∨5000≤r*n%10000) : readWidth (MAX_UINT32-n) r=r := by
  have hpos : 0<n := by omega
  have hle : r*n+n≤10000*n := by
    have hmul : (r+1)*n≤10000*n := Nat.mul_le_mul_right n hr
    rwa [Nat.succ_mul] at hmul
  rw [readWidth_eq hpos hn (Nat.le_of_lt hr),computeRatio_eq hn (Nat.le_of_lt hr),
    if_neg (by omega)]
  apply Nat.div_eq_of_lt_le
  · omega
  · rw [Nat.succ_mul]
    omega

/-! ## How near a width is -/

/-- The ticks of a stored ratio are within one tick of those of a width. -/
def Near (n ρ r : ℕ) : Prop :=
  computeRatio (MAX_UINT32-n) ρ*10000≤r*n+10000∧
    r*n≤computeRatio (MAX_UINT32-n) ρ*10000+10000

theorem near_self (hpos : 0<n) (hn : n≤MAX_UINT32) (hr : r≤PWM_WIDTH_MAX) :
    Near n r r := by
  have ⟨hdown,hup⟩ := computeRatio_bounds hpos hn hr
  exact ⟨Nat.le_trans hdown (by omega),hup⟩

/-- Widths that differ by at most half a tick are near each other. -/
theorem near_of_close (hpos : 0<n) (hn : n≤MAX_UINT32) (hρ : ρ≤PWM_WIDTH_MAX)
    (hr : r≤PWM_WIDTH_MAX) (hdown : ρ*n≤r*n+5000) (hup : r*n≤ρ*n+5000) : Near n ρ r := by
  have hmax : r*n≤10000*n := Nat.mul_le_mul_right n hr
  unfold Near
  rw [computeRatio_eq hn hρ]
  split
  · omega
  · omega

/-- What is read back of a stored ratio is near the width when its ticks are. -/
theorem Near.read (h : Near n ρ r) (hpos : 0<n) (hn : n≤MAX_UINT32)
    (hρ : ρ≤PWM_WIDTH_MAX) :
    |(readWidth (MAX_UINT32-n) ρ:ℤ)-r| * n≤n+10000 := by
  have ⟨hdown,hup⟩ := readWidth_bounds hpos hn hρ
  have ⟨hbelow,habove⟩ := h
  have hscale : |(readWidth (MAX_UINT32-n) ρ:ℤ)-r| * n=
      |((readWidth (MAX_UINT32-n) ρ:ℤ)-r)*n| := by
    rw [abs_mul,Nat.abs_cast]
  rw [hscale,sub_mul,abs_le]
  exact ⟨by omega,by omega⟩

/-- The match value does not pass the end of the counter. -/
theorem matchValue_eq (hpos : 0<n) (hn : n≤MAX_UINT32) (hρ : ρ≤PWM_WIDTH_MAX) :
    matchValue (MAX_UINT32-n) ρ=MAX_UINT32-n+computeRatio (MAX_UINT32-n) ρ := by
  have hlt := computeRatio_lt hpos hn hρ
  apply Nat.mod_eq_of_lt
  unfold MAX_UINT32 at *
  omega

/-- The match value is within one tick of the width. -/
theorem Near.matched (h : Near n ρ r) (hpos : 0<n) (hn : n≤MAX_UINT32)
    (hρ : ρ≤PWM_WIDTH_MAX) :
    |((matchValue (MAX_UINT32-n) ρ:ℤ)-(MAX_UINT32-n:ℕ))*10000-r*n|≤10000 := by
  have ⟨hbelow,habove⟩ := h
  rw [matchValue_eq hpos hn hρ,abs_le]
  exact ⟨by omega,by omega⟩

/-! ## Setting a frequency -/

/-- What the clock is divided by for a frequency. -/
def divider (rate freq : ℕ) : ℕ := rate/2/freq

variable {rate freq timer k : ℕ} {s : Omap}

theorem divider_pos (hf : freq≠0) (hlt : freq<rate/2) : 0<divider rate freq :=
  Nat.div_pos (Nat.le_of_lt hlt) (Nat.pos_of_ne_zero hf)

theorem divider_le (hrate : rate<2^32) (freq : ℕ) : divider rate freq≤MAX_UINT32 := by
  have hdiv := Nat.div_le_self (rate/2) freq
  unfold divider MAX_UINT32
  omega

/-- `omap_pwm_set_freq` writes the load value, and the match value of the width it reads back. -/
theorem setFreq_changed (ht : timer<PWM_NB_TIMER) (hrate : rate<2^32) (hf : freq≠0)
    (hlt : freq<rate/2) (hr : (s.omapPwm timer).ratio≤PWM_WIDTH_MAX)
    (hk : (s.omapPwm timer).timer=some k) :
    let mask := MAX_UINT32-divider rate freq
    let ratio := readWidth mask (s.omapPwm timer).ratio
    Changed s (omapPwmSetFreq rate s timer freq).1 timer k mask
      {s.omapPwm timer with ratio := ratio,freq := rate/2/divider rate freq}
      {s.timers k with load := mask,matched := matchValue mask ratio} := by
  intro mask ratio
  have ⟨hpwm,hmask,htimers⟩ := getWidth_fields (freqSet rate s timer freq) timer
  rw [freqSet_omapPwm] at hpwm
  rw [freqSet_mask] at hmask
  rw [freqSet_timers hk] at htimers
  have hq : ratio≤PWM_WIDTH_MAX :=
    readWidth_le (divider_pos hf hlt) (divider_le hrate freq) hr
  have hset := setWidth_changed (s := (omapPwmGetWidth (freqSet rate s timer freq) timer).1)
    ht hq (k := k) (by rw [hpwm,Function.update_self]; exact hk)
  rw [setFreq_eq ht hf hlt]
  change Changed s (omapPwmSetWidth _ timer ratio).1 timer k mask _ _
  refine ⟨?_,?_,?_⟩
  · rw [hset.omapPwm,hpwm,Function.update_self,Function.update_idem]
    rfl
  · rw [hset.mask,hmask]
    rfl
  · rw [hset.timers,htimers,Function.update_self,Function.update_idem,hmask]
    rfl

end ArdroneKernel.Pwm
