import Mathlib.Data.List.Basic

/-!
# Runs of a system

A system takes one of several steps after another, each of which is possible
in some states only. A run may be restricted to steps that meet a condition.
-/

namespace ArdroneKernel.Execution

variable {σ ε : Type}

/-- Runs from one state to another, all of whose steps meet a condition. -/
inductive Run (step : σ → ε → Option σ) (ok : σ → ε → Prop) : σ → List ε → σ → Prop where
  /-- Nothing happens. -/
  | nil (s : σ) : Run step ok s [] s
  /-- A step, and a run after it. -/
  | cons {s s' t : σ} {e : ε} {es : List ε} :
    ok s e → step s e=some s' → Run step ok s' es t → Run step ok s (e::es) t

variable {step : σ → ε → Option σ} {ok ok' : σ → ε → Prop} {s t : σ} {es : List ε}

/-- What every step keeps holds in the state a run leads to. -/
theorem Run.invariant (inv : σ → Prop) (h : Run step ok s es t) (start : inv s)
    (keep : ∀ {s s' e},inv s → ok s e → step s e=some s' → inv s') : inv t := by
  induction h with
  | nil => exact start
  | cons hok hstep _ ih => exact ih (keep start hok hstep)

/-- A run under one condition is one under a weaker condition. -/
theorem Run.mono (h : Run step ok s es t) (weaker : ∀ s e,ok s e → ok' s e) :
    Run step ok' s es t := by
  induction h with
  | nil s => exact Run.nil s
  | cons hok hstep _ ih => exact Run.cons (weaker _ _ hok) hstep ih

/-- The state after a run, when all its steps are possible and meet the condition. -/
def eval (step : σ → ε → Option σ) (ok : σ → ε → Bool) : σ → List ε → Option σ
  | s, [] => some s
  | s, e::es => if ok s e then (step s e).bind fun s' => eval step ok s' es else none

theorem run_of_eval {ok : σ → ε → Bool} (h : eval step ok s es=some t) :
    Run step (fun s e => ok s e=true) s es t := by
  induction es generalizing s with
  | nil =>
    cases h
    exact Run.nil _
  | cons e es ih =>
    unfold eval at h
    split at h
    next hok =>
      have ⟨s',hs,ht⟩ := Option.bind_eq_some_iff.mp h
      exact Run.cons hok hs (ih ht)
    · cases h

/-- A run found by evaluation, with what is evaluated of its last state. -/
theorem exists_run (step : σ → ε → Option σ) (ok : σ → ε → Bool) (s : σ) (es : List ε)
    (p : σ → Bool) (h : (eval step ok s es).any p=true) :
    ∃ t,Run step (fun s e => ok s e=true) s es t∧p t=true := by
  cases ht : eval step ok s es with
  | none =>
    rw [ht] at h
    cases h
  | some t =>
    rw [ht] at h
    exact ⟨t,run_of_eval ht,h⟩

end ArdroneKernel.Execution
