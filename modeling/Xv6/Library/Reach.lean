import Mathlib.Tactic

/-!
# Runs of a labelled transition system

`Reach R ok s₀ s`: a run of `R` leads from `s₀` to `s`, and every label on it was allowed by `ok`
in the state where it was taken. For a system given by a decidable step function, a concrete run
is followed by evaluation.
-/
namespace Xv6.Library

variable {σ ε δ : Type}

inductive Reach (R : σ → ε → σ → Prop) (ok : σ → ε → Prop) (s₀ : σ) : σ → Prop
  | refl : Reach R ok s₀ s₀
  | tail {s t : σ} {e : ε} : Reach R ok s₀ s → ok s e → R s e t → Reach R ok s₀ t

variable {R : σ → ε → σ → Prop} {ok ok' : σ → ε → Prop} {s₀ s : σ}

theorem Reach.invariant {I : σ → Prop} (h : Reach R ok s₀ s) (h0 : I s₀)
    (hstep : ∀ s e t, I s → ok s e → R s e t → I t) : I s := by
  induction h with
  | refl => exact h0
  | tail _ hok hR ih => exact hstep _ _ _ ih hok hR

/-- The labels of a run. -/
inductive Trail (R : σ → ε → σ → Prop) (s₀ : σ) : List ε → σ → Prop
  | refl : Trail R s₀ [] s₀
  | tail {s t : σ} {e : ε} {es : List ε} : Trail R s₀ es s → R s e t → Trail R s₀ (es ++ [e]) t

/-- A simulation of single steps is one of runs. -/
theorem Trail.simulate {τ : Type} {R' : τ → ε → τ → Prop} {I : σ → τ → Prop} {es : List ε} {t₀ : τ}
    (h : Trail R s₀ es s) (h0 : I s₀ t₀)
    (hstep : ∀ s e s' t, I s t → R s e s' → ∃ t', R' t e t' ∧ I s' t') :
    ∃ t, Trail R' t₀ es t ∧ I s t := by
  induction h with
  | refl => exact ⟨t₀, .refl, h0⟩
  | tail _ hR ih =>
    obtain ⟨t, hrun, hI⟩ := ih
    obtain ⟨t', hR', hI'⟩ := hstep _ _ _ t hI hR
    exact ⟨t', hrun.tail hR', hI'⟩

def stepRel (step : σ → ε → Except δ σ) (s : σ) (e : ε) (t : σ) : Prop := step s e = .ok t

def stopsWith [DecidableEq δ] (d : δ) : Except δ σ → Bool
  | .ok _ => false
  | .error e => e = d

theorem of_stopsWith [DecidableEq δ] {d : δ} {r : Except δ σ} (h : stopsWith d r = true) :
    r = .error d := by
  cases r with
  | ok t => cases h
  | error e => exact congrArg Except.error (of_decide_eq_true h)

/-- Follow a list of labels, checking that each is allowed. -/
def follow (step : σ → ε → Except δ σ) (ok : σ → ε → Prop) [∀ s e, Decidable (ok s e)] :
    σ → List ε → Option σ
  | s, [] => some s
  | s, e :: es =>
    if ok s e then
      match step s e with
      | .ok t => follow step ok t es
      | .error _ => none
    else none

theorem reach_of_follow {step : σ → ε → Except δ σ} [∀ s e, Decidable (ok s e)]
    (es : List ε) {t : σ} (hs : Reach (stepRel step) ok s₀ s) (h : follow step ok s es = some t) :
    Reach (stepRel step) ok s₀ t := by
  induction es generalizing s with
  | nil =>
    cases h
    exact hs
  | cons e es ih =>
    unfold follow at h
    split_ifs at h with hok
    cases hstep : step s e with
    | ok u =>
      rw [hstep] at h
      exact ih (hs.tail hok hstep) h
    | error d =>
      rw [hstep] at h
      cases h

/-- A state with a record of what has happened, which no step looks at. -/
structure Traced (σ γ : Type) where
  state : σ
  trace : γ

/-- A step that is recorded by `note`, which is given the states before and after. -/
def traced {γ : Type} (step : σ → ε → Except δ σ) (note : σ → ε → σ → γ → γ) (h : Traced σ γ)
    (e : ε) : Except δ (Traced σ γ) :=
  match step h.state e with
  | .ok t => .ok ⟨t, note h.state e t h.trace⟩
  | .error d => .error d

theorem traced_ok {γ : Type} {step : σ → ε → Except δ σ} {note : σ → ε → σ → γ → γ}
    {h h' : Traced σ γ} {e : ε} (hx : traced step note h e = .ok h') :
    step h.state e = .ok h'.state ∧ h'.trace = note h.state e h'.state h.trace := by
  unfold traced at hx
  cases hs : step h.state e with
  | ok t =>
    rw [hs] at hx
    cases hx
    exact ⟨rfl, rfl⟩
  | error d =>
    rw [hs] at hx
    cases hx

end Xv6.Library
