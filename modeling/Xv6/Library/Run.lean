import Xv6.Library.Triple

/-!
# Successful runs of stateful programs

How a program that returned can have come to its result. Each rule takes one construct apart, so
that a proof follows the steps of a kernel function backwards.
-/
namespace Xv6.Library

variable {σ ε α β : Type} {s t : σ} {a : α} {b : β}

/-- Whether a run returned, with a result and a state that pass a test. -/
def passes (test : α → σ → Bool) : EStateM.Result ε σ α → Bool
  | .ok a s => test a s
  | .error _ _ => false

theorem of_passes {test : α → σ → Bool} {r : EStateM.Result ε σ α} (h : passes test r = true) :
    ∃ a t, r = .ok a t ∧ test a t = true := by
  cases r with
  | ok a t => exact ⟨a, t, rfl, h⟩
  | error e t => cases h

@[simp] theorem pure_ok {a' : α} :
    (pure a : EStateM ε σ α) s = .ok a' t ↔ a = a' ∧ s = t := by
  constructor
  · intro h
    cases h
    exact ⟨rfl, rfl⟩
  · rintro ⟨rfl, rfl⟩
    rfl

@[simp] theorem bind_ok {x : EStateM ε σ α} {f : α → EStateM ε σ β} :
    (x >>= f) s = .ok b t ↔ ∃ a u, x s = .ok a u ∧ f a u = .ok b t := by
  simp only [Bind.bind, EStateM.bind]
  cases hx : x s with
  | ok a u =>
    constructor
    · intro h
      exact ⟨a, u, rfl, h⟩
    · rintro ⟨a', u', h, h'⟩
      cases h
      exact h'
  | error e u =>
    constructor
    · intro h
      cases h
    · rintro ⟨a', u', h, -⟩
      cases h

theorem bind_run {x : EStateM ε σ α} {f : α → EStateM ε σ β} (h : x s = .ok a t) :
    (x >>= f) s = f a t := by
  simp only [Bind.bind, EStateM.bind, h]

theorem get_run {f : σ → EStateM ε σ β} : ((get : EStateM ε σ σ) >>= f) s = f s s := rfl

theorem set_run {s' : σ} {f : PUnit → EStateM ε σ β} :
    ((set s' : EStateM ε σ PUnit) >>= f) s = f ⟨⟩ s' := rfl

theorem modify_run {g : σ → σ} {f : PUnit → EStateM ε σ β} :
    ((modify g : EStateM ε σ PUnit) >>= f) s = f ⟨⟩ (g s) := rfl

theorem get_bind_ok {f : σ → EStateM ε σ β}
    (h : ((get : EStateM ε σ σ) >>= f) s = .ok b t) : f s s = .ok b t := h

@[simp] theorem get_ok {r : σ} :
    (get : EStateM ε σ σ) s = .ok r t ↔ s = r ∧ s = t := by
  constructor
  · intro h
    cases h
    exact ⟨rfl, rfl⟩
  · rintro ⟨rfl, rfl⟩
    rfl

@[simp] theorem set_ok {s' : σ} {u : PUnit} :
    (set s' : EStateM ε σ PUnit) s = .ok u t ↔ s' = t := by
  constructor
  · intro h
    cases h
    rfl
  · rintro rfl
    rfl

@[simp] theorem modify_ok {f : σ → σ} {u : PUnit} :
    (modify f : EStateM ε σ PUnit) s = .ok u t ↔ f s = t := by
  constructor
  · intro h
    cases h
    rfl
  · rintro rfl
    rfl

@[simp] theorem throw_ok {e : ε} :
    ¬ (throw e : EStateM ε σ α) s = .ok a t := by
  intro h
  cases h

theorem ite_ok {c : Prop} [Decidable c] {x y : EStateM ε σ α}
    (h : (if c then x else y) s = .ok a t) : (c ∧ x s = .ok a t) ∨ (¬c ∧ y s = .ok a t) := by
  split_ifs at h with hc
  · exact .inl ⟨hc, h⟩
  · exact .inr ⟨hc, h⟩

theorem pure_ite_ok {c : Prop} [Decidable c] {b : α} {y : EStateM ε σ α}
    (h : (if c then pure b else y) s = .ok a t) : (c ∧ b = a ∧ s = t) ∨ (¬c ∧ y s = .ok a t) :=
  (ite_ok h).imp_left fun hx => ⟨hx.1, pure_ok.mp hx.2⟩

theorem throw_ite_ok {c : Prop} [Decidable c] {e : ε} {y : EStateM ε σ α}
    (h : (if c then throw e else y) s = .ok a t) : ¬c ∧ y s = .ok a t := by
  rcases ite_ok h with ⟨-, h⟩ | h
  · exact (throw_ok h).elim
  · exact h

theorem loop_ok {body : ℕ → EStateM ε σ PUnit} {I : ℕ → σ → Prop} {i k : ℕ} {u : PUnit}
    (h : loop body i k s = .ok u t) (h0 : I i s)
    (hstep : ∀ j s t, i ≤ j → j < i + k → I j s → body j s = .ok ⟨⟩ t → I (j + 1) t) :
    I (i + k) t := by
  induction k generalizing i s with
  | zero =>
    obtain ⟨-, rfl⟩ := pure_ok.mp h
    exact h0
  | succ k ih =>
    obtain ⟨_, u, hbody, hrest⟩ := bind_ok.mp h
    have hnext := ih hrest (hstep i s u le_rfl (by omega) h0 hbody)
      fun j s t hj hk => hstep j s t (by omega) (by omega)
    rwa [show i + 1 + k = i + (k + 1) by omega] at hnext

end Xv6.Library
