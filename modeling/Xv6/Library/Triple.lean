import Mathlib.Tactic

/-!
# Programs over a state that may stop early

A program is an `EStateM`: it either returns a value or stops with a reason, and in both cases the
state it reached is kept. `Triple P x Q E` reads: from a state in `P`, program `x` returns into
`Q` or stops into `E`. So `E` can carry a crash invariant, a condition on every state at which the
run can be cut off.
-/
namespace Xv6.Library

variable {σ ε α β : Type}

/-- Pre- and postcondition of a program, with a condition on early stops. -/
def Triple (P : σ → Prop) (x : EStateM ε σ α) (Q : α → σ → Prop) (E : ε → σ → Prop) : Prop :=
  ∀ s, P s → match x s with
    | .ok a t => Q a t
    | .error e t => E e t

namespace Triple

variable {P P' : σ → Prop} {Q Q' : α → σ → Prop} {R : β → σ → Prop} {E E' : ε → σ → Prop}

theorem of_ok {x : EStateM ε σ α} (h : Triple P x Q E) {s t : σ} {a : α} (hs : P s)
    (hx : x s = .ok a t) : Q a t := by
  have := h s hs
  rwa [hx] at this

theorem of_error {x : EStateM ε σ α} (h : Triple P x Q E) {s t : σ} {e : ε} (hs : P s)
    (hx : x s = .error e t) : E e t := by
  have := h s hs
  rwa [hx] at this

theorem pure {a : α} (h : ∀ s, P s → Q a s) : Triple P (Pure.pure a : EStateM ε σ α) Q E :=
  fun s hs => h s hs

theorem bind {x : EStateM ε σ α} {f : α → EStateM ε σ β}
    (hx : Triple P x Q E) (hf : ∀ a, Triple (Q a) (f a) R E) : Triple P (x >>= f) R E := by
  intro s hs
  have h := hx s hs
  simp only [Bind.bind, EStateM.bind]
  cases hxs : x s with
  | ok a t =>
    rw [hxs] at h
    exact hf a t h
  | error e t =>
    rw [hxs] at h
    exact h

theorem seq {x : EStateM ε σ PUnit} {y : EStateM ε σ β} {M : σ → Prop}
    (hx : Triple P x (fun _ => M) E) (hy : Triple M y R E) : Triple P (x >>= fun _ => y) R E :=
  hx.bind fun _ => hy

theorem conseq {x : EStateM ε σ α} (h : Triple P' x Q' E') (hP : ∀ s, P s → P' s)
    (hQ : ∀ a s, Q' a s → Q a s) (hE : ∀ e s, E' e s → E e s) : Triple P x Q E := by
  intro s hs
  have := h s (hP s hs)
  cases hxs : x s with
  | ok a t =>
    rw [hxs] at this
    exact hQ a t this
  | error e t =>
    rw [hxs] at this
    exact hE e t this

theorem pre {x : EStateM ε σ α} (h : Triple P' x Q E) (hP : ∀ s, P s → P' s) : Triple P x Q E :=
  h.conseq hP (fun _ _ h => h) fun _ _ h => h

theorem post {x : EStateM ε σ α} (h : Triple P x Q' E) (hQ : ∀ a s, Q' a s → Q a s) :
    Triple P x Q E :=
  h.conseq (fun _ h => h) hQ fun _ _ h => h

theorem throw {e : ε} (h : ∀ s, P s → E e s) :
    Triple P (MonadExcept.throw e : EStateM ε σ α) Q E :=
  fun s hs => h s hs

theorem read {f : σ → EStateM ε σ β} (h : ∀ s, P s → Triple P (f s) R E) :
    Triple P (MonadState.get >>= f) R E :=
  fun s hs => h s hs s hs

theorem set {s' : σ} {Q : PUnit → σ → Prop} (h : ∀ s, P s → Q ⟨⟩ s') :
    Triple P (MonadStateOf.set s' : EStateM ε σ PUnit) Q E :=
  fun s hs => h s hs

theorem modify {f : σ → σ} {Q : PUnit → σ → Prop} (h : ∀ s, P s → Q ⟨⟩ (f s)) :
    Triple P (modify f : EStateM ε σ PUnit) Q E :=
  fun s hs => h s hs

theorem ite {c : Prop} [Decidable c] {x y : EStateM ε σ α}
    (hx : c → Triple P x Q E) (hy : ¬c → Triple P y Q E) :
    Triple P (if c then x else y) Q E := by
  by_cases h : c
  · rw [if_pos h]
    exact hx h
  · rw [if_neg h]
    exact hy h

theorem assume {p : Prop} {x : EStateM ε σ α} (h : p → Triple P x Q E) :
    Triple (fun s => p ∧ P s) x Q E :=
  fun s hs => h hs.1 s hs.2

theorem runs {x : EStateM ε σ α} (h : Triple P x Q' E)
    (hQ : ∀ s a t, P s → x s = .ok a t → Q a t) : Triple P x Q E := by
  intro s hs
  cases hx : x s with
  | ok a t => exact hQ s a t hs hx
  | error e t => exact h.of_error hs hx

theorem of_runs {x : EStateM ε σ α} (hQ : ∀ s a t, P s → x s = .ok a t → Q a t) :
    Triple P x Q fun _ _ => True := by
  intro s hs
  cases hx : x s with
  | ok a t => exact hQ s a t hs hx
  | error e t => trivial

theorem fix {x : EStateM ε σ α} (h : ∀ s, P s → Triple (fun t => t = s) x Q E) :
    Triple P x Q E :=
  fun s hs => h s hs s rfl

end Triple

/-- `for (i = a; i < a + k; i++) body(i)`. -/
def loop (body : ℕ → EStateM ε σ PUnit) : ℕ → ℕ → EStateM ε σ PUnit
  | _, 0 => pure ⟨⟩
  | i, k + 1 => do
    body i
    loop body (i + 1) k

theorem Triple.loop {body : ℕ → EStateM ε σ PUnit} {I : ℕ → σ → Prop} {E : ε → σ → Prop}
    (a k : ℕ) (h : ∀ i, a ≤ i → i < a + k → Triple (I i) (body i) (fun _ => I (i + 1)) E) :
    Triple (I a) (Library.loop body a k) (fun _ => I (a + k)) E := by
  induction k generalizing a with
  | zero => exact Triple.pure fun s hs => hs
  | succ k ih =>
    refine (h a le_rfl (by omega)).seq ?_
    have hrest := ih (a + 1) fun i hi hk => h i (by omega) (by omega)
    rwa [show a + 1 + k = a + (k + 1) by omega] at hrest

theorem Triple.loop_const {body : ℕ → EStateM ε σ PUnit} {I : σ → Prop} {E : ε → σ → Prop}
    (h : ∀ i, Triple I (body i) (fun _ => I) E) (a k : ℕ) :
    Triple I (Library.loop body a k) (fun _ => I) E :=
  Triple.loop (I := fun _ => I) a k fun i _ _ => h i

end Xv6.Library
