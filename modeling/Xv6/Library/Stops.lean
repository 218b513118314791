import Xv6.Library.Run

/-!
# Why a program may stop

`StopsIn E x s` says of the run of `x` from state `s` that it returns or stops for a reason in
`E`. The rule for sequencing keeps the run of the first program as a hypothesis, so that facts
about programs that return can be used in between.
-/
namespace Xv6.Library

variable {σ ε α β : Type} {E : ε → Prop} {s : σ}

def StopsIn (E : ε → Prop) (x : EStateM ε σ α) (s : σ) : Prop :=
  ∀ e t, x s = .error e t → E e

abbrev Returns (x : EStateM ε σ α) (s : σ) : Prop := StopsIn (fun _ => False) x s

theorem Returns.of_ok {x : EStateM ε σ α} {a : α} {t : σ} (h : x s = .ok a t) : Returns x s := by
  intro e t' he
  simp [h] at he

theorem stopsIn_modify {g : σ → σ} : StopsIn E (modify g : EStateM ε σ PUnit) s := by
  intro e t h
  cases h

theorem stopsIn_set {s' : σ} : StopsIn E (set s' : EStateM ε σ PUnit) s := by
  intro e t h
  cases h

namespace StopsIn

theorem of_triple {P : σ → Prop} {x : EStateM ε σ α} {Q : α → σ → Prop}
    (h : Triple P x Q fun e _ => E e) (hs : P s) : StopsIn E x s :=
  fun _ _ hx => h.of_error hs hx

theorem pure (a : α) : StopsIn E (Pure.pure a : EStateM ε σ α) s := by
  intro e t hx
  cases hx

theorem throw {e : ε} (h : E e) : StopsIn E (MonadExcept.throw e : EStateM ε σ α) s := by
  intro e' t hx
  cases hx
  exact h

theorem bind {x : EStateM ε σ α} {f : α → EStateM ε σ β} (hx : StopsIn E x s)
    (hf : ∀ a t, x s = .ok a t → StopsIn E (f a) t) : StopsIn E (x >>= f) s := by
  intro e t h
  cases hr : x s with
  | ok a u => exact hf a u hr e t (by simpa [Bind.bind, EStateM.bind, hr] using h)
  | error e' u =>
    have he : e' = e ∧ u = t := by simpa [Bind.bind, EStateM.bind, hr] using h
    obtain ⟨rfl, rfl⟩ := he
    exact hx e' u hr

theorem read {f : σ → EStateM ε σ β} (h : StopsIn E (f s) s) :
    StopsIn E (MonadState.get >>= f) s := h

theorem modify {g : σ → σ} {f : EStateM ε σ β} (h : StopsIn E f (g s)) :
    StopsIn E (modify g >>= fun _ => f) s := h

theorem set {s' : σ} {f : EStateM ε σ β} (h : StopsIn E f s') :
    StopsIn E (MonadStateOf.set s' >>= fun _ => f) s := h

theorem ite {c : Prop} [Decidable c] {x y : EStateM ε σ α} (hx : c → StopsIn E x s)
    (hy : ¬c → StopsIn E y s) : StopsIn E (if c then x else y) s := by
  split_ifs with hc
  · exact hx hc
  · exact hy hc

theorem loop {body : ℕ → EStateM ε σ PUnit} {I : ℕ → σ → Prop} {i k : ℕ} (h0 : I i s)
    (hbody : ∀ j s, i ≤ j → j < i + k → I j s → StopsIn E (body j) s)
    (hstep : ∀ j s t, i ≤ j → j < i + k → I j s → body j s = .ok ⟨⟩ t → I (j + 1) t) :
    StopsIn E (Library.loop body i k) s := by
  induction k generalizing i s with
  | zero => exact pure _
  | succ k ih =>
    apply bind (hbody i s le_rfl (by omega) h0)
    intro _ t hx
    apply ih (hstep i s t le_rfl (by omega) h0 hx)
    · exact fun j s hj hk => hbody j s (by omega) (by omega)
    · exact fun j s t hj hk => hstep j s t (by omega) (by omega)

theorem loop_then {body : ℕ → EStateM ε σ PUnit} {f : EStateM ε σ β} {I : ℕ → σ → Prop} {i k : ℕ}
    (h0 : I i s) (hbody : ∀ j s, i ≤ j → j < i + k → I j s → StopsIn E (body j) s)
    (hstep : ∀ j s t, i ≤ j → j < i + k → I j s → body j s = .ok ⟨⟩ t → I (j + 1) t)
    (hf : ∀ t, I (i + k) t → StopsIn E f t) :
    StopsIn E (Library.loop body i k >>= fun _ => f) s := by
  apply bind (loop h0 hbody hstep)
  intro _ t hx
  exact hf t (loop_ok hx h0 hstep)

theorem returns {x : EStateM ε σ α} (h : StopsIn (fun _ => False) x s) :
    ∃ a t, x s = .ok a t := by
  cases hr : x s with
  | ok a t => exact ⟨a, t, rfl⟩
  | error e t => exact (h e t hr).elim

end StopsIn

theorem Triple.returns {P : σ → Prop} {x : EStateM ε σ α} {Q : α → σ → Prop}
    (h : Triple P x Q fun _ _ => False) (hs : P s) : ∃ a t, x s = .ok a t ∧ Q a t := by
  obtain ⟨a, t, hx⟩ := (StopsIn.of_triple h hs).returns
  exact ⟨a, t, hx, h.of_ok hs hx⟩

end Xv6.Library
