import Xv6.Pipes.Fifo

/-!
# Bytes that reach the readers

`piperead` takes a byte out of the buffer before it copies it to the user. The bytes that arrive
in user memory are a prefix of the bytes written in every run in which these copies succeed. A
byte whose copy fails is in neither place.
-/
namespace Xv6.Pipes

open Library State List Option

def deliveredBy (s : State) : Event → List UInt8
  | .run p (some _) =>
    match s.thread p with
    | .piperead _ _ (.copyout ch) => [ch]
    | _ => []
  | _ => []

/-- A run, with the bytes that were copied to user memory. -/
structure Delivery where
  history : History
  delivered : List UInt8

def Delivery.step (d : Delivery) (e : Event) : Except Unit Delivery :=
  match d.history.step e with
  | .error _ => .error ()
  | .ok h => .ok ⟨h, d.delivered ++ deliveredBy d.history.state e⟩

/-- A thread that has taken a byte can store it in the user's buffer. -/
def CopiesOut (d : Delivery) : Event → Prop
  | .run p none =>
    match d.history.state.thread p with
    | .piperead _ _ (.copyout _) => False
    | _ => True
  | _ => True

instance (d : Delivery) (e : Event) : Decidable (CopiesOut d e) := by
  unfold CopiesOut
  split
  · split <;> infer_instance
  · infer_instance

def Thread.carried : Thread → List UInt8
  | .piperead _ _ (.copyout ch) => [ch]
  | _ => []

/-- The byte on its way to a reader; only the holder of the lock can have one. -/
def State.inFlight (s : State) : List UInt8 := s.lock.elim [] fun p => (s.thread p).carried

section Steps

variable {s t : State} {p : ℕ} {i n : ℤ} {input : Option UInt8}

theorem carried_of_ready {x : Thread} (h : x.Ready) : x.carried = [] := by
  cases x with
  | piperead i n pc => exact h.elim
  | _ => rfl

theorem inFlight_of_lock (h : s.lock = some p) : s.inFlight = (s.thread p).carried := by
  simp [inFlight, h]

theorem inFlight_of_free (h : s.lock = none) : s.inFlight = [] := by
  simp [inFlight, h]

theorem inFlight_setThread {x : Thread} (h : x.carried = (s.thread p).carried) :
    (s.setThread p x).inFlight = s.inFlight := by
  have hthread : ∀ q, ((s.setThread p x).thread q).carried = (s.thread q).carried := by
    intro q
    by_cases hq : q = p
    · simp [setThread, hq, h]
    · simp [setThread, hq]
  simp only [inFlight, hthread]
  rfl

theorem carried_kill (x : Thread) : x.kill.carried = x.carried := by
  unfold Thread.kill
  split <;> rfl

theorem pipewrite_delivers {pc : WritePc} (h : s.Sound) (hp : s.thread p = .pipewrite i n pc)
    (hx : pipewrite s p i n input pc = some t) : s.inFlight = [] ∧ t.inFlight = [] := by
  have hmine : pc ≠ .acquire → pc ≠ .sleep → s.lock = some p ∧ s.inFlight = [] := by
    intro ha hs
    have hlock := h.locked p (by simp [hp, Thread.Holds, ha, hs])
    exact ⟨hlock, by simp [inFlight_of_lock hlock, hp, Thread.carried]⟩
  cases pc with
  | acquire =>
    simp only [pipewrite, ite_none_right_eq_some, some.injEq] at hx
    obtain ⟨hfree, rfl⟩ := hx
    exact ⟨inFlight_of_free hfree, by simp [inFlight, setThread, Thread.carried]⟩
  | sleep => cases hx
  | loop =>
    obtain ⟨hlock, hbefore⟩ := hmine (by simp) (by simp)
    refine ⟨hbefore, ?_⟩
    simp only [pipewrite] at hx
    split_ifs at hx <;> cases hx <;>
      simp [inFlight, release, setThread, hlock, Thread.carried]
  | copyin =>
    obtain ⟨hlock, hbefore⟩ := hmine (by simp) (by simp)
    refine ⟨hbefore, ?_⟩
    cases input <;> cases hx <;> simp [inFlight, setThread, hlock, Thread.carried]
  | store ch =>
    obtain ⟨hlock, hbefore⟩ := hmine (by simp) (by simp)
    cases hx
    exact ⟨hbefore, by simp [inFlight, setThread, hlock, Thread.carried]⟩
  | finish =>
    cases hx
    exact ⟨(hmine (by simp) (by simp)).2, inFlight_of_free rfl⟩

theorem piperead_delivers {pc : ReadPc} (h : s.Sound) (hp : s.thread p = .piperead i n pc)
    (hok : ∀ ch, pc = .copyout ch → input ≠ none) (hx : piperead s p i n input pc = some t) :
    s.inFlight ++ takenBy s (.run p input) = deliveredBy s (.run p input) ++ t.inFlight := by
  have hmine : pc ≠ .acquire → pc ≠ .sleep → s.lock = some p := by
    intro ha hs
    exact h.locked p (by simp [hp, Thread.Holds, ha, hs])
  have hnone : (∀ ch, pc ≠ .copyout ch) → deliveredBy s (.run p input) = [] := by
    intro hc
    cases input with
    | none => rfl
    | some b =>
      simp only [deliveredBy, hp]
      split
      · rename_i hq
        cases hq
        exact absurd rfl (hc _)
      · rfl
  cases pc with
  | acquire =>
    simp only [piperead, ite_none_right_eq_some, some.injEq] at hx
    obtain ⟨hfree, rfl⟩ := hx
    rw [hnone (by simp)]
    simp [inFlight, hfree, setThread, Thread.carried, takenBy, hp]
  | sleep => cases hx
  | wait =>
    rw [hnone (by simp)]
    simp only [piperead] at hx
    split_ifs at hx <;> cases hx <;>
      simp [inFlight, release, setThread, hmine, hp, Thread.carried, takenBy]
  | loop =>
    rw [hnone (by simp)]
    simp only [piperead] at hx
    split_ifs at hx <;> cases hx <;>
      simp [inFlight, setThread, hmine, hp, Thread.carried, takenBy]
  | take =>
    rw [hnone (by simp)]
    cases hx
    simp [inFlight, setThread, hmine, hp, Thread.carried, takenBy]
  | copyout ch =>
    cases input with
    | none => exact absurd rfl (hok ch rfl)
    | some b =>
      cases hx
      simp [inFlight, setThread, hmine, hp, Thread.carried, takenBy, deliveredBy]
  | finish =>
    rw [hnone (by simp)]
    cases hx
    simp [inFlight, release, hmine, hp, Thread.carried, takenBy]

/-- What an event takes out of the buffer was on its way before, or is delivered or on its way
afterwards. -/
theorem step_delivers {d : Delivery} {e : Event} (h : d.history.state.Sound)
    (hok : CopiesOut d e) (hx : step d.history.state e = some t) :
    d.history.state.inFlight ++ takenBy d.history.state e =
      deliveredBy d.history.state e ++ t.inFlight := by
  cases e with
  | write p n =>
    simp only [step, ite_none_right_eq_some, some.injEq] at hx
    obtain ⟨⟨-, hready⟩, rfl⟩ := hx
    have hsame := inFlight_setThread (s := d.history.state) (p := p)
      (x := .pipewrite 0 n .acquire) (carried_of_ready hready).symm
    simp [hsame, takenBy, deliveredBy]
  | read p n =>
    simp only [step, ite_none_right_eq_some, some.injEq] at hx
    obtain ⟨⟨-, hready⟩, rfl⟩ := hx
    have hsame := inFlight_setThread (s := d.history.state) (p := p)
      (x := .piperead 0 n .acquire) (carried_of_ready hready).symm
    simp [hsame, takenBy, deliveredBy]
  | run p input =>
    cases hp : d.history.state.thread p with
    | idle => simp [step, hp] at hx
    | pipewrite i n pc =>
      simp only [step, hp] at hx
      obtain ⟨h1, h2⟩ := pipewrite_delivers h hp hx
      cases input <;> simp [h1, h2, takenBy, deliveredBy, hp]
    | piperead i n pc =>
      simp only [step, hp] at hx
      refine piperead_delivers h hp ?_ hx
      rintro ch rfl rfl
      simp [CopiesOut, hp] at hok
    | returned r => simp [step, hp] at hx
  | kill p =>
    cases hx
    have hsame := inFlight_setThread (s := d.history.state) (p := p) (carried_kill _)
    change _ = _ ++ (d.history.state.setThread p _).inFlight
    simp [hsame, takenBy, deliveredBy]
  | close writable =>
    simp only [step, ite_none_right_eq_some, some.injEq] at hx
    obtain ⟨hfree, rfl⟩ := hx
    have hafter : (pipeclose d.history.state writable).lock = none := by
      unfold pipeclose
      split_ifs <;> exact hfree
    rw [inFlight_of_free hfree, inFlight_of_free hafter]
    rfl

end Steps

section Runs

variable {page : ℕ → UInt8} {killed : ℕ → Bool} {d : Delivery}

/-- In every run in which no copy to a reader fails, the bytes delivered are a prefix of the
bytes written, and whenever the lock is free the others are in the buffer. -/
theorem pipe_delivers_prefix
    (hr : Reach (stepRel Delivery.step) CopiesOut ⟨start page killed, []⟩ d) :
    d.delivered <+: d.history.put ∧ (d.history.state.lock = none →
      d.history.put = d.delivered ++ d.history.state.pipe.contents) := by
  have hinv : d.history.state.Sound ∧ d.history.put =
      d.delivered ++ (d.history.state.inFlight ++ d.history.state.pipe.contents) := by
    apply hr.invariant (I := fun d => d.history.state.Sound ∧ d.history.put =
      d.delivered ++ (d.history.state.inFlight ++ d.history.state.pipe.contents))
    · refine ⟨start_sound, ?_⟩
      rw [start_contents]
      rfl
    · rintro a e b ⟨hs, hput⟩ hok hstep
      simp only [stepRel, Delivery.step, History.step] at hstep
      cases hx : step a.history.state e with
      | none => simp [hx] at hstep
      | some t =>
        simp only [hx, Except.ok.injEq] at hstep
        obtain ⟨ht, hmoved⟩ := step_sound hs hx
        have hcarried := step_delivers hs hok hx
        subst hstep
        refine ⟨ht, ?_⟩
        simp only
        rw [hput, List.append_assoc, List.append_assoc, hmoved, ← List.append_assoc _ (takenBy _ _),
          hcarried, List.append_assoc, List.append_assoc]
  refine ⟨⟨_, hinv.2.symm⟩, fun hfree => ?_⟩
  rw [hinv.2, inFlight_of_free hfree, List.nil_append]

/-- Two bytes are written, and two readers take one each; `copy` is what the first does with it. -/
def twoReads (copy : List Event) : List Event :=
  [.write 1 2, .run 1 none, .run 1 none, .run 1 (some 97), .run 1 none, .run 1 none,
    .run 1 (some 98), .run 1 none, .run 1 none, .run 1 none, .read 2 1, .run 2 none, .run 2 none,
    .run 2 none, .run 2 none] ++ copy ++ [.run 2 none, .read 3 1, .run 3 none, .run 3 none,
    .run 3 none, .run 3 none, .run 3 (some 0)]

theorem pipe_delivers_prefix_both : ∃ d,
    Reach (stepRel Delivery.step) CopiesOut ⟨start (fun _ => 5) fun _ => false, []⟩ d ∧
      d.history.put = [97, 98] ∧ d.delivered = [97, 98] ∧ d.delivered <+: d.history.put := by
  have hrun : (follow Delivery.step CopiesOut ⟨start (fun _ => 5) fun _ => false, []⟩
      (twoReads [.run 2 (some 0), .run 2 none])).map (fun d => (d.history.put, d.delivered)) =
      some ([97, 98], [97, 98]) := by decide
  obtain ⟨d, hf, heq⟩ := Option.map_eq_some_iff.mp hrun
  have hr := reach_of_follow (twoReads [.run 2 (some 0), .run 2 none]) Reach.refl hf
  have hbytes := Prod.mk.inj heq
  have hmoved := pipe_delivers_prefix hr
  exact ⟨d, hr, hbytes.1, hbytes.2, hmoved.1⟩

/-- The first copy fails. Its byte is gone, and the second reader gets the byte after it. -/
theorem failed_copy_loses_byte : ∃ d,
    Reach (stepRel Delivery.step) (fun _ _ => True) ⟨start (fun _ => 5) fun _ => false, []⟩ d ∧
      d.history.put = [97, 98] ∧ d.delivered = [98] ∧ ¬ d.delivered <+: d.history.put := by
  have hrun : (follow Delivery.step (fun _ _ => True) ⟨start (fun _ => 5) fun _ => false, []⟩
      (twoReads [.run 2 none])).map (fun d => (d.history.put, d.delivered)) = some
      ([97, 98], [98]) := by
    decide
  obtain ⟨d, hf, heq⟩ := Option.map_eq_some_iff.mp hrun
  have hbytes := Prod.mk.inj heq
  refine ⟨d, reach_of_follow (twoReads [.run 2 none]) Reach.refl hf, hbytes.1, hbytes.2, ?_⟩
  rw [hbytes.1, hbytes.2]
  decide

end Runs

end Xv6.Pipes
