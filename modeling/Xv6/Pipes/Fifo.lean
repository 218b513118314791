import Xv6.Pipes.Model

/-!
# A pipe is a bounded queue

Only the holder of the lock touches the buffer, and what it has found out about the counters
stays true until it gives the lock back. So a byte is stored only when there is room, one is
taken only when there is one, and the bytes taken out followed by those in the buffer are the
bytes put in.
-/
namespace Xv6.Pipes

open Library State List Option

theorem pipeSize_dvd : pipeSize ∣ uintMod := by decide

theorem pipeSize_lt : pipeSize < uintMod := by decide

/-- The number of bytes in the buffer, `nwrite - nread` as a `uint`. -/
def Pipe.count (pi : Pipe) : ℕ := pi.toRingBuffer.count uintMod

def Pipe.contents (pi : Pipe) : List UInt8 := pi.toRingBuffer.contents pipeSize uintMod

/-- What a thread inside `pipewrite` knows of the pipe. -/
def WritePc.Knows (pi : Pipe) : WritePc → Prop
  | .copyin | .store _ => pi.count < pipeSize
  | _ => True

def ReadPc.Knows (pi : Pipe) : ReadPc → Prop
  | .take => pi.count ≠ 0
  | _ => True

def Thread.Holds : Thread → Prop
  | .pipewrite _ _ pc => pc ≠ .acquire ∧ pc ≠ .sleep
  | .piperead _ _ pc => pc ≠ .acquire ∧ pc ≠ .sleep
  | _ => False

def Thread.Knows (pi : Pipe) : Thread → Prop
  | .pipewrite _ _ pc => pc.Knows pi
  | .piperead _ _ pc => pc.Knows pi
  | _ => True

/-- The lock is respected, and the counters are in range. -/
structure State.Sound (s : State) : Prop where
  valid : s.pipe.toRingBuffer.Valid pipeSize uintMod
  locked : ∀ p, (s.thread p).Holds → s.lock = some p
  knows : ∀ p, (s.thread p).Knows s.pipe

theorem Thread.knows_of_not_holds {t : Thread} {pi : Pipe} (h : ¬ t.Holds) : t.Knows pi := by
  cases t with
  | idle => trivial
  | pipewrite i n pc =>
    cases pc with
    | acquire => trivial
    | sleep => trivial
    | _ => exact absurd ⟨by simp, by simp⟩ h
  | piperead i n pc =>
    cases pc with
    | acquire => trivial
    | sleep => trivial
    | _ => exact absurd ⟨by simp, by simp⟩ h
  | returned r => trivial

section Wakeup

variable {s : State} {q : ℕ}

theorem holds_wakeupReaders (h : (s.wakeupReaders.thread q).Holds) :
    s.wakeupReaders.thread q = s.thread q := by
  unfold wakeupReaders at h ⊢
  dsimp only at h ⊢
  split at h
  · exact absurd rfl h.1
  · rfl

theorem holds_wakeupWriters (h : (s.wakeupWriters.thread q).Holds) :
    s.wakeupWriters.thread q = s.thread q := by
  unfold wakeupWriters at h ⊢
  dsimp only at h ⊢
  split at h
  · exact absurd rfl h.1
  · rfl

theorem holds_kill {t : Thread} (h : t.kill.Holds) : t.kill = t := by
  unfold Thread.kill at h ⊢
  split at h
  · exact absurd rfl h.1
  · exact absurd rfl h.1
  · rfl

end Wakeup

/-- The threads besides `p` that hold the lock afterwards are as before. -/
def Others (p : ℕ) (s t : State) : Prop :=
  ∀ q, q ≠ p → (t.thread q).Holds → t.thread q = s.thread q

theorem Others.setThread {p : ℕ} {s : State} {x : Thread} : Others p s (s.setThread p x) := by
  intro q hq _
  simp [State.setThread, hq]

theorem Others.wakeupReaders {p : ℕ} {s : State} {x : Thread} :
    Others p s (s.wakeupReaders.setThread p x) := by
  intro q hq hh
  have hsame : (s.wakeupReaders.setThread p x).thread q = s.wakeupReaders.thread q := by
    simp [State.setThread, hq]
  rw [hsame] at hh ⊢
  exact holds_wakeupReaders hh

theorem Others.wakeupWriters {p : ℕ} {s : State} {x : Thread} :
    Others p s (s.wakeupWriters.setThread p x) := by
  intro q hq hh
  have hsame : (s.wakeupWriters.setThread p x).thread q = s.wakeupWriters.thread q := by
    simp [State.setThread, hq]
  rw [hsame] at hh ⊢
  exact holds_wakeupWriters hh

namespace State.Sound

variable {s t : State} {p : ℕ}

theorem alone (h : s.Sound) (hp : (s.thread p).Holds ∨ s.lock = none) (ho : Others p s t) :
    ∀ q, q ≠ p → ¬ (t.thread q).Holds := by
  intro q hq hh
  have hlock := h.locked q (ho q hq hh ▸ hh)
  rcases hp with hp | hp
  · have hmine := h.locked p hp
    rw [hmine] at hlock
    exact hq (some.inj hlock).symm
  · rw [hp] at hlock
    cases hlock

theorem holder (h : s.Sound) (hp : (s.thread p).Holds ∨ s.lock = none) (ho : Others p s t)
    (hv : t.pipe.toRingBuffer.Valid pipeSize uintMod)
    (hl : (t.thread p).Holds → t.lock = some p) (hk : (t.thread p).Knows t.pipe) : t.Sound := by
  have hnone := h.alone hp ho
  refine ⟨hv, fun q hh => ?_, fun q => ?_⟩
  · by_cases hq : q = p
    · exact hq ▸ hl (hq ▸ hh)
    · exact absurd hh (hnone q hq)
  · by_cases hq : q = p
    · exact hq ▸ hk
    · exact Thread.knows_of_not_holds (hnone q hq)

/-- A step without the lock leaves the buffer alone. -/
theorem outside (h : s.Sound) (ho : Others p s t)
    (hring : t.pipe.toRingBuffer = s.pipe.toRingBuffer)
    (hlock : t.lock = s.lock) (hp : (t.thread p).Holds → t.thread p = s.thread p) : t.Sound := by
  have hsame : ∀ q, (t.thread q).Holds → t.thread q = s.thread q := by
    intro q hh
    by_cases hq : q = p
    · exact hq ▸ hp (hq ▸ hh)
    · exact ho q hq hh
  have hcount : t.pipe.count = s.pipe.count := by
    unfold Pipe.count
    rw [hring]
  refine ⟨hring ▸ h.valid, fun q hh => ?_, fun q => ?_⟩
  · rw [hlock]
    exact h.locked q (hsame q hh ▸ hh)
  · by_cases hh : (t.thread q).Holds
    · have hk := h.knows q
      rw [← hsame q hh] at hk
      cases ht : t.thread q with
      | idle => trivial
      | pipewrite i n pc =>
        rw [ht] at hk
        cases pc <;> first | trivial | exact hcount.trans_lt hk
      | piperead i n pc =>
        rw [ht] at hk
        cases pc <;> first | trivial | exact hcount.trans_ne hk
      | returned r => trivial
    · exact Thread.knows_of_not_holds hh

end State.Sound

section Steps

variable {s t : State} {p : ℕ} {i n : ℤ} {input : Option UInt8}

theorem thread_setThread (s : State) (p : ℕ) (x : Thread) : (s.setThread p x).thread p = x := by
  simp [setThread]

variable (h : s.Sound)
include h

theorem State.Sound.inside {y : Thread} (hp : s.thread p = y) (hy : y.Holds) :
    (s.thread p).Holds ∧ s.lock = some p :=
  ⟨hp ▸ hy, h.locked p (hp ▸ hy)⟩

theorem State.Sound.go {x y : Thread} (hp : s.thread p = y) (hy : y.Holds)
    (hk : x.Knows s.pipe) : (s.setThread p x).Sound := by
  obtain ⟨hin, hmine⟩ := h.inside hp hy
  refine h.holder (.inl hin) Others.setThread h.valid (fun _ => hmine) ?_
  rwa [thread_setThread]

theorem State.Sound.leave {x y : Thread} (hp : s.thread p = y) (hy : y.Holds)
    (ho : Others p s (t.setThread p x)) (hpipe : t.pipe = s.pipe) (hx : ¬ x.Holds) :
    (t.setThread p x).release.Sound := by
  have hthread : (t.setThread p x).release.thread p = x := thread_setThread t p x
  refine h.holder (.inl (h.inside hp hy).1) ho (hpipe ▸ h.valid)
    (fun hh => absurd (hthread ▸ hh) hx) ?_
  rw [hthread]
  exact Thread.knows_of_not_holds hx

theorem pipewrite_sound {pc : WritePc} (hp : s.thread p = .pipewrite i n pc)
    (hx : pipewrite s p i n input pc = some t) : t.Sound := by
  have hknows := h.knows p
  rw [hp] at hknows
  cases pc with
  | acquire =>
    simp only [pipewrite, ite_none_right_eq_some, some.injEq] at hx
    obtain ⟨hfree, rfl⟩ := hx
    refine h.holder (.inr hfree) Others.setThread h.valid (fun _ => rfl) ?_
    simp [setThread, Thread.Knows, WritePc.Knows]
  | loop =>
    simp only [pipewrite] at hx
    split_ifs at hx with hlt hclosed hfull
    · cases hx
      exact h.leave hp ⟨nofun, nofun⟩ Others.setThread rfl id
    · cases hx
      exact h.leave hp ⟨nofun, nofun⟩ Others.wakeupReaders rfl fun hh => hh.2 rfl
    · cases hx
      have hne : s.pipe.count ≠ pipeSize :=
        fun hc => hfull ((RingBuffer.count_eq_capacity h.valid pipeSize_lt).mp hc)
      exact h.go hp ⟨nofun, nofun⟩ (lt_of_le_of_ne h.valid.count_le hne)
    · cases hx
      exact h.go hp ⟨nofun, nofun⟩ trivial
  | copyin =>
    cases input with
    | none =>
      cases hx
      exact h.go hp ⟨nofun, nofun⟩ trivial
    | some ch =>
      cases hx
      exact h.go hp ⟨nofun, nofun⟩ hknows
  | store ch =>
    obtain ⟨hin, hmine⟩ := h.inside hp ⟨nofun, nofun⟩
    cases hx
    refine h.holder (.inl hin) Others.setThread (h.valid.put pipeSize_lt hknows) (fun _ => hmine) ?_
    simp [setThread, Thread.Knows, WritePc.Knows]
  | sleep => cases hx
  | finish =>
    cases hx
    exact h.leave hp ⟨nofun, nofun⟩ Others.wakeupReaders rfl id

theorem piperead_sound {pc : ReadPc} (hp : s.thread p = .piperead i n pc)
    (hx : piperead s p i n input pc = some t) : t.Sound := by
  have hknows := h.knows p
  rw [hp] at hknows
  cases pc with
  | acquire =>
    simp only [piperead, ite_none_right_eq_some, some.injEq] at hx
    obtain ⟨hfree, rfl⟩ := hx
    refine h.holder (.inr hfree) Others.setThread h.valid (fun _ => rfl) ?_
    simp [setThread, Thread.Knows, ReadPc.Knows]
  | wait =>
    simp only [piperead] at hx
    split_ifs at hx with hempty hkilled
    · cases hx
      exact h.leave hp ⟨nofun, nofun⟩ Others.setThread rfl id
    · cases hx
      exact h.leave hp ⟨nofun, nofun⟩ Others.setThread rfl fun hh => hh.2 rfl
    · cases hx
      exact h.go hp ⟨nofun, nofun⟩ trivial
  | sleep => cases hx
  | loop =>
    simp only [piperead] at hx
    split_ifs at hx with hmore
    · cases hx
      exact h.go hp ⟨nofun, nofun⟩ fun hc => hmore.2 ((RingBuffer.count_eq_zero h.valid).mp hc)
    · cases hx
      exact h.go hp ⟨nofun, nofun⟩ trivial
  | take =>
    obtain ⟨hin, hmine⟩ := h.inside hp ⟨nofun, nofun⟩
    cases hx
    refine h.holder (.inl hin) Others.setThread (h.valid.drop hknows) (fun _ => hmine) ?_
    simp [setThread, Thread.Knows, ReadPc.Knows]
  | copyout ch =>
    cases input with
    | none =>
      cases hx
      exact h.go hp ⟨nofun, nofun⟩ trivial
    | some _ =>
      cases hx
      exact h.go hp ⟨nofun, nofun⟩ trivial
  | finish =>
    cases hx
    exact h.leave hp ⟨nofun, nofun⟩ Others.wakeupWriters rfl id

/-- `pipewrite` changes the buffer where it stores a byte, -/
theorem pipewrite_contents {pc : WritePc} (hp : s.thread p = .pipewrite i n pc)
    (hx : pipewrite s p i n input pc = some t) :
    t.pipe.contents = s.pipe.contents ++ putBy s (.run p input) := by
  have hknows := h.knows p
  rw [hp] at hknows
  simp only [putBy, hp]
  cases pc with
  | store ch =>
    cases hx
    exact RingBuffer.contents_put h.valid pipeSize_dvd pipeSize_lt hknows
  | _ =>
    have hpipe : t.pipe = s.pipe := by
      cases input <;> grind [pipewrite, setThread, release, wakeupReaders]
    rw [hpipe, append_nil]

/-- and `piperead` where it takes one. -/
theorem piperead_contents {pc : ReadPc} (hp : s.thread p = .piperead i n pc)
    (hx : piperead s p i n input pc = some t) :
    s.pipe.contents = takenBy s (.run p input) ++ t.pipe.contents := by
  have hknows := h.knows p
  rw [hp] at hknows
  simp only [takenBy, hp]
  cases pc with
  | take =>
    cases hx
    exact RingBuffer.contents_drop h.valid pipeSize_dvd hknows
  | _ =>
    have hpipe : t.pipe = s.pipe := by
      cases input <;> grind [piperead, setThread, release, wakeupWriters]
    rw [hpipe, nil_append]

/-- Every event keeps the pipe sound, and moves the bytes that are recorded. -/
theorem step_sound {e : Event} (hx : step s e = some t) :
    t.Sound ∧ s.pipe.contents ++ putBy s e = takenBy s e ++ t.pipe.contents := by
  cases e with
  | write p n =>
    simp only [step, ite_none_right_eq_some, some.injEq] at hx
    obtain ⟨-, rfl⟩ := hx
    refine ⟨h.outside Others.setThread rfl rfl fun hh => ?_, by simp [putBy, takenBy, setThread]⟩
    rw [thread_setThread] at hh
    exact absurd rfl hh.1
  | read p n =>
    simp only [step, ite_none_right_eq_some, some.injEq] at hx
    obtain ⟨-, rfl⟩ := hx
    refine ⟨h.outside Others.setThread rfl rfl fun hh => ?_, by simp [putBy, takenBy, setThread]⟩
    rw [thread_setThread] at hh
    exact absurd rfl hh.1
  | run p input =>
    cases hp : s.thread p with
    | idle => simp [step, hp] at hx
    | pipewrite i n pc =>
      simp only [step, hp] at hx
      have htaken : takenBy s (.run p input) = [] := by simp [takenBy, hp]
      exact ⟨pipewrite_sound h hp hx, by rw [htaken, pipewrite_contents h hp hx, nil_append]⟩
    | piperead i n pc =>
      simp only [step, hp] at hx
      have hput : putBy s (.run p input) = [] := by simp [putBy, hp]
      exact ⟨piperead_sound h hp hx, by rw [hput, piperead_contents h hp hx, append_nil]⟩
    | returned r => simp [step, hp] at hx
  | kill p =>
    cases hx
    refine ⟨h.outside Others.setThread rfl rfl fun hh => ?_, by simp [putBy, takenBy, setThread]⟩
    have hsame : (s.setThread p (s.thread p).kill).thread p = (s.thread p).kill :=
      thread_setThread s p _
    exact hsame.trans (holds_kill (hsame ▸ hh))
  | close writable =>
    simp only [step, ite_none_right_eq_some, some.injEq] at hx
    obtain ⟨-, rfl⟩ := hx
    unfold pipeclose
    split_ifs
    · exact ⟨h.outside (p := 0) (fun q _ hh => holds_wakeupReaders hh) rfl rfl
        fun hh => holds_wakeupReaders hh, by simp [putBy, takenBy, Pipe.contents]⟩
    · exact ⟨h.outside (p := 0) (fun q _ hh => holds_wakeupWriters hh) rfl rfl
        fun hh => holds_wakeupWriters hh, by simp [putBy, takenBy, Pipe.contents]⟩

end Steps

section Runs

variable {page : ℕ → UInt8} {killed : ℕ → Bool} {h : History}

theorem start_sound : (start page killed).state.Sound where
  valid := ⟨show 0 < uintMod by decide, show 0 < uintMod by decide,
    show (0 + (uintMod - 0)) % uintMod ≤ pipeSize by decide⟩
  locked p hh := hh.elim
  knows p := trivial

theorem start_contents : (start page killed).state.pipe.contents = [] := by
  have hcount : (start page killed).state.pipe.toRingBuffer.count uintMod = 0 :=
    (RingBuffer.count_eq_zero start_sound.valid).mpr rfl
  simp [Pipe.contents, RingBuffer.contents, hcount]

/-- In every interleaving of calls on a pipe, the bytes taken out of the buffer, followed by
those still in it, are the bytes put in, and `nwrite - nread` is at most `PIPESIZE`. -/
theorem pipe_fifo (hr : Reach (stepRel History.step) (fun _ _ => True) (start page killed) h) :
    h.taken <+: h.put ∧ h.put = h.taken ++ h.state.pipe.contents ∧
      (h.state.pipe.nwrite + (2 ^ 32 - h.state.pipe.nread)) % 2 ^ 32 ≤ 512 := by
  have hinv : h.state.Sound ∧ h.put = h.taken ++ h.state.pipe.contents := by
    apply hr.invariant (I := fun h => h.state.Sound ∧ h.put = h.taken ++ h.state.pipe.contents)
    · exact ⟨start_sound, by rw [start_contents]; rfl⟩
    · rintro a e b ⟨hs, hput⟩ - hstep
      simp only [stepRel, History.step] at hstep
      cases hx : step a.state e with
      | none => simp [hx] at hstep
      | some t =>
        simp only [hx, Except.ok.injEq] at hstep
        obtain ⟨ht, hmoved⟩ := step_sound hs hx
        subst hstep
        refine ⟨ht, ?_⟩
        simp only
        rw [hput, List.append_assoc, hmoved, List.append_assoc]
  exact ⟨⟨_, hinv.2.symm⟩, hinv.2, hinv.1.valid.count_le⟩

/-- A writer of two bytes that is overtaken by a reader of one. -/
def overtaken : List Event :=
  [.write 1 2, .run 1 none, .read 2 1, .run 1 none, .run 1 (some 97), .run 1 none, .run 1 none,
    .run 1 (some 98), .run 1 none, .run 1 none, .run 1 none, .run 2 none, .run 2 none, .run 2 none,
    .run 2 none, .run 2 (some 0)]

theorem pipe_fifo_overtaken : ∃ h, Reach (stepRel History.step) (fun _ _ => True)
      (start (fun _ => 5) fun _ => false) h ∧ h.put = [97, 98] ∧ h.taken = [97] ∧
      h.taken <+: h.put ∧ h.put = h.taken ++ h.state.pipe.contents ∧
      (h.state.pipe.nwrite + (2 ^ 32 - h.state.pipe.nread)) % 2 ^ 32 ≤ 512 := by
  have hrun : (follow History.step (fun _ _ => True) (start (fun _ => 5) fun _ => false)
      overtaken).map (fun h => (h.put, h.taken)) = some ([97, 98], [97]) := by decide
  obtain ⟨h, hf, heq⟩ := Option.map_eq_some_iff.mp hrun
  have hr : Reach (stepRel History.step) (fun _ _ => True) _ h :=
    reach_of_follow overtaken Reach.refl hf
  have hbytes := Prod.mk.inj heq
  exact ⟨h, hr, hbytes.1, hbytes.2, pipe_fifo hr⟩

end Runs

end Xv6.Pipes
