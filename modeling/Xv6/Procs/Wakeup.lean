import Xv6.Procs.Sleep

/-!
# No wakeup is lost

From the moment when a process has found its condition false until it sleeps, it holds the lock of
the condition or its own `p->lock`. A `wakeup` needs both: the first is held by its caller, the
second is taken for each process in turn. So a `wakeup` that has passed a process has not missed it.
-/
namespace Xv6.Procs.Sleep

open Library Function State List Option

namespace Pc

/-- A process inside `sleep` or `yield` that is not on a CPU. -/
def Parked : Pc → Prop
  | .resumed _ | .yielded _ => True
  | _ => False

/-- A running process that holds its `p->lock`. -/
def HoldsProc : Pc → Prop
  | .releaseLk _ | .fallAsleep _ | .switch _ | .resumed _ | .yielded _ => True
  | _ => False

/-- A running process that holds the lock of the condition of channel `ch`. -/
def HoldsLk (ch : ℕ) : Pc → Prop
  | .test c | .acquireProc c | .releaseLk c => c = ch
  | _ => False

/-- A process that has found the condition of channel `ch` false and is about to sleep. -/
def Falls (ch : ℕ) : Pc → Prop
  | .acquireProc c | .releaseLk c | .fallAsleep c | .switch c => c = ch
  | _ => False

theorem Calm.not_falls {pc : Pc} {ch : ℕ} (h : pc.Calm) : ¬ pc.Falls ch := by
  cases pc with
  | idle | acquireLk => exact id
  | _ => exact h.elim

theorem Parked.not_falls {pc : Pc} {ch : ℕ} (h : pc.Parked) : ¬ pc.Falls ch := by
  cases pc with
  | resumed | yielded => exact id
  | _ => exact h.elim

theorem Falls.holds {pc : Pc} {ch : ℕ} (h : pc.Falls ch) : pc.HoldsProc ∨ pc.HoldsLk ch := by
  cases pc with
  | acquireProc => exact .inr h
  | releaseLk | fallAsleep | switch => exact .inl trivial
  | _ => exact h.elim

end Pc

/-- The CPU runs the process, comes back from it, or serves an interrupt of it. -/
def Cpu.Occupies (p : ℕ) : Cpu → Prop
  | .scheduler => False
  | .running q | .back q => q = p
  | .waker self _ _ => self = some p

theorem Cpu.Occupies.eq {p q : ℕ} {x : Cpu} (hp : x.Occupies p) (hq : x.Occupies q) : q = p := by
  cases x with
  | scheduler => exact hp.elim
  | running r => exact hq.symm.trans hp
  | back r => exact hq.symm.trans hp
  | waker self ch pc => exact some.inj ((show self = some q from hq).symm.trans hp)

variable (lockOf : ℕ → ℕ)

structure State.Runs (s : State) (c p : ℕ) : Prop where
  state : (∀ ch, s.pc p ≠ .switch ch) → s.state p = .running
  procLock : (s.pc p).HoldsProc → s.procLock p = some c
  lk : ∀ ch, (s.pc p).HoldsLk ch → s.lk (lockOf ch) = some c

def State.Good (s : State) (c : ℕ) : Cpu → Prop
  | .scheduler => True
  | .running p => s.Runs lockOf c p
  | .back p => s.procLock p = some c ∧ (s.pc p).Parked
  | .waker self ch pc =>
    (pc ≠ .acquire → s.lk (lockOf ch) = some c) ∧
      ∀ p, self = some p → s.state p = .running ∧ (s.pc p).Calm

structure State.Sane (s : State) : Prop where
  good : ∀ c, s.Good lockOf c (s.cpu c)
  unique : ∀ c d p, (s.cpu c).Occupies p → (s.cpu d).Occupies p → c = d
  parked : ∀ p, (∀ c, ¬ (s.cpu c).Occupies p) → (s.pc p).Parked

structure Same (s t : State) (p : ℕ) : Prop where
  pc : t.pc p = s.pc p
  state : t.state p = s.state p
  procLock : t.procLock p = s.procLock p

section Frames

variable {lockOf} {s t : State} {c p : ℕ} {x y : Cpu}

theorem State.Sane.good_of (h : s.Sane lockOf) (hc : s.cpu c = x) : s.Good lockOf c x :=
  hc ▸ h.good c

theorem State.Good.frame (h : s.Good lockOf c x) (hp : ∀ p, x.Occupies p → Same s t p)
    (hl : ∀ l, s.lk l = some c → t.lk l = some c) : t.Good lockOf c x := by
  cases x with
  | scheduler => trivial
  | running p =>
    have hsame := hp p rfl
    constructor
    · intro hpc
      rw [hsame.pc] at hpc
      exact hsame.state.trans (State.Runs.state h hpc)
    · intro hpc
      rw [hsame.pc] at hpc
      exact hsame.procLock.trans (State.Runs.procLock h hpc)
    · intro ch hpc
      rw [hsame.pc] at hpc
      exact hl _ (State.Runs.lk h ch hpc)
  | back p =>
    have hsame := hp p rfl
    exact ⟨hsame.procLock.trans h.1, hsame.pc ▸ h.2⟩
  | waker self ch pc =>
    refine ⟨fun hpc => hl _ (h.1 hpc), fun p hself => ?_⟩
    have hsame := hp p hself
    rw [hsame.state, hsame.pc]
    exact h.2 p hself

/-- A step of CPU `c`, which concerns no process of another CPU. -/
theorem State.Sane.act (h : s.Sane lockOf) (hcpu : t.cpu = update s.cpu c y)
    (hgood : t.Good lockOf c y)
    (hother : ∀ d, d ≠ c → ∀ q, (s.cpu d).Occupies q → Same s t q)
    (hl : ∀ d, d ≠ c → ∀ l, s.lk l = some d → t.lk l = some d)
    (hocc : ∀ q, y.Occupies q → ∀ d, (s.cpu d).Occupies q → d = c)
    (hparked : ∀ q, ¬ y.Occupies q → (s.cpu c).Occupies q ∨ (s.pc q).Parked → (t.pc q).Parked) :
    t.Sane lockOf := by
  have hd : ∀ d, d ≠ c → t.cpu d = s.cpu d := by
    intro d hdc
    rw [hcpu, update_of_ne hdc]
  have hc : t.cpu c = y := by rw [hcpu, update_self]
  constructor
  · intro d
    by_cases hdc : d = c
    · rw [hdc, hc]
      exact hgood
    · rw [hd d hdc]
      exact (h.good d).frame (hother d hdc) (hl d hdc)
  · intro d e q hq hq'
    by_cases hdc : d = c <;> by_cases hec : e = c
    · rw [hdc, hec]
    · subst hdc
      rw [hc] at hq
      rw [hd e hec] at hq'
      exact (hocc q hq e hq').symm
    · subst hec
      rw [hc] at hq'
      rw [hd d hdc] at hq
      exact hocc q hq' d hq
    · rw [hd d hdc] at hq
      rw [hd e hec] at hq'
      exact h.unique d e q hq hq'
  · intro q hq
    have hy : ¬ y.Occupies q := hc ▸ hq c
    apply hparked q hy
    by_cases hqc : (s.cpu c).Occupies q
    · exact .inl hqc
    · right
      apply h.parked q
      intro d
      by_cases hdc : d = c
      · exact hdc ▸ hqc
      · exact hd d hdc ▸ hq d

/-- A step of CPU `c` in process `p`, which it keeps. -/
theorem State.Sane.inside (h : s.Sane lockOf) (hp : (s.cpu c).Occupies p)
    (hcpu : t.cpu = update s.cpu c y) (hy : y.Occupies p) (hgood : t.Good lockOf c y)
    (hother : ∀ q, q ≠ p → Same s t q) (hl : ∀ d, d ≠ c → ∀ l, s.lk l = some d → t.lk l = some d) :
    t.Sane lockOf := by
  apply h.act hcpu hgood
  · intro d hdc q hq
    apply hother
    rintro rfl
    exact hdc (h.unique d c q hq hp)
  · exact hl
  · intro q hq d hd
    rw [hy.eq hq] at hd
    exact h.unique d c p hd hp
  · intro q hq hq'
    have hqp : q ≠ p := fun he => hq (he ▸ hy)
    rw [(hother q hqp).pc]
    rcases hq' with hq' | hq'
    · exact absurd (hp.eq hq') hqp
    · exact hq'

theorem setLk_other {l : ℕ} {z : Option ℕ} (hl : s.lk l = none ∨ s.lk l = some c) :
    ∀ d, d ≠ c → ∀ m, s.lk m = some d → update s.lk l z m = some d := by
  intro d hdc m hm
  have hml : m ≠ l := by
    rintro rfl
    rcases hl with hl | hl
    · rw [hl] at hm
      cases hm
    · rw [hl] at hm
      exact hdc (some.inj hm).symm
  rw [update_of_ne hml]
  exact hm

end Frames

section Steps

variable {lockOf} {s t : State} {c p : ℕ}

theorem wakeupAt_keeps (s : State) (ch i : ℕ) :
    (wakeupAt s ch i).cpu = s.cpu ∧ (wakeupAt s ch i).lk = s.lk ∧ (wakeupAt s ch i).pc = s.pc ∧
      (wakeupAt s ch i).cond = s.cond := by
  unfold wakeupAt
  split_ifs <;> exact ⟨rfl, rfl, rfl, rfl⟩

variable (h : s.Sane lockOf)
include h

/-- A process that is not running while its `p->lock` is free is on no CPU. -/
theorem State.Sane.off (hs : s.state p ≠ .running) (hl : s.procLock p = none) :
    ∀ d, ¬ (s.cpu d).Occupies p := by
  intro d hd
  have hgood := h.good d
  cases hcpu : s.cpu d with
  | scheduler =>
    rw [hcpu] at hd
    exact hd
  | running q =>
    rw [hcpu] at hd hgood
    obtain rfl : q = p := hd
    have hr : s.Runs lockOf d q := hgood
    by_cases hsw : ∃ ch, s.pc q = .switch ch
    · obtain ⟨ch, hch⟩ := hsw
      have hlock := hr.procLock (by rw [hch]; trivial)
      rw [hl] at hlock
      cases hlock
    · exact hs (hr.state fun ch hch => hsw ⟨ch, hch⟩)
  | back q =>
    rw [hcpu] at hd hgood
    obtain rfl : q = p := hd
    have hlock := hgood.1
    rw [hl] at hlock
    cases hlock
  | waker self ch pc =>
    rw [hcpu] at hd hgood
    exact hs (hgood.2 p hd).1

theorem State.Sane.rouse (hs : s.state p = .sleeping) (hl : s.procLock p = none) :
    (s.setState p .runnable).Sane lockOf where
  good d := by
    apply (h.good d).frame
    · intro q hq
      have hqp : q ≠ p := fun he => h.off (by simp [hs]) hl d (he ▸ hq)
      exact ⟨rfl, by simp [hqp], rfl⟩
    · exact fun _ => id
  unique := h.unique
  parked := h.parked

theorem wakeupAt_sane (ch : ℕ) {i : ℕ} (hl : s.procLock i = none) :
    (wakeupAt s ch i).Sane lockOf := by
  unfold wakeupAt
  split_ifs with hs
  · exact h.rouse hs.1 hl
  · exact h

/-- A waker stays a waker, for the same process. -/
theorem State.Sane.waker {self : Option ℕ} {ch : ℕ} {pc pc' : WakerPc}
    (hc : s.cpu c = .waker self ch pc) (hcpu : t.cpu = update s.cpu c (.waker self ch pc'))
    (hsame : ∀ q, Same s t q) (hlk : t.lk (lockOf ch) = some c)
    (hl : ∀ d, d ≠ c → ∀ l, s.lk l = some d → t.lk l = some d) : t.Sane lockOf := by
  have hgood := h.good_of hc
  apply h.act hcpu
  · refine ⟨fun _ => hlk, fun p hp => ?_⟩
    rw [(hsame p).state, (hsame p).pc]
    exact hgood.2 p hp
  · exact fun _ _ q _ => hsame q
  · exact hl
  · intro q hq d hd
    apply h.unique d c q hd
    rw [hc]
    exact hq
  · intro q hq hq'
    rw [(hsame q).pc]
    rcases hq' with hq' | hq'
    · rw [hc] at hq'
      exact absurd hq' hq
    · exact hq'

theorem runWaker_sane {self : Option ℕ} {ch : ℕ} {pc : WakerPc}
    (hc : s.cpu c = .waker self ch pc) (hx : runWaker lockOf s c self ch pc = .ok t) :
    t.Sane lockOf := by
  have hgood := h.good_of hc
  have hlock : ∀ d, d ≠ c → ∀ l, s.lk l = some d → s.lk l = some d := fun _ _ _ => id
  cases pc with
  | acquire =>
    simp only [runWaker] at hx
    split_ifs at hx with hfree
    cases hx
    exact h.waker hc rfl (fun q => ⟨rfl, rfl, rfl⟩) (by simp) (setLk_other (.inl hfree))
  | holding made woken =>
    cases hx
    exact h.waker hc rfl (fun q => ⟨rfl, rfl, rfl⟩) (hgood.1 (by simp)) hlock
  | waking made i =>
    have hlk := hgood.1 (by simp)
    simp only [runWaker] at hx
    split_ifs at hx with hi hself hfree
    · cases hx
      exact h.waker hc rfl (fun q => ⟨rfl, rfl, rfl⟩) hlk hlock
    · cases hx
      obtain ⟨hcpu, hlks, -⟩ := wakeupAt_keeps s ch i
      exact (wakeupAt_sane h ch hfree).waker (hcpu ▸ hc) rfl (fun q => ⟨rfl, rfl, rfl⟩) (hlks ▸ hlk)
        fun _ _ _ => id
    · cases hx
      exact h.waker hc rfl (fun q => ⟨rfl, rfl, rfl⟩) hlk hlock

theorem dispatch_sane (hc : s.cpu c = .scheduler) (hl : s.procLock p = none)
    (hs : s.state p = .runnable) :
    (((s.setProcLock p (some c)).setState p .running).setCpu c (.running p)).Sane lockOf := by
  have hoff := h.off (by simp [hs]) hl
  have hparked := h.parked p hoff
  apply h.act rfl
  · refine ⟨fun _ => by simp, fun _ => by simp, fun ch hch => ?_⟩
    cases hpc : s.pc p with
    | resumed | yielded => simp [hpc, Pc.HoldsLk] at hch
    | _ => simp [hpc, Pc.Parked] at hparked
  · intro d _ q hq
    have hqp : q ≠ p := fun he => hoff d (he ▸ hq)
    exact ⟨rfl, by simp [hqp], by simp [hqp]⟩
  · exact fun _ _ _ => id
  · intro q hq d hd
    exact absurd ((show p = q from hq) ▸ hd) (hoff d)
  · intro q _ hq
    rcases hq with hq | hq
    · rw [hc] at hq
      exact hq.elim
    · exact hq

theorem resume_sane (hc : s.cpu c = .back p) :
    ((s.setProcLock p none).setCpu c .scheduler).Sane lockOf := by
  have hp : (s.cpu c).Occupies p := by
    rw [hc]
    rfl
  have hgood := h.good_of hc
  apply h.act rfl
  · trivial
  · intro d hdc q hq
    have hqp : q ≠ p := by
      rintro rfl
      exact hdc (h.unique d c q hq hp)
    exact ⟨rfl, rfl, by simp [hqp]⟩
  · exact fun _ _ _ => id
  · exact fun q hq => hq.elim
  · intro q _ hq
    rcases hq with hq | hq
    · exact hp.eq hq ▸ hgood.2
    · exact hq

theorem State.Sane.calm (hc : s.cpu c = .running p) (hp : (s.pc p).Calm) :
    s.state p = .running := by
  have hgood := h.good_of hc
  apply State.Runs.state hgood
  intro ch hch
  rw [hch] at hp
  exact hp

theorem interrupt_sane {ch : ℕ} (hc : s.cpu c = .running p)
    (hp : (s.pc p).Calm) : (s.setCpu c (.waker (some p) ch .acquire)).Sane lockOf := by
  have hocc : (s.cpu c).Occupies p := by
    rw [hc]
    rfl
  refine h.inside hocc rfl rfl ⟨fun hne => absurd rfl hne, ?_⟩ (fun q _ => ⟨rfl, rfl, rfl⟩)
    fun _ _ _ => id
  intro q hq
  rw [← some.inj hq]
  exact ⟨h.calm hc hp, hp⟩

theorem interruptIdle_sane {ch : ℕ} (hc : s.cpu c = .scheduler) :
    (s.setCpu c (.waker none ch .acquire)).Sane lockOf := by
  apply h.act rfl
  · exact ⟨fun hne => absurd rfl hne, fun p hp => by cases hp⟩
  · exact fun _ _ q _ => ⟨rfl, rfl, rfl⟩
  · exact fun _ _ _ => id
  · intro q hq
    cases hq
  · intro q _ hq
    rcases hq with hq | hq
    · rw [hc] at hq
      exact hq.elim
    · exact hq

theorem leave_sane {self : Option ℕ} {ch : ℕ} {made woken : Bool}
    (hc : s.cpu c = .waker self ch (.holding made woken)) :
    ((s.setLk (lockOf ch) none).setCpu c (Cpu.home self)).Sane lockOf := by
  have hgood := h.good_of hc
  have hlk := setLk_other (z := none) (.inr (hgood.1 (by simp)))
  cases self with
  | none =>
    apply h.act rfl
    · trivial
    · exact fun _ _ q _ => ⟨rfl, rfl, rfl⟩
    · exact hlk
    · exact fun q hq => hq.elim
    · intro q _ hq
      rcases hq with hq | hq
      · rw [hc] at hq
        cases hq
      · exact hq
  | some p =>
    have hocc : (s.cpu c).Occupies p := by
      rw [hc]
      rfl
    obtain ⟨hstate, hcalm⟩ := hgood.2 p rfl
    refine h.inside hocc rfl rfl ⟨fun _ => hstate, ?_, ?_⟩ (fun q _ => ⟨rfl, rfl, rfl⟩) hlk
    · intro hh
      cases hpc : s.pc p <;> simp_all [Pc.Calm, Pc.HoldsProc]
    · intro ch' hh
      cases hpc : s.pc p <;> simp_all [Pc.Calm, Pc.HoldsLk]

end Steps

/-- The process sleeps on channel `ch`, or is about to. -/
def State.Falling (s : State) (p ch : ℕ) : Prop :=
  (s.pc p).Falls ch ∨ (s.state p = .sleeping ∧ s.chan p = some ch)

/-- Nobody that a `wakeup` has passed sleeps on its channel. -/
structure Served (s : State) (since : ℕ → Bool) : Prop where
  waking : ∀ c self ch made i, s.cpu c = .waker self ch (.waking made i) →
    ∀ j < i, j < nProc → ¬ s.Falling j ch
  since : ∀ ch, since ch = true → s.cond ch = true ∧ ∀ j < nProc, ¬ s.Falling j ch

section Serving

variable {lockOf} {s t : State} {since : ℕ → Bool} {c p : ℕ}

/-- A step after which nobody else falls asleep, and no `wakeup` is further than before. -/
theorem Served.keep (h : Served s since)
    (hcpu : ∀ d self ch made i, t.cpu d = .waker self ch (.waking made i) →
      i = 0 ∨ s.cpu d = .waker self ch (.waking made i))
    (hfall : ∀ q ch, t.Falling q ch → s.Falling q ch)
    (hcond : ∀ ch, s.cond ch = true → t.cond ch = true) : Served t since where
  waking d self ch made i hd j hj hn hf := by
    rcases hcpu d self ch made i hd with rfl | hd
    · exact absurd hj (Nat.not_lt_zero j)
    · exact h.waking d self ch made i hd j hj hn (hfall j ch hf)
  since ch hch := by
    obtain ⟨hc, hj⟩ := h.since ch hch
    exact ⟨hcond ch hc, fun j hn hf => hj j hn (hfall j ch hf)⟩

theorem cpu_keep {y : Cpu} (hcpu : t.cpu = update s.cpu c y)
    (hy : ∀ self ch made i, y = .waker self ch (.waking made i) → i = 0) :
    ∀ d self ch made i, t.cpu d = .waker self ch (.waking made i) →
      i = 0 ∨ s.cpu d = .waker self ch (.waking made i) := by
  intro d self ch made i hd
  rw [hcpu] at hd
  by_cases hdc : d = c
  · rw [hdc, update_self] at hd
    exact .inl (hy self ch made i hd)
  · rw [update_of_ne hdc] at hd
    exact .inr hd

/-- Only process `p` has moved, and it falls asleep on no channel on which it did not before. -/
theorem falling_of_other (hother : ∀ q, q ≠ p → t.pc q = s.pc q ∧ t.state q = s.state q ∧
      t.chan q = s.chan q) (hp : ∀ ch, t.Falling p ch → s.Falling p ch) :
    ∀ q ch, t.Falling q ch → s.Falling q ch := by
  intro q ch hf
  by_cases hq : q = p
  · exact hq ▸ hp ch (hq ▸ hf)
  · obtain ⟨hpc, hstate, hchan⟩ := hother q hq
    unfold State.Falling at hf ⊢
    rw [hpc, hstate, hchan] at hf
    exact hf

theorem falling_wakeupAt {q ch ch' i : ℕ} (hf : (wakeupAt s ch i).Falling q ch') :
    s.Falling q ch' := by
  unfold wakeupAt at hf
  split_ifs at hf
  · by_cases hq : q = i
    · subst hq
      simp only [State.Falling, setState_eq, update_self, reduceCtorEq, false_and,
        or_false] at hf
      exact .inl hf
    · simpa [State.Falling, hq] using hf
  · exact hf

theorem Served.advance (h : Served s since) {self : Option ℕ} {ch i : ℕ} {made : Bool}
    (hc : s.cpu c = .waker self ch (.waking made i))
    (hcpu : t.cpu = update s.cpu c (.waker self ch (.waking made (i + 1))))
    (hfall : ∀ q ch', t.Falling q ch' → s.Falling q ch') (hi : ¬ t.Falling i ch)
    (hcond : t.cond = s.cond) : Served t since where
  waking d self' ch' made' k hd j hj hn hf := by
    rw [hcpu] at hd
    by_cases hdc : d = c
    · rw [hdc, update_self] at hd
      cases hd
      rcases Nat.lt_succ_iff_lt_or_eq.mp hj with hlt | rfl
      · exact h.waking c self ch made i hc j hlt hn (hfall j ch hf)
      · exact hi hf
    · rw [update_of_ne hdc] at hd
      exact h.waking d self' ch' made' k hd j hj hn (hfall j ch' hf)
  since ch' hch := by
    obtain ⟨htrue, hj⟩ := h.since ch' hch
    exact ⟨hcond ▸ htrue, fun j hn hf => hj j hn (hfall j ch' hf)⟩

variable (hs : s.Sane lockOf)
include hs

/-- A step of process `p` on CPU `c`, which it keeps. It falls asleep on no channel on which it did
not before. -/
theorem Served.inside {y : Cpu} (h : Served s since) (hp : (s.cpu c).Occupies p)
    (hcpu : t.cpu = update s.cpu c y) (hy : y = .running p ∨ y = .back p)
    (hgood : t.Good lockOf c y)
    (hother : ∀ q, q ≠ p → Same s t q ∧ t.chan q = s.chan q)
    (hl : ∀ d, d ≠ c → ∀ l, s.lk l = some d → t.lk l = some d)
    (hfall : ∀ ch, t.Falling p ch → s.Falling p ch) (hcond : t.cond = s.cond) :
    t.Sane lockOf ∧ Served t since := by
  constructor
  · refine hs.inside hp hcpu ?_ hgood (fun q hq => (hother q hq).1) hl
    rcases hy with rfl | rfl <;> rfl
  · refine h.keep (cpu_keep hcpu ?_) (falling_of_other (fun q hq => ?_) hfall) fun _ => hcond ▸ id
    · rcases hy with rfl | rfl <;> simp
    · exact ⟨(hother q hq).1.pc, (hother q hq).1.state, (hother q hq).2⟩

theorem runProc_keeps (h : Served s since) (hc : s.cpu c = .running p)
    (hx : runProc lockOf s c p (s.pc p) = .ok t) : t.Sane lockOf ∧ Served t since := by
  have hr : s.Runs lockOf c p := hs.good_of hc
  have hp : (s.cpu c).Occupies p := by
    rw [hc]
    rfl
  have hcpu : s.cpu = update s.cpu c (.running p) := by
    rw [← hc, update_eq_self]
  have hstate := hr.state
  have hproc := hr.procLock
  have hlk := hr.lk
  cases hpc : s.pc p with
  | idle =>
    rw [hpc] at hx
    cases hx
  | acquireLk ch =>
    rw [hpc] at hx hstate
    have hrun := hstate (by simp)
    simp only [runProc] at hx
    split_ifs at hx with hfree
    cases hx
    refine h.inside hs hp hcpu (.inl rfl) ⟨fun _ => hrun, ?_, ?_⟩ ?_
      (setLk_other (.inl hfree)) ?_ rfl
    · simp [Pc.HoldsProc]
    · intro ch' hch
      simp only [setPc_eq, setLk_eq, update_self] at hch ⊢
      rw [← (show ch = ch' from hch), update_self]
    · exact fun q hq => ⟨⟨by simp [hq], rfl, rfl⟩, rfl⟩
    · simp [State.Falling, Pc.Falls, hrun]
  | test ch =>
    rw [hpc] at hx hstate hlk
    have hrun := hstate (by simp)
    have hmine := hlk ch rfl
    simp only [runProc] at hx
    split_ifs at hx with htrue
    · cases hx
      refine h.inside hs hp hcpu (.inl rfl) ⟨fun _ => hrun, ?_, ?_⟩ ?_
        (setLk_other (.inr hmine)) ?_ rfl
      · simp [Pc.HoldsProc]
      · simp [Pc.HoldsLk]
      · exact fun q hq => ⟨⟨by simp [hq], rfl, rfl⟩, rfl⟩
      · simp [State.Falling, Pc.Falls, hrun]
    · cases hx
      -- the only step by which a process begins to fall asleep
      have hfall : ∀ q ch', (s.setPc p (.acquireProc ch)).Falling q ch' → ch' ≠ ch →
          s.Falling q ch' := by
        intro q ch' hf hne
        by_cases hq : q = p
        · subst hq
          simp [State.Falling, Pc.Falls, hrun] at hf
          exact absurd hf.symm hne
        · simpa [State.Falling, hq] using hf
      refine ⟨hs.inside hp hcpu rfl ⟨fun _ => hrun, ?_, ?_⟩ ?_ fun _ _ _ => id, ?_, ?_⟩
      · simp [Pc.HoldsProc]
      · intro ch' hch
        simp only [setPc_eq, update_self] at hch
        exact hlk ch' hch
      · exact fun q hq => ⟨by simp [hq], rfl, rfl⟩
      · intro d self ch' made i hd j hj hn hf
        refine h.waking d self ch' made i hd j hj hn (hfall j ch' hf ?_)
        rintro rfl
        have hgood := hs.good d
        change s.cpu d = _ at hd
        rw [hd] at hgood
        have hlk' := hgood.1 (by simp)
        rw [hmine] at hlk'
        rw [← some.inj hlk', hc] at hd
        cases hd
      · intro ch' hch
        obtain ⟨hc', hj⟩ := h.since ch' hch
        refine ⟨hc', fun j hn hf => hj j hn (hfall j ch' hf ?_)⟩
        rintro rfl
        exact htrue hc'
  | acquireProc ch =>
    rw [hpc] at hx hstate hlk
    have hrun := hstate (by simp)
    simp only [runProc] at hx
    split_ifs at hx with hfree
    cases hx
    refine h.inside hs hp hcpu (.inl rfl) ⟨fun _ => hrun, ?_, ?_⟩ ?_ (fun _ _ _ => id) ?_ rfl
    · simp
    · intro ch' hch
      simp only [setPc_eq, update_self] at hch
      exact hlk ch' hch
    · exact fun q hq => ⟨⟨by simp [hq], rfl, by simp [hq]⟩, rfl⟩
    · simp [State.Falling, Pc.Falls, hrun, hpc]
  | releaseLk ch =>
    rw [hpc] at hx hstate hproc hlk
    have hrun := hstate (by simp)
    cases hx
    refine h.inside hs hp hcpu (.inl rfl) ⟨fun _ => hrun, fun _ => hproc trivial, ?_⟩ ?_
      (setLk_other (.inr (hlk ch rfl))) ?_ rfl
    · simp [Pc.HoldsLk]
    · exact fun q hq => ⟨⟨by simp [hq], rfl, rfl⟩, rfl⟩
    · simp [State.Falling, Pc.Falls, hrun, hpc]
  | fallAsleep ch =>
    rw [hpc] at hx hproc
    cases hx
    refine h.inside hs hp hcpu (.inl rfl) ⟨?_, fun _ => hproc trivial, ?_⟩ ?_
      (fun _ _ _ => id) ?_ rfl
    · exact fun hne => absurd (by simp) (hne ch)
    · simp [Pc.HoldsLk]
    · exact fun q hq => ⟨⟨by simp [hq], by simp [hq], rfl⟩, by simp [hq]⟩
    · simp [State.Falling, Pc.Falls, hpc]
  | switch ch =>
    rw [hpc] at hx hproc
    cases hx
    refine h.inside hs hp rfl (.inr rfl) ⟨hproc trivial, ?_⟩ ?_ (fun _ _ _ => id) ?_ rfl
    · simp [Pc.Parked]
    · exact fun q hq => ⟨⟨by simp [hq], rfl, rfl⟩, rfl⟩
    · intro ch' hf
      simp only [State.Falling, setPc_eq, setCpu_eq, update_self, Pc.Falls,
        false_or] at hf
      exact .inr hf
  | resumed ch =>
    rw [hpc] at hx hstate
    cases hx
    refine h.inside hs hp hcpu (.inl rfl) ⟨fun _ => hstate (by simp), ?_, ?_⟩ ?_
      (fun _ _ _ => id) ?_ rfl
    · simp [Pc.HoldsProc]
    · simp [Pc.HoldsLk]
    · exact fun q hq => ⟨⟨by simp [hq], rfl, by simp [hq]⟩, by simp [hq]⟩
    · simp [State.Falling, Pc.Falls]
  | yielded ch =>
    rw [hpc] at hx hstate
    have hrun := hstate (by simp)
    cases hx
    refine h.inside hs hp hcpu (.inl rfl) ⟨fun _ => hrun, ?_, ?_⟩ ?_ (fun _ _ _ => id) ?_ rfl
    · cases ch <;> simp [Pc.HoldsProc, Pc.afterYield]
    · cases ch <;> simp [Pc.HoldsLk, Pc.afterYield]
    · exact fun q hq => ⟨⟨by simp [hq], rfl, by simp [hq]⟩, rfl⟩
    · cases ch <;> simp [State.Falling, Pc.Falls, Pc.afterYield, hrun]

/-- A process whose `p->lock` is free is not on its way to sleep on a channel of which somebody
else holds the lock. -/
theorem State.Sane.not_falls {self : Option ℕ} {ch i : ℕ} {pc : WakerPc}
    (hc : s.cpu c = .waker self ch pc) (hlk : s.lk (lockOf ch) = some c)
    (hl : s.procLock i = none) :
    ¬ (s.pc i).Falls ch := by
  intro hf
  by_cases hocc : ∃ d, (s.cpu d).Occupies i
  · obtain ⟨d, hd⟩ := hocc
    have hgood := hs.good d
    cases hcpu : s.cpu d with
    | scheduler =>
      rw [hcpu] at hd
      exact hd
    | running q =>
      rw [hcpu] at hd hgood
      obtain rfl : q = i := hd
      have hr : s.Runs lockOf d q := hgood
      rcases hf.holds with hh | hh
      · have hlock := hr.procLock hh
        rw [hl] at hlock
        cases hlock
      · have hlock := hr.lk ch hh
        rw [hlk] at hlock
        rw [← some.inj hlock, hc] at hcpu
        cases hcpu
    | back q =>
      rw [hcpu] at hd hgood
      obtain rfl : q = i := hd
      exact hgood.2.not_falls hf
    | waker self ch pc =>
      rw [hcpu] at hd hgood
      exact (hgood.2 i hd).2.not_falls hf
  · exact (hs.parked i fun d hd => hocc ⟨d, hd⟩).not_falls hf

theorem not_falling_wakeupAt {self : Option ℕ} {ch i : ℕ} {pc : WakerPc}
    (hc : s.cpu c = .waker self ch pc) (hlk : s.lk (lockOf ch) = some c)
    (hl : s.procLock i = none) :
    ¬ (wakeupAt s ch i).Falling i ch := by
  rintro (hf | hf)
  · rw [(wakeupAt_keeps s ch i).2.2.1] at hf
    exact hs.not_falls hc hlk hl hf
  · unfold wakeupAt at hf
    split_ifs at hf with hsleep
    · simp at hf
    · exact hsleep hf

theorem runWaker_served (h : Served s since) {self : Option ℕ} {ch : ℕ}
    {pc : WakerPc} (hc : s.cpu c = .waker self ch pc)
    (hx : runWaker lockOf s c self ch pc = .ok t) :
    Served t (note s (.wake c) t since) := by
  have hgood := hs.good_of hc
  cases pc with
  | acquire =>
    simp only [note, hc]
    simp only [runWaker] at hx
    split_ifs at hx with hfree
    cases hx
    exact h.keep (cpu_keep rfl (by simp)) (fun _ _ => id) fun _ => id
  | holding made woken =>
    simp only [note, hc]
    cases hx
    refine h.keep (cpu_keep rfl ?_) (fun _ _ => id) fun _ => id
    rintro _ _ _ _ ⟨⟩
    rfl
  | waking made i =>
    have hlk := hgood.1 (by simp)
    simp only [note, hc]
    simp only [runWaker] at hx
    split_ifs at hx ⊢ with hi hself hfree
    · cases hx
      obtain ⟨hstate, hcalm⟩ := hgood.2 i hself
      refine h.advance hc rfl (fun _ _ => id) ?_ rfl
      rintro (hf | hf)
      · exact hcalm.not_falls hf
      · exact absurd (hstate.symm.trans hf.1) (by simp)
    · cases hx
      obtain ⟨hcpu, -, -, hcond⟩ := wakeupAt_keeps s ch i
      refine h.advance hc ?_ (fun _ _ => falling_wakeupAt)
        (not_falling_wakeupAt hs hc hlk hfree) hcond
      simp [hcpu]
    · cases hx
      have hkeep : Served (s.setCpu c (.waker self ch (.holding made true))) since :=
        h.keep (cpu_keep rfl (by simp)) (fun _ _ => id) fun _ => id
      refine ⟨hkeep.waking, fun ch' hch => ?_⟩
      by_cases he : ch' = ch
      · subst he
        rw [update_self] at hch
        refine ⟨hch, fun j hn => ?_⟩
        exact h.waking c self ch' made i hc j (by omega) hn
      · rw [update_of_ne he] at hch
        exact hkeep.since ch' hch

theorem step_keeps {e : Event} (h : Served s since) (hx : step lockOf s e = .ok t) :
    t.Sane lockOf ∧ Served t (note s e t since) := by
  cases e with
  | dispatch c p =>
    simp only [step] at hx
    split_ifs at hx with hd
    cases hx
    refine ⟨dispatch_sane hs hd.1 hd.2.2.1 hd.2.2.2, h.keep (cpu_keep rfl (by simp))
      (falling_of_other (p := p) (fun q hq => ⟨rfl, by simp [hq], rfl⟩) ?_) fun _ => id⟩
    intro ch hf
    simp only [State.Falling, setCpu_eq, setState_eq, update_self,
      reduceCtorEq, false_and, or_false] at hf
    exact .inl hf
  | resume c =>
    simp only [step] at hx
    split at hx
    · next p hc =>
      cases hx
      exact ⟨resume_sane hs hc, h.keep (cpu_keep rfl (by simp)) (fun _ _ => id) fun _ => id⟩
    · cases hx
  | wait c ch =>
    simp only [step] at hx
    split at hx
    · next p hc =>
      split_ifs at hx with hidle
      cases hx
      have hocc : (s.cpu c).Occupies p := by
        rw [hc]
        rfl
      have hcpu : s.cpu = update s.cpu c (.running p) := by
        rw [← hc, update_eq_self]
      have hstate := hs.calm hc (by rw [hidle]; trivial)
      refine h.inside hs hocc hcpu (.inl rfl) ⟨fun _ => hstate, ?_, ?_⟩ ?_ (fun _ _ _ => id) ?_ rfl
      · simp [Pc.HoldsProc]
      · simp [Pc.HoldsLk]
      · exact fun q hq => ⟨⟨by simp [hq], rfl, rfl⟩, rfl⟩
      · simp [State.Falling, Pc.Falls, hstate]
    · cases hx
  | run c =>
    simp only [step] at hx
    split at hx
    · next p hc => exact runProc_keeps hs h hc hx
    · cases hx
  | yield c =>
    simp only [step] at hx
    split at hx
    · next p hc =>
      split_ifs at hx with hcalm
      cases hx
      have hocc : (s.cpu c).Occupies p := by
        rw [hc]
        rfl
      refine h.inside hs hocc rfl (.inr rfl) ⟨by simp, ?_⟩ ?_ (fun _ _ _ => id) ?_ rfl
      · cases hpc : s.pc p <;> simp [Pc.yielding, Pc.Parked]
      · exact fun q hq => ⟨⟨by simp [hq], by simp [hq], by simp [hq]⟩, rfl⟩
      · cases hpc : s.pc p <;> simp [State.Falling, Pc.yielding, Pc.Falls]
    · cases hx
  | interrupt c ch =>
    have hserved : ∀ self, Served (s.setCpu c (.waker self ch .acquire)) since :=
      fun _ => h.keep (cpu_keep rfl (by simp)) (fun _ _ => id) fun _ => id
    simp only [step] at hx
    split at hx
    · next hc =>
      cases hx
      exact ⟨interruptIdle_sane hs hc, hserved none⟩
    · next p hc =>
      split_ifs at hx with hcalm
      cases hx
      exact ⟨interrupt_sane hs hc hcalm, hserved p⟩
    · cases hx
  | make c =>
    simp only [step] at hx
    split at hx
    · next self ch made woken hc =>
      cases hx
      have hgood := hs.good_of hc
      refine ⟨hs.waker hc rfl (fun q => ⟨rfl, rfl, rfl⟩) (hgood.1 (by simp)) fun _ _ _ => id,
        h.keep (cpu_keep rfl (by simp)) (fun _ _ => id) fun ch' htrue => ?_⟩
      by_cases he : ch' = ch
      · simp [he]
      · simpa [he] using htrue
    · cases hx
  | wake c =>
    simp only [step] at hx
    split at hx
    · next self ch pc hc => exact ⟨runWaker_sane hs hc hx, runWaker_served hs h hc hx⟩
    · cases hx
  | leave c =>
    simp only [step] at hx
    split at hx
    · next self ch made woken hc =>
      split_ifs at hx
      cases hx
      refine ⟨leave_sane hs hc, h.keep (cpu_keep rfl ?_) (fun _ _ => id) fun _ => id⟩
      cases self <;> simp [Cpu.home]
    · cases hx
  | falsify ch =>
    cases hx
    refine ⟨⟨fun d => (hs.good d).frame (fun q _ => ⟨rfl, rfl, rfl⟩) fun _ => id, hs.unique,
      hs.parked⟩, h.waking, fun ch' hch => ?_⟩
    simp only [note] at hch
    by_cases he : ch' = ch
    · subst he
      simp at hch
    · rw [update_of_ne he] at hch
      obtain ⟨htrue, hj⟩ := h.since ch' hch
      exact ⟨by simpa [he] using htrue, hj⟩
  | kill p =>
    simp only [step] at hx
    split_ifs at hx with hl hsleep
    · cases hx
      refine ⟨hs.rouse hsleep hl, h.keep (fun _ _ _ _ _ => .inr) (falling_of_other (p := p)
        (fun q hq => ⟨rfl, by simp [hq], rfl⟩) ?_) fun _ => id⟩
      intro ch hf
      simp only [State.Falling, setState_eq, update_self, reduceCtorEq, false_and,
        or_false] at hf
      exact .inl hf
    · cases hx
      exact ⟨hs, h⟩

end Serving

section Runs

variable {lockOf} {cond : ℕ → Bool} {h : Traced State (ℕ → Bool)}

theorem start_sane : (start cond).state.Sane lockOf where
  good _ := trivial
  unique _ _ _ hp := hp.elim
  parked _ _ := trivial

theorem start_served : Served (start cond).state (start cond).trace where
  waking _ _ _ _ _ hd := by cases hd
  since _ hch := by cases hch

/-- While a condition has stayed true since some `wakeup` on its channel was completed, no process
sleeps on the channel. -/
theorem no_lost_wakeup
    (hr : Reach (stepRel (traced (step lockOf) note)) (fun _ _ => True) (start cond) h) (ch : ℕ)
    (hsince : h.trace ch = true) (p : ℕ) (hp : p < nProc) :
    ¬ (h.state.state p = .sleeping ∧ h.state.chan p = some ch) := by
  have hinv : h.state.Sane lockOf ∧ Served h.state h.trace := by
    apply hr.invariant (I := fun h => h.state.Sane lockOf ∧ Served h.state h.trace)
    · exact ⟨start_sane, start_served⟩
    · rintro a e b ⟨hs, hv⟩ - hstep
      obtain ⟨hx, htrace⟩ := traced_ok hstep
      rw [htrace]
      exact step_keeps hs hv hx
  intro hsleeps
  exact (hinv.2.since ch hsince).2 p hp (Or.inr hsleeps)

/-- Process 0 goes to sleep on CPU 0 while CPU 1, in an interrupt, waits for the lock of the
condition; as soon as it is free CPU 1 makes the condition true, but has to wait for the process to
be off its CPU before it can wake it up. -/
def race : List Event :=
  [.dispatch 0 0, .run 0, .wait 0 7, .run 0, .run 0, .interrupt 1 7, .run 0, .run 0, .wake 1,
  .make 1,
    .wake 1, .run 0, .run 0, .resume 0] ++ replicate 65 (.wake 1) ++ [.leave 1]

theorem no_lost_wakeup_race : ∃ h : Traced State (ℕ → Bool),
    Reach (stepRel (traced (step id) note)) (fun _ _ => True) (start fun _ => false) h ∧
    h.trace 7 = true ∧ h.state.state 0 = .runnable ∧ h.state.pc 0 = .resumed 7 ∧
    ¬ (h.state.state 0 = .sleeping ∧ h.state.chan 0 = some 7) := by
  have hrun : (follow (traced (step id) note) (fun _ _ => True) (start fun _ => false) race).map
      (fun h => (h.trace 7, h.state.state 0, h.state.pc 0)) = some
      (true, .runnable, .resumed 7) := by
    decide +kernel
  obtain ⟨h, hf, heq⟩ := Option.map_eq_some_iff.mp hrun
  simp only [Prod.mk.injEq] at heq
  have hr := reach_of_follow race Reach.refl hf
  exact ⟨h, hr, heq.1, heq.2.1, heq.2.2, no_lost_wakeup hr 7 heq.1 0 (by decide)⟩

end Runs

end Xv6.Procs.Sleep
