import Xv6.Procs.Table

/-!
# The tree of processes

Parents are changed with `wait_lock` held, and states by their own process or its parent. A
process that exits gives its children away before it becomes a zombie, so that every process that
has been started has a parent that is alive.
-/
namespace Xv6.Procs

open Vm (i32)
open Library Function List Option

def ProcState.Alive : ProcState → Prop
  | .sleeping | .runnable | .running => True
  | _ => False

namespace Pc

/-- The thread is making entry `np` of the process table a new process. -/
def Forks (np : ℕ) : Pc → Prop
  | .link n | .start n => n = np
  | _ => False

def Holds : Pc → Prop
  | .reparent _ _ | .wakeInit _ _ _ | .wakeParent _ _ _ | .zombie _ | .scan _ _ | .waitSleep => True
  | _ => False

def Exiting : Pc → Prop
  | .exit _ | .reparent _ _ | .wakeInit _ _ _ | .wakeParent _ _ _ | .zombie _ => True
  | _ => False

/-- The number of entries of the process table in which `reparent` has left no child. -/
def passed : Pc → ℕ
  | .reparent _ i => i
  | .wakeInit _ i _ => i + 1
  | .wakeParent _ _ _ | .zombie _ => nProc
  | _ => 0

theorem holds_of_passed {c : Pc} {j : ℕ} (h : j < c.passed) : c.Holds := by
  cases c with
  | reparent | wakeInit | wakeParent | zombie => trivial
  | _ => exact absurd h (Nat.not_lt_zero j)

end Pc

structure System.Sound (s : System) : Prop where
  init : (s.proc s.initproc).state.Alive
  busy : ∀ p, s.pc p ≠ .user → s.pc p ≠ .dead → (s.proc p).state.Alive
  locked : ∀ p, (s.pc p).Holds → s.waitLock = some p
  exiting : ∀ p, (s.pc p).Exiting → p ≠ s.initproc
  passed : ∀ p j, j < (s.pc p).passed → (s.proc j).parent ≠ some p
  embryo : ∀ p np, (s.pc p).Forks np → (s.proc np).state = .used
  forker : ∀ p q np, (s.pc p).Forks np → (s.pc q).Forks np → p = q
  linked : ∀ p np, s.pc p = .start np → (s.proc np).parent = some p
  orphan : ∀ i, (s.proc i).state = .unused → (s.proc i).parent = none
  bounded : ∀ i, (s.proc i).state ≠ .unused → i < nProc
  parent : ∀ i, (s.proc i).state ≠ .unused → (s.proc i).state ≠ .used → i ≠ s.initproc →
    ∃ q, (s.proc i).parent = some q ∧ (s.proc q).state.Alive

namespace System.Sound

variable {s : System} {p q i j np : ℕ} {x : Proc} {c : Pc} {l : Option ℕ}

variable (h : s.Sound)
include h

theorem alone (hp : s.waitLock = none ∨ s.waitLock = some p) (hq : (s.pc q).Holds) : q = p := by
  have hlock := h.locked q hq
  rcases hp with hp | hp
  · rw [hp] at hlock
    cases hlock
  · rw [hp] at hlock
    exact (some.inj hlock).symm

theorem not_forks (hi : (s.proc i).state ≠ .used) : ¬ (s.pc p).Forks i :=
  fun hf => hi (h.embryo p i hf)

theorem parent_lt (hi : (s.proc i).parent = some p) : i < nProc := by
  apply h.bounded
  intro hunused
  rw [h.orphan i hunused] at hi
  cases hi

/-- A thread goes on to `c`, and may take or give back `wait_lock`. -/
theorem setPc (hbusy : c ≠ .user → c ≠ .dead → (s.proc p).state.Alive)
    (hl : l = s.waitLock ∨ s.waitLock = none ∨ s.waitLock = some p) (hholds : c.Holds → l = some p)
    (hexit : c.Exiting → p ≠ s.initproc) (hpassed : ∀ j < c.passed, (s.proc j).parent ≠ some p)
    (hembryo : ∀ np, c.Forks np → (s.proc np).state = .used)
    (hforker : ∀ np q, c.Forks np → (s.pc q).Forks np → q = p)
    (hlinked : ∀ np, c = .start np → (s.proc np).parent = some p) :
    ((s.setPc p c).setWaitLock l).Sound where
  init := h.init
  busy := (forall_update_iff s.pc fun q d => d ≠ .user → d ≠ .dead →
    (s.proc q).state.Alive).mpr ⟨hbusy, fun q _ => h.busy q⟩
  locked := by
    apply (forall_update_iff s.pc fun q d => d.Holds → l = some q).mpr
    refine ⟨hholds, fun q hqp hq => ?_⟩
    rcases hl with rfl | hl
    · exact h.locked q hq
    · exact absurd (h.alone hl hq) hqp
  exiting := (forall_update_iff s.pc fun q d => d.Exiting → q ≠ s.initproc).mpr
    ⟨hexit, fun q _ => h.exiting q⟩
  passed := (forall_update_iff s.pc fun q d => ∀ j, j < d.passed →
    (s.proc j).parent ≠ some q).mpr ⟨hpassed, fun q _ => h.passed q⟩
  embryo := (forall_update_iff s.pc fun _ d => ∀ np, d.Forks np →
    (s.proc np).state = .used).mpr ⟨hembryo, fun q _ => h.embryo q⟩
  forker := by
    have hmine : ∀ q np, (update s.pc p c q).Forks np →
        (q = p ∧ c.Forks np) ∨ (s.pc q).Forks np := by
      apply (forall_update_iff s.pc fun q d => ∀ np, d.Forks np →
        (q = p ∧ c.Forks np) ∨ (s.pc q).Forks np).mpr
      exact ⟨fun np hf => .inl ⟨rfl, hf⟩, fun q _ np hf => .inr hf⟩
    intro q r np hq hr
    rcases hmine q np hq with ⟨rfl, hq'⟩ | hq'
    · rcases hmine r np hr with ⟨rfl, -⟩ | hr'
      · rfl
      · exact (hforker np r hq' hr').symm
    · rcases hmine r np hr with ⟨rfl, hr'⟩ | hr'
      · exact hforker np q hr' hq'
      · exact h.forker q r np hq' hr'
  linked := (forall_update_iff s.pc fun q d => ∀ np, d = .start np →
    (s.proc np).parent = some q).mpr ⟨hlinked, fun q _ => h.linked q⟩
  orphan := h.orphan
  bounded := h.bounded
  parent := h.parent

theorem hold (hp : (s.proc p).state.Alive) (hmine : l = some p)
    (hl : l = s.waitLock ∨ s.waitLock = none) (hforks : ∀ np, ¬ c.Forks np)
    (hexit : c.Exiting → p ≠ s.initproc) (hpassed : ∀ j < c.passed, (s.proc j).parent ≠ some p) :
    ((s.setPc p c).setWaitLock l).Sound := by
  apply h.setPc
  · exact fun _ _ => hp
  · exact hl.imp_right .inl
  · exact fun _ => hmine
  · exact hexit
  · exact hpassed
  · exact fun np hf => absurd hf (hforks np)
  · exact fun np q hf => absurd hf (hforks np)
  · exact fun np hc => absurd (hc ▸ rfl : c.Forks np) (hforks np)

theorem goto (hp : c = .user ∨ c = .dead ∨ (s.proc p).state.Alive)
    (hl : l = s.waitLock ∨ s.waitLock = none ∨ s.waitLock = some p) (hc : ¬ c.Holds)
    (hforks : ∀ np, ¬ c.Forks np) (hexit : c.Exiting → p ≠ s.initproc) :
    ((s.setPc p c).setWaitLock l).Sound := by
  apply h.setPc
  · exact fun hu hd => (hp.resolve_left hu).resolve_left hd
  · exact hl
  · exact fun hholds => absurd hholds hc
  · exact hexit
  · exact fun j hj => absurd (Pc.holds_of_passed hj) hc
  · exact fun np hf => absurd hf (hforks np)
  · exact fun np q hf => absurd hf (hforks np)
  · exact fun np he => absurd (he ▸ rfl : c.Forks np) (hforks np)

theorem setProc (hinit : j = s.initproc → x.state.Alive)
    (hbusy : s.pc j ≠ .user → s.pc j ≠ .dead → x.state.Alive)
    (hpassed : ∀ p, j < (s.pc p).passed → x.parent ≠ some p)
    (hembryo : ∀ p, (s.pc p).Forks j → x.state = .used)
    (hlinked : ∀ p, s.pc p = .start j → x.parent = some p)
    (horphan : x.state = .unused → x.parent = none) (hbounded : x.state ≠ .unused → j < nProc)
    (hparent : x.state ≠ .unused → x.state ≠ .used → j ≠ s.initproc →
      ∃ q, x.parent = some q ∧ (update s.proc j x q).state.Alive)
    (hchildren : (s.proc j).state.Alive → x.state.Alive ∨ ∀ i, (s.proc i).parent ≠ some j) :
    (s.setProc j x).Sound where
  init := by
    change (update s.proc j x s.initproc).state.Alive
    by_cases hj : s.initproc = j
    · rw [hj, update_self]
      exact hinit hj.symm
    · rw [update_of_ne hj]
      exact h.init
  busy := (forall_update_iff s.proc fun q y => s.pc q ≠ .user → s.pc q ≠ .dead →
    y.state.Alive).mpr ⟨hbusy, fun q _ => h.busy q⟩
  locked := h.locked
  exiting := h.exiting
  passed p := (forall_update_iff s.proc fun i y => i < (s.pc p).passed →
    y.parent ≠ some p).mpr ⟨hpassed p, fun i _ => h.passed p i⟩
  embryo p := (forall_update_iff s.proc fun i y => (s.pc p).Forks i →
    y.state = .used).mpr ⟨hembryo p, fun i _ => h.embryo p i⟩
  forker := h.forker
  linked p := (forall_update_iff s.proc fun i y => s.pc p = .start i →
    y.parent = some p).mpr ⟨hlinked p, fun i _ => h.linked p i⟩
  orphan := (forall_update_iff s.proc fun _ y => y.state = .unused →
    y.parent = none).mpr ⟨horphan, fun i _ => h.orphan i⟩
  bounded := (forall_update_iff s.proc fun i y => y.state ≠ .unused →
    i < nProc).mpr ⟨hbounded, fun i _ => h.bounded i⟩
  parent := by
    apply (forall_update_iff s.proc fun i y => y.state ≠ .unused → y.state ≠ .used →
      i ≠ s.initproc → ∃ q, y.parent = some q ∧ (update s.proc j x q).state.Alive).mpr
    refine ⟨hparent, fun i _ hunused hused hi => ?_⟩
    obtain ⟨q, hq, ha⟩ := h.parent i hunused hused hi
    refine ⟨q, hq, ?_⟩
    by_cases hqj : q = j
    · subst hqj
      rw [update_self]
      exact (hchildren ha).resolve_right fun hnone => hnone i hq
    · rw [update_of_ne hqj]
      exact ha

/-- A process goes to sleep, wakes up, or is killed, selected or charged. -/
theorem touch (hpar : x.parent = (s.proc j).parent)
    (hstate : x.state = (s.proc j).state ∨ (s.proc j).state.Alive ∧ x.state.Alive) :
    (s.setProc j x).Sound := by
  have halive : (s.proc j).state.Alive → x.state.Alive := by
    intro hj
    rcases hstate with heq | hx
    · exact heq ▸ hj
    · exact hx.2
  have hback : ∀ st, ¬ ProcState.Alive st → (x.state = st ↔ (s.proc j).state = st) := by
    intro st hst
    rcases hstate with heq | ⟨hs, hx⟩
    · rw [heq]
    · exact ⟨fun he => absurd (he ▸ hx) hst, fun he => absurd (he ▸ hs) hst⟩
  apply h.setProc
  · exact fun hj => halive (hj ▸ h.init)
  · exact fun hu hd => halive (h.busy j hu hd)
  · exact fun p hj => hpar ▸ h.passed p j hj
  · exact fun p hf => (hback .used id).mpr (h.embryo p j hf)
  · exact fun p hl => hpar ▸ h.linked p j hl
  · exact fun hx => hpar ▸ h.orphan j ((hback .unused id).mp hx)
  · exact fun hx => h.bounded j fun hj => hx ((hback .unused id).mpr hj)
  · intro hunused hused hinit
    obtain ⟨q, hq, ha⟩ := h.parent j (fun hj => hunused ((hback .unused id).mpr hj))
      (fun hj => hused ((hback .used id).mpr hj)) hinit
    refine ⟨q, hpar.trans hq, ?_⟩
    by_cases hqj : q = j
    · subst hqj
      rw [update_self]
      exact halive ha
    · rw [update_of_ne hqj]
      exact ha
  · exact fun hj => .inl (halive hj)

theorem wakeup (chan : Option ℕ) (j : ℕ) : (s.setProc j ((s.proc j).wakeup chan)).Sound := by
  unfold Proc.wakeup
  split_ifs with hs
  · exact h.touch rfl (.inr ⟨by rw [hs.1]; trivial, trivial⟩)
  · exact h.touch rfl (.inl rfl)

theorem wakeupAt (p : ℕ) (chan : Option ℕ) (j : ℕ) : (wakeupAt s p chan j).Sound := by
  unfold Procs.wakeupAt
  split_ifs
  · exact h
  · exact h.wakeup chan j

theorem kill (j : ℕ) : (s.setProc j (s.proc j).kill).Sound := by
  unfold Proc.kill
  split_ifs with hs
  · exact h.touch rfl (.inr ⟨by rw [hs]; trivial, trivial⟩)
  · exact h.touch rfl (.inl rfl)

/-- `allocproc` takes an entry that is not used, for a process or in vain. -/
theorem alloc (hi : i < nProc) (hunused : (s.proc i).state = .unused)
    (hx : x.state = .used ∨ x.state = .unused) (hpar : x.parent = none) :
    (s.setProc i x).Sound := by
  have hnew : ¬ (s.proc i).state.Alive := by
    rw [hunused]
    exact id
  apply h.setProc
  · exact fun hinit => absurd (hinit ▸ h.init) hnew
  · exact fun hu hd => absurd (h.busy i hu hd) hnew
  · exact fun p _ => by simp [hpar]
  · exact fun p hf => absurd hf (h.not_forks (by simp [hunused]))
  · intro p hl
    exact absurd (hl ▸ rfl : (s.pc p).Forks i) (h.not_forks (by simp [hunused]))
  · exact fun _ => hpar
  · exact fun _ => hi
  · exact fun h1 h2 => absurd hx (not_or.mpr ⟨h2, h1⟩)
  · exact fun ha => absurd ha hnew

/-- The new process gets its parent, while nobody holds `wait_lock`. -/
theorem link (hc : s.pc p = .link np) (hl : s.waitLock = none) :
    (s.setProc np { s.proc np with parent := some p }).Sound := by
  have hf : (s.pc p).Forks np := hc ▸ rfl
  have hused := h.embryo p np hf
  have hnot : ¬ (s.proc np).state.Alive := by
    rw [hused]
    exact id
  apply h.setProc
  · exact fun hinit => absurd (hinit ▸ h.init) hnot
  · exact h.busy np
  · intro q hq
    have hlock := h.locked q (Pc.holds_of_passed hq)
    rw [hl] at hlock
    cases hlock
  · exact fun _ _ => hused
  · intro q hq
    have hqp := h.forker q p np (hq ▸ rfl) hf
    rw [hqp, hc] at hq
    cases hq
  · exact fun hx => by simp [hused] at hx
  · exact h.bounded np
  · exact fun _ hx => absurd hused hx
  · exact fun ha => absurd ha hnot

/-- The new process becomes runnable, after its parent has left `fork`. -/
theorem start (hused : (s.proc np).state = .used) (hpar : (s.proc np).parent = some p)
    (hp : (s.proc p).state.Alive) (hf : ∀ q, ¬ (s.pc q).Forks np)
    (hpassed : ∀ q, np < (s.pc q).passed → some p ≠ some q) :
    (s.setProc np { s.proc np with state := .runnable }).Sound := by
  have hne : p ≠ np := by
    rintro rfl
    rw [hused] at hp
    exact hp
  apply h.setProc
  · exact fun _ => trivial
  · exact fun _ _ => trivial
  · exact fun q hq => hpar ▸ hpassed q hq
  · exact fun q hq => absurd hq (hf q)
  · exact fun q hq => absurd (hq ▸ rfl : (s.pc q).Forks np) (hf q)
  · exact fun hx => by cases hx
  · exact fun _ => h.bounded np (by simp [hused])
  · intro _ _ _
    refine ⟨p, hpar, ?_⟩
    rw [update_of_ne hne]
    exact hp
  · exact fun _ => .inl trivial

/-- `reparent` gives a child to the first process. -/
theorem adopt (hc : (s.pc p).Exiting) (hl : s.waitLock = some p)
    (hpar : (s.proc i).parent = some p) :
    (s.setProc i { s.proc i with parent := some s.initproc }).Sound := by
  have hi : (s.proc i).state ≠ .unused := by
    intro hunused
    rw [h.orphan i hunused] at hpar
    cases hpar
  apply h.setProc
  · exact fun hinit => hinit ▸ h.init
  · exact h.busy i
  · intro q hq
    rw [h.alone (.inr hl) (Pc.holds_of_passed hq)]
    exact fun he => h.exiting p hc (some.inj he).symm
  · exact fun q hq => h.embryo q i hq
  · intro q hq
    have hqp := h.linked q i hq
    rw [hpar] at hqp
    rw [← some.inj hqp] at hq
    rw [hq] at hc
    exact hc.elim
  · exact fun hx => absurd hx hi
  · exact fun _ => h.bounded i hi
  · intro _ _ hinit
    refine ⟨s.initproc, rfl, ?_⟩
    rw [update_of_ne (Ne.symm hinit)]
    exact h.init
  · exact fun ha => .inl ha

/-- A process that has given its children away becomes a zombie. -/
theorem exit (hp : (s.proc p).state.Alive) (hinit : p ≠ s.initproc)
    (hpc : s.pc p = .dead) (hnone : ∀ i, (s.proc i).parent ≠ some p) (status : ℤ) :
    (s.setProc p { s.proc p with xstate := status, state := .zombie }).Sound := by
  have hnot : ∀ st, ¬ ProcState.Alive st → (s.proc p).state ≠ st := by
    intro st hst he
    exact hst (he ▸ hp)
  apply h.setProc
  · exact fun he => absurd he hinit
  · exact fun _ hd => absurd hpc hd
  · exact fun q hq => h.passed q p hq
  · exact fun q hq => absurd (h.embryo q p hq) (hnot .used id)
  · exact fun q hq => h.linked q p hq
  · exact fun hx => by cases hx
  · exact fun _ => h.bounded p (hnot .unused id)
  · intro _ _ _
    obtain ⟨q, hq, ha⟩ := h.parent p (hnot .unused id) (hnot .used id) hinit
    refine ⟨q, hq, ?_⟩
    have hqp : q ≠ p := fun he => hnone p (he ▸ hq)
    rw [update_of_ne hqp]
    exact ha
  · exact fun _ => .inr hnone

theorem reap (hj : (s.proc j).state = .zombie) : (s.setProc j (freeproc (s.proc j))).Sound := by
  have hnot : ¬ (s.proc j).state.Alive := by
    rw [hj]
    exact id
  apply h.setProc
  · exact fun hinit => absurd (hinit ▸ h.init) hnot
  · exact fun hu hd => absurd (h.busy j hu hd) hnot
  · exact fun p _ => by simp [freeproc]
  · exact fun p hf => absurd hf (h.not_forks (by simp [hj]))
  · intro p hl
    exact absurd (hl ▸ rfl : (s.pc p).Forks j) (h.not_forks (by simp [hj]))
  · exact fun _ => rfl
  · exact fun hx => absurd rfl hx
  · exact fun hx => absurd rfl hx
  · exact fun ha => absurd ha hnot

end System.Sound

section Steps

variable {s t : System} {p i : ℕ}

/-- The caller of `wakeup` and all parents stay as they are. -/
theorem wakeupAt_keeps (s : System) (p : ℕ) (chan : Option ℕ) (j : ℕ) :
    (wakeupAt s p chan j).proc p = s.proc p ∧ (wakeupAt s p chan j).waitLock = s.waitLock ∧
      (wakeupAt s p chan j).initproc = s.initproc ∧
      ∀ i, ((wakeupAt s p chan j).proc i).parent = (s.proc i).parent := by
  unfold wakeupAt
  split_ifs with hj
  · exact ⟨rfl, rfl, rfl, fun _ => rfl⟩
  · refine ⟨update_of_ne (Ne.symm hj) _ _, rfl, rfl, fun i => ?_⟩
    by_cases hij : i = j
    · subst hij
      unfold Proc.wakeup
      split_ifs <;> simp
    · simp [hij]

section

variable (h : s.Sound)
include h

theorem System.Sound.setNextpid (n : ℤ) : ({ s with nextpid := n } : System).Sound :=
  ⟨h.init, h.busy, h.locked, h.exiting, h.passed, h.embryo, h.forker, h.linked, h.orphan, h.bounded,
    h.parent⟩

theorem System.Sound.leave (p : ℕ) : (s.setPc p .user).Sound :=
  h.goto (.inl rfl) (.inl rfl) id (fun _ => id) False.elim

theorem System.Sound.unlock (hl : s.waitLock = some p) :
    ((s.setPc p .user).setWaitLock none).Sound :=
  h.goto (.inl rfl) (.inr (.inr hl)) id (fun _ => id) False.elim

theorem forkAlloc_sound (hp : (s.proc p).state = .running) (i : ℕ) (given : Bool) :
    (forkAlloc s p i given).Sound := by
  have halive : (s.proc p).state.Alive := by
    rw [hp]
    trivial
  have hn := h.setNextpid (i32 (s.nextpid + 1))
  unfold forkAlloc
  split_ifs with hi hunused hgiven
  · set x : Proc := { allocproc s.nextpid (s.proc i) with tickets := (s.proc p).tickets }
    have hpi : p ≠ i := by
      rintro rfl
      rw [hp] at hunused
      cases hunused
    have hnew := (hn.alloc (x := x) hi hunused (.inl rfl) (h.orphan i hunused)).leave i
    have hfree : ∀ q, ¬ (update s.pc i .user q).Forks i := by
      apply (forall_update_iff s.pc fun _ d => ¬ d.Forks i).mpr
      exact ⟨id, fun q _ => h.not_forks (by simp [hunused])⟩
    refine hnew.setPc ?_ (.inl rfl) False.elim False.elim ?_ ?_ ?_ ?_
    · intro _ _
      simpa [hpi] using halive
    · exact fun j hj => absurd hj (Nat.not_lt_zero j)
    · rintro np rfl
      simp [x, allocproc]
    · rintro np q rfl hq
      exact absurd hq (hfree q)
    · exact fun np he => by cases he
  · exact (hn.alloc hi hunused (.inr rfl) rfl).leave p
  · exact h.goto (.inr (.inr halive)) (.inl rfl) id (fun _ => id) False.elim
  · exact h.leave p

section

variable (hp : (s.proc p).state.Alive)
include hp

theorem waitScan_sound (hl : s.waitLock = some p) (i : ℕ)
    (havekids copied : Bool) : (waitScan s p i havekids copied).Sound := by
  have hscan : ∀ j kids, (s.setPc p (.scan j kids)).Sound := fun j kids =>
    h.hold hp hl (.inl rfl) (fun _ => id) False.elim fun j hj => absurd hj (Nat.not_lt_zero j)
  unfold waitScan
  split_ifs with hi hpar hzombie hcopied
  · exact (h.reap hzombie).unlock hl
  · exact h.unlock hl
  · exact hscan _ _
  · exact hscan _ _
  · exact h.unlock hl
  · exact h.hold hp hl (.inl rfl) (fun _ => id) False.elim fun j hj => absurd hj (Nat.not_lt_zero j)

theorem reparentAt_sound {status : ℤ}
    (hc : s.pc p = .reparent status i) : (reparentAt s p status i).Sound := by
  have hl : s.waitLock = some p := h.locked p (by rw [hc]; trivial)
  have hexit : (s.pc p).Exiting := by
    rw [hc]
    trivial
  have hpassed : ∀ j < i, (s.proc j).parent ≠ some p := by
    have hj := h.passed p
    rw [hc] at hj
    exact hj
  unfold reparentAt
  split_ifs with hi hpar
  · refine (h.adopt hexit hl hpar).hold ?_ hl (.inl rfl) (fun _ => id)
      (fun _ => h.exiting p hexit) ?_
    · by_cases hpi : p = i
      · subst hpi
        simpa using hp
      · simpa [hpi] using hp
    · intro j hj
      by_cases hji : j = i
      · subst hji
        simpa using (h.exiting p hexit).symm
      · have hlt : j < i := lt_of_le_of_ne (Nat.lt_succ_iff.mp hj) hji
        simpa [hji] using hpassed j hlt
  · refine h.hold hp hl (.inl rfl) (fun _ => id) (fun _ => h.exiting p hexit) ?_
    intro j hj
    rcases Nat.lt_succ_iff_lt_or_eq.mp hj with hlt | rfl
    · exact hpassed j hlt
    · exact hpar
  · refine h.hold hp hl (.inl rfl) (fun _ => id) (fun _ => h.exiting p hexit) ?_
    intro j hj
    exact hpassed j (lt_of_lt_of_le hj (not_lt.mp hi))

theorem killAt_sound (pid : ℤ) (i : ℕ) : (killAt s p pid i).Sound := by
  unfold killAt
  split_ifs
  · exact (h.kill i).leave p
  · exact h.goto (.inr (.inr hp)) (.inl rfl) id (fun _ => id) False.elim
  · exact h.leave p

/-- One iteration of a `wakeup` inside `exit`. -/
theorem wakeupAt_sound (hl : s.waitLock = some p)
    (hexit : p ≠ s.initproc) {c : Pc} (chan : Option ℕ) (j : ℕ) (hforks : ∀ np, ¬ c.Forks np)
    (hpassed : ∀ i < c.passed, (s.proc i).parent ≠ some p) :
    ((wakeupAt s p chan j).setPc p c).Sound := by
  obtain ⟨hself, hlock, hinit, hpar⟩ := wakeupAt_keeps s p chan j
  refine (h.wakeupAt p chan j).hold (hself ▸ hp) (hlock.trans hl) (.inl rfl) hforks ?_ ?_
  · exact fun _ => hinit ▸ hexit
  · intro i hi
    rw [hpar]
    exact hpassed i hi

theorem sleep_sound (chan : ℕ) : (s.sleep p chan).Sound :=
  h.touch rfl (.inr ⟨hp, trivial⟩)

end

theorem tidyUp_sound (p : ℕ) : (s.tidyUp p).Sound := h.touch rfl (.inl rfl)

/-- Every step inside a system call keeps the tree. -/
theorem run_sound (hp : (s.proc p).state = .running) {given : Bool}
    (hx : run s p given (s.pc p) = .ok t) : t.Sound := by
  have halive : (s.proc p).state.Alive := by
    rw [hp]
    trivial
  have hlocked := h.locked p
  have hexiting := h.exiting p
  have hpassed := h.passed p
  cases hc : s.pc p with
  | user =>
    rw [hc] at hx
    cases hx
  | alloc i =>
    rw [hc] at hx
    cases hx
    exact forkAlloc_sound h hp i given
  | link np =>
    rw [hc] at hx
    simp only [run] at hx
    split_ifs at hx with hfree
    cases hx
    have hused := h.embryo p np (hc ▸ rfl)
    have hne : p ≠ np := by
      rintro rfl
      rw [hp] at hused
      cases hused
    refine (h.link hc hfree).setPc ?_ (.inl rfl) False.elim False.elim ?_ ?_ ?_ ?_
    · intro _ _
      simpa [hne] using halive
    · exact fun j hj => absurd hj (Nat.not_lt_zero j)
    · rintro n rfl
      simpa using hused
    · rintro n q rfl hq
      exact h.forker q p np hq (hc ▸ rfl)
    · rintro n he
      cases he
      simp
  | start np =>
    rw [hc] at hx
    cases hx
    have hused := h.embryo p np (hc ▸ rfl)
    have hfree : ∀ q, ¬ (update s.pc p .user q).Forks np := by
      apply (forall_update_iff s.pc fun _ d => ¬ d.Forks np).mpr
      exact ⟨id, fun q hqp hq => hqp (h.forker q p np hq (hc ▸ rfl))⟩
    refine (h.leave p).start hused (h.linked p np hc) halive hfree ?_
    intro q hq
    have hpar := (h.leave p).passed q np hq
    change (s.proc np).parent ≠ some q at hpar
    rw [h.linked p np hc] at hpar
    exact hpar
  | exit status =>
    rw [hc] at hx hexiting
    simp only [run] at hx
    split_ifs at hx with hfree
    cases hx
    exact h.hold halive rfl (.inr hfree) (fun _ => id) (fun _ => hexiting trivial)
      fun j hj => absurd hj (Nat.not_lt_zero j)
  | reparent status i =>
    rw [hc] at hx
    cases hx
    exact reparentAt_sound h halive hc
  | wakeInit status i j =>
    rw [hc] at hx hlocked hexiting hpassed
    simp only [run] at hx
    split_ifs at hx
    · cases hx
      exact wakeupAt_sound h halive (hlocked trivial) (hexiting trivial) _ j (fun _ => id) hpassed
    · cases hx
      exact h.hold halive (hlocked trivial) (.inl rfl) (fun _ => id) (fun _ => hexiting trivial)
        hpassed
  | wakeParent status chan j =>
    rw [hc] at hx hlocked hexiting hpassed
    simp only [run] at hx
    split_ifs at hx
    · cases hx
      exact wakeupAt_sound h halive (hlocked trivial) (hexiting trivial) _ j (fun _ => id) hpassed
    · cases hx
      exact h.hold halive (hlocked trivial) (.inl rfl) (fun _ => id) (fun _ => hexiting trivial)
        hpassed
  | zombie status =>
    rw [hc] at hx hlocked hexiting hpassed
    cases hx
    have hnone : ∀ i, (s.proc i).parent ≠ some p := by
      intro i hi
      exact hpassed i (h.parent_lt hi) hi
    have hdead : ((s.setPc p .dead).setWaitLock none).Sound :=
      h.goto (.inr (.inl rfl)) (.inr (.inr (hlocked trivial))) id (fun _ => id) False.elim
    exact hdead.exit halive (hexiting trivial) (update_self _ _ _) hnone status
  | dead =>
    rw [hc] at hx
    cases hx
  | wait =>
    rw [hc] at hx
    simp only [run] at hx
    split_ifs at hx with hfree
    cases hx
    exact h.hold halive rfl (.inr hfree) (fun _ => id) False.elim
      fun j hj => absurd hj (Nat.not_lt_zero j)
  | scan i havekids =>
    rw [hc] at hx hlocked
    cases hx
    exact waitScan_sound h halive (hlocked trivial) i havekids given
  | waitSleep =>
    rw [hc] at hx hlocked
    cases hx
    refine (sleep_sound h halive p).goto (.inr (.inr ?_)) (.inr (.inr (hlocked trivial))) id
      (fun _ => id) False.elim
    simp [System.sleep, ProcState.Alive]
  | waitWoken =>
    rw [hc] at hx
    cases hx
    refine (tidyUp_sound h p).goto (.inr (.inr ?_)) (.inl rfl) id (fun _ => id) False.elim
    simpa [System.tidyUp] using halive
  | slept =>
    rw [hc] at hx
    cases hx
    exact (tidyUp_sound h p).leave p
  | kill pid i =>
    rw [hc] at hx
    cases hx
    exact killAt_sound h halive pid i

theorem call_sound (hp : (s.proc p).state = .running) {c : Call}
    (hx : call s p c = .ok t) : t.Sound := by
  have halive : (s.proc p).state.Alive := by
    rw [hp]
    trivial
  cases c with
  | exit status =>
    simp only [call] at hx
    split_ifs at hx with hinit
    cases hx
    exact h.goto (.inr (.inr halive)) (.inl rfl) id (fun _ => id) fun _ => hinit
  | settickets n =>
    cases hx
    split_ifs
    · exact h
    · exact h.touch rfl (.inl rfl)
  | exec outcome =>
    cases outcome <;> cases hx
    · exact h
    · exact h.touch rfl (.inl rfl)
    · exact h.touch rfl (.inl rfl)
  | sleep chan =>
    cases hx
    refine (sleep_sound h halive chan).goto (.inr (.inr ?_)) (.inl rfl) id (fun _ => id)
      False.elim
    simp [System.sleep, ProcState.Alive]
  | _ =>
    cases hx
    exact h.goto (.inr (.inr halive)) (.inl rfl) id (fun _ => id) False.elim

theorem step_sound {e : Event} (hx : step s e = .ok t) : t.Sound := by
  cases e with
  | dispatch p =>
    simp only [step] at hx
    split_ifs at hx with hp
    cases hx
    exact h.touch rfl (.inr ⟨by rw [hp]; trivial, trivial⟩)
  | yield p =>
    simp only [step] at hx
    split_ifs at hx with hp
    cases hx
    exact h.touch rfl (.inr ⟨by rw [hp.1]; trivial, trivial⟩)
  | call p c =>
    simp only [step] at hx
    split_ifs at hx with hp
    exact call_sound h hp.1 hx
  | run p given =>
    simp only [step] at hx
    split_ifs at hx with hp
    exact run_sound h hp hx
  | wakeup chan j =>
    cases hx
    exact h.wakeup (some chan) j

end

theorem boot_sound : boot.Sound := by
  have hproc : ∀ (P : ℕ → Proc → Prop), P 0 { allocproc 1 Proc.zero with
      tickets := 1, state := .runnable } → (∀ i, P i Proc.zero) → ∀ i, P i (boot.proc i) := by
    intro P h0 hother
    exact (forall_update_iff (fun _ => Proc.zero) P).mpr ⟨h0, fun i _ => hother i⟩
  constructor
  case init => trivial
  case busy => exact fun p hu => absurd rfl hu
  case locked => exact fun p hh => hh.elim
  case exiting => exact fun p hh => hh.elim
  case passed => exact fun p j hj => absurd hj (Nat.not_lt_zero j)
  case embryo => exact fun p np hf => hf.elim
  case forker => exact fun p q np hf => hf.elim
  case linked => exact fun p np hl => by cases hl
  case orphan =>
    apply hproc fun _ x => x.state = .unused → x.parent = none
    · exact fun _ => rfl
    · exact fun _ _ => rfl
  case bounded =>
    apply hproc fun i x => x.state ≠ .unused → i < nProc
    · exact fun _ => by decide
    · exact fun _ hx => absurd rfl hx
  case parent =>
    apply hproc fun i x => x.state ≠ .unused → x.state ≠ .used → i ≠ boot.initproc →
      ∃ q, x.parent = some q ∧ (boot.proc q).state.Alive
    · exact fun _ _ hi => absurd rfl hi
    · exact fun _ hx => absurd rfl hx

theorem reach_sound {ok : System → Event → Prop} (hr : Reach (stepRel step) ok boot s) : s.Sound :=
  hr.invariant boot_sound fun _ _ _ h _ hx => step_sound h hx

/-- In every interleaving the first process stays alive, one thread at a time is at work under
`wait_lock`, no two calls of `fork` make the same entry a process, and a process that is about to
become a zombie has no children. -/
theorem wait_lock_sections (hr : Reach (stepRel step) (fun _ _ => True) boot s) :
    (s.proc s.initproc).state.Alive ∧ (∀ p q, (s.pc p).Holds → (s.pc q).Holds → p = q) ∧
    (∀ p q np, (s.pc p).Forks np → (s.pc q).Forks np → p = q ∧ (s.proc np).state = .used) ∧
    ∀ p status, s.pc p = .zombie status → ∀ j, (s.proc j).parent ≠ some p := by
  have h := reach_sound hr
  refine ⟨h.init, ?_, ?_, ?_⟩
  · intro p q hp hq
    exact (h.alone (.inr (h.locked p hp)) hq).symm
  · intro p q np hp hq
    exact ⟨h.forker p q np hp hq, h.embryo p np hp⟩
  · intro p status hpc j hj
    have hlt : j < (s.pc p).passed := by
      rw [hpc]
      exact h.parent_lt hj
    exact h.passed p j hlt hj

theorem wait_lock_sections_fork : ∃ s, Reach (stepRel step) (fun _ _ => True) boot s ∧
    s.pc 0 = .link 1 ∧ (s.proc 1).state = .used := by
  have hrun : (follow step (fun _ _ => True) boot [.dispatch 0, .call 0 .fork, .run 0 true,
      .run 0 true]).map (System.pc · 0) = some (.link 1) := by decide +kernel
  obtain ⟨s, hs, hpc⟩ := Option.map_eq_some_iff.mp hrun
  have hr : Reach (stepRel step) (fun _ _ => True) boot s := reach_of_follow _ .refl hs
  have hforks : (s.pc 0).Forks 1 := by
    rw [hpc]
    rfl
  exact ⟨s, hr, hpc, ((wait_lock_sections hr).2.2.1 0 0 1 hforks hforks).2⟩

end Steps

end Xv6.Procs
