import Xv6.Log.Commit
import Xv6.Library.Reach

/-!
# Concurrent operations on the log

`begin_op`, `log_write` and `end_op` run under `log.lock`, so each is one step of the machine
below; `commit` runs without the lock and is one step per block write. A process that sleeps in
`begin_op` may be woken at any time and then tests the loop condition again. `history`, `writes`,
`ended` and `commits` record what has been logged, who has ended since the last commit, and what
has been committed. No step looks at them.
-/
namespace Xv6.Log

open Library Function List

/-- A block logged by an operation, with the contents its buffer then had. -/
structure Write where
  op : ℕ
  block : ℕ
  data : Bytes

/-- A committed transaction: the writes since the previous commit, the operations
that had called `end_op`, and the blocks found in the on-disk log. -/
structure CommitRecord where
  writes : List Write
  ended : List ℕ
  image : List (ℕ × Bytes)

/-- Where the committing process is inside `commit` and the end of `end_op`. -/
inductive CommitPc
  | writeLog (tail : ℕ)
  | writeHead
  | install (tail : ℕ)
  | erase
  | finish
  deriving DecidableEq, Repr

inductive ProcState
  | idle
  | waiting
  | active (op : ℕ)
  | committing (pc : CommitPc)
  deriving DecidableEq, Repr

inductive Panic
  | tooBig
  | outsideTrans
  | logCommitting
  deriving DecidableEq, Repr

/-- Why a step does not happen: the process is not at that point, or the kernel panics. -/
inductive Stop
  | disabled
  | panic (msg : Panic)
  deriving DecidableEq, Repr

/-- `struct log`, the disk, the buffers' contents and the processes. Block numbers are below
`2 ^ 31`: beyond, the sector number that `virtio_disk_rw` computes wraps around. -/
structure Machine where
  start : ℕ
  size : ℕ
  lh : List ℕ
  outstanding : ℕ
  committing : Bool
  disk : ℕ → Bytes
  cache : ℕ → Bytes
  proc : ℕ → ProcState
  nextOp : ℕ
  history : List Write
  writes : List Write
  ended : List ℕ
  commits : List CommitRecord

inductive Event
  | beginOp (p : ℕ)
  | logWrite (p b : ℕ) (data : Bytes)
  | endOp (p : ℕ)
  | commitStep (p : ℕ)

namespace Machine

variable (m : Machine)

def InLog (b : ℕ) : Prop := m.start ≤ b ∧ b < m.start + m.size

instance (b : ℕ) : Decidable (m.InLog b) := by
  unfold InLog
  infer_instance

def setProc (p : ℕ) (st : ProcState) : Machine :=
  { m with proc := update m.proc p st }

/-- One pass of the loop in `begin_op`: sleep while a commit runs or while the
operation might exhaust log space, else join the transaction. -/
def beginOp (p : ℕ) : Machine :=
  if m.committing then m.setProc p .waiting
  else if m.lh.length + (m.outstanding + 1) * maxOpBlocks > logSize then m.setProc p .waiting
  else
    { m with
      proc := update m.proc p (.active m.nextOp)
      outstanding := m.outstanding + 1
      nextOp := m.nextOp + 1 }

/-- Log absorption: a block already in the header is not added again. -/
def absorb (b : ℕ) : List ℕ := if b ∈ m.lh then m.lh else m.lh ++ [b]

theorem length_absorb (b : ℕ) :
    (m.absorb b).length = if b ∈ m.lh then m.lh.length else m.lh.length + 1 := by
  unfold absorb
  split_ifs <;> simp

theorem mem_absorb {m : Machine} {b c : ℕ} : c ∈ m.absorb b ↔ c ∈ m.lh ∨ c = b := by
  unfold absorb
  split_ifs with h
  · constructor
    · exact .inl
    · rintro (hc | rfl)
      · exact hc
      · exact h
  · simp

def logged (op b : ℕ) (data : Bytes) : Machine :=
  { m with
    cache := update m.cache b data
    lh := m.absorb b
    history := m.history ++ [⟨op, b, data⟩]
    writes := m.writes ++ [⟨op, b, data⟩] }

/-- The caller has put `data` into the buffer of block `b` and calls `log_write`. -/
def logWrite (op b : ℕ) (data : Bytes) : Except Stop Machine :=
  if m.lh.length ≥ logSize ∨ m.lh.length ≥ m.size - 1 then .error (.panic .tooBig)
  else if m.outstanding < 1 then .error (.panic .outsideTrans)
  else .ok (m.logged op b data)

/-- `commit` does nothing when no block was logged. -/
def commitEntry : CommitPc := if m.lh.length > 0 then .writeLog 0 else .finish

/-- The locked part of `end_op`; the last operation out starts the commit. -/
def endOp (p op : ℕ) : Except Stop Machine :=
  if m.committing then .error (.panic .logCommitting)
  else if m.outstanding = 1 then .ok
    { m with
      proc := update m.proc p (.committing m.commitEntry)
      outstanding := m.outstanding - 1
      committing := true
      ended := m.ended ++ [op] }
  else .ok
    { m with
      proc := update m.proc p .idle
      outstanding := m.outstanding - 1
      ended := m.ended ++ [op] }

/-- Put `data` into block `b`'s buffer and write the buffer to disk. -/
def bwrite (b : ℕ) (data : Bytes) : Machine :=
  { m with
    cache := update m.cache b data
    disk := update m.disk b data }

/-- The blocks of the on-disk log that the current header names. -/
def logImage : List (ℕ × Bytes) :=
  (range m.lh.length).map fun i => (m.lh.getD i 0, m.disk (m.start + i + 1))

def record : Machine :=
  { m with
    writes := []
    ended := []
    commits := m.commits ++ [⟨m.writes, m.ended, m.logImage⟩] }

/-- The next block write of `commit`, or the end of `end_op` after it. -/
def commitStep (p : ℕ) : CommitPc → Machine
  | .writeLog tail =>
    (m.bwrite (m.start + tail + 1) (m.cache (m.lh.getD tail 0))).setProc p
      (.committing (if tail + 1 < m.lh.length then .writeLog (tail + 1) else .writeHead))
  | .writeHead =>
    ((m.bwrite m.start (putHeader (m.cache m.start) m.lh)).setProc p
      (.committing (.install 0))).record
  | .install tail =>
    (m.bwrite (m.lh.getD tail 0) (m.cache (m.start + tail + 1))).setProc p
      (.committing (if tail + 1 < m.lh.length then .install (tail + 1) else .erase))
  | .erase =>
    { m with
      lh := []
      cache := update m.cache m.start (putHeader (m.cache m.start) [])
      disk := update m.disk m.start (putHeader (m.cache m.start) [])
      proc := update m.proc p (.committing .finish) }
  | .finish => { m with proc := update m.proc p .idle, committing := false, ended := [] }

/-- One step of a process; a process only takes the steps it has come to, so
`log_write` and `end_op` are bracketed by `begin_op`. -/
def step : Event → Except Stop Machine
  | .beginOp p =>
    match m.proc p with
    | .idle => .ok (m.beginOp p)
    | .waiting => .ok (m.beginOp p)
    | _ => .error .disabled
  | .logWrite p b data =>
    match m.proc p with
    | .active op => m.logWrite op b data
    | _ => .error .disabled
  | .endOp p =>
    match m.proc p with
    | .active op => m.endOp p op
    | _ => .error .disabled
  | .commitStep p =>
    match m.proc p with
    | .committing pc => .ok (m.commitStep p pc)
    | _ => .error .disabled

/-- No process is in an operation, the log is empty and nothing has been logged. -/
structure Boot : Prop where
  lh : m.lh = []
  outstanding : m.outstanding = 0
  committing : m.committing = false
  proc : ∀ p, m.proc p = .idle
  history : m.history = []
  writes : m.writes = []
  ended : m.ended = []
  commits : m.commits = []

/-- The distinct blocks an operation has logged in the current transaction. -/
def opBlocks (op : ℕ) : Finset ℕ :=
  ((m.writes.filter (·.op = op)).map Write.block).toFinset

end Machine

def nlog : ℕ := logSize

/-- A machine that has just booted from a disk made by `mkfs`. -/
def emptyLog : Machine where
  start := 2
  size := nlog
  lh := []
  outstanding := 0
  committing := false
  disk := fun _ _ => 0
  cache := fun _ _ => 0
  proc := fun _ => .idle
  nextOp := 0
  history := []
  writes := []
  ended := []
  commits := []

theorem emptyLog_boot : emptyLog.Boot := by
  constructor <;> simp [emptyLog]

/-- What a step of the machine can do. Every invariant below is proved from this list. -/
theorem Machine.step_cases {m t : Machine} {e : Event} (h : m.step e = .ok t) :
    (∃ p, e = .beginOp p ∧ (m.proc p = .idle ∨ m.proc p = .waiting) ∧ t = m.beginOp p) ∨
    (∃ p b data op, e = .logWrite p b data ∧ m.proc p = .active op ∧
      m.logWrite op b data = .ok t) ∨
    (∃ p op, e = .endOp p ∧ m.proc p = .active op ∧ m.endOp p op = .ok t) ∨
    (∃ p pc, e = .commitStep p ∧ m.proc p = .committing pc ∧ t = m.commitStep p pc) := by
  cases e with
  | beginOp p =>
    left
    cases hp : m.proc p <;> simp only [Machine.step, hp] at h
    · exact ⟨p, rfl, .inl hp, (Except.ok.inj h).symm⟩
    · exact ⟨p, rfl, .inr hp, (Except.ok.inj h).symm⟩
    · cases h
    · cases h
  | logWrite p b data =>
    right; left
    cases hp : m.proc p <;> simp only [Machine.step, hp] at h
    · cases h
    · cases h
    · exact ⟨p, b, data, _, rfl, hp, h⟩
    · cases h
  | endOp p =>
    right; right; left
    cases hp : m.proc p <;> simp only [Machine.step, hp] at h
    · cases h
    · cases h
    · exact ⟨p, _, rfl, hp, h⟩
    · cases h
  | commitStep p =>
    right; right; right
    cases hp : m.proc p <;> simp only [Machine.step, hp] at h
    · cases h
    · cases h
    · cases h
    · exact ⟨p, _, rfl, hp, (Except.ok.inj h).symm⟩

theorem Machine.step_geometry {m t : Machine} {e : Event} (h : m.step e = .ok t) :
    t.start = m.start ∧ t.size = m.size := by
  rcases Machine.step_cases h with ⟨p, -, -, rfl⟩ | ⟨p, b, data, op, -, -, hw⟩ |
    ⟨p, op, -, -, hw⟩ | ⟨p, pc, -, -, rfl⟩
  · unfold Machine.beginOp
    split_ifs <;> exact ⟨rfl, rfl⟩
  · unfold Machine.logWrite at hw
    split_ifs at hw
    cases hw
    exact ⟨rfl, rfl⟩
  · unfold Machine.endOp at hw
    split_ifs at hw <;> cases hw <;> exact ⟨rfl, rfl⟩
  · cases pc <;> exact ⟨rfl, rfl⟩

section Control

variable {m t : Machine} {A : Finset ℕ}

def Machine.Active (m : Machine) (p : ℕ) : Prop := ∃ op, m.proc p = .active op

/-- Who is where: `outstanding` counts the running operations, each of them has its
own number, and a commit runs alone. -/
structure Control (m : Machine) (A : Finset ℕ) : Prop where
  active : ∀ p, p ∈ A ↔ m.Active p
  card : A.card = m.outstanding
  owner : ∀ p q op, m.proc p = .active op → m.proc q = .active op → p = q
  started : ∀ p op, m.proc p = .active op → op < m.nextOp
  fresh : ∀ w ∈ m.writes, w.op < m.nextOp
  quiet : m.committing = true → A = ∅
  pc : ∀ p pc, m.proc p = .committing pc → m.committing = true
  alone : ∀ p q pc pc', m.proc p = .committing pc → m.proc q = .committing pc' → p = q

theorem Machine.proc_setProc (m : Machine) (p q : ℕ) (st : ProcState) :
    (m.setProc p st).proc q = if q = p then st else m.proc q := by
  simp [Machine.setProc, update_apply]

theorem Machine.Boot.control (h : m.Boot) : Control m ∅ where
  active p := by simp [Machine.Active, h.proc p]
  card := by simp [h.outstanding]
  owner p q op hp := by simp [h.proc p] at hp
  started p op hp := by simp [h.proc p] at hp
  fresh w hw := by simp [h.writes] at hw
  quiet hc := by simp [h.committing] at hc
  pc p pc hp := by simp [h.proc p] at hp
  alone p q pc pc' hp := by simp [h.proc p] at hp

theorem Machine.not_active_of_proc {p : ℕ} (hp : m.proc p = .idle ∨ m.proc p = .waiting) :
    ¬ m.Active p := by
  rintro ⟨op, ha⟩
  rcases hp with hp | hp <;> rw [hp] at ha <;> cases ha

theorem Machine.logWrite_ok {op b : ℕ} {data : Bytes} (h : m.logWrite op b data = .ok t) :
    ¬(m.lh.length ≥ logSize ∨ m.lh.length ≥ m.size - 1) ∧ t = m.logged op b data := by
  unfold Machine.logWrite at h
  split_ifs at h with hbig
  exact ⟨hbig, (Except.ok.inj h).symm⟩

/-- What `end_op` does when it does not panic. -/
theorem Machine.endOp_ok {p op : ℕ} (h : m.endOp p op = .ok t) :
    m.committing = false ∧ t =
    { m with
      proc := update m.proc p
        (if m.outstanding = 1 then .committing m.commitEntry else .idle)
      outstanding := m.outstanding - 1
      committing := decide (m.outstanding = 1)
      ended := m.ended ++ [op] } := by
  unfold Machine.endOp at h
  split_ifs at h with hc ho
  · refine ⟨by simpa using hc, ?_⟩
    rw [← Except.ok.inj h]
    simp [ho]
  · have hc' : m.committing = false := by simpa using hc
    refine ⟨hc', ?_⟩
    rw [← Except.ok.inj h]
    simp [ho, hc']

variable (h : Control m A)
include h

theorem Control.outstanding_pos {p op : ℕ} (hp : m.proc p = .active op) : 1 ≤ m.outstanding := by
  rw [← h.card]
  exact Finset.card_pos.mpr ⟨p, (h.active p).mpr ⟨op, hp⟩⟩

theorem Control.not_committing {p op : ℕ} (hp : m.proc p = .active op) : m.committing = false := by
  by_contra hc
  have hA := h.quiet (by simpa using hc)
  have hmem := (h.active p).mpr ⟨op, hp⟩
  simp [hA] at hmem

theorem Control.setProc {p : ℕ} {st : ProcState} (hp : ¬ m.Active p)
    (hst : st = .waiting ∨ ∃ pc pc', m.proc p = .committing pc ∧ st = .committing pc') :
    Control (m.setProc p st) A := by
  have hact : ∀ q op, (m.setProc p st).proc q = .active op → m.proc q = .active op := by
    intro q op hq
    rw [Machine.proc_setProc] at hq
    split_ifs at hq with hqp
    · rcases hst with rfl | ⟨_, _, _, rfl⟩ <;> cases hq
    · exact hq
  have hcom : ∀ q pc, (m.setProc p st).proc q = .committing pc → ∃ pc',
    m.proc q = .committing pc' := by
    intro q pc hq
    rw [Machine.proc_setProc] at hq
    split_ifs at hq with hqp
    · rcases hst with rfl | ⟨pc0, _, hpc, rfl⟩
      · cases hq
      · exact ⟨pc0, hqp ▸ hpc⟩
    · exact ⟨pc, hq⟩
  refine ⟨fun q => ?_, h.card, fun q q' op hq hq' => h.owner q q' op (hact q op hq)
    (hact q' op hq'),
    fun q op hq => h.started q op (hact q op hq), h.fresh, h.quiet, fun q pc hq => ?_,
    fun q q' pc pc' hq hq' => ?_⟩
  · rw [h.active q]
    constructor
    · rintro ⟨op, hq⟩
      have hqp : q ≠ p := fun hqp => hp ⟨op, hqp ▸ hq⟩
      exact ⟨op, by rw [Machine.proc_setProc, if_neg hqp]; exact hq⟩
    · rintro ⟨op, hq⟩
      exact ⟨op, hact q op hq⟩
  · obtain ⟨pc', hq'⟩ := hcom q pc hq
    exact h.pc q pc' hq'
  · obtain ⟨_, h1⟩ := hcom q pc hq
    obtain ⟨_, h2⟩ := hcom q' pc' hq'
    exact h.alone q q' _ _ h1 h2

theorem Control.beginOp {p : ℕ} (hp : m.proc p = .idle ∨ m.proc p = .waiting) :
    ∃ A', Control (m.beginOp p) A' := by
  have hna := Machine.not_active_of_proc hp
  unfold Machine.beginOp
  split_ifs with hc hfull
  · exact ⟨A, h.setProc hna (.inl rfl)⟩
  · exact ⟨A, h.setProc hna (.inl rfl)⟩
  · have hpA : p ∉ A := fun hmem => hna ((h.active p).mp hmem)
    have hproc : ∀ q, update m.proc p (.active m.nextOp) q =
        if q = p then .active m.nextOp else m.proc q := fun q => m.proc_setProc p q _
    refine ⟨insert p A, ⟨fun q => ?_, ?_, fun q q' op hq hq' => ?_, fun q op hq => ?_,
      fun w hw => Nat.lt_succ_of_lt (h.fresh w hw), fun hc' => absurd hc' hc, fun q pc hq => ?_,
      fun q q' pc pc' hq hq' => ?_⟩⟩
    · simp only [Finset.mem_insert, h.active q, Machine.Active, hproc]
      by_cases hqp : q = p <;> simp [hqp]
    · simp [Finset.card_insert_of_notMem hpA, h.card]
    · simp only [hproc] at hq hq'
      split_ifs at hq hq' with h1 h2 h2
      · rw [h1, h2]
      · cases hq
        exact absurd (h.started q' _ hq') (lt_irrefl _)
      · cases hq'
        exact absurd (h.started q _ hq) (lt_irrefl _)
      · exact h.owner q q' op hq hq'
    · simp only [hproc] at hq
      split_ifs at hq
      · cases hq
        exact Nat.lt_succ_self _
      · exact Nat.lt_succ_of_lt (h.started q op hq)
    · simp only [hproc] at hq
      split_ifs at hq
      exact h.pc q pc hq
    · simp only [hproc] at hq hq'
      split_ifs at hq hq'
      exact h.alone q q' pc pc' hq hq'

theorem Control.logWrite {p op b : ℕ} {data : Bytes}
    (hp : m.proc p = .active op) (ht : m.logWrite op b data = .ok t) : Control t A := by
  obtain ⟨-, rfl⟩ := Machine.logWrite_ok ht
  refine ⟨h.active, h.card, h.owner, h.started, fun w hw => ?_, h.quiet, h.pc, h.alone⟩
  rcases mem_append.mp hw with hw | hw
  · exact h.fresh w hw
  · rw [mem_singleton.mp hw]
    exact h.started p op hp

theorem Control.endOp {p op : ℕ} (hp : m.proc p = .active op)
    (ht : m.endOp p op = .ok t) : Control t (A.erase p) := by
  obtain ⟨hc, rfl⟩ := Machine.endOp_ok ht
  have hpA : p ∈ A := (h.active p).mpr ⟨op, hp⟩
  have hpc : ∀ q pc, m.proc q ≠ .committing pc := fun q pc hq => by
    have := h.pc q pc hq
    simp [hc] at this
  have hproc : ∀ st q, update m.proc p st q = if q = p then st else m.proc q :=
    fun st q => m.proc_setProc p q st
  have hact : ∀ q op', (if q = p then
      (if m.outstanding = 1 then ProcState.committing m.commitEntry else .idle) else m.proc q) =
        .active op' ↔ q ≠ p ∧ m.proc q = .active op' := by
    intro q op'
    by_cases hqp : q = p <;> by_cases ho : m.outstanding = 1 <;> simp [hqp, ho]
  refine ⟨fun q => ?_, ?_, fun q q' op' hq hq' => ?_, fun q op' hq => ?_, h.fresh, fun hd => ?_,
    fun q pc hq => ?_, fun q q' pc pc' hq hq' => ?_⟩
  · simp only [Finset.mem_erase, h.active q, Machine.Active, hproc, hact]
    simp
  · simp [Finset.card_erase_of_mem hpA, h.card]
  · simp only [hproc, hact] at hq hq'
    exact h.owner q q' op' hq.2 hq'.2
  · simp only [hproc, hact] at hq
    exact h.started q op' hq.2
  · apply Finset.card_eq_zero.mp
    have : m.outstanding = 1 := by simpa using hd
    rw [Finset.card_erase_of_mem hpA, h.card, this]
  · simp only [hproc] at hq
    split_ifs at hq with hqp ho
    · simpa using ho
    · exact absurd hq (hpc q pc)
  · simp only [hproc] at hq hq'
    split_ifs at hq hq' with h1 h2 h3 h4
    all_goals first
      | exact absurd hq (hpc _ _)
      | exact absurd hq' (hpc _ _)
      | rw [h1, ‹q' = p›]

/-- Control does not depend on the header, the buffers or the disk, and survives
clearing the transaction's writes. -/
theorem Control.congr (hproc : t.proc = m.proc)
    (hout : t.outstanding = m.outstanding) (hcom : t.committing = m.committing)
    (hnext : t.nextOp = m.nextOp) (hwrites : ∀ w ∈ t.writes, w ∈ m.writes) : Control t A where
  active p := by rw [h.active p, Machine.Active, Machine.Active, hproc]
  card := by rw [hout, h.card]
  owner p q op hp hq := h.owner p q op (hproc ▸ hp) (hproc ▸ hq)
  started p op hp := by
    rw [hnext]
    exact h.started p op (hproc ▸ hp)
  fresh w hw := by
    rw [hnext]
    exact h.fresh w (hwrites w hw)
  quiet hc := h.quiet (hcom ▸ hc)
  pc p pc hp := by
    rw [hcom]
    exact h.pc p pc (hproc ▸ hp)
  alone p q pc pc' hp hq := h.alone p q pc pc' (hproc ▸ hp) (hproc ▸ hq)

theorem Control.commitStep {p : ℕ} {pc : CommitPc}
    (hp : m.proc p = .committing pc) : Control (m.commitStep p pc) A := by
  have hna : ¬ m.Active p := by
    rintro ⟨op, ha⟩
    rw [hp] at ha
    cases ha
  have hmove : ∀ pc', Control (m.setProc p (.committing pc')) A := fun pc' =>
    h.setProc hna (.inr ⟨pc, pc', hp, rfl⟩)
  cases pc with
  | writeLog tail => exact (hmove _).congr rfl rfl rfl rfl fun _ hw => hw
  | writeHead => exact (hmove _).congr rfl rfl rfl rfl fun _ hw => absurd hw not_mem_nil
  | install tail => exact (hmove _).congr rfl rfl rfl rfl fun _ hw => hw
  | erase => exact (hmove _).congr rfl rfl rfl rfl fun _ hw => hw
  | finish =>
    have hproc : ∀ q, update m.proc p .idle q = if q = p then .idle else m.proc q :=
      fun q => m.proc_setProc p q _
    have hact : ∀ q op, update m.proc p .idle q = .active op ↔ m.proc q = .active op := by
      intro q op
      by_cases hqp : q = p <;> simp [hqp, hp]
    have hcom : ∀ q pc', update m.proc p .idle q ≠ .committing pc' := by
      intro q pc' hq
      rw [hproc] at hq
      split_ifs at hq with hqp
      exact hqp (h.alone q p pc' .finish hq hp)
    refine ⟨fun q => ?_, h.card, fun q q' op hq hq' => ?_, fun q op hq => ?_, h.fresh,
      fun hc => by simp [Machine.commitStep] at hc, fun q pc' hq => absurd hq (hcom q pc'),
      fun q q' pc' pc'' hq => absurd hq (hcom q pc')⟩
    · rw [h.active q]
      exact exists_congr fun op => (hact q op).symm
    · exact h.owner q q' op ((hact q op).mp hq) ((hact q' op).mp hq')
    · exact h.started q op ((hact q op).mp hq)

end Control

end Xv6.Log
