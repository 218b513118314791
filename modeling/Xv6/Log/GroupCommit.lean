import Xv6.Log.Operations
import Mathlib.Data.List.GetD

/-!
# Group commit

The operations that run at the same time share one transaction. A commit contains the blocks
logged by operations that have all ended, each once and with the contents it was last given, and
for each of these operations everything it ever logged. The blocks that are logged are home
blocks, outside the log.
-/
namespace Xv6.Log

open Library Function Machine List

/-- The contents that a list of writes leaves in block `b`. -/
def lastData (ws : List Write) (b : ℕ) : Option Bytes :=
  ws.foldl (fun acc w => if w.block = b then some w.data else acc) none

def writesOf (op : ℕ) (ws : List Write) : List Write := ws.filter (·.op = op)

/-- Block `b` after all commits so far, on a disk that held `d₀`. -/
def Machine.durable (m : Machine) (d₀ : ℕ → Bytes) (b : ℕ) : Bytes :=
  (lastData (m.commits.flatMap CommitRecord.writes) b).getD (d₀ b)

def HomeWrites (m : Machine) : Event → Prop
  | .logWrite _ b _ => ¬ m.InLog b
  | _ => True

instance (m : Machine) (e : Event) : Decidable (HomeWrites m e) := by
  unfold HomeWrites
  split <;> infer_instance

/-- The log on disk holds each block of the transaction once, with its final contents,
and only operations that have ended wrote to it. -/
structure CommitRecord.Exact (c : CommitRecord) : Prop where
  once : (c.image.map Prod.fst).Nodup
  final : ∀ b d, (b, d) ∈ c.image ↔ lastData c.writes b = some d
  ended : ∀ w ∈ c.writes, w.op ∈ c.ended

section LastData

variable {ws ws' : List Write} {w : Write} {b op : ℕ}

theorem lastData_concat :
    lastData (ws ++ [w]) b = if w.block = b then some w.data else lastData ws b := by
  simp [lastData, foldl_append]

theorem lastData_append : lastData (ws ++ ws') b = (lastData ws' b).or (lastData ws b) := by
  induction ws' using reverseRecOn with
  | nil => simp [lastData]
  | append_singleton ws' w ih =>
    rw [← append_assoc, lastData_concat, lastData_concat, ih]
    split_ifs <;> simp

theorem writesOf_concat :
    writesOf op (ws ++ [w]) = if w.op = op then writesOf op ws ++ [w] else writesOf op ws := by
  unfold writesOf
  split_ifs with h <;> simp [h]

end LastData

/-- No commit is writing: the header names the blocks of the open transaction, whose
buffers hold what was last logged, and the home blocks hold the committed state. -/
structure OpenTx (d₀ : ℕ → Bytes) (m : Machine) : Prop where
  nodup : m.lh.Nodup
  content : ∀ b, lastData m.writes b = if b ∈ m.lh then some (m.cache b) else none
  home : ∀ b ∈ m.lh, ¬ m.InLog b
  short : m.lh.length = 0 ∨ m.lh.length < m.size
  installed : ∀ b, ¬ m.InLog b → m.disk b = m.durable d₀ b

/-- The transaction is in the log, and its blocks before `tail` are at home. -/
structure InstallTx (d₀ : ℕ → Bytes) (m : Machine) (tail : ℕ) : Prop where
  closed : m.writes = []
  nodup : m.lh.Nodup
  home : ∀ b ∈ m.lh, ¬ m.InLog b
  short : m.lh.length < m.size
  copied : ∀ i < m.lh.length, m.cache (m.start + i + 1) = m.durable d₀ (m.lh.getD i 0)
  installed : ∀ b, ¬ m.InLog b → b ∉ m.lh.drop tail → m.disk b = m.durable d₀ b

/-- The first `tail` blocks of the transaction are in the log. -/
def Copied (m : Machine) (tail : ℕ) : Prop :=
  ∀ i < tail, m.disk (m.start + i + 1) = m.cache (m.lh.getD i 0) ∧
    m.cache (m.start + i + 1) = m.cache (m.lh.getD i 0)

/-- What holds when the committing process is about to take a given step. -/
def AtPc (d₀ : ℕ → Bytes) (m : Machine) : CommitPc → Prop
  | .writeLog tail => OpenTx d₀ m ∧ tail < m.lh.length ∧ Copied m tail
  | .writeHead => OpenTx d₀ m ∧ 0 < m.lh.length ∧ Copied m m.lh.length
  | .install tail => tail < m.lh.length ∧ InstallTx d₀ m tail
  | .erase => InstallTx d₀ m m.lh.length
  | .finish => OpenTx d₀ m ∧ m.lh = []

def Machine.Running (m : Machine) (op : ℕ) : Prop := ∃ p, m.proc p = .active op

/-- What the history says about the operations: those that have ended or run belong to
the open transaction with all their writes, the others to one commit each. -/
structure Ledger (m : Machine) : Prop where
  history : m.history = m.commits.flatMap CommitRecord.writes ++ m.writes
  fresh : ∀ w ∈ m.history, w.op < m.nextOp
  owned : ∀ w ∈ m.writes, w.op ∈ m.ended ∨ m.Running w.op
  openOps : ∀ op, (op ∈ m.ended ∨ m.Running op) →
    writesOf op m.history = writesOf op m.writes
  retired : ∀ op, (op ∈ m.ended ∨ ∃ c ∈ m.commits, op ∈ c.ended) →
    op < m.nextOp ∧ ¬ m.Running op
  exact : ∀ c ∈ m.commits, c.Exact
  whole : ∀ c ∈ m.commits, ∀ op ∈ c.ended, op ∉ m.ended ∧
    writesOf op m.history = writesOf op c.writes
  disjoint : m.commits.Pairwise fun c c' => ∀ op ∈ c.ended, op ∉ c'.ended

structure Grouped (d₀ : ℕ → Bytes) (m : Machine) : Prop where
  control : ∃ A, Control m A
  ledger : Ledger m
  rest : m.committing = false → OpenTx d₀ m
  atPc : ∀ p pc, m.proc p = .committing pc → AtPc d₀ m pc
  drained : m.committing = false → m.outstanding = 0 → m.lh = [] ∧ m.ended = []

section Transaction

variable {d₀ : ℕ → Bytes} {m t : Machine}

theorem Machine.inLog_slot {i : ℕ} (h : i + 1 < m.size) : m.InLog (m.start + i + 1) :=
  ⟨by omega, by omega⟩

theorem Machine.inLog_header (h : 0 < m.size) : m.InLog m.start := ⟨le_rfl, by omega⟩

theorem Machine.mem_getD {i : ℕ} (h : i < m.lh.length) : m.lh.getD i 0 ∈ m.lh := by
  rw [getD_eq_getElem _ _ h]
  exact getElem_mem h

section

variable (h : OpenTx d₀ m)
include h

/-- An empty header means that nothing was logged. -/
theorem OpenTx.writes_eq_nil (hlh : m.lh = []) : m.writes = [] := by
  rcases eq_nil_or_concat m.writes with hnil | ⟨ws, w, hws⟩
  · exact hnil
  · have hlast := h.content w.block
    rw [hws, concat_eq_append, lastData_concat] at hlast
    simp [hlh] at hlast

theorem OpenTx.bwrite {b : ℕ} (hb : m.InLog b) (data : Bytes) : OpenTx d₀ (m.bwrite b data) where
  nodup := h.nodup
  content c := by
    rw [show (m.bwrite b data).writes = m.writes from rfl, h.content c]
    by_cases hc : c ∈ m.lh
    · have hne : c ≠ b := fun he => h.home c hc (he ▸ hb)
      simp [Machine.bwrite, hc, hne]
    · simp [Machine.bwrite, hc]
  home := h.home
  short := h.short
  installed c hc := by
    have hne : c ≠ b := fun he => hc (he ▸ hb)
    simp only [Machine.bwrite, update_of_ne hne]
    exact h.installed c hc

/-- `log_write` puts the block into the open transaction. -/
theorem OpenTx.logged {op b : ℕ} {data : Bytes} (hb : ¬ m.InLog b)
    (hfit : ¬(m.lh.length ≥ logSize ∨ m.lh.length ≥ m.size - 1)) :
    OpenTx d₀ (m.logged op b data) where
  nodup := by
    change (m.absorb b).Nodup
    unfold Machine.absorb
    split_ifs with hmem
    · exact h.nodup
    · exact nodup_append.mpr ⟨h.nodup, nodup_singleton b, by
        intro x hx y hy he
        rw [mem_singleton.mp hy] at he
        exact hmem (he ▸ hx)⟩
  content c := by
    change lastData (m.writes ++ [_]) c = if c ∈ m.absorb b then _ else _
    rw [lastData_concat, h.content c]
    by_cases hcb : b = c
    · simp [Machine.logged, Machine.mem_absorb, hcb]
    · have hne : c ≠ b := fun he => hcb he.symm
      simp [Machine.logged, Machine.mem_absorb, hcb, hne]
  home c hc := by
    rcases Machine.mem_absorb.mp hc with hc | rfl
    · exact h.home c hc
    · exact hb
  short := by
    change (m.absorb b).length = 0 ∨ (m.absorb b).length < m.size
    rw [Machine.length_absorb]
    split_ifs <;> omega
  installed := h.installed

theorem Copied.succ {tail : ℕ} (ht : tail < m.lh.length) (hc : Copied m tail) :
    Copied (m.bwrite (m.start + tail + 1) (m.cache (m.lh.getD tail 0))) (tail + 1) := by
  have hshort : m.lh.length < m.size := by
    rcases h.short with h0 | h0 <;> omega
  have hslot : m.InLog (m.start + tail + 1) := Machine.inLog_slot (by omega)
  intro i hi
  have hne : m.lh.getD i 0 ≠ m.start + tail + 1 := fun he =>
    h.home _ (Machine.mem_getD (by omega)) (he ▸ hslot)
  simp only [Machine.bwrite, update_of_ne hne]
  by_cases hit : i = tail
  · subst hit
    simp
  · have hni : m.start + i + 1 ≠ m.start + tail + 1 := by omega
    simp only [update_of_ne hni]
    exact hc i (by omega)

theorem Machine.durable_record (b : ℕ) :
    m.record.durable d₀ b = if b ∈ m.lh then m.cache b else m.durable d₀ b := by
  simp only [durable, record, flatMap_append, flatMap_singleton,
    lastData_append, h.content b]
  split_ifs <;> simp

theorem OpenTx.record (hpos : 0 < m.lh.length) (hc : Copied m m.lh.length) :
    InstallTx d₀ m.record 0 where
  closed := rfl
  nodup := h.nodup
  home := h.home
  short := by
    change m.lh.length < m.size
    rcases h.short with h0 | h0 <;> omega
  copied i hi := by
    change m.cache (m.start + i + 1) = m.record.durable d₀ (m.lh.getD i 0)
    rw [Machine.durable_record h, if_pos (Machine.mem_getD (m := m) hi)]
    exact (hc i hi).2
  installed b hb hdrop := by
    have hmem : b ∉ m.lh := by simpa [Machine.record] using hdrop
    rw [Machine.durable_record h, if_neg hmem]
    exact h.installed b hb

end

theorem Copied.logImage (hc : Copied m m.lh.length) :
    m.logImage = m.lh.map fun b => (b, m.cache b) := by
  unfold Machine.logImage
  apply ext_getElem
  · simp
  · intro i hi hi'
    have hlen : i < m.lh.length := by simpa using hi
    simp [(hc i hlen).1, hlen]

/-- InstallTx block `tail` brings it home. -/
theorem InstallTx.succ {tail : ℕ} (h : InstallTx d₀ m tail) (ht : tail < m.lh.length) :
    InstallTx d₀ (m.bwrite (m.lh.getD tail 0) (m.cache (m.start + tail + 1))) (tail + 1) where
  closed := h.closed
  nodup := h.nodup
  home := h.home
  short := h.short
  copied i hi := by
    have hlt : i < m.lh.length := hi
    have hslot : m.InLog (m.start + i + 1) := Machine.inLog_slot (by have := h.short; omega)
    have hne : m.start + i + 1 ≠ m.lh.getD tail 0 := fun he =>
      h.home _ (Machine.mem_getD ht) (he ▸ hslot)
    simp only [Machine.bwrite, update_of_ne hne]
    exact h.copied i hlt
  installed b hb hdrop := by
    simp only [Machine.bwrite, update_apply]
    split_ifs with hbt
    · rw [hbt]
      exact h.copied tail ht
    · apply h.installed b hb
      rw [drop_eq_getElem_cons ht, mem_cons]
      rintro (he | hin)
      · rw [getD_eq_getElem _ _ ht] at hbt
        exact hbt he
      · exact hdrop hin

theorem InstallTx.erase (h : InstallTx d₀ m m.lh.length) (p : ℕ) :
    OpenTx d₀ (m.commitStep p .erase) where
  nodup := nodup_nil
  content b := by
    change lastData m.writes b = _
    simp [h.closed, lastData, commitStep]
  home b hb := absurd hb not_mem_nil
  short := .inl rfl
  installed b hb := by
    have hpos : 0 < m.size := Nat.zero_lt_of_lt h.short
    have hne : b ≠ m.start := by
      rintro rfl
      exact hb (inLog_header hpos)
    simp only [commitStep, update_of_ne hne]
    exact h.installed b hb (by simp)

def Machine.withControl (m : Machine) (proc : ℕ → ProcState) (outstanding : ℕ) (committing : Bool)
    (nextOp : ℕ) (ended : List ℕ) : Machine :=
  { m with proc, outstanding, committing, nextOp, ended }

variable {proc : ℕ → ProcState} {out next : ℕ} {com : Bool} {ended : List ℕ} {pc : CommitPc}

theorem OpenTx.withControl (h : OpenTx d₀ m) :
    OpenTx d₀ (m.withControl proc out com next ended) :=
  ⟨h.nodup, h.content, h.home, h.short, h.installed⟩

theorem InstallTx.withControl {tail : ℕ} (h : InstallTx d₀ m tail) :
    InstallTx d₀ (m.withControl proc out com next ended) tail :=
  ⟨h.closed, h.nodup, h.home, h.short, h.copied, h.installed⟩

theorem AtPc.withControl (h : AtPc d₀ m pc) :
    AtPc d₀ (m.withControl proc out com next ended) pc := by
  cases pc with
  | writeLog tail => exact ⟨h.1.withControl, h.2⟩
  | writeHead => exact ⟨h.1.withControl, h.2⟩
  | install tail => exact ⟨h.1, h.2.withControl⟩
  | erase => exact InstallTx.withControl h
  | finish => exact ⟨h.1.withControl, h.2⟩

theorem OpenTx.length_lt (h : OpenTx d₀ m) (hpos : 0 < m.lh.length) : m.lh.length < m.size := by
  rcases h.short with h0 | h0 <;> omega

theorem Machine.pc_of_setProc {p : ℕ} {pc' : CommitPc}
    (h : (m.setProc p (.committing pc)).proc p = .committing pc') : pc' = pc := by
  simpa [proc_setProc, eq_comm] using h

/-- The state in which the header write has happened and is not yet recorded. -/
def Machine.withHeader (m : Machine) (p : ℕ) : Machine :=
  (m.bwrite m.start (putHeader (m.cache m.start) m.lh)).setProc p (.committing (.install 0))

theorem OpenTx.withHeader (h : OpenTx d₀ m) (hpos : 0 < m.lh.length) (p : ℕ) :
    OpenTx d₀ (m.withHeader p) := by
  have hsize := h.length_lt hpos
  exact (h.bwrite (inLog_header (by omega)) _).withControl

theorem Copied.withHeader (hc : Copied m m.lh.length) (h : OpenTx d₀ m) (hpos : 0 < m.lh.length)
    (p : ℕ) : Copied (m.withHeader p) m.lh.length := by
  have hsize := h.length_lt hpos
  have hhdr : m.InLog m.start := Machine.inLog_header (by omega)
  intro i hi
  have hne : m.lh.getD i 0 ≠ m.start := fun he => h.home _ (Machine.mem_getD hi) (he ▸ hhdr)
  have hslot : m.start + i + 1 ≠ m.start := by omega
  simp only [Machine.withHeader, Machine.setProc, Machine.bwrite, update_of_ne hne,
    update_of_ne hslot]
  exact hc i hi

/-- The committing process finds its next step prepared, and the last step leaves an
empty transaction behind. -/
theorem AtPc.commitStep {p : ℕ} (h : AtPc d₀ m pc) (hcom : m.committing = true) :
    (∀ pc', (m.commitStep p pc).proc p = .committing pc' → AtPc d₀ (m.commitStep p pc) pc') ∧
      ((m.commitStep p pc).committing = false → OpenTx d₀ (m.commitStep p pc) ∧
        (m.commitStep p pc).lh = [] ∧ (m.commitStep p pc).ended = []) := by
  have hbusy : ∀ {P : Prop}, m.committing = false → P := fun hc => by simp [hcom] at hc
  cases pc with
  | writeLog tail =>
    obtain ⟨hopen, htail, hcopied⟩ := h
    have hsize := hopen.length_lt (by omega)
    have hopen' := hopen.bwrite (inLog_slot (i := tail) (by omega))
      (m.cache (m.lh.getD tail 0))
    have hcopied' := hcopied.succ hopen htail
    refine ⟨fun pc' hpc => ?_, fun hc => hbusy hc⟩
    rw [pc_of_setProc hpc]
    split_ifs with hlt
    · exact ⟨hopen'.withControl, hlt, hcopied'⟩
    · have htl : m.lh.length = tail + 1 := by omega
      exact ⟨hopen'.withControl, by change 0 < m.lh.length; omega, htl ▸ hcopied'⟩
  | writeHead =>
    obtain ⟨hopen, hpos, hcopied⟩ := h
    have hinst := (hopen.withHeader hpos p).record hpos (hcopied.withHeader hopen hpos p)
    refine ⟨fun pc' hpc => ?_, fun hc => hbusy hc⟩
    rw [pc_of_setProc (m := m.bwrite m.start (putHeader (m.cache m.start) m.lh)) hpc]
    exact ⟨hpos, hinst⟩
  | install tail =>
    obtain ⟨htail, hinst⟩ := h
    have hinst' := hinst.succ htail
    refine ⟨fun pc' hpc => ?_, fun hc => hbusy hc⟩
    rw [pc_of_setProc hpc]
    split_ifs with hlt
    · exact ⟨hlt, hinst'.withControl⟩
    · have htl : m.lh.length = tail + 1 := by omega
      change InstallTx d₀ _ m.lh.length
      rw [htl]
      exact hinst'.withControl
  | erase =>
    have hopen := InstallTx.erase h p
    refine ⟨fun pc' hpc => ?_, fun hc => hbusy hc⟩
    have hpc' : pc' = .finish := by simpa [commitStep, eq_comm] using hpc
    rw [hpc']
    exact ⟨hopen, rfl⟩
  | finish =>
    refine ⟨fun pc' hpc => ?_, fun _ => ⟨h.1.withControl, h.2, rfl⟩⟩
    simp [commitStep] at hpc

end Transaction

section Ledger

variable {m t : Machine} {op b : ℕ} {data : Bytes}

theorem Ledger.congr (h : Ledger m) (hrun : ∀ op, t.Running op ↔ m.Running op)
    (hhistory : t.history = m.history) (hwrites : t.writes = m.writes) (hended : t.ended = m.ended)
    (hcommits : t.commits = m.commits) (hnext : t.nextOp = m.nextOp) : Ledger t := by
  constructor
  · rw [hhistory, hcommits, hwrites]
    exact h.history
  · rw [hhistory, hnext]
    exact h.fresh
  · simp only [hwrites, hended, hrun]
    exact h.owned
  · simp only [hhistory, hwrites, hended, hrun]
    exact h.openOps
  · simp only [hended, hcommits, hnext, hrun]
    exact h.retired
  · rw [hcommits]
    exact h.exact
  · rw [hcommits, hended, hhistory]
    exact h.whole
  · rw [hcommits]
    exact h.disjoint

theorem writesOf_eq_nil {ws : List Write} (h : ∀ w ∈ ws, w.op < op) : writesOf op ws = [] := by
  apply filter_eq_nil_iff.mpr
  intro w hw
  have := h w hw
  simp only [decide_eq_true_eq]
  omega

/-- A new operation has written nothing. -/
theorem Ledger.admit (h : Ledger m) {proc : ℕ → ProcState} {out : ℕ}
    (hrun : ∀ op, (∃ p, proc p = .active op) ↔ m.Running op ∨ op = m.nextOp) :
    Ledger { m with proc := proc, outstanding := out, nextOp := m.nextOp + 1 } where
  history := h.history
  fresh w hw := Nat.lt_succ_of_lt (h.fresh w hw)
  owned w hw := by
    rcases h.owned w hw with he | hr
    · exact .inl he
    · exact .inr ((hrun _).mpr (.inl hr))
  openOps op' hop := by
    rcases hop with he | hr
    · exact h.openOps op' (.inl he)
    · rcases (hrun op').mp hr with hr | rfl
      · exact h.openOps op' (.inr hr)
      · have hnil := writesOf_eq_nil h.fresh
        change writesOf m.nextOp m.history = writesOf m.nextOp m.writes
        rw [hnil]
        rw [h.history, writesOf, filter_append] at hnil
        exact (append_eq_nil_iff.mp hnil).2.symm
  retired op' hop := by
    obtain ⟨hlt, hno⟩ := h.retired op' hop
    refine ⟨Nat.lt_succ_of_lt hlt, fun hr => ?_⟩
    rcases (hrun op').mp hr with hr | rfl
    · exact hno hr
    · exact lt_irrefl _ hlt
  exact := h.exact
  whole := h.whole
  disjoint := h.disjoint

theorem Ledger.logged (h : Ledger m) (hrun : m.Running op) (hlt : op < m.nextOp) :
    Ledger (m.logged op b data) where
  history := by
    change m.history ++ [_] = m.commits.flatMap CommitRecord.writes ++ (m.writes ++ [_])
    rw [h.history, append_assoc]
  fresh w hw := by
    rcases mem_append.mp hw with hw | hw
    · exact h.fresh w hw
    · rw [mem_singleton.mp hw]
      exact hlt
  owned w hw := by
    rcases mem_append.mp hw with hw | hw
    · exact h.owned w hw
    · rw [mem_singleton.mp hw]
      exact .inr hrun
  openOps op' hop := by
    change writesOf op' (m.history ++ [_]) = writesOf op' (m.writes ++ [_])
    rw [writesOf_concat, writesOf_concat, h.openOps op' hop]
  retired := h.retired
  exact := h.exact
  whole c hc op' hop := by
    have hno := (h.retired op' (.inr ⟨c, hc, hop⟩)).2
    have hne : op ≠ op' := fun he => hno (he ▸ hrun)
    change op' ∉ m.ended ∧ writesOf op' (m.history ++ [_]) = writesOf op' c.writes
    rw [writesOf_concat, if_neg hne]
    exact h.whole c hc op' hop
  disjoint := h.disjoint

theorem Ledger.endOp (h : Ledger m) (hrun : m.Running op) (hlt : op < m.nextOp)
    {proc : ℕ → ProcState} {out : ℕ} {com : Bool}
    (hproc : ∀ op', (∃ p, proc p = .active op') ↔ m.Running op' ∧ op' ≠ op) :
    Ledger { m with
      proc := proc, outstanding := out, committing := com, ended := m.ended ++ [op] } where
  history := h.history
  fresh := h.fresh
  owned w hw := by
    by_cases hw' : w.op = op
    · exact .inl (by simp [hw'])
    · rcases h.owned w hw with he | hr
      · exact .inl (mem_append_left _ he)
      · exact .inr ((hproc _).mpr ⟨hr, hw'⟩)
  openOps op' hop := by
    apply h.openOps op'
    rcases hop with he | hr
    · rcases mem_append.mp he with he | he
      · exact .inl he
      · rw [mem_singleton.mp he]
        exact .inr hrun
    · exact .inr ((hproc op').mp hr).1
  retired op' hop := by
    by_cases hop' : op' = op
    · rw [hop']
      exact ⟨hlt, fun hr => ((hproc op).mp hr).2 rfl⟩
    · have hold := h.retired op' (by simpa [hop'] using hop)
      exact ⟨hold.1, fun hr => hold.2 ((hproc op').mp hr).1⟩
  exact := h.exact
  whole c hc op' hop := by
    obtain ⟨hne, hw⟩ := h.whole c hc op' hop
    have hno := (h.retired op' (.inr ⟨c, hc, hop⟩)).2
    have hop' : op' ≠ op := fun he => hno (he ▸ hrun)
    exact ⟨by simp [hne, hop'], hw⟩
  disjoint := h.disjoint

/-- Operations that have logged nothing leave no trace. -/
theorem Ledger.finish (h : Ledger m) (hwrites : m.writes = []) {proc : ℕ → ProcState}
    (hrun : ∀ op, (∃ p, proc p = .active op) ↔ m.Running op) :
    Ledger { m with proc := proc, committing := false, ended := [] } where
  history := h.history
  fresh := h.fresh
  owned w hw := by simp [hwrites] at hw
  openOps op' hop := by
    rcases hop with he | hr
    · exact absurd he not_mem_nil
    · exact h.openOps op' (.inr ((hrun op').mp hr))
  retired op' hop := by
    rcases hop with he | hc
    · exact absurd he not_mem_nil
    · obtain ⟨hlt, hno⟩ := h.retired op' (.inr hc)
      exact ⟨hlt, fun hr => hno ((hrun op').mp hr)⟩
  exact := h.exact
  whole c hc op' hop := ⟨not_mem_nil, (h.whole c hc op' hop).2⟩
  disjoint := h.disjoint

/-- A commit takes the open transaction with all its operations. -/
theorem Ledger.record (h : Ledger m) (hidle : ∀ op, ¬ m.Running op)
    (honce : (m.logImage.map Prod.fst).Nodup)
    (hfinal : ∀ b d, (b, d) ∈ m.logImage ↔ lastData m.writes b = some d) : Ledger m.record where
  history := by
    simp [Machine.record, h.history]
  fresh := h.fresh
  owned w hw := absurd hw not_mem_nil
  openOps op' hop := by
    rcases hop with he | hr
    · exact absurd he not_mem_nil
    · exact absurd hr (hidle op')
  retired op' hop := by
    apply h.retired op'
    simpa [Machine.record, or_comm] using hop
  exact c hc := by
    rcases mem_append.mp hc with hc | hc
    · exact h.exact c hc
    · rw [mem_singleton.mp hc]
      refine ⟨honce, hfinal, fun w hw => ?_⟩
      rcases h.owned w hw with he | hr
      · exact he
      · exact absurd hr (hidle _)
  whole c hc op' hop := by
    refine ⟨not_mem_nil, ?_⟩
    rcases mem_append.mp hc with hc | hc
    · exact (h.whole c hc op' hop).2
    · rw [mem_singleton.mp hc] at hop ⊢
      exact h.openOps op' (.inl hop)
  disjoint := by
    apply pairwise_append.mpr
    refine ⟨h.disjoint, pairwise_singleton _ _, fun c hc c' hc' op' hop => ?_⟩
    rw [mem_singleton.mp hc']
    exact (h.whole c hc op' hop).1

end Ledger

section Grouped

variable {d₀ : ℕ → Bytes} {m t : Machine} {p op : ℕ}

theorem AtPc.of_update (h : ∀ p pc, m.proc p = .committing pc → AtPc d₀ m pc) {st : ProcState}
    (hst : ∀ pc, st = .committing pc → AtPc d₀ m pc) (q : ℕ) (pc : CommitPc)
    (hq : update m.proc p st q = .committing pc) : AtPc d₀ m pc := by
  rw [update_apply] at hq
  split_ifs at hq with hqp
  · exact hst pc hq
  · exact h q pc hq

theorem Machine.running_update {st : ProcState} (hst : ∀ op, st ≠ .active op)
    (hp : ¬ m.Active p) : (∃ q, update m.proc p st q = .active op) ↔ m.Running op := by
  refine exists_congr fun q => ?_
  rw [update_apply]
  split_ifs with hqp
  · subst hqp
    exact ⟨fun h => absurd h (hst op), fun h => absurd ⟨op, h⟩ hp⟩
  · rfl

theorem Machine.commitStep_proc_of_ne {pc : CommitPc} {q : ℕ} (h : q ≠ p) :
    (m.commitStep p pc).proc q = m.proc q := by
  cases pc <;> exact update_of_ne h _ _

/-- The header write records the open transaction, the other steps record nothing. -/
theorem Ledger.commitStep (h : Ledger m) (hidle : ∀ op, ¬ m.Running op) {pc : CommitPc}
    (hpc : AtPc d₀ m pc) : Ledger (m.commitStep p pc) := by
  have hna : ¬ m.Active p := fun ⟨op, hp⟩ => hidle op ⟨p, hp⟩
  have hmove : ∀ pc', ∀ op,
      (∃ q, update m.proc p (.committing pc') q = .active op) ↔ m.Running op :=
    fun pc' op => running_update (by simp) hna
  cases pc with
  | writeLog tail => exact h.congr (hmove _) rfl rfl rfl rfl rfl
  | writeHead =>
    obtain ⟨hopen, hpos, hcopied⟩ := hpc
    have hopen' := hopen.withHeader hpos p
    have himage := Copied.logImage (hcopied.withHeader hopen hpos p)
    have hledger : Ledger (m.withHeader p) := h.congr (hmove _) rfl rfl rfl rfl rfl
    apply hledger.record (fun op hr => hidle op ((hmove _ op).mp hr))
    · rw [himage, map_map]
      exact (map_id _).symm ▸ hopen'.nodup
    · intro b d
      rw [himage, hopen'.content b]
      by_cases hb : b ∈ (m.withHeader p).lh <;> simp [hb]
  | install tail => exact h.congr (hmove _) rfl rfl rfl rfl rfl
  | erase => exact h.congr (hmove _) rfl rfl rfl rfl rfl
  | finish =>
    exact h.finish (hpc.1.writes_eq_nil hpc.2) fun op => running_update (by simp) hna

theorem Machine.Boot.grouped (h : m.Boot) : Grouped m.disk m where
  control := ⟨∅, h.control⟩
  ledger := by
    constructor <;> simp [h.history, h.writes, h.ended, h.commits, h.proc, Machine.Running]
  rest _ := by
    constructor <;> simp [h.lh, h.writes, h.commits, lastData, durable]
  atPc p pc hp := by simp [h.proc p] at hp
  drained _ _ := ⟨h.lh, h.ended⟩

variable (h : Grouped d₀ m)
include h

theorem Grouped.setWaiting (hp : ¬ m.Active p) : Grouped d₀ (m.setProc p .waiting) := by
  obtain ⟨A, hA⟩ := h.control
  constructor
  · exact ⟨A, hA.setProc hp (.inl rfl)⟩
  · exact h.ledger.congr (fun op => running_update (by simp) hp) rfl rfl rfl rfl rfl
  · exact fun hc => (h.rest hc).withControl
  · exact fun q pc hq => (AtPc.of_update h.atPc (by simp) q pc hq).withControl
  · exact h.drained

theorem Grouped.beginOp (hp : m.proc p = .idle ∨ m.proc p = .waiting) :
    Grouped d₀ (m.beginOp p) := by
  obtain ⟨A, hA⟩ := h.control
  have hna := Machine.not_active_of_proc hp
  have hcontrol := hA.beginOp hp
  unfold Machine.beginOp at hcontrol ⊢
  split_ifs at hcontrol ⊢
  · exact h.setWaiting hna
  · exact h.setWaiting hna
  · refine ⟨hcontrol, h.ledger.admit fun op => ?_, fun hc => (h.rest hc).withControl,
      fun q pc hq => (AtPc.of_update h.atPc (by simp) q pc hq).withControl, by simp⟩
    constructor
    · rintro ⟨q, hq⟩
      rw [update_apply] at hq
      split_ifs at hq
      · exact .inr (ProcState.active.inj hq).symm
      · exact .inl ⟨q, hq⟩
    · rintro (⟨q, hq⟩ | rfl)
      · have hqp : q ≠ p := fun he => hna ⟨op, he ▸ hq⟩
        exact ⟨q, by rw [update_of_ne hqp]; exact hq⟩
      · exact ⟨p, update_self _ _ _⟩

theorem Grouped.logWrite {b : ℕ} {data : Bytes} (hp : m.proc p = .active op)
    (hb : ¬ m.InLog b) (ht : m.logWrite op b data = .ok t) : Grouped d₀ t := by
  obtain ⟨A, hA⟩ := h.control
  have hcontrol := hA.logWrite hp ht
  have hc := hA.not_committing hp
  obtain ⟨hfit, rfl⟩ := logWrite_ok ht
  refine ⟨⟨A, hcontrol⟩, h.ledger.logged ⟨p, hp⟩ (hA.started p op hp),
    fun _ => (h.rest hc).logged hb hfit, fun q pc hq => ?_, fun _ hout => ?_⟩
  · have hq' := hA.pc q pc hq
    simp [hc] at hq'
  · have hpos := hA.outstanding_pos hp
    change m.outstanding = 0 at hout
    omega

theorem Grouped.endOp (hp : m.proc p = .active op) (ht : m.endOp p op = .ok t) : Grouped d₀ t := by
  obtain ⟨A, hA⟩ := h.control
  have hcontrol := hA.endOp hp ht
  obtain ⟨hc, rfl⟩ := endOp_ok ht
  have hopen := h.rest hc
  have hentry : AtPc d₀ m m.commitEntry := by
    unfold commitEntry
    split_ifs with hlen
    · exact ⟨hopen, hlen, fun i hi => absurd hi (Nat.not_lt_zero i)⟩
    · exact ⟨hopen, length_eq_zero_iff.mp (by omega)⟩
  refine ⟨⟨_, hcontrol⟩, h.ledger.endOp ⟨p, hp⟩ (hA.started p op hp) fun op' => ?_,
    fun _ => hopen.withControl, fun q pc hq => ?_, fun hrest hout => ?_⟩
  · constructor
    · rintro ⟨q, hq⟩
      rw [update_apply] at hq
      split_ifs at hq with hqp
      refine ⟨⟨q, hq⟩, ?_⟩
      rintro rfl
      exact hqp (hA.owner q p op' hq hp)
    · rintro ⟨⟨q, hq⟩, hne⟩
      have hqp : q ≠ p := by
        rintro rfl
        rw [hp] at hq
        exact hne (ProcState.active.inj hq).symm
      exact ⟨q, by rw [update_of_ne hqp]; exact hq⟩
  · apply AtPc.withControl
    refine AtPc.of_update h.atPc (fun pc' hst => ?_) q pc hq
    split_ifs at hst
    rw [← ProcState.committing.inj hst]
    exact hentry
  · have hpos := hA.outstanding_pos hp
    have hone : m.outstanding ≠ 1 := of_decide_eq_false hrest
    change m.outstanding - 1 = 0 at hout
    omega

theorem Grouped.commitStep {pc : CommitPc} (hp : m.proc p = .committing pc) :
    Grouped d₀ (m.commitStep p pc) := by
  obtain ⟨A, hA⟩ := h.control
  have hcom := hA.pc p pc hp
  have hpc := h.atPc p pc hp
  have hidle : ∀ op, ¬ m.Running op := fun op ⟨q, hq⟩ => by
    have hc := hA.not_committing hq
    simp [hcom] at hc
  obtain ⟨hnext, hrest⟩ := hpc.commitStep (p := p) hcom
  refine ⟨⟨A, hA.commitStep hp⟩, h.ledger.commitStep hidle hpc, fun hc => (hrest hc).1,
    fun q pc' hq => ?_, fun hc _ => (hrest hc).2⟩
  by_cases hqp : q = p
  · exact hnext pc' (hqp ▸ hq)
  · rw [commitStep_proc_of_ne hqp] at hq
    exact absurd (hA.alone q p pc' pc hq hp) hqp

theorem Grouped.step {e : Event} (hhome : HomeWrites m e)
    (ht : m.step e = .ok t) : Grouped d₀ t := by
  rcases step_cases ht with ⟨p, rfl, hp, rfl⟩ | ⟨p, b, data, op, rfl, hp, hw⟩ |
    ⟨p, op, rfl, hp, hw⟩ | ⟨p, pc, rfl, hp, rfl⟩
  · exact h.beginOp hp
  · exact h.logWrite hp hhome hw
  · exact h.endOp hp hw
  · exact h.commitStep hp

/-- The two panics that guard the transaction brackets. -/
theorem Grouped.no_bracket_panic (e : Event) :
    m.step e ≠ .error (.panic .logCommitting) ∧ m.step e ≠ .error (.panic .outsideTrans) := by
  obtain ⟨A, hA⟩ := h.control
  cases e with
  | beginOp p => cases hp : m.proc p <;> simp [Machine.step, hp]
  | commitStep p => cases hp : m.proc p <;> simp [Machine.step, hp]
  | endOp p =>
    cases hp : m.proc p with
    | active op =>
      have hc := hA.not_committing hp
      rw [Machine.step, hp]
      simp only [Machine.endOp, hc, Bool.false_eq_true, if_false]
      split_ifs <;> simp
    | _ => simp [Machine.step, hp]
  | logWrite p b data =>
    cases hp : m.proc p with
    | active op =>
      have hpos := hA.outstanding_pos hp
      have hout : ¬ m.outstanding < 1 := by omega
      simp only [Machine.step, hp, Machine.logWrite, if_neg hout]
      split_ifs <;> simp
    | _ => simp [Machine.step, hp]

end Grouped

/-- Group commit isolation, for any number of processes in any interleaving. Every commit
holds exactly the last contents of the blocks logged by operations that had all ended, and
everything these operations ever logged; the operations of the open transaction have all
their writes in it, and nothing is left in it once they have ended and no commit runs; home
blocks hold whole transactions whenever no commit runs; nothing is logged during a commit, and
the bracket panics are unreachable. -/
theorem group_commit_isolation {m₀ m : Machine} (h₀ : m₀.Boot)
    (hrun : Reach (stepRel step) HomeWrites m₀ m) :
    (∀ c ∈ m.commits, c.Exact ∧
      ∀ op ∈ c.ended, ¬ m.Running op ∧ writesOf op m.history = writesOf op c.writes) ∧
    m.commits.Pairwise (fun c c' => ∀ op ∈ c.ended, op ∉ c'.ended) ∧
    (∀ op, op ∈ m.ended ∨ m.Running op → writesOf op m.history = writesOf op m.writes) ∧
    m.history = m.commits.flatMap CommitRecord.writes ++ m.writes ∧
    (m.committing = false → m.outstanding = 0 → m.lh = [] ∧ m.writes = [] ∧ m.ended = []) ∧
    (m.committing = false → ∀ b, ¬ m.InLog b → m.disk b = m.durable m₀.disk b) ∧
    (m.committing = true → ∀ p b data, m.step (.logWrite p b data) = .error .disabled) ∧
    ∀ e, m.step e ≠ .error (.panic .logCommitting) ∧ m.step e ≠ .error (.panic .outsideTrans) := by
  have hinv : Grouped m₀.disk m :=
    hrun.invariant h₀.grouped fun _ _ _ hs hok ht => hs.step hok ht
  obtain ⟨A, hA⟩ := hinv.control
  refine ⟨fun c hc => ⟨hinv.ledger.exact c hc, fun op hop => ?_⟩, hinv.ledger.disjoint,
    hinv.ledger.openOps, hinv.ledger.history, fun hc hout => ?_,
    fun hc => (hinv.rest hc).installed, fun hc p b data => ?_, hinv.no_bracket_panic⟩
  · exact ⟨(hinv.ledger.retired op (Or.inr ⟨c, hc, hop⟩)).2, (hinv.ledger.whole c hc op hop).2⟩
  · obtain ⟨hlh, hended⟩ := hinv.drained hc hout
    exact ⟨hlh, (hinv.rest hc).writes_eq_nil hlh, hended⟩
  · cases hp : m.proc p with
    | active op =>
      have hc' := hA.not_committing hp
      simp [hc] at hc'
    | _ => simp [step, hp]

/-- Two overlapping operations log three blocks, one of them twice, and are committed. -/
def overlapping : List Event :=
  [.beginOp 0, .beginOp 1, .logWrite 0 50 fun _ => 1, .logWrite 1 60 fun _ => 2, .endOp 0,
    .logWrite 1 50 fun _ => 3, .endOp 1] ++ replicate 7 (.commitStep 1)

theorem group_commit_isolation_overlapping :
    ∃ m, Reach (stepRel step) HomeWrites emptyLog m ∧ m.commits.length = 1 ∧
      m.committing = false ∧ (∀ c ∈ m.commits, c.Exact) ∧ m.writes = [] ∧
      ∀ b, ¬ m.InLog b → m.disk b = m.durable emptyLog.disk b := by
  have h : (follow step HomeWrites emptyLog overlapping).any (fun m =>
      decide (m.commits.length = 1 ∧ m.committing = false ∧ m.outstanding = 0)) = true := by
    decide +kernel
  obtain ⟨m, hm, hp⟩ := (Option.any_eq_true _ _).mp h
  obtain ⟨hone, hrest, hout⟩ := of_decide_eq_true hp
  have hrun : Reach (stepRel step) HomeWrites emptyLog m :=
    reach_of_follow _ Reach.refl hm
  obtain ⟨hcommits, -, -, -, hempty, hdisk, -⟩ := group_commit_isolation emptyLog_boot hrun
  exact ⟨m, hrun, hone, hrest, fun c hc => (hcommits c hc).1, (hempty hrest hout).2.1, hdisk hrest⟩

end Xv6.Log
