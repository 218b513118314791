import Xv6.Log.Operations

/-!
# Log space reservation

`begin_op` admits an operation against `LOGSIZE`, `log_write` tests the header against the on-disk
log, and `mkfs` gives that log `LOGSIZE` blocks including the header block. So the admission test
promises one block more than there is. The panic is out of reach as long as every admission leaves
the log strictly below its last block.
-/
namespace Xv6.Log

open Library Function Machine

namespace Machine

variable (m : Machine)

/-- How many distinct blocks the operation of process `p` may still log. -/
def reserve (p : ℕ) : ℕ :=
  match m.proc p with
  | .active op => maxOpBlocks - (m.opBlocks op).card
  | _ => 0

end Machine

/-- Every operation logs at most `MAXOPBLOCKS` distinct blocks. -/
def WithinLimit (m : Machine) : Event → Prop
  | .logWrite p b _ =>
    match m.proc p with
    | .active op => (insert b (m.opBlocks op)).card ≤ maxOpBlocks
    | _ => True
  | _ => True

instance (m : Machine) (e : Event) : Decidable (WithinLimit m e) :=
  match e with
  | .logWrite p b _ =>
    show Decidable (match m.proc p with
      | .active op => (insert b (m.opBlocks op)).card ≤ maxOpBlocks
      | _ => True) from
    match m.proc p with
    | .active op => inferInstanceAs (Decidable ((insert b (m.opBlocks op)).card ≤ maxOpBlocks))
    | .idle | .waiting | .committing _ => .isTrue trivial
  | .beginOp _ | .endOp _ | .commitStep _ => .isTrue trivial

/-- When `begin_op` admits an operation, the blocks logged so far, those the running
operations may still log and the `MAXOPBLOCKS` of the new one stay below the number
of data blocks of the on-disk log. -/
def LeavesRoom (m : Machine) : Event → Prop
  | .beginOp _ =>
    m.committing = false → m.lh.length + (m.outstanding + 1) * maxOpBlocks ≤ logSize →
      ∀ A : Finset ℕ, (∀ p, p ∈ A ↔ m.Active p) →
        m.lh.length + ∑ p ∈ A, m.reserve p + maxOpBlocks < m.size - 1
  | _ => True

/-- The blocks logged and the blocks still reserved fit the log. -/
def HasRoom (m : Machine) : Prop :=
  ∀ A : Finset ℕ, (∀ p, p ∈ A ↔ m.Active p) →
    m.lh.length + ∑ p ∈ A, m.reserve p < m.size - 1

/-- The reservation invariant. Blocks of a running operation are in the header, so
that a block it logs twice costs no space. -/
structure Reserved (m : Machine) : Prop where
  control : ∃ A, Control m A
  inHeader : ∀ p op, m.proc p = .active op → ∀ w ∈ m.writes, w.op = op → w.block ∈ m.lh
  room : HasRoom m

section Reservation

variable {m t : Machine}

theorem Machine.mem_opBlocks {op b : ℕ} :
    b ∈ m.opBlocks op ↔ ∃ w ∈ m.writes, w.op = op ∧ w.block = b := by
  simp [opBlocks, and_assoc]

theorem Machine.reserve_active {p op : ℕ} (h : m.proc p = .active op) :
    m.reserve p = maxOpBlocks - (m.opBlocks op).card := by
  simp [reserve, h]

theorem Machine.reserve_congr {p : ℕ} (hp : t.proc p = m.proc p)
    (hb : ∀ op, m.proc p = .active op → t.opBlocks op = m.opBlocks op) :
    t.reserve p = m.reserve p := by
  unfold reserve
  rw [hp]
  cases h : m.proc p with
  | active op => simp [hb op h]
  | _ => rfl

/-- Room is kept when one process moves and is not in an operation afterwards. -/
theorem HasRoom.leave (h : HasRoom m) {p : ℕ} (hsize : t.size = m.size)
    (hlh : t.lh.length ≤ m.lh.length) (hproc : ∀ q, q ≠ p → t.proc q = m.proc q)
    (hb : ∀ q op, m.proc q = .active op → t.opBlocks op = m.opBlocks op) (hp : ¬ t.Active p) :
    HasRoom t := by
  intro B hB
  have hBp : p ∉ B := fun hmem => hp ((hB p).mp hmem)
  have hsum : ∑ q ∈ B, t.reserve q = ∑ q ∈ B, m.reserve q :=
    Finset.sum_congr rfl fun q hq => reserve_congr
      (hproc q fun hqp => hBp (hqp ▸ hq)) (hb q)
  have hother : ∀ q, q ≠ p → (q ∈ B ↔ m.Active q) := fun q hqp => by
    rw [hB q, Machine.Active, Machine.Active, hproc q hqp]
  by_cases hm : m.Active p
  · have hroom := h (insert p B) fun q => by
      by_cases hqp : q = p
      · simp [hqp, hm]
      · rw [Finset.mem_insert, hother q hqp]
        simp [hqp]
    rw [Finset.sum_insert hBp] at hroom
    rw [hsum, hsize]
    omega
  · have hroom := h B fun q => by
      by_cases hqp : q = p
      · simp [hqp, hm, hBp]
      · exact hother q hqp
    rw [hsum, hsize]
    omega

/-- An admitted operation takes its reservation out of the room that was left. -/
theorem HasRoom.admit {p : ℕ} (hna : ¬ m.Active p)
    (hproc : ∀ q, q ≠ p → t.proc q = m.proc q) (hb : ∀ op, t.opBlocks op = m.opBlocks op)
    (hsize : t.size = m.size) (hlh : t.lh = m.lh) (hact : t.Active p)
    (hroom : ∀ A : Finset ℕ, (∀ q, q ∈ A ↔ m.Active q) →
      m.lh.length + ∑ q ∈ A, m.reserve q + maxOpBlocks < m.size - 1) : HasRoom t := by
  intro B hB
  have hBp : p ∈ B := (hB p).mpr hact
  have herase : ∀ q, q ∈ B.erase p ↔ m.Active q := by
    intro q
    rw [Finset.mem_erase, hB q]
    by_cases hqp : q = p
    · subst hqp
      simp [hna]
    · simp [hqp, Machine.Active, hproc q hqp]
  have hrest : ∑ q ∈ B.erase p, t.reserve q = ∑ q ∈ B.erase p, m.reserve q :=
    Finset.sum_congr rfl fun q hq =>
      reserve_congr (hproc q (Finset.ne_of_mem_erase hq)) fun op _ => hb op
  have hp10 : t.reserve p ≤ maxOpBlocks := by
    obtain ⟨op, hop⟩ := hact
    rw [reserve_active hop]
    exact Nat.sub_le _ _
  have hnew := hroom (B.erase p) herase
  rw [← Finset.sum_erase_add _ _ hBp, hrest, hsize, hlh]
  omega

theorem Machine.Boot.reserved (h : m.Boot) (hsize : 2 ≤ m.size) : Reserved m where
  control := ⟨∅, h.control⟩
  inHeader p op hp := by simp [h.proc p] at hp
  room B hB := by
    have hB0 : B = ∅ := Finset.eq_empty_of_forall_notMem fun q hq => by
      obtain ⟨op, ho⟩ := (hB q).mp hq
      simp [h.proc q] at ho
    simp only [h.lh, hB0, List.length_nil, Finset.sum_empty]
    omega

variable (h : Reserved m)
include h

theorem Reserved.beginOp {p : ℕ} (hp : m.proc p = .idle ∨ m.proc p = .waiting)
    (hroom : LeavesRoom m (.beginOp p)) : Reserved (m.beginOp p) := by
  obtain ⟨A, hA⟩ := h.control
  have hna := Machine.not_active_of_proc hp
  have hwait : HasRoom (m.setProc p .waiting) :=
    h.room.leave rfl le_rfl (fun q hq => by rw [Machine.proc_setProc, if_neg hq])
      (fun _ _ _ => rfl) (by simp [Machine.Active, Machine.proc_setProc])
  have hhead : ∀ q op, (m.setProc p .waiting).proc q = .active op →
      ∀ w ∈ m.writes, w.op = op → w.block ∈ m.lh := by
    intro q op hq
    rw [Machine.proc_setProc] at hq
    split_ifs at hq
    exact h.inHeader q op hq
  refine ⟨hA.beginOp hp, ?_, ?_⟩
  all_goals unfold Machine.beginOp
  · split_ifs
    · exact hhead
    · exact hhead
    · intro q op hq w hw hop
      simp only [update_apply] at hq
      split_ifs at hq
      · cases hq
        have hlt := hA.fresh w hw
        omega
      · exact h.inHeader q op hq w hw hop
  · split_ifs with hc hfull
    · exact hwait
    · exact hwait
    · refine HasRoom.admit hna (fun q hq => update_of_ne hq _ _) (fun _ => rfl) rfl rfl
        ⟨m.nextOp, update_self _ _ _⟩ (hroom (by simpa using hc) (by omega))

/-- A logged block moves from the operation's reservation into the header, unless the
header already holds it. -/
theorem Reserved.logWrite {p op b : ℕ} {data : Bytes}
    (hp : m.proc p = .active op) (hlim : WithinLimit m (.logWrite p b data))
    (ht : m.logWrite op b data = .ok t) : Reserved t := by
  obtain ⟨A, hA⟩ := h.control
  have hcontrol := hA.logWrite hp ht
  obtain ⟨-, rfl⟩ := logWrite_ok ht
  refine ⟨⟨A, hcontrol⟩, fun q op' hq w hw hop => ?_, fun B hB => ?_⟩
  · rcases List.mem_append.mp hw with hw | hw
    · exact mem_absorb.mpr (Or.inl (h.inHeader q op' hq w hw hop))
    · rw [List.mem_singleton.mp hw]
      exact mem_absorb.mpr (Or.inr rfl)
  · have hBp : p ∈ B := (hB p).mpr ⟨op, hp⟩
    have hold := h.room B hB
    rw [← Finset.sum_erase_add _ _ hBp] at hold ⊢
    simp only [WithinLimit, hp] at hlim
    have hrest : ∑ q ∈ B.erase p, (m.logged op b data).reserve q =
        ∑ q ∈ B.erase p, m.reserve q := by
      refine Finset.sum_congr rfl fun q hq => reserve_congr rfl fun op' hop' => ?_
      have hne : op ≠ op' := fun he =>
        Finset.ne_of_mem_erase hq (hA.owner q p op' hop' (he ▸ hp))
      ext c
      simp [opBlocks, logged, hne]
    have hself : (m.logged op b data).opBlocks op = insert b (m.opBlocks op) := by
      ext c
      simp [opBlocks, logged]
    rw [hrest, reserve_active (m := m.logged op b data) hp, hself]
    rw [reserve_active hp] at hold
    change (m.absorb b).length + _ < m.size - 1
    rw [length_absorb]
    split_ifs with hb
    · have hcard := Finset.card_le_card (Finset.subset_insert b (m.opBlocks op))
      omega
    · have hnew : b ∉ m.opBlocks op := fun hmem => by
        obtain ⟨w, hw, hwop, rfl⟩ := mem_opBlocks.mp hmem
        exact hb (h.inHeader p op hp w hw hwop)
      rw [Finset.card_insert_of_notMem hnew] at hlim ⊢
      omega

theorem Reserved.endOp {p op : ℕ} (hp : m.proc p = .active op)
    (ht : m.endOp p op = .ok t) : Reserved t := by
  obtain ⟨A, hA⟩ := h.control
  have hcontrol := hA.endOp hp ht
  obtain ⟨-, rfl⟩ := endOp_ok ht
  have hnp : ∀ op', update m.proc p
      (if m.outstanding = 1 then .committing m.commitEntry else .idle) p ≠ .active op' := by
    intro op'
    rw [update_self]
    split_ifs <;> simp
  refine ⟨⟨_, hcontrol⟩, fun q op' hq => ?_, h.room.leave rfl le_rfl
    (fun q hq => update_of_ne hq _ _) (fun _ _ _ => rfl) fun ⟨op', hop'⟩ => hnp op' hop'⟩
  have hqp : q ≠ p := fun hqp => hnp op' (hqp ▸ hq)
  exact h.inHeader q op' ((update_of_ne hqp _ _).symm.trans hq)

/-- Commit steps happen while no operation runs, and never lengthen the header. -/
theorem Reserved.commitStep {p : ℕ} {pc : CommitPc}
    (hp : m.proc p = .committing pc) : Reserved (m.commitStep p pc) := by
  obtain ⟨A, hA⟩ := h.control
  have hcontrol := hA.commitStep hp
  have hquiet := hA.quiet (hA.pc p pc hp)
  have hidle : ∀ q, ¬ (m.commitStep p pc).Active q := fun q hq => by
    have := (hcontrol.active q).mpr hq
    simp [hquiet] at this
  have hlh : (m.commitStep p pc).lh.length ≤ m.lh.length ∧ (m.commitStep p pc).size = m.size := by
    cases pc
    all_goals exact ⟨by simp [Machine.commitStep, Machine.record, Machine.setProc, Machine.bwrite],
      rfl⟩
  refine ⟨⟨A, hcontrol⟩, fun q op hq => absurd ⟨op, hq⟩ (hidle q), fun B hB => ?_⟩
  have hB0 : B = ∅ := Finset.eq_empty_of_forall_notMem fun q hq => hidle q ((hB q).mp hq)
  have hold := h.room A hA.active
  rw [hquiet] at hold
  rw [hB0, hlh.2]
  simp only [Finset.sum_empty] at hold ⊢
  omega

theorem Reserved.step {e : Event} (hlim : WithinLimit m e) (hroom : LeavesRoom m e)
    (ht : m.step e = .ok t) : Reserved t := by
  rcases step_cases ht with ⟨p, rfl, hp, rfl⟩ | ⟨p, b, data, op, rfl, hp, hw⟩ |
    ⟨p, op, rfl, hp, hw⟩ | ⟨p, pc, rfl, hp, rfl⟩
  · exact h.beginOp hp hroom
  · exact h.logWrite hp hlim hw
  · exact h.endOp hp hw
  · exact h.commitStep hp

theorem Reserved.not_tooBig (hsize : m.size ≤ logSize) (e : Event) :
    m.step e ≠ .error (.panic .tooBig) := by
  obtain ⟨A, hA⟩ := h.control
  have hroom := h.room A hA.active
  intro hstep
  cases e with
  | beginOp p => cases hp : m.proc p <;> simp [Machine.step, hp] at hstep
  | commitStep p => cases hp : m.proc p <;> simp [Machine.step, hp] at hstep
  | endOp p =>
    cases hp : m.proc p <;> simp only [Machine.step, hp, Machine.endOp] at hstep
    all_goals first
      | cases hstep
      | (split_ifs at hstep; cases hstep)
  | logWrite p b data =>
    cases hp : m.proc p <;> simp only [Machine.step, hp, Machine.logWrite] at hstep
    all_goals first
      | cases hstep
      | split_ifs at hstep with hbig hout
    · omega
    · cases hstep

end Reservation

/-- With the log that `mkfs` makes and operations within `MAXOPBLOCKS`, `log_write`
never panics with "too big a transaction" in a run in which every admission by
`begin_op` leaves room. -/
theorem log_write_fits_of_leavesRoom {m₀ m : Machine} (h₀ : m₀.Boot) (hsize : m₀.size = nlog)
    (hrun : Reach (stepRel step) (fun m e => WithinLimit m e ∧ LeavesRoom m e) m₀ m)
    (e : Event) : m.step e ≠ .error (.panic .tooBig) := by
  have hinv : Reserved m ∧ m.size = nlog := by
    refine hrun.invariant (I := fun m => Reserved m ∧ m.size = nlog)
      ⟨h₀.reserved (by rw [hsize]; decide), hsize⟩ fun s e t hs hok ht => ?_
    exact ⟨hs.1.step hok.1 hok.2 ht, (step_geometry ht).2.trans hs.2⟩
  exact hinv.1.not_tooBig (le_of_eq hinv.2) e

theorem leavesRoom_of_active {m : Machine} {p : ℕ} {A : Finset ℕ} (hA : ∀ q, q ∈ A ↔ m.Active q)
    (hroom : m.lh.length + ∑ q ∈ A, m.reserve q + maxOpBlocks < m.size - 1) :
    LeavesRoom m (.beginOp p) := by
  intro _ _ B hB
  rw [show B = A from Finset.ext fun q => (hB q).trans (hA q).symm]
  exact hroom

/-- One operation has logged a block when the next one starts. -/
def oneLogged : Machine := (emptyLog.beginOp 0).logged 0 50 fun _ => 1

/-- The second operation logs the same block again, and another one. -/
def bothLogged : Machine :=
  ((oneLogged.beginOp 1).logged 1 50 fun _ => 2).logged 1 60 fun _ => 3

theorem log_write_fits_overlapping :
    Reach (stepRel step) (fun m e => WithinLimit m e ∧ LeavesRoom m e) emptyLog bothLogged ∧
      bothLogged.lh = [50, 60] ∧ bothLogged.outstanding = 2 ∧
      ∀ e, bothLogged.step e ≠ .error (.panic .tooBig) := by
  have hfirst : LeavesRoom emptyLog (.beginOp 0) :=
    leavesRoom_of_active (A := ∅) (by simp [Machine.Active, emptyLog]) (by decide)
  have hsecond : LeavesRoom oneLogged (.beginOp 1) := by
    apply leavesRoom_of_active (A := {0}) _ (by decide)
    intro q
    by_cases hq : q = 0 <;> simp [Machine.Active, oneLogged, Machine.logged, Machine.beginOp,
      emptyLog, hq, maxOpBlocks, logSize]
  have h1 : stepRel step emptyLog (.beginOp 0) (emptyLog.beginOp 0) := rfl
  have h2 : stepRel step (emptyLog.beginOp 0) (.logWrite 0 50 fun _ => 1) oneLogged := rfl
  have h3 : stepRel step oneLogged (.beginOp 1) (oneLogged.beginOp 1) := rfl
  have h4 : stepRel step (oneLogged.beginOp 1) (.logWrite 1 50 fun _ => 2)
      ((oneLogged.beginOp 1).logged 1 50 fun _ => 2) := rfl
  have h5 : stepRel step ((oneLogged.beginOp 1).logged 1 50 fun _ => 2)
      (.logWrite 1 60 fun _ => 3) bothLogged := rfl
  have hwithin : WithinLimit (emptyLog.beginOp 0) (.logWrite 0 50 fun _ => 1) ∧
      WithinLimit (oneLogged.beginOp 1) (.logWrite 1 50 fun _ => 2) ∧
      WithinLimit ((oneLogged.beginOp 1).logged 1 50 fun _ => 2) (.logWrite 1 60 fun _ => 3) := by
    decide
  have hrun : Reach (stepRel step) (fun m e => WithinLimit m e ∧
    LeavesRoom m e) emptyLog bothLogged :=
    ((((Reach.refl.tail ⟨trivial, hfirst⟩ h1).tail ⟨hwithin.1, trivial⟩ h2).tail
      ⟨trivial, hsecond⟩ h3).tail ⟨hwithin.2.1, trivial⟩ h4).tail ⟨hwithin.2.2, trivial⟩ h5
  exact ⟨hrun, by decide, by decide, log_write_fits_of_leavesRoom emptyLog_boot rfl hrun⟩

/-- Three operations, the first `k` blocks of theirs logged, ten blocks each. -/
def threeOps (k : ℕ) : List Event :=
  [.beginOp 0, .beginOp 1, .beginOp 2] ++
    (List.range k).map fun i => .logWrite (i / maxOpBlocks) (100 + i) fun _ => 0

def isTooBig : Except Stop Machine → Bool
  | .error (.panic .tooBig) => true
  | _ => false

theorem eq_of_isTooBig {r : Except Stop Machine} (h : isTooBig r = true) :
    r = .error (.panic .tooBig) := by
  unfold isTooBig at h
  split at h
  · rfl
  · cases h

/-- Three admitted operations that log ten blocks each, within their limit, run into
the panic: the on-disk log has room for 29 blocks. -/
theorem three_full_operations_tooBig :
    emptyLog.Boot ∧ emptyLog.size = nlog ∧
    ∃ m, Reach (stepRel step) WithinLimit emptyLog m ∧
      WithinLimit m (.logWrite 2 129 fun _ => 0) ∧
      m.step (.logWrite 2 129 fun _ => 0) = .error (.panic .tooBig) := by
  refine ⟨emptyLog_boot, rfl, ?_⟩
  have h : (follow step WithinLimit emptyLog (threeOps 29)).any (fun m =>
      decide (WithinLimit m (.logWrite 2 129 fun _ => 0)) &&
        isTooBig (m.step (.logWrite 2 129 fun _ => 0))) = true := by
    decide +kernel
  obtain ⟨m, hm, hp⟩ := (Option.any_eq_true _ _).mp h
  rw [Bool.and_eq_true, decide_eq_true_iff] at hp
  exact ⟨m, reach_of_follow _ Reach.refl hm, hp.1, eq_of_isTooBig hp.2⟩

end Xv6.Log
