import Xv6.Procs.Scheduler
import Xv6.Procs.Tree

/-!
# Tickets and ticks over whole histories

Tickets are set by `userinit`, `fork` and `sys_settickets`, and ticks by the scheduler and `exec`;
no other step touches them. `allocproc` and `freeproc` do not either, so that a new process starts
with the ticks of the last one in its entry of the process table.
-/
namespace Xv6.Procs

open Vm (i32)
open Library Function

/-- The tickets that process `i` sets, or that it inherits when it is created, in this step. -/
def ticketsBy (s : System) (e : Event) (i : ℕ) : Option ℤ :=
  match e with
  | .call p (.settickets n) => if i = p ∧ 1 ≤ n then some n else none
  | e => (bornBy s e i).map fun p => (s.proc p).tickets

section Steps

variable {s t : System} {e : Event} {p i j : ℕ} {given : Bool} {pc : Pc} {x : Proc}

theorem wakeup_keeps (chan : Option ℕ) (x : Proc) :
    (x.wakeup chan).tickets = x.tickets ∧ (x.wakeup chan).ticks = x.ticks ∧
      ((x.wakeup chan).state = .unused ↔ x.state = .unused) := by
  unfold Proc.wakeup
  split_ifs with hs
  · simp [hs.1]
  · simp

theorem kill_keeps (x : Proc) :
    x.kill.tickets = x.tickets ∧ x.kill.ticks = x.ticks ∧
      (x.kill.state = .unused ↔ x.state = .unused) := by
  unfold Proc.kill
  split_ifs with hs
  · simp [hs]
  · simp

theorem Change.ticks_eq (h : Change s p given pc j x) : x.ticks = (s.proc j).ticks := by
  cases h with
  | wakeup => exact (wakeup_keeps _ _).2.1
  | kill => exact (kill_keeps _).2.1
  | _ => rfl

theorem Change.tickets_eq (h : Change s p given pc j x) (hpc : ∀ i, pc ≠ .alloc i) :
    x.tickets = (s.proc j).tickets := by
  cases h with
  | alloc => exact absurd rfl (hpc _)
  | spoil => exact absurd rfl (hpc _)
  | wakeup => exact (wakeup_keeps _ _).1
  | kill => exact (kill_keeps _).1
  | _ => rfl

theorem run_ticks (hx : run s p given pc = .ok t) (i : ℕ) :
    (t.proc i).ticks = (s.proc i).ticks := by
  obtain ⟨j, x, ht, hc⟩ := run_change hx
  rw [ht]
  by_cases hij : i = j
  · subst hij
    rw [update_self]
    exact hc.ticks_eq
  · rw [update_of_ne hij]

theorem forkAlloc_tickets (hp : (s.proc p).state = .running) (hpc : s.pc p = .alloc j) :
    ((forkAlloc s p j given).proc i).tickets =
      ((bornBy s (.run p given) i).map fun q => (s.proc q).tickets).getD (s.proc i).tickets := by
  by_cases hij : i = j
  · subst hij
    rcases forkAlloc_cases given hp hpc with ⟨hborn, -, ht⟩ | ⟨hborn, ht | ⟨-, ht⟩⟩
    · rw [hborn, ht, update_self]
      rfl
    · rw [hborn, ht]
      rfl
    · rw [hborn, ht, update_self]
      rfl
  · have hborn : bornBy s (.run p given) i = none := bornBy_run (by simp [hpc, Ne.symm hij])
    rw [hborn]
    unfold forkAlloc
    split_ifs <;> simp [hij]

theorem run_tickets (hp : (s.proc p).state = .running) (hx : run s p given (s.pc p) = .ok t)
    (i : ℕ) :
    (t.proc i).tickets =
      ((bornBy s (.run p given) i).map fun q => (s.proc q).tickets).getD (s.proc i).tickets := by
  by_cases halloc : ∃ j, s.pc p = .alloc j
  · obtain ⟨j, hj⟩ := halloc
    rw [hj] at hx
    cases hx
    exact forkAlloc_tickets hp hj
  · have hne : ∀ j, s.pc p ≠ .alloc j := fun j hj => halloc ⟨j, hj⟩
    rw [bornBy_run (hne i)]
    obtain ⟨j, x, ht, hc⟩ := run_change hx
    rw [ht]
    by_cases hij : i = j
    · subst hij
      rw [update_self]
      exact hc.tickets_eq hne
    · rw [update_of_ne hij]
      rfl

/-- A step leaves the tickets of a process alone, unless the process sets them or is new, and its
ticks, unless the process is selected or calls `exec`. -/
theorem step_accounts (hx : step s e = .ok t) (i : ℕ) :
    (t.proc i).tickets = (ticketsBy s e i).getD (s.proc i).tickets ∧
    (t.proc i).ticks =
      if e = .dispatch i then i32 ((s.proc i).ticks + 1)
      else if e = .call i (.exec .failed) ∨ e = .call i (.exec .done) then 0
      else (s.proc i).ticks := by
  cases e with
  | dispatch p =>
    simp only [step] at hx
    split_ifs at hx
    cases hx
    by_cases hip : i = p
    · simp [dispatch, ticketsBy, bornBy, hip]
    · simp [dispatch, ticketsBy, bornBy, hip, Ne.symm hip]
  | yield p =>
    simp only [step] at hx
    split_ifs at hx
    cases hx
    by_cases hip : i = p <;> simp [ticketsBy, bornBy, hip]
  | call p c =>
    simp only [step] at hx
    split_ifs at hx
    cases c with
    | settickets n =>
      cases hx
      by_cases hip : i = p <;> by_cases hn : n < 1 <;>
        simp [ticketsBy, hip, hn, not_le.mpr, not_lt.mp]
    | exit status =>
      simp only [call] at hx
      split_ifs at hx
      cases hx
      simp [ticketsBy, bornBy]
    | exec outcome =>
      cases outcome <;> cases hx <;> by_cases hip : i = p <;>
        simp [ticketsBy, bornBy, hip, eq_comm]
    | sleep chan =>
      cases hx
      by_cases hip : i = p <;> simp [System.sleep, ticketsBy, bornBy, hip]
    | _ =>
      cases hx
      simp [ticketsBy, bornBy]
  | run p given =>
    simp only [step] at hx
    split_ifs at hx with hp
    exact ⟨run_tickets hp hx i, by simpa using run_ticks hx i⟩
  | wakeup chan j =>
    cases hx
    by_cases hij : i = j
    · simp [ticketsBy, bornBy, hij, wakeup_keeps]
    · simp [ticketsBy, bornBy, hij]

/-- A process in the table was there before, or is new. -/
theorem step_inuse (hs : s.Sound) (hx : step s e = .ok t) {i : ℕ}
    (hi : (t.proc i).state ≠ .unused) :
    (s.proc i).state ≠ .unused ∨ ∃ p, bornBy s e i = some p := by
  by_contra hnot
  obtain ⟨hold, hborn⟩ := not_or.mp hnot
  rw [not_not] at hold
  apply hi
  -- an unused entry that nobody takes stays unused
  have hkeep : ∀ j (x : Proc), ((s.proc j).state = .unused → x.state = .unused) →
      (update s.proc j x i).state = .unused := by
    intro j x himp
    by_cases hij : i = j
    · subst hij
      rw [update_self]
      exact himp hold
    · rw [update_of_ne hij]
      exact hold
  cases e with
  | dispatch p =>
    simp only [step] at hx
    split_ifs at hx with hp
    cases hx
    exact hkeep p _ (by simp [hp])
  | yield p =>
    simp only [step] at hx
    split_ifs at hx with hp
    cases hx
    exact hkeep p _ (by simp [hp.1])
  | call p c =>
    simp only [step] at hx
    split_ifs at hx with hp
    obtain ⟨x, ht, hstate⟩ := call_change hp.1 hx
    rw [ht]
    exact hkeep p x (by simp [hp.1])
  | run p given =>
    simp only [step] at hx
    split_ifs at hx with hp
    obtain ⟨j, x, ht, hc⟩ := run_change hx
    rw [ht]
    generalize hpc : s.pc p = pc at hc hx
    cases hc with
    | alloc _ hgiven hj hunused =>
      subst hgiven
      have hij : i ≠ j := by
        rintro rfl
        exact hborn ⟨p, by simp [bornBy, hpc, hj, hunused, hp]⟩
      rw [update_of_ne hij]
      exact hold
    | spoil => exact hkeep j _ fun _ => rfl
    | start => exact hkeep j _ (by simp [hs.embryo p j (hpc ▸ rfl)])
    | wakeup pc chan j => exact hkeep _ _ (wakeup_keeps _ _).2.2.mpr
    | exit => exact hkeep p _ (by simp [hp])
    | reap => exact hkeep j _ fun _ => rfl
    | sleep => exact hkeep p _ (by simp [hp])
    | kill => exact hkeep j _ (kill_keeps _).2.2.mpr
    | _ => exact hkeep _ _ id
  | wakeup chan j =>
    cases hx
    exact hkeep j _ (wakeup_keeps _ _).2.2.mpr

end Steps

section Totals

variable {s t : System} {e : Event}

def ticketCap : ℤ := (2 ^ 31 - 1) / nProc

/-- `sys_settickets` is not called with a larger number. -/
def Modest : Event → Prop
  | .call _ (.settickets n) => n ≤ ticketCap
  | _ => True

instance (e : Event) : Decidable (Modest e) := by
  unfold Modest
  split <;> infer_instance

def Fair (s : System) : Prop :=
  ∀ i, (s.proc i).state ≠ .unused → 1 ≤ (s.proc i).tickets ∧ (s.proc i).tickets ≤ ticketCap

theorem inuse_of_keep (hs : s.Sound) (hx : step s e = .ok t) {i : ℕ}
    (hi : (t.proc i).state ≠ .unused)
    (hnew : ticketsBy s e i = none) : (s.proc i).state ≠ .unused := by
  rcases step_inuse hs hx hi with hold | ⟨p, hp⟩
  · exact hold
  · unfold ticketsBy at hnew
    split at hnew
    · simp [bornBy] at hp
    · simp [hp] at hnew

theorem tickets_step {P : ℤ → Prop} (hs : s.Sound)
    (h : ∀ i, (s.proc i).state ≠ .unused → P (s.proc i).tickets)
    (hset : ∀ p n, e = .call p (.settickets n) → 1 ≤ n → P n) (hx : step s e = .ok t) :
    ∀ i, (t.proc i).state ≠ .unused → P (t.proc i).tickets := by
  intro i hi
  rw [(step_accounts hx i).1]
  cases hnew : ticketsBy s e i with
  | none => exact h i (inuse_of_keep hs hx hi hnew)
  | some n =>
    unfold ticketsBy at hnew
    split at hnew
    · split_ifs at hnew with hn
      cases hnew
      exact hset _ n rfl hn.2
    · obtain ⟨p, hp, rfl⟩ := Option.map_eq_some_iff.mp hnew
      exact h p (by simp [(bornBy_some hp).2])

theorem fair_step (hs : s.Sound) (h : Fair s) (he : Modest e) (hx : step s e = .ok t) : Fair t := by
  apply tickets_step (P := fun n => 1 ≤ n ∧ n ≤ ticketCap) hs h _ hx
  rintro p n rfl hn
  exact ⟨hn, he⟩

/-- In every reachable table, the tickets of runnable processes are not negative. -/
theorem reach_solvent (hr : Reach (stepRel step) (fun _ _ => True) boot s) : Solvent s := by
  have hinv : s.Sound ∧ ∀ i, (s.proc i).state ≠ .unused → 1 ≤ (s.proc i).tickets := by
    apply hr.invariant (I := fun s => s.Sound ∧
      ∀ i, (s.proc i).state ≠ .unused → 1 ≤ (s.proc i).tickets)
    · refine ⟨boot_sound, (forall_update_iff (fun _ => Proc.zero) fun _ x => x.state ≠ .unused →
        1 ≤ x.tickets).mpr ⟨fun _ => by decide, fun i _ hi => absurd rfl hi⟩⟩
    · rintro a e c ⟨hs, h⟩ - hx
      exact ⟨step_sound hs hx, tickets_step (P := fun n => 1 ≤ n) hs h (fun _ _ _ hn => hn) hx⟩
  intro p _ hp
  have hone := hinv.2 p (by simp [hp])
  omega

theorem boot_fair : Fair boot := by
  apply (forall_update_iff (fun _ => Proc.zero) fun _ x => x.state ≠ .unused →
    1 ≤ x.tickets ∧ x.tickets ≤ ticketCap).mpr
  exact ⟨fun _ => by decide, fun i _ hi => absurd rfl hi⟩

theorem Fair.stake (h : Fair s) (p : ℕ) : 0 ≤ stake s p ∧ stake s p ≤ ticketCap := by
  unfold Procs.stake
  split_ifs with hrun
  · have hp := h p (by simp [hrun])
    omega
  · exact ⟨le_rfl, by decide⟩

theorem Fair.ticketsBefore (h : Fair s) (n : ℕ) :
    0 ≤ ticketsBefore s n ∧ ticketsBefore s n ≤ n * ticketCap := by
  induction n with
  | zero => simp [Procs.ticketsBefore]
  | succ n ih =>
    have hn := h.stake n
    rw [ticketsBefore_succ]
    push_cast
    constructor
    · omega
    · linarith

/-- While nobody sets more tickets than `ticketCap`, the total that the scheduler counts is the
exact number of tickets of the runnable processes, and a round holds a draw whenever there is a
runnable process. -/
theorem total_exact (hr : Reach (stepRel step) (fun _ e => Modest e) boot s) :
    (totals s).1 = ∑ p ∈ Finset.range nProc with (s.proc p).state = .runnable, (s.proc p).tickets ∧
      ((∃ p < nProc, (s.proc p).state = .runnable) → (draw s).isSome) := by
  have hinv : s.Sound ∧ Fair s := by
    apply hr.invariant (I := fun s => s.Sound ∧ Fair s)
    · exact ⟨boot_sound, boot_fair⟩
    · rintro a e c ⟨hs, hf⟩ hok hx
      exact ⟨step_sound hs hx, fair_step hs hf hok hx⟩
  have htotal : (totals s).1 = ticketsBefore s nProc := by
    apply totals_eq
    intro n hn
    have hb := hinv.2.ticketsBefore n
    have hcap : (n : ℤ) * ticketCap ≤ nProc * ticketCap :=
      mul_le_mul_of_nonneg_right (by exact_mod_cast hn) (by decide)
    have hmax : (nProc : ℤ) * ticketCap < 2 ^ 31 := by decide
    constructor <;> linarith
  constructor
  · rw [htotal, Finset.sum_filter]
    rfl
  · rintro ⟨p, hp, hrun⟩
    have hpos : 1 ≤ stake s p := by
      rw [stake, if_pos hrun]
      exact (hinv.2 p (by simp [hrun])).1
    have hsum : stake s p ≤ ticketsBefore s nProc :=
      Finset.single_le_sum (f := stake s) (fun q _ => (hinv.2.stake q).1) (Finset.mem_range.mpr hp)
    have hdraw : ¬ (totals s).1 < 1 := by
      rw [htotal]
      omega
    rw [draw, if_neg hdraw]
    rfl

/-- Process 0 sets its tickets, creates process 1, and yields. -/
def twoRunnable (n : ℤ) : List Event :=
  [.dispatch 0, .call 0 (.settickets n), .call 0 .fork, .run 0 true, .run 0 true, .run 0 true,
    .run 0 true, .yield 0]

theorem total_exact_ten : ∃ s, Reach (stepRel step) (fun _ e => Modest e) boot s ∧
    (s.proc 0).state = .runnable ∧ (s.proc 1).state = .runnable ∧ (s.proc 1).tickets = 10 ∧
    (draw s).isSome := by
  have hrun : (follow step (fun _ e => Modest e) boot (twoRunnable 10)).map
      (fun s => ((s.proc 0).state, (s.proc 1).state, (s.proc 1).tickets)) =
      some (.runnable, .runnable, 10) := by decide +kernel
  obtain ⟨s, hf, heq⟩ := Option.map_eq_some_iff.mp hrun
  simp only [Prod.mk.injEq] at heq
  have hr := reach_of_follow (twoRunnable 10) Reach.refl hf
  exact ⟨s, hr, heq.1, heq.2.1, heq.2.2, (total_exact hr).2 ⟨0, by decide, heq.1⟩⟩

/-- Two processes with `2^31 - 1` tickets each make the total negative, and no draw is held. -/
theorem total_overflows : ∃ s, Reach (stepRel step) (fun _ _ => True) boot s ∧
    (s.proc 0).state = .runnable ∧ (s.proc 1).state = .runnable ∧
    ticketsBefore s nProc = 2 ^ 32 - 2 ∧ (totals s).1 = -2 ∧ draw s = none := by
  have hrun : (follow step (fun _ _ => True) boot (twoRunnable (2 ^ 31 - 1))).map
      (fun s => ((s.proc 0).state, (s.proc 1).state, ticketsBefore s nProc, (totals s).1, draw s)) =
      some (.runnable, .runnable, 2 ^ 32 - 2, -2, none) := by decide +kernel
  obtain ⟨s, hf, heq⟩ := Option.map_eq_some_iff.mp hrun
  simp only [Prod.mk.injEq] at heq
  exact ⟨s, reach_of_follow _ Reach.refl hf, heq⟩

end Totals

section Histories

/-- For each entry of the process table, how often its process has been selected since it was
created or last called `exec` with success, and the tickets that it last set or inherited. -/
structure Accounts where
  selected : ℕ → ℕ
  due : ℕ → ℤ

def Accounts.note (s : System) (e : Event) (_ : System) (a : Accounts) : Accounts where
  selected i :=
    if e = .dispatch i then a.selected i + 1
    else if e = .call i (.exec .done) ∨ (bornBy s e i).isSome then 0
    else a.selected i
  due i := (ticketsBy s e i).getD (a.due i)

/-- The system after `userinit`, which gives the first process one ticket. -/
def bootAccounts : Traced System Accounts := ⟨boot, fun _ => 0, fun _ => 1⟩

/-- A new process takes an entry without ticks, `exec` does not fail after it has cleared the
ticks, and no count of ticks is at its largest value when its process is selected. -/
def Clean (s : System) : Event → Prop
  | .dispatch p => (s.proc p).ticks < 2 ^ 31 - 1
  | .call _ (.exec outcome) => outcome ≠ .failed
  | .run p given =>
    match s.pc p with
    | .alloc i => (bornBy s (.run p given) i).isSome → (s.proc i).ticks = 0
    | _ => True
  | _ => True

instance (s : System) (e : Event) : Decidable (Clean s e) := by
  unfold Clean
  split
  · infer_instance
  · infer_instance
  · split <;> infer_instance
  · infer_instance

variable {s t : System} {e : Event} {a : Accounts}

def Accounts.Right (s : System) (a : Accounts) : Prop :=
  ∀ i, (s.proc i).state ≠ .unused →
    (s.proc i).ticks = a.selected i ∧ (s.proc i).tickets = a.due i

theorem Clean.born {i p : ℕ} (h : Clean s e) (hb : bornBy s e i = some p) :
    (s.proc i).ticks = 0 := by
  obtain ⟨rfl, hpc⟩ := bornBy_event hb
  simp only [Clean, hpc, hb] at h
  exact h rfl

theorem Clean.selected {i n : ℕ} (h : Clean s (.dispatch i)) (hn : (s.proc i).ticks = n) :
    i32 ((s.proc i).ticks + 1) = ((n + 1 : ℕ) : ℤ) := by
  have hlt : (s.proc i).ticks < 2 ^ 31 - 1 := h
  rw [i32_eq (by omega) (by omega), hn]
  rfl

theorem accounts_step (hs : s.Sound) (h : a.Right s) (hok : Clean s e) (hx : step s e = .ok t) :
    (Accounts.note s e t a).Right t := by
  intro i hi
  constructor
  · rw [(step_accounts hx i).2]
    unfold Accounts.note
    dsimp only
    cases hb : bornBy s e i with
    | some p =>
      have hzero := hok.born hb
      obtain ⟨rfl, -⟩ := bornBy_event hb
      simp [hzero]
    | none =>
      have hold : (s.proc i).ticks = a.selected i := by
        rcases step_inuse hs hx hi with hold | ⟨p, hp⟩
        · exact (h i hold).1
        · rw [hb] at hp
          cases hp
      by_cases hdisp : e = .dispatch i
      · subst hdisp
        simpa using hok.selected hold
      · have hfailed : e ≠ .call i (.exec .failed) := by
          rintro rfl
          exact hok rfl
        by_cases hdone : e = .call i (.exec .done)
        · simp [hdone]
        · simp [hdisp, hfailed, hdone, hold]
  · rw [(step_accounts hx i).1]
    unfold Accounts.note
    dsimp only
    cases hnew : ticketsBy s e i with
    | some n => rfl
    | none => exact (h i (inuse_of_keep hs hx hi hnew)).2

theorem boot_accounts : bootAccounts.trace.Right bootAccounts.state := by
  apply (forall_update_iff (fun _ => Proc.zero) fun i x => x.state ≠ .unused →
    x.ticks = bootAccounts.trace.selected i ∧ x.tickets = bootAccounts.trace.due i).mpr
  exact ⟨fun _ => ⟨rfl, rfl⟩, fun i _ hi => absurd rfl hi⟩

/-- As long as new processes find entries without ticks, `exec` does not fail half-way, and no
count is full, what `pinfo` reports for an entry in use is how often its process has been selected
since it was created or last called `exec` with success, and the tickets that it last set or
inherited from its parent. -/
theorem accounts_right {h : Traced System Accounts}
    (hr : Reach (stepRel (traced step Accounts.note)) (fun h e => Clean h.state e) bootAccounts h)
    (i : ℕ) (hi : (pinfo h.state i).inuse = true) :
    (pinfo h.state i).ticks = h.trace.selected i ∧ (pinfo h.state i).tickets = h.trace.due i := by
  have hinv : h.state.Sound ∧ h.trace.Right h.state := by
    apply hr.invariant (I := fun h => h.state.Sound ∧ h.trace.Right h.state)
    · exact ⟨boot_sound, boot_accounts⟩
    · rintro b e c ⟨hs, hb⟩ hok hstep
      obtain ⟨hx, htrace⟩ := traced_ok hstep
      rw [htrace]
      exact ⟨step_sound hs hx, accounts_step hs hb hok hx⟩
  exact hinv.2 i (by simpa [pinfo] using hi)

def threeRuns : List Event := twoRunnable 10 ++ [.dispatch 0, .dispatch 1]

theorem accounts_right_threeRuns : ∃ h : Traced System Accounts,
    Reach (stepRel (traced step Accounts.note)) (fun h e => Clean h.state e) bootAccounts h ∧
    h.trace.selected 0 = 2 ∧ h.trace.selected 1 = 1 ∧ h.trace.due 1 = 10 ∧
    (pinfo h.state 1).ticks = h.trace.selected 1 ∧ (pinfo h.state 1).tickets = h.trace.due 1 := by
  have hrun : (follow (traced step Accounts.note) (fun h e => Clean h.state e) bootAccounts
      threeRuns).map (fun h => (h.trace.selected 0, h.trace.selected 1, h.trace.due 1,
        (pinfo h.state 1).inuse)) = some (2, 1, 10, true) := by decide +kernel
  obtain ⟨h, hf, heq⟩ := Option.map_eq_some_iff.mp hrun
  simp only [Prod.mk.injEq] at heq
  have hr := reach_of_follow threeRuns Reach.refl hf
  exact ⟨h, hr, heq.1, heq.2.1, heq.2.2.1, accounts_right hr 1 heq.2.2.2⟩

/-- Process 1 runs and exits, process 0 waits for it and creates another process. -/
def reuse : List Event :=
  [.dispatch 0, .call 0 .fork] ++ List.replicate 4 (.run 0 true) ++
    [.dispatch 1, .call 1 (.exit 0)] ++ List.replicate 132 (.run 1 true) ++
    [.call 0 .wait] ++ List.replicate 3 (.run 0 true) ++
    [.call 0 .fork] ++ List.replicate 4 (.run 0 true)

/-- The new process has not been selected yet, and is reported with a tick. -/
theorem reused_entry_keeps_ticks : ∃ h : Traced System Accounts,
    Reach (stepRel (traced step Accounts.note)) (fun _ _ => True) bootAccounts h ∧
    (h.state.proc 1).state = .runnable ∧ (pinfo h.state 1).inuse = true ∧
    (pinfo h.state 1).ticks = 1 ∧ h.trace.selected 1 = 0 := by
  have hrun : (follow (traced step Accounts.note) (fun _ _ => True) bootAccounts reuse).map
      (fun h => ((h.state.proc 1).state, (pinfo h.state 1).inuse, (pinfo h.state 1).ticks,
        h.trace.selected 1)) = some (.runnable, true, 1, 0) := by decide +kernel
  obtain ⟨h, hf, heq⟩ := Option.map_eq_some_iff.mp hrun
  simp only [Prod.mk.injEq] at heq
  exact ⟨h, reach_of_follow reuse Reach.refl hf, heq⟩

end Histories

end Xv6.Procs
