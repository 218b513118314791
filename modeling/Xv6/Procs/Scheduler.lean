import Xv6.Procs.Table

/-!
# The lottery

A round of `scheduler` counts the tickets of the runnable processes, draws a number, and goes
through the process table until the tickets counted so far reach that number. It keeps counting
after the process that it found has run, with the tickets that this process has then.
-/
namespace Xv6.Procs

open Vm (i32)

def nRounds : ℕ := 10

/-- One iteration of the loop of `random`; the remainder has the sign of the dividend. -/
def randomNext (xn : ℤ) : ℤ := (i32 (i32 (1103515245 * xn) + 12345)).tmod 32768

/-- `random`, as a `uint`. -/
def random (seed : ℤ) : ℤ := (randomNext^[nRounds] seed) % 2 ^ 32

def randomrange (seed lo hi : ℤ) : ℤ :=
  let bounds := if hi < lo then (hi, lo) else (lo, hi)
  let range := i32 (bounds.2 - bounds.1 + 1)
  i32 (random seed % (range % 2 ^ 32) + bounds.1)

/-- One iteration of the loop that counts; the counts are of type `int`. -/
def countAt (s : System) (total : ℤ × ℤ) (p : ℕ) : ℤ × ℤ :=
  (if (s.proc p).state = .runnable then i32 (total.1 + (s.proc p).tickets) else total.1,
    i32 (total.2 + (s.proc p).ticks))

/-- `total_tickets` and `total_ticks`. -/
def totals (s : System) : ℤ × ℤ := (List.range nProc).foldl (countAt s) (0, 0)

def draw (s : System) : Option ℤ :=
  if (totals s).1 < 1 then none
  else some (randomrange (i32 ((totals s).1 + (totals s).2)) 1 (totals s).1)

/-- The loop that selects a process, over the entries that are left. `run p` is what happens to
the system from the switch to process `p` until it switches back. The result names the processes
that were selected. -/
def select (run : ℕ → System → System) : List ℕ → ℤ → System → List ℕ × System
  | [], _, s => ([], s)
  | p :: ps, random, s =>
    if random > 0 then
      if (s.proc p).state = .runnable then
        if random ≤ (s.proc p).tickets then
          let t := run p (dispatch s p)
          let rest := select run ps (i32 (random - (t.proc p).tickets)) t
          (p :: rest.1, rest.2)
        else select run ps (i32 (random - (s.proc p).tickets)) s
      else select run ps random s
    else ([], s)

def stake (s : System) (p : ℕ) : ℤ := if (s.proc p).state = .runnable then (s.proc p).tickets else 0

def ticketsBefore (s : System) (n : ℕ) : ℤ := ∑ p ∈ Finset.range n, stake s p

/-- The process on whose tickets the number `r` falls. -/
structure Wins (s : System) (r : ℤ) (p : ℕ) : Prop where
  lt : p < nProc
  runnable : (s.proc p).state = .runnable
  before : ticketsBefore s p < r
  upto : r ≤ ticketsBefore s p + (s.proc p).tickets

section Arithmetic

theorem i32_eq {z : ℤ} (hlo : -2 ^ 31 ≤ z) (hhi : z < 2 ^ 31) : i32 z = z := by
  unfold i32
  omega

theorem i32_range (z : ℤ) : -2 ^ 31 ≤ i32 z ∧ i32 z < 2 ^ 31 := by
  unfold i32
  omega

/-- The draw counts from the smaller bound, whichever of the two comes first. -/
theorem randomrange_eq (seed : ℤ) {lo hi : ℤ} (hlo : -2 ^ 31 ≤ lo ∧ lo < 2 ^ 31)
    (hhi : -2 ^ 31 ≤ hi ∧ hi < 2 ^ 31) (h : |hi - lo| + 1 < 2 ^ 31) :
    randomrange seed lo hi = random seed % (|hi - lo| + 1) + min lo hi := by
  have hbounds : (if hi < lo then (hi, lo) else (lo, hi)) = (min lo hi, max lo hi) := by
    split_ifs with hlt
    · rw [min_eq_right hlt.le, max_eq_left hlt.le]
    · rw [min_eq_left (not_lt.mp hlt), max_eq_right (not_lt.mp hlt)]
  have hdiff : max lo hi - min lo hi = |hi - lo| := max_sub_min_eq_abs lo hi
  have habs := abs_nonneg (hi - lo)
  have hrange : i32 (|hi - lo| + 1) = |hi - lo| + 1 := i32_eq (by omega) h
  have hmod : (|hi - lo| + 1) % 2 ^ 32 = |hi - lo| + 1 := Int.emod_eq_of_lt (by omega) (by omega)
  have hnonneg := Int.emod_nonneg (random seed) (show |hi - lo| + 1 ≠ 0 by omega)
  have hlt := Int.emod_lt_of_pos (random seed) (show 0 < |hi - lo| + 1 by omega)
  simp only [randomrange, hbounds, hdiff, hrange, hmod]
  exact i32_eq (by omega) (by omega)

theorem randomrange_between (seed : ℤ) {lo hi : ℤ} (hlo : -2 ^ 31 ≤ lo ∧ lo < 2 ^ 31)
    (hhi : -2 ^ 31 ≤ hi ∧ hi < 2 ^ 31) (h : |hi - lo| + 1 < 2 ^ 31) :
    min lo hi ≤ randomrange seed lo hi ∧ randomrange seed lo hi ≤ max lo hi := by
  have hdiff : max lo hi - min lo hi = |hi - lo| := max_sub_min_eq_abs lo hi
  have habs := abs_nonneg (hi - lo)
  have hnonneg := Int.emod_nonneg (random seed) (show |hi - lo| + 1 ≠ 0 by omega)
  have hlt := Int.emod_lt_of_pos (random seed) (show 0 < |hi - lo| + 1 by omega)
  rw [randomrange_eq seed hlo hhi h]
  omega

end Arithmetic

section Counting

variable {s : System}

theorem ticketsBefore_succ (s : System) (n : ℕ) :
    ticketsBefore s (n + 1) = ticketsBefore s n + stake s n :=
  Finset.sum_range_succ _ _

theorem countAt_range (total : ℤ × ℤ) (p : ℕ)
    (h : -2 ^ 31 ≤ total.1 ∧ total.1 < 2 ^ 31) :
    -2 ^ 31 ≤ (countAt s total p).1 ∧ (countAt s total p).1 < 2 ^ 31 := by
  unfold countAt
  dsimp only
  split_ifs
  · exact i32_range _
  · exact h

theorem totals_range (s : System) : -2 ^ 31 ≤ (totals s).1 ∧ (totals s).1 < 2 ^ 31 := by
  unfold totals
  generalize List.range nProc = ps
  induction ps using List.reverseRecOn with
  | nil => simp
  | append_singleton ps p ih =>
    rw [List.foldl_append]
    exact countAt_range _ p ih

/-- The loop counts right as long as no sum on the way leaves the range of `int`. -/
theorem totals_eq (h : ∀ n, n ≤ nProc → -2 ^ 31 ≤ ticketsBefore s n ∧ ticketsBefore s n < 2 ^ 31) :
    (totals s).1 = ticketsBefore s nProc := by
  have hpartial : ∀ n, n ≤ nProc →
      ((List.range n).foldl (countAt s) (0, 0)).1 = ticketsBefore s n := by
    intro n
    induction n with
    | zero => intro _; simp [ticketsBefore]
    | succ n ih =>
      intro hn
      have hnext := h (n + 1) hn
      rw [ticketsBefore_succ] at hnext ⊢
      rw [List.range_succ, List.foldl_append]
      have hcount := ih (by omega)
      simp only [List.foldl_cons, List.foldl_nil, countAt, hcount]
      unfold stake at hnext ⊢
      split_ifs at hnext ⊢ with hrun
      · exact i32_eq hnext.1 hnext.2
      · simp
  exact hpartial nProc le_rfl

end Counting

section Selection

variable {s : System} {r : ℤ}

def Solvent (s : System) : Prop :=
  ∀ p, p < nProc → (s.proc p).state = .runnable → 0 ≤ (s.proc p).tickets

theorem Solvent.stake_nonneg (h : Solvent s) {p : ℕ} (hp : p < nProc) : 0 ≤ stake s p := by
  unfold stake
  split_ifs with hrun
  · exact h p hp hrun
  · exact le_rfl

theorem Solvent.mono (h : Solvent s) {m n : ℕ} (hmn : m ≤ n) (hn : n ≤ nProc) :
    ticketsBefore s m ≤ ticketsBefore s n := by
  induction n, hmn using Nat.le_induction with
  | base => exact le_rfl
  | succ n hmn ih =>
    have hstake := h.stake_nonneg (show n < nProc by omega)
    rw [ticketsBefore_succ]
    have := ih (by omega)
    omega

theorem exists_wins (hr : 1 ≤ r) : ∀ n, n ≤ nProc → r ≤ ticketsBefore s n → ∃ p, p < n ∧
    Wins s r p := by
  intro n
  induction n with
  | zero =>
    intro _ hsum
    simp only [ticketsBefore, Finset.range_zero, Finset.sum_empty] at hsum
    omega
  | succ n ih =>
    intro hn hsum
    by_cases hle : r ≤ ticketsBefore s n
    · obtain ⟨p, hp, hw⟩ := ih (by omega) hle
      exact ⟨p, by omega, hw⟩
    · rw [ticketsBefore_succ, stake] at hsum
      split_ifs at hsum with hrun
      · exact ⟨n, by omega, by omega, hrun, by omega, hsum⟩
      · omega

theorem Wins.unique (h : Solvent s) {p q : ℕ} (hp : Wins s r p) (hq : Wins s r q) : p = q := by
  have hbetween : ∀ {a b : ℕ}, Wins s r a → Wins s r b → ¬ a < b := by
    intro a b ha hb hlt
    have hmono := h.mono (show a + 1 ≤ b from hlt) hb.lt.le
    have hupto := ha.upto
    have hbefore := hb.before
    rw [ticketsBefore_succ, stake, if_pos ha.runnable] at hmono
    omega
  have h1 := hbetween hp hq
  have h2 := hbetween hq hp
  omega

/-- The loop passes over the entries before the winner. -/
theorem select_skip (run : ℕ → System → System) (h : Solvent s) {w : ℕ} (hw : Wins s r w)
    (hr : r < 2 ^ 31) : ∀ n ≤ w, ∀ ps,
    select run (List.range n ++ ps) r s = select run ps (r - ticketsBefore s n) s := by
  intro n
  induction n with
  | zero => intro _ ps; simp [ticketsBefore]
  | succ n ih =>
    intro hn ps
    have hlt : n < nProc := by have := hw.lt; omega
    have hmono := h.mono hn hw.lt.le
    have hzero := h.mono (Nat.zero_le n) hlt.le
    have hstake := h.stake_nonneg hlt
    have hbefore := hw.before
    rw [ticketsBefore_succ] at hmono ⊢
    rw [List.range_succ, List.append_assoc, ih (by omega)]
    simp only [ticketsBefore, Finset.range_zero, Finset.sum_empty] at hzero
    change 0 ≤ ticketsBefore s n at hzero
    have hpos : r - ticketsBefore s n > 0 := by omega
    unfold stake at hmono hstake ⊢
    simp only [List.singleton_append, select, hpos, if_true]
    split_ifs at hmono hstake ⊢ with hrun hle
    · omega
    · rw [i32_eq (by omega) (by omega), sub_sub]
    · simp

/-- What is left to count after process `p` has been selected and has run. -/
def remaining (run : ℕ → System → System) (s : System) (r : ℤ) (p : ℕ) : ℤ :=
  i32 (r - ticketsBefore s p - ((run p (dispatch s p)).proc p).tickets)

/-- The tickets of the runnable processes after entry `p`. -/
def ticketsAfter (s : System) (p : ℕ) : ℤ := ticketsBefore s nProc - ticketsBefore s (p + 1)

theorem select_winner (run : ℕ → System → System) {w : ℕ} {ps : List ℕ} (hw : Wins s r w) :
    (select run (w :: ps) (r - ticketsBefore s w) s).1 =
      w :: (select run ps (remaining run s r w) (run w (dispatch s w))).1 := by
  have hbefore := hw.before
  have hupto := hw.upto
  have hpos : r - ticketsBefore s w > 0 := by omega
  have hsel : r - ticketsBefore s w ≤ (s.proc w).tickets := by omega
  simp only [select, hpos, hw.runnable, hsel, if_true, remaining]

/-- The rest of the loop selects nobody just if nothing is left to count, or more than there are
tickets. -/
theorem select_eq_nil (run : ℕ → System → System) (h : Solvent s) (k : ℕ) : ∀ n, n + k = nProc →
    ∀ r < 2 ^ 31, ((select run (List.range' n k) r s).1 = [] ↔
      r ≤ 0 ∨ ticketsBefore s nProc - ticketsBefore s n < r) := by
  induction k with
  | zero =>
    rintro n rfl r -
    simp only [List.range'_zero, select, true_iff]
    omega
  | succ k ih =>
    intro n hn r hr
    have hmono := h.mono (show n + 1 ≤ nProc by omega) le_rfl
    have hstake := h.stake_nonneg (show n < nProc by omega)
    have hnext := ih (n + 1) (by omega)
    rw [ticketsBefore_succ] at hmono hnext
    simp only [List.range'_succ, select]
    by_cases hpos : r > 0
    · rw [if_pos hpos]
      unfold stake at hmono hstake hnext
      split_ifs at hmono hstake hnext ⊢ with hrun hle
      · simp only [false_iff]
        omega
      · rw [i32_eq (by omega) (by omega), hnext _ (by omega)]
        omega
      · rw [hnext r hr, add_zero]
    · rw [if_neg hpos]
      simp only [true_iff]
      omega

theorem range_split {p n : ℕ} (h : p < n) :
    List.range n = List.range p ++ p :: List.range' (p + 1) (n - p - 1) := by
  obtain ⟨m, rfl⟩ : ∃ m, n = p + (m + 1) := ⟨n - p - 1, by omega⟩
  rw [show p + (m + 1) - p - 1 = m by omega, List.range_eq_range', List.range_eq_range',
    ← List.range'_succ, ← List.range'_append_1, Nat.zero_add]

end Selection

/-- If the tickets of the runnable processes add up to `total_tickets`, every number drawn from
them falls on the tickets of one process, and the loop selects that process first, whatever happens
while it runs. It selects no other just if what is left to count then, with the tickets that the
process has come back with, is not positive or more than the tickets of the processes after it. -/
theorem one_winner (s : System) (run : ℕ → System → System) (r : ℤ)
    (hsum : (totals s).1 = ticketsBefore s nProc) (hr : 1 ≤ r ∧ r ≤ (totals s).1)
    (hsolvent : Solvent s) (hback : ∀ p, Wins s r p → Solvent (run p (dispatch s p))) :
    ∃ p, Wins s r p ∧ (∀ q, Wins s r q → q = p) ∧
      (select run (List.range nProc) r s).1.head? = some p ∧
      ((select run (List.range nProc) r s).1 = [p] ↔ remaining run s r p ≤ 0 ∨
        ticketsAfter (run p (dispatch s p)) p < remaining run s r p) := by
  obtain ⟨p, -, hp⟩ := exists_wins (s := s) hr.1 nProc le_rfl (hsum ▸ hr.2)
  have hint := (totals_range s).2
  have hlt := hp.lt
  have hloop : (select run (List.range nProc) r s).1 = p :: (select run
      (List.range' (p + 1) (nProc - p - 1)) (remaining run s r p) (run p (dispatch s p))).1 := by
    rw [range_split hp.lt, select_skip run hsolvent hp (by omega) p le_rfl, select_winner run hp]
  refine ⟨p, hp, fun q hq => hq.unique hsolvent hp, by simp [hloop], ?_⟩
  rw [hloop, List.cons.injEq, eq_self_iff_true, true_and]
  exact select_eq_nil run (hback p hp) _ (p + 1) (by omega) _ (i32_range _).2

/-- What a process does while it runs, given as events of its own. -/
def doing (events : ℕ → List Event) (p : ℕ) (s : System) : System :=
  (events p).foldl (fun s e => (step s e).toOption.getD s) s

def duel : System :=
  { boot with proc := fun p => if p < 2 then { Proc.zero with state := .runnable, tickets := 10 }
                               else Proc.zero }

theorem duel_total : (totals duel).1 = ticketsBefore duel nProc ∧ (totals duel).1 = 20 := by
  decide +kernel

/-- The second process is selected, sets its tickets to 1 and yields. Nobody comes after it. -/
theorem one_winner_last : Wins duel 15 1 ∧
    (select (doing fun p => [.call p (.settickets 1), .yield p]) (List.range nProc) 15 duel).1 =
      [1] := by
  have hwins : Wins duel 15 1 := ⟨by decide, by decide, by decide, by decide⟩
  have hsolvent : Solvent duel := by
    unfold Solvent
    decide +kernel
  obtain ⟨p, -, hunique, -, hone⟩ := one_winner duel
    (doing fun p => [.call p (.settickets 1), .yield p]) 15 duel_total.1
    (by rw [duel_total.2]; decide) hsolvent (fun p hp => by
      rw [hp.unique hsolvent hwins]
      unfold Solvent
      decide +kernel)
  obtain rfl := hunique 1 hwins
  exact ⟨hwins, hone.mpr (.inr (by decide +kernel))⟩

/-- The first process is selected, sets its tickets to 1 and yields; the second is selected in the
same round. -/
theorem two_winners : (totals duel).1 = ticketsBefore duel nProc ∧ (totals duel).1 = 20 ∧
    Wins duel 5 0 ∧
    (select (doing fun p => [.call p (.settickets 1), .yield p]) (List.range nProc) 5 duel).1 =
      [0, 1] := by
  refine ⟨duel_total.1, duel_total.2, ⟨by decide, by decide, by decide, by decide⟩, ?_⟩
  decide +kernel

end Xv6.Procs
