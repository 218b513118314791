import Xv6.Console.Model

/-!
# The line discipline of the console

What the console is for, without a buffer: a text that is being edited, the lines that were
committed, and how much of them was read. The ring buffer holds the committed bytes not yet read
and then the text, so that readers get the committed lines in order.
-/
namespace Xv6.Console

open Library List

/-- The lines committed so far, the text that can still be edited, how many committed bytes
were taken by readers, and the bytes that were copied to them. -/
structure Discipline where
  lines : List (List UInt8)
  edit : List UInt8
  consumed : ℕ
  delivered : List UInt8

namespace Discipline

def committed (g : Discipline) : List UInt8 := g.lines.flatten

def unread (g : Discipline) : List UInt8 := g.committed.drop g.consumed

def pending (g : Discipline) : ℕ := g.unread.length + g.edit.length

def type (g : Discipline) (c : UInt8) : Discipline :=
  if c = ctrl 'P' then g
  else if c = ctrl 'U' then { g with edit := [] }
  else if c = ctrl 'H' ∨ c = delete then { g with edit := g.edit.dropLast }
  else if c ≠ 0 ∧ g.pending < inputBufSize then
    let c := if c = carriageReturn then newline else c
    let edit := g.edit ++ [c]
    if c = newline ∨ c = ctrl 'D' ∨ g.pending + 1 = inputBufSize then
      { g with lines := g.lines ++ [edit], edit := [] }
    else { g with edit := edit }
  else g

/-- A reader takes the byte `c`, which is left for the next reader if `kept`. -/
def take (g : Discipline) (c : UInt8) (kept copied : Bool) : Discipline :=
  if c = ctrl 'D' then { g with consumed := if kept then g.consumed else g.consumed + 1 }
  else { g with
    consumed := g.consumed + 1
    delivered := if copied then g.delivered ++ [c] else g.delivered }

end Discipline

/-- What an event is to the discipline. -/
def note (s : State) (e : Event) (_ : State) (g : Discipline) : Discipline :=
  match e with
  | .input c => g.type c
  | .run p copied =>
    match s.thread p with
    | .loop target n =>
      if 0 < n ∧ s.cons.nread ≠ s.cons.w then g.take s.cons.next (n < target) copied else g
    | _ => g
  | _ => g

/-- The console before the first keystroke, with its three indices at `i`. -/
def start (buf : ℕ → UInt8) (i : ℕ) (killed : ℕ → Bool) : Traced State Discipline where
  state := ⟨{ data := buf, nread := i, nwrite := i, w := i }, none, fun _ => .idle, killed⟩
  trace := ⟨[], [], 0, []⟩

/-- The buffer holds what the discipline says. -/
structure Cons.Shows (s : Cons) (g : Discipline) : Prop where
  valid : s.Valid inputBufSize uintMod
  consumed_le : g.consumed ≤ g.committed.length
  contents_eq : s.contents inputBufSize uintMod = g.unread ++ g.edit
  w_eq : s.w = (s.nread + g.unread.length) % uintMod
  no_newline : newline ∉ g.edit

variable {s : Cons} {g : Discipline}

theorem dvd_uintMod : inputBufSize ∣ uintMod := by decide

theorem lt_uintMod : inputBufSize < uintMod := by decide

theorem offset_inj {r a b : ℕ} (ha : a ≤ inputBufSize) (hb : b ≤ inputBufSize)
    (h : (r + a) % uintMod = (r + b) % uintMod) : a = b := by
  have hmod : a % uintMod = b % uintMod := Nat.ModEq.add_left_cancel' r h
  have hlt := lt_uintMod
  rwa [Nat.mod_eq_of_lt (by omega), Nat.mod_eq_of_lt (by omega)] at hmod

namespace Cons.Shows

variable (h : s.Shows g)
include h

theorem count_eq : s.count uintMod = g.pending := by
  rw [← RingBuffer.length_contents, h.contents_eq, length_append]
  rfl

theorem pending_le : g.pending ≤ inputBufSize := by
  rw [← h.count_eq]
  exact h.valid.count_le

theorem nwrite_eq : s.nwrite = (s.nread + g.pending) % uintMod := by
  rw [← h.count_eq]
  exact RingBuffer.nwrite_eq h.valid

theorem edit_eq_nil : s.nwrite = s.w ↔ g.edit = [] := by
  have hle := h.pending_le
  rw [h.nwrite_eq, h.w_eq, ← length_eq_zero_iff]
  constructor
  · intro he
    have := offset_inj hle (by unfold Discipline.pending at hle; omega) he
    unfold Discipline.pending at this
    omega
  · intro he
    rw [Discipline.pending, he, Nat.add_zero]

/-- `cons.r == cons.w`: there is nothing to read. -/
theorem unread_eq_nil : s.nread = s.w ↔ g.unread = [] := by
  have hle := h.pending_le
  have hlt := h.valid.nread_lt
  rw [h.w_eq, ← length_eq_zero_iff]
  constructor
  · intro he
    apply offset_inj (r := s.nread) (by unfold Discipline.pending at hle; omega) (Nat.zero_le _)
    rw [← he, Nat.add_zero, Nat.mod_eq_of_lt hlt]
  · intro he
    rw [he, Nat.add_zero, Nat.mod_eq_of_lt hlt]

theorem count_ne_zero (hne : g.unread ++ g.edit ≠ []) : s.count uintMod ≠ 0 := by
  rw [h.count_eq, Discipline.pending, ← length_append]
  exact fun h0 => hne (length_eq_zero_iff.mp h0)

/-- The byte before `cons.e` is the last one of the text. -/
theorem contents_erase (hne : g.edit ≠ []) :
    s.last ∈ g.edit ∧ s.erase.contents inputBufSize uintMod = g.unread ++ g.edit.dropLast := by
  have hpos := h.count_ne_zero (by simp [hne])
  have hback := RingBuffer.contents_unput h.valid dvd_uintMod hpos
  rw [h.contents_eq, ← dropLast_concat_getLast hne, ← append_assoc] at hback
  obtain ⟨hinit, hlast⟩ := append_inj' hback rfl
  have heq : g.edit.getLast hne = s.last := (cons.inj hlast).1
  exact ⟨heq ▸ getLast_mem hne, hinit.symm⟩

theorem erase (hne : g.edit ≠ []) : s.erase.Shows { g with edit := g.edit.dropLast } := by
  have hpos := h.count_ne_zero (by simp [hne])
  constructor
  · exact h.valid.unput hpos
  · exact h.consumed_le
  · exact (h.contents_erase hne).2
  · rw [Cons.erase_nread, Cons.erase_w]
    exact h.w_eq
  · exact fun hm => h.no_newline (dropLast_subset _ hm)

omit h in
/-- The uncommitted text has no newline, so that `C('U')` erases all of it. -/
theorem killLine (fuel : ℕ) (h : s.Shows g) (hfuel : g.edit.length ≤ fuel) :
    (s.killLine fuel).Shows { g with edit := [] } := by
  induction fuel generalizing s g with
  | zero =>
    have hnil : g.edit = [] := length_eq_zero_iff.mp (by omega)
    rw [← hnil]
    exact h
  | succ fuel ih =>
    unfold Cons.killLine
    by_cases hnil : g.edit = []
    · rw [if_neg (fun hc => hc.1 (h.edit_eq_nil.mpr hnil)), ← hnil]
      exact h
    · have hmem := (h.contents_erase hnil).1
      rw [if_pos ⟨fun he => hnil (h.edit_eq_nil.mp he), fun he => h.no_newline (he ▸ hmem)⟩]
      apply ih (h.erase hnil)
      rw [length_dropLast]
      omega

theorem count_store (hlt : g.pending < inputBufSize) (c : UInt8) :
    (s.store c).count uintMod = g.pending + 1 := by
  have hcount := h.count_eq
  have hput := RingBuffer.count_put (b := c) h.valid lt_uintMod (by omega)
  rw [← hcount]
  exact hput

theorem store (hlt : g.pending < inputBufSize) {c : UInt8} (hc : c ≠ newline) :
    (s.store c).Shows { g with edit := g.edit ++ [c] } where
  valid := h.valid.put lt_uintMod (by rw [h.count_eq]; exact hlt)
  consumed_le := h.consumed_le
  contents_eq := by
    have hput := RingBuffer.contents_put (b := c) h.valid dvd_uintMod lt_uintMod
      (by rw [h.count_eq]; exact hlt)
    rw [h.contents_eq, append_assoc] at hput
    exact hput
  w_eq := h.w_eq
  no_newline := by
    rw [mem_append, mem_singleton]
    rintro (hm | he)
    · exact h.no_newline hm
    · exact hc he.symm

theorem commit (hlt : g.pending < inputBufSize) (c : UInt8) :
    (s.store c).commit.Shows { g with lines := g.lines ++ [g.edit ++ [c]], edit := [] } := by
  have hcount : s.count uintMod < inputBufSize := by rw [h.count_eq]; exact hlt
  have hput := RingBuffer.contents_put (b := c) h.valid dvd_uintMod lt_uintMod hcount
  have hvalid := h.valid.put (b := c) lt_uintMod hcount
  have hunread : Discipline.unread { g with lines := g.lines ++ [g.edit ++ [c]], edit := [] } =
      g.unread ++ (g.edit ++ [c]) := by
    simp only [Discipline.unread, Discipline.committed, flatten_append, flatten_singleton]
    exact drop_append_of_le_length h.consumed_le
  constructor
  · exact hvalid
  · have hle := h.consumed_le
    simp only [Discipline.committed, flatten_append, length_append] at hle ⊢
    omega
  · rw [hunread, append_nil, ← append_assoc, ← h.contents_eq]
    exact hput
  · rw [hunread]
    have hw := RingBuffer.nwrite_eq hvalid
    rw [RingBuffer.count_put h.valid lt_uintMod hcount, h.count_eq] at hw
    rw [length_append, length_append, length_singleton, ← Nat.add_assoc g.unread.length]
    exact hw
  · exact not_mem_nil

/-- `consoleintr` does what the discipline says. -/
theorem consoleintr (c : UInt8) : (s.consoleintr c).1.Shows (g.type c) := by
  unfold Cons.consoleintr Discipline.type
  by_cases hP : c = ctrl 'P'
  · rw [if_pos hP, if_pos hP]
    exact h
  rw [if_neg hP, if_neg hP]
  by_cases hU : c = ctrl 'U'
  · rw [if_pos hU, if_pos hU]
    apply h.killLine
    have := h.pending_le
    unfold Discipline.pending at this
    omega
  rw [if_neg hU, if_neg hU]
  by_cases hH : c = ctrl 'H' ∨ c = delete
  · rw [if_pos hH, if_pos hH]
    by_cases hnil : g.edit = []
    · rw [if_neg (not_not.mpr (h.edit_eq_nil.mpr hnil)), hnil, dropLast_nil, ← hnil]
      exact h
    · rw [if_pos (fun he => hnil (h.edit_eq_nil.mp he))]
      exact h.erase hnil
  rw [if_neg hH, if_neg hH, h.count_eq]
  by_cases hroom : c ≠ 0 ∧ g.pending < inputBufSize
  · rw [if_pos hroom, if_pos hroom]
    generalize (if c = carriageReturn then newline else c) = c'
    simp only [h.count_store hroom.2]
    by_cases hend : c' = newline ∨ c' = ctrl 'D' ∨ g.pending + 1 = inputBufSize
    · rw [if_pos hend, if_pos hend]
      exact h.commit hroom.2 c'
    · rw [if_neg hend, if_neg hend]
      exact h.store hroom.2 (fun he => hend (.inl he))
  · rw [if_neg hroom, if_neg hroom]
    exact h

/-- The byte at `cons.r` is the next committed one. -/
theorem unread_cons (hne : s.nread ≠ s.w) : g.unread = s.next :: g.committed.drop (g.consumed + 1) ∧
      s.advance.contents inputBufSize uintMod = g.committed.drop (g.consumed + 1) ++ g.edit := by
  have hunread : g.unread ≠ [] := fun he => hne (h.unread_eq_nil.mpr he)
  obtain ⟨c, rest, hcons⟩ := exists_cons_of_ne_nil hunread
  have hrest : rest = g.committed.drop (g.consumed + 1) := by
    rw [← tail_drop, show g.committed.drop g.consumed = c :: rest from hcons, tail_cons]
  have hdrop := RingBuffer.contents_drop h.valid dvd_uintMod (h.count_ne_zero (by simp [hunread]))
  rw [h.contents_eq, hcons, cons_append, cons.injEq, hrest] at hdrop
  rw [hcons, hrest, hdrop.1]
  exact ⟨rfl, hdrop.2.symm⟩

theorem advance (hne : s.nread ≠ s.w) (out : List UInt8) :
    s.advance.Shows { g with consumed := g.consumed + 1, delivered := out } := by
  obtain ⟨hunread, hcontents⟩ := h.unread_cons hne
  have hlength := congrArg length hunread
  rw [length_cons, length_drop] at hlength
  have hpos := h.count_ne_zero (by simp [hunread])
  constructor
  · exact h.valid.drop hpos
  · have hlen : g.unread.length = g.committed.length - g.consumed := length_drop
    change g.consumed + 1 ≤ g.committed.length
    omega
  · exact hcontents
  · change s.w = ((s.nread + 1) % uintMod + (g.committed.drop (g.consumed + 1)).length) % uintMod
    rw [h.w_eq, hlength, Nat.mod_add_mod, length_drop]
    congr 1
    omega
  · exact h.no_newline

theorem retreat_advance : s.advance.retreat = s := by
  unfold Cons.advance Cons.retreat Cons.setRing
  simp only [RingBuffer.undrop_drop h.valid]

theorem take_succ (hne : s.nread ≠ s.w) :
    g.committed.take (g.consumed + 1) = g.committed.take g.consumed ++ [s.next] := by
  have hunread := (h.unread_cons hne).1
  have hget : g.committed[g.consumed]? = some s.next := by
    rw [← head?_drop, show g.committed.drop g.consumed = _ from hunread, head?_cons]
  rw [take_add_one, hget, Option.toList_some]

end Cons.Shows

/-- What readers got is what was committed, as far as it was taken, without control-D. -/
def Discipline.Fair (g : Discipline) : Prop :=
  g.delivered = (g.committed.take g.consumed).filter (· ≠ ctrl 'D')

/-- A state whose buffer holds what the discipline says, and whose readers got their due. -/
structure Sound (h : Traced State Discipline) : Prop where
  shows : h.state.cons.Shows h.trace
  fair : h.trace.Fair

theorem start_sound (buf : ℕ → UInt8) {i : ℕ} (hi : i < uintMod) (killed : ℕ → Bool) :
    Sound (start buf i killed) := by
  have hcount : (start buf i killed).state.cons.count uintMod = 0 := by
    rw [RingBuffer.count, show (start buf i killed).state.cons.nwrite = i from rfl,
      show (start buf i killed).state.cons.nread = i from rfl,
      show i + (uintMod - i) = uintMod by omega, Nat.mod_self]
  constructor
  · constructor
    · exact ⟨hi, hi, hcount ▸ Nat.zero_le _⟩
    · exact Nat.le_refl 0
    · rw [RingBuffer.contents, hcount]
      rfl
    · exact (Nat.mod_eq_of_lt hi).symm
    · exact not_mem_nil
  · rfl

theorem Discipline.type_lines (g : Discipline) (c : UInt8) :
    g.lines <+: (g.type c).lines ∧ (g.type c).consumed = g.consumed ∧
      (g.type c).delivered = g.delivered := by
  unfold Discipline.type
  dsimp only
  split_ifs
  all_goals simp

theorem Discipline.Fair.type {g : Discipline} (h : g.Fair) (hle : g.consumed ≤ g.committed.length)
    (c : UInt8) : (g.type c).Fair := by
  obtain ⟨⟨new, hlines⟩, hconsumed, hdelivered⟩ := g.type_lines c
  unfold Discipline.committed at hle
  unfold Discipline.Fair Discipline.committed
  rw [hdelivered, hconsumed, ← hlines, flatten_append, take_append_of_le_length hle]
  exact h

/-- A reader takes a byte and does with it what `deliver` does. -/
theorem deliver_sound {s : State} {g : Discipline} (hshows : s.cons.Shows g) (hfair : g.Fair)
    (hne : s.cons.nread ≠ s.cons.w) (p : ℕ) (target n : ℤ) :
    Sound ⟨deliver { s with cons := s.cons.advance } p target n true s.cons.next,
      g.take s.cons.next (n < target) true⟩ := by
  have htake := hshows.take_succ hne
  have hadvance := hshows.advance hne
  unfold deliver Discipline.take
  by_cases hD : s.cons.next = ctrl 'D'
  · rw [if_pos hD, if_pos hD]
    by_cases hn : n < target
    · simp only [hn, if_true, decide_true]
      constructor
      · change s.cons.advance.retreat.Shows g
        rw [hshows.retreat_advance]
        exact hshows
      · exact hfair
    · simp only [hn, if_false, decide_false]
      constructor
      · exact hadvance g.delivered
      · change g.delivered = (g.committed.take (g.consumed + 1)).filter (· ≠ ctrl 'D')
        rw [htake, filter_append, ← hfair]
        simp [hD]
  · rw [if_neg hD, if_neg hD]
    simp only [if_true]
    constructor
    · have hkeep : ∀ t : State, t.cons = s.cons.advance →
          t.cons.Shows { g with
            consumed := g.consumed + 1, delivered := g.delivered ++ [s.cons.next] } := by
        intro t ht
        rw [ht]
        exact hadvance _
      apply hkeep
      split_ifs <;> rfl
    · change g.delivered ++ [s.cons.next] =
        (g.committed.take (g.consumed + 1)).filter (· ≠ ctrl 'D')
      rw [htake, filter_append, ← hfair]
      simp [hD]

theorem step_sound {h h' : Traced State Discipline} {e : Event} (hs : Sound h) (hv : e.Valid)
    (hx : traced step note h e = .ok h') : Sound h' := by
  obtain ⟨hstep, hnote⟩ := traced_ok hx
  obtain ⟨s', g'⟩ := h'
  obtain ⟨s, g⟩ := h
  simp only at hstep hnote
  subst hnote
  have hkeep : s'.cons = s.cons → note s e s' g = g → Sound ⟨s', note s e s' g⟩ := by
    intro hc hg
    rw [hg]
    exact ⟨hc ▸ hs.shows, hs.fair⟩
  cases e with
  | input c =>
    simp only [step] at hstep
    by_cases hfree : s.lock = none
    · rw [if_pos hfree] at hstep
      cases hstep
      exact ⟨hs.shows.consoleintr c, hs.fair.type hs.shows.consumed_le c⟩
    · rw [if_neg hfree] at hstep
      cases hstep
  | read p n =>
    simp only [step] at hstep
    split_ifs at hstep
    cases hstep
    exact hkeep rfl rfl
  | run p copied =>
    obtain rfl : copied = true := hv
    simp only [step] at hstep
    cases hp : s.thread p with
    | acquire target n =>
      rw [hp] at hstep
      simp only at hstep
      split_ifs at hstep
      cases hstep
      exact hkeep rfl (by simp only [note, hp])
    | loop target n =>
      rw [hp] at hstep
      cases hstep
      by_cases htake : 0 < n ∧ s.cons.nread ≠ s.cons.w
      · simp only [note, hp, if_pos htake]
        rw [round, if_pos htake.1, if_neg htake.2]
        exact deliver_sound hs.shows hs.fair htake.2 p target n
      · apply hkeep
        · unfold round
          split_ifs with h1 h2 h3
          · rfl
          · rfl
          · exact absurd ⟨h1, h2⟩ htake
          · rfl
        · simp only [note, hp, if_neg htake]
    | idle =>
      rw [hp] at hstep
      cases hstep
    | sleep target n =>
      rw [hp] at hstep
      cases hstep
    | returned r =>
      rw [hp] at hstep
      cases hstep
  | kill p =>
    cases hstep
    exact hkeep rfl rfl

theorem step_lines {h h' : Traced State Discipline} {e : Event}
    (hx : traced step note h e = .ok h') : h.trace.lines <+: h'.trace.lines := by
  rw [(traced_ok hx).2]
  unfold note
  cases e with
  | input c => exact (h.trace.type_lines c).1
  | read p n => exact prefix_refl _
  | run p copied =>
    dsimp only
    unfold Discipline.take
    repeat' split
    all_goals exact prefix_refl _
  | kill p => exact prefix_refl _

/-- In any interleaving of keystrokes and readers, also where the indices wrap around, the
bytes copied to readers are the committed lines in order, as far as they were taken and without
control-D, and the buffer holds the rest and the text. A committed line stays, a reader that
comes to a control-D returns at once without a byte, and `w - r <= e - r <= INPUT_BUF_SIZE`. -/
theorem line_discipline {buf : ℕ → UInt8} {i : ℕ} {killed : ℕ → Bool}
    {h : Traced State Discipline} (hi : i < uintMod)
    (hr : Reach (stepRel (traced step note)) (fun _ e => e.Valid) (start buf i killed) h) :
    (h.trace.delivered = (h.trace.committed.take h.trace.consumed).filter (· ≠ ctrl 'D') ∧
      h.state.cons.contents inputBufSize uintMod =
        h.trace.committed.drop h.trace.consumed ++ h.trace.edit) ∧
    (∀ e h', traced step note h e = .ok h' → h.trace.lines <+: h'.trace.lines) ∧
    (∀ p target n, h.state.thread p = .loop target n → 0 < n →
      h.state.cons.nread ≠ h.state.cons.w → h.state.cons.next = ctrl 'D' →
      ∃ h', traced step note h (.run p true) = .ok h' ∧
        h'.state.thread p = .returned (target - n) ∧ h'.trace.delivered = h.trace.delivered ∧
        h'.trace.consumed = h.trace.consumed + if n < target then 0 else 1) ∧
    (h.state.cons.w + (uintMod - h.state.cons.nread)) % uintMod ≤
      (h.state.cons.nwrite + (uintMod - h.state.cons.nread)) % uintMod ∧
    (h.state.cons.nwrite + (uintMod - h.state.cons.nread)) % uintMod ≤ inputBufSize := by
  have hs : Sound h := hr.invariant (start_sound buf hi killed) fun _ _ _ => step_sound
  have hlt := hs.shows.valid.nread_lt
  have hle := hs.shows.pending_le
  have hcap := lt_uintMod
  have hcount : (h.state.cons.nwrite + (uintMod - h.state.cons.nread)) % uintMod =
      h.trace.pending := hs.shows.count_eq
  have hunread : h.trace.unread.length ≤ h.trace.pending := Nat.le_add_right _ _
  have hw : (h.state.cons.w + (uintMod - h.state.cons.nread)) % uintMod =
      h.trace.unread.length := by
    rw [hs.shows.w_eq, Nat.mod_add_mod,
      show h.state.cons.nread + h.trace.unread.length + (uintMod - h.state.cons.nread) =
        h.trace.unread.length + uintMod by omega, Nat.add_mod_right]
    exact Nat.mod_eq_of_lt (by omega)
  refine ⟨⟨hs.fair, hs.shows.contents_eq⟩, fun e h' => step_lines, ?_, ?_, ?_⟩
  · intro p target n hp hn hne hD
    refine ⟨_, by simp only [traced, step, hp]; rfl, ?_, ?_, ?_⟩
    · simp [round, hn, hne, deliver, hD, State.setThread, State.release]
    · simp [note, hp, hn, hne, hD, Discipline.take]
    · by_cases hless : n < target <;> simp [note, hp, hn, hne, hD, Discipline.take, hless]
  · rw [hw, hcount]
    exact hunread
  · rw [hcount]
    exact hle

/-- A reader waits; `ab`, a backspace, `c`, a return and a control-D are typed, and it reads the
line. A second read meets the control-D. -/
def corrected : List Event :=
  [.read 0 8, .run 0 true, .run 0 true, .input 97, .input 98, .input 8, .input 99, .input 13,
    .input 4, .run 0 true, .run 0 true, .run 0 true, .run 0 true, .read 0 8, .run 0 true]

/-- The line is read while the indices wrap around. -/
theorem line_discipline_corrected :
    ∃ h, Reach (stepRel (traced step note)) (fun _ e => e.Valid)
        (start (fun _ => 0) (2 ^ 32 - 2) fun _ => false) h ∧
      h.trace.lines = [[97, 99, 10], [4]] ∧ h.state.cons.nread = 1 ∧
      h.trace.delivered = (h.trace.committed.take h.trace.consumed).filter (· ≠ ctrl 'D') ∧
      ∃ h', traced step note h (.run 0 true) = .ok h' ∧ h'.state.thread 0 = .returned 0 := by
  have hfollow : (follow (traced step note) (fun _ e => e.Valid)
      (start (fun _ => 0) (2 ^ 32 - 2) fun _ => false) corrected).map
        (fun h => (h.trace.lines, h.state.cons.nread, h.state.thread 0,
          decide (h.state.cons.nread ≠ h.state.cons.w), h.state.cons.next)) =
      some ([[97, 99, 10], [4]], 1, .loop 8 8, true, 4) := by
    decide +kernel
  obtain ⟨h, hrun, heq⟩ := Option.map_eq_some_iff.mp hfollow
  simp only [Prod.mk.injEq, decide_eq_true_eq] at heq
  obtain ⟨hlines, hread, hloop, hne, hnext⟩ := heq
  have hreach := reach_of_follow corrected Reach.refl hrun
  obtain ⟨⟨hdelivered, -⟩, -, hend, -⟩ := line_discipline (by decide) hreach
  obtain ⟨h', hstep, hreturned, -⟩ := hend 0 8 8 hloop (by decide) hne (hnext.trans (by decide))
  exact ⟨h, hreach, hlines, hread, hdelivered, h', hstep, hreturned⟩

end Xv6.Console
