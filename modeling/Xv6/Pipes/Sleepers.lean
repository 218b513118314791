import Xv6.Pipes.Fifo

/-!
# Who sleeps on a pipe

A thread that leaves the buffer less empty, or less full, than it found it must wake up those who
sleep for that before it gives the lock back. `piperead` always does. `pipewrite` returns without
waking up the readers when its process is killed, also after it has stored bytes.
-/
namespace Xv6.Pipes

open Library State List Option

def State.ReaderSleeps (s : State) : Prop := ∃ p i n, s.thread p = .piperead i n .sleep

def State.WriterSleeps (s : State) : Prop := ∃ p i n, s.thread p = .pipewrite i n .sleep

/-- Readers sleep only while there is nothing to read and something may come. -/
def State.ReadersRest (s : State) : Prop :=
  s.ReaderSleeps → s.pipe.nread = s.pipe.nwrite ∧ s.pipe.writeopen = true

/-- Writers sleep only while there is no room and some may be made. -/
def State.WritersRest (s : State) : Prop :=
  s.WriterSleeps → s.pipe.Full ∧ s.pipe.readopen = true

/-- The thread is in the loop of `pipewrite`, with the lock. -/
def Thread.MidWrite : Thread → Prop
  | .pipewrite _ _ .loop | .pipewrite _ _ .copyin | .pipewrite _ _ (.store _) => True
  | _ => False

instance (t : Thread) : Decidable t.MidWrite := by
  unfold Thread.MidWrite
  split <;> infer_instance

def Thread.Storing : Thread → Prop
  | .pipewrite _ _ .copyin | .pipewrite _ _ (.store _) => True
  | _ => False

/-- The thread is past the loop of `piperead` that waits, with the lock. -/
def Thread.Copying : Thread → Prop
  | .piperead _ _ .loop | .piperead _ _ .take | .piperead _ _ (.copyout _)
  | .piperead _ _ .finish => True
  | _ => False

/-- The thread will wake up the readers before it gives the lock back. -/
def State.WakesReaders (s : State) (q : ℕ) : Prop :=
  (∃ i n, s.thread q = .pipewrite i n .finish) ∨
    ((s.thread q).MidWrite ∧ s.killed q = false ∧ s.pipe.readopen = true)

/-- Whoever sleeps without a reason is about to be woken up by the holder of the lock. -/
structure State.Rested (s : State) : Prop where
  readers : s.ReadersRest ∨ ∃ q, s.lock = some q ∧ s.WakesReaders q
  writers : s.WritersRest ∨ ∃ q, s.lock = some q ∧ (s.thread q).Copying
  storing : ∀ q, (s.thread q).Storing → s.killed q = false ∧ s.pipe.readopen = true

section Sleepers

variable {s t : State} {p : ℕ} {x : Thread}

theorem State.ReadersRest.keep (h : s.ReadersRest) (hs : t.ReaderSleeps → s.ReaderSleeps)
    (hpipe : t.pipe = s.pipe) : t.ReadersRest := by
  intro ht
  rw [hpipe]
  exact h (hs ht)

theorem State.WritersRest.keep (h : s.WritersRest) (hs : t.WriterSleeps → s.WriterSleeps)
    (hpipe : t.pipe = s.pipe) : t.WritersRest := by
  intro ht
  rw [hpipe]
  exact h (hs ht)

theorem readerSleeps_setThread (hx : ∀ i n, x ≠ .piperead i n .sleep)
    (h : (s.setThread p x).ReaderSleeps) : s.ReaderSleeps := by
  obtain ⟨q, i, n, hq⟩ := h
  by_cases hqp : q = p
  · subst hqp
    rw [thread_setThread] at hq
    exact absurd hq (hx i n)
  · exact ⟨q, i, n, by simpa [setThread, hqp] using hq⟩

theorem writerSleeps_setThread (hx : ∀ i n, x ≠ .pipewrite i n .sleep)
    (h : (s.setThread p x).WriterSleeps) : s.WriterSleeps := by
  obtain ⟨q, i, n, hq⟩ := h
  by_cases hqp : q = p
  · subst hqp
    rw [thread_setThread] at hq
    exact absurd hq (hx i n)
  · exact ⟨q, i, n, by simpa [setThread, hqp] using hq⟩

theorem State.ReadersRest.setThread (h : s.ReadersRest) (hx : ∀ i n, x ≠ .piperead i n .sleep) :
    (s.setThread p x).ReadersRest :=
  h.keep (readerSleeps_setThread hx) rfl

theorem State.WritersRest.setThread (h : s.WritersRest) (hx : ∀ i n, x ≠ .pipewrite i n .sleep) :
    (s.setThread p x).WritersRest :=
  h.keep (writerSleeps_setThread hx) rfl

theorem not_readerSleeps_wakeupReaders : ¬ s.wakeupReaders.ReaderSleeps := by
  rintro ⟨q, i, n, hq⟩
  unfold wakeupReaders at hq
  dsimp only at hq
  split at hq
  · cases hq
  · next hne => exact hne i n hq

theorem not_writerSleeps_wakeupWriters : ¬ s.wakeupWriters.WriterSleeps := by
  rintro ⟨q, i, n, hq⟩
  unfold wakeupWriters at hq
  dsimp only at hq
  split at hq
  · cases hq
  · next hne => exact hne i n hq

theorem writerSleeps_wakeupReaders (h : s.wakeupReaders.WriterSleeps) : s.WriterSleeps := by
  obtain ⟨q, i, n, hq⟩ := h
  unfold wakeupReaders at hq
  dsimp only at hq
  split at hq
  · cases hq
  · exact ⟨q, i, n, hq⟩

theorem readerSleeps_wakeupWriters (h : s.wakeupWriters.ReaderSleeps) : s.ReaderSleeps := by
  obtain ⟨q, i, n, hq⟩ := h
  unfold wakeupWriters at hq
  dsimp only at hq
  split at hq
  · cases hq
  · exact ⟨q, i, n, hq⟩

theorem State.wakeupReaders_rest (hx : ∀ i n, x ≠ .piperead i n .sleep) :
    (s.wakeupReaders.setThread p x).ReadersRest := by
  intro hsleeps
  exact absurd (readerSleeps_setThread hx hsleeps) not_readerSleeps_wakeupReaders

theorem Thread.Storing.holds {y : Thread} (h : y.Storing) : y.Holds := by
  unfold Thread.Storing at h
  split at h
  · exact ⟨nofun, nofun⟩
  · exact ⟨nofun, nofun⟩
  · exact h.elim

theorem Thread.MidWrite.holds {y : Thread} (h : y.MidWrite) : y.Holds := by
  unfold Thread.MidWrite at h
  split at h
  · exact ⟨nofun, nofun⟩
  · exact ⟨nofun, nofun⟩
  · exact ⟨nofun, nofun⟩
  · exact h.elim

theorem Thread.Copying.holds {y : Thread} (h : y.Copying) : y.Holds := by
  unfold Thread.Copying at h
  split at h
  · exact ⟨nofun, nofun⟩
  · exact ⟨nofun, nofun⟩
  · exact ⟨nofun, nofun⟩
  · exact ⟨nofun, nofun⟩
  · exact h.elim

theorem State.WakesReaders.holds (h : s.WakesReaders p) : (s.thread p).Holds := by
  rcases h with ⟨i, n, hp⟩ | ⟨hp, -⟩
  · rw [hp]
    exact ⟨nofun, nofun⟩
  · exact hp.holds

end Sleepers

namespace State.Rested

variable {s t : State} {p : ℕ}

theorem free (h : s.Rested) (hfree : s.lock = none) : s.ReadersRest ∧ s.WritersRest := by
  constructor
  · rcases h.readers with h | ⟨q, hq, -⟩
    · exact h
    · rw [hfree] at hq
      cases hq
  · rcases h.writers with h | ⟨q, hq, -⟩
    · exact h
    · rw [hfree] at hq
      cases hq

theorem readers_mine (h : s.Rested) (hp : s.lock = some p) : s.ReadersRest ∨ s.WakesReaders p := by
  rcases h.readers with h | ⟨q, hq, h⟩
  · exact .inl h
  · rw [hp] at hq
    exact .inr (some.inj hq ▸ h)

theorem writers_mine (h : s.Rested) (hp : s.lock = some p) :
    s.WritersRest ∨ (s.thread p).Copying := by
  rcases h.writers with h | ⟨q, hq, h⟩
  · exact .inl h
  · rw [hp] at hq
    exact .inr (some.inj hq ▸ h)

theorem holder (hs : s.Sound) (hp : (s.thread p).Holds ∨ s.lock = none) (ho : Others p s t)
    (hr : t.ReadersRest ∨ t.lock = some p ∧ t.WakesReaders p)
    (hw : t.WritersRest ∨ t.lock = some p ∧ (t.thread p).Copying)
    (hst : (t.thread p).Storing → t.killed p = false ∧ t.pipe.readopen = true) : t.Rested where
  readers := hr.imp_right fun h => ⟨p, h⟩
  writers := hw.imp_right fun h => ⟨p, h⟩
  storing q hq := by
    by_cases hqp : q = p
    · exact hqp ▸ hst (hqp ▸ hq)
    · exact absurd hq.holds (hs.alone hp ho q hqp)

/-- The holder of the lock goes on to `x`. -/
theorem go {x y : Thread} (hs : s.Sound) (hp : s.thread p = y) (hy : y.Holds) (hx : x.Holds)
    (hr : s.ReadersRest ∨ (s.setThread p x).WakesReaders p) (hw : s.WritersRest ∨ x.Copying)
    (hst : x.Storing → s.killed p = false ∧ s.pipe.readopen = true) : (s.setThread p x).Rested := by
  obtain ⟨hin, hmine⟩ := hs.inside hp hy
  have hthread := thread_setThread s p x
  refine holder hs (.inl hin) Others.setThread (hr.imp (·.setThread ?_) fun h => ⟨hmine, h⟩)
    (hw.imp (·.setThread ?_) fun h => ⟨hmine, hthread.symm ▸ h⟩) fun h => hst (hthread ▸ h)
  · rintro i n rfl
    exact hx.2 rfl
  · rintro i n rfl
    exact hx.2 rfl

theorem leave {y : Thread} {r : ℤ} (hs : s.Sound) (hp : s.thread p = y) (hy : y.Holds)
    (ho : Others p s (t.setThread p (.returned r))) (hr : t.ReadersRest) (hw : t.WritersRest) :
    (t.setThread p (.returned r)).release.Rested := by
  refine holder hs (.inl (hs.inside hp hy).1) ho (.inl (hr.setThread nofun))
    (.inl (hw.setThread nofun)) ?_
  simp [release, setThread, Thread.Storing]

theorem take {x : Thread} (hs : s.Sound) (h : s.Rested) (hfree : s.lock = none) (hx : x.Holds)
    (hst : ¬ x.Storing) : ({ s.setThread p x with lock := some p } : State).Rested := by
  obtain ⟨hr, hw⟩ := h.free hfree
  refine holder hs (.inr hfree) Others.setThread (.inl (hr.setThread ?_))
    (.inl (hw.setThread ?_)) ?_
  · rintro i n rfl
    exact hx.2 rfl
  · rintro i n rfl
    exact hx.2 rfl
  · simp [setThread, hst]

/-- A step that concerns no thread with the lock. -/
theorem outside (h : s.Rested) (hlock : t.lock = s.lock) (hpipe : t.pipe = s.pipe)
    (hsame : ∀ q, (s.thread q).Holds ∨ (t.thread q).Holds → t.thread q = s.thread q)
    (hkilled : ∀ q, (s.thread q).MidWrite → t.killed q = s.killed q)
    (hr : t.ReaderSleeps → s.ReaderSleeps) (hw : t.WriterSleeps → s.WriterSleeps) : t.Rested where
  readers := by
    rcases h.readers with h | ⟨q, hq, h⟩
    · exact .inl (h.keep hr hpipe)
    · refine .inr ⟨q, hlock.trans hq, ?_⟩
      have hthread := hsame q (.inl h.holds)
      rcases h with ⟨i, n, hfinish⟩ | ⟨hmid, hk, hopen⟩
      · exact .inl ⟨i, n, hthread.trans hfinish⟩
      · exact .inr ⟨hthread ▸ hmid, (hkilled q hmid).trans hk, hpipe ▸ hopen⟩
  writers := by
    rcases h.writers with h | ⟨q, hq, h⟩
    · exact .inl (h.keep hw hpipe)
    · exact .inr ⟨q, hlock.trans hq, hsame q (.inl h.holds) ▸ h⟩
  storing q hq := by
    have hthread := hsame q (.inr hq.holds)
    rw [hthread] at hq
    have hmid : (s.thread q).MidWrite := by
      unfold Thread.Storing at hq
      split at hq
      · next heq => simp [heq, Thread.MidWrite]
      · next heq => simp [heq, Thread.MidWrite]
      · exact hq.elim
    rw [hkilled q hmid, hpipe]
    exact h.storing q hq

end State.Rested

section Steps

variable {s t : State} {p : ℕ} {i n : ℤ} {input : Option UInt8}

theorem pipewrite_rested {pc : WritePc} (hs : s.Sound) (h : s.Rested)
    (hp : s.thread p = .pipewrite i n pc) (hx : pipewrite s p i n input pc = some t) :
    t.Rested := by
  have hknows := hs.knows p
  have hstoring := h.storing p
  rw [hp] at hknows hstoring
  have hwriters : Thread.Holds (.pipewrite i n pc) → s.WritersRest := by
    intro hin
    rcases h.writers_mine (hs.inside hp hin).2 with hw | hw
    · exact hw
    · simp [hp, Thread.Copying] at hw
  have hfinish : (s.setThread p (.pipewrite i n .finish)).WakesReaders p :=
    .inl ⟨i, n, thread_setThread s p _⟩
  have hmid : ∀ {pc'}, Thread.MidWrite (.pipewrite i n pc') →
      s.killed p = false ∧ s.pipe.readopen = true →
      (s.setThread p (.pipewrite i n pc')).WakesReaders p :=
    fun hpc hgo => .inr ⟨(thread_setThread s p _).symm ▸ hpc, hgo⟩
  cases pc with
  | acquire =>
    simp only [pipewrite, ite_none_right_eq_some, some.injEq] at hx
    obtain ⟨hfree, rfl⟩ := hx
    exact h.take hs hfree ⟨by simp, by simp⟩ id
  | loop =>
    have hw := hwriters ⟨by simp, by simp⟩
    obtain ⟨hin, hmine⟩ := hs.inside hp ⟨by simp, by simp⟩
    simp only [pipewrite] at hx
    split_ifs at hx with hlt hclosed hfull
    · cases hx
      rcases h.readers_mine hmine with hr | ⟨i', n', hend⟩ | ⟨-, hk, hopen⟩
      · exact .leave hs hp ⟨by simp, by simp⟩ Others.setThread hr hw
      · simp [hp] at hend
      · simp [hk, hopen] at hclosed
    · cases hx
      refine State.Rested.holder hs (.inl hin) Others.wakeupReaders
        (.inl (wakeupReaders_rest (by simp))) (.inl fun _ => ⟨hfull, ?_⟩) ?_
      · exact by_contra fun hc => hclosed (.inl (Bool.eq_false_iff.mpr hc))
      · simp [release, setThread, Thread.Storing]
    · cases hx
      have hgo : s.killed p = false ∧ s.pipe.readopen = true := by
        simpa [and_comm] using not_or.mp hclosed
      exact .go hs hp ⟨by simp, by simp⟩ ⟨by simp, by simp⟩ (.inr (hmid trivial hgo)) (.inl hw)
        fun _ => hgo
    · cases hx
      exact .go hs hp ⟨by simp, by simp⟩ ⟨by simp, by simp⟩ (.inr hfinish) (.inl hw) False.elim
  | copyin =>
    have hw := hwriters ⟨by simp, by simp⟩
    have hgo := hstoring trivial
    cases input with
    | none =>
      cases hx
      exact .go hs hp ⟨by simp, by simp⟩ ⟨by simp, by simp⟩ (.inr hfinish) (.inl hw) False.elim
    | some ch =>
      cases hx
      exact .go hs hp ⟨by simp, by simp⟩ ⟨by simp, by simp⟩ (.inr (hmid trivial hgo)) (.inl hw)
        fun _ => hgo
  | store ch =>
    have hw := hwriters ⟨by simp, by simp⟩
    obtain ⟨hin, hmine⟩ := hs.inside hp ⟨by simp, by simp⟩
    have hgo := hstoring trivial
    have hroom : s.pipe.toRingBuffer.count uintMod < pipeSize := hknows
    cases hx
    refine State.Rested.holder hs (.inl hin) Others.setThread (.inr ⟨hmine, .inr ⟨?_, hgo⟩⟩)
      (.inl ?_) ?_
    · simp [setThread, Thread.MidWrite]
    · intro hsleeps
      have hfull := (hw (writerSleeps_setThread (by simp) hsleeps)).1
      have hcount := (RingBuffer.count_eq_capacity hs.valid pipeSize_lt).mpr hfull
      exact absurd hcount hroom.ne
    · simp [setThread, Thread.Storing]
  | sleep => cases hx
  | finish =>
    cases hx
    exact .leave hs hp ⟨by simp, by simp⟩ Others.wakeupReaders
      (fun hr => absurd hr not_readerSleeps_wakeupReaders)
      ((hwriters ⟨by simp, by simp⟩).keep writerSleeps_wakeupReaders rfl)

theorem piperead_rested {pc : ReadPc} (hs : s.Sound) (h : s.Rested)
    (hp : s.thread p = .piperead i n pc) (hx : piperead s p i n input pc = some t) :
    t.Rested := by
  have hknows := hs.knows p
  rw [hp] at hknows
  have hreaders : Thread.Holds (.piperead i n pc) → s.ReadersRest := by
    intro hin
    rcases h.readers_mine (hs.inside hp hin).2 with hr | ⟨i', n', hfinish⟩ | ⟨hmid, -⟩
    · exact hr
    · simp [hp] at hfinish
    · simp [hp, Thread.MidWrite] at hmid
  have hcopy : Thread.Holds (.piperead i n pc) → ∀ {i' pc'}, Thread.Holds (.piperead i' n pc') →
      Thread.Copying (.piperead i' n pc') → (s.setThread p (.piperead i' n pc')).Rested :=
    fun hin i' pc' hx hc => .go hs hp hin hx (.inl (hreaders hin)) (.inr hc) False.elim
  cases pc with
  | acquire =>
    simp only [piperead, ite_none_right_eq_some, some.injEq] at hx
    obtain ⟨hfree, rfl⟩ := hx
    exact h.take hs hfree ⟨by simp, by simp⟩ id
  | wait =>
    obtain ⟨hin, hmine⟩ := hs.inside hp ⟨by simp, by simp⟩
    have hr := hreaders ⟨by simp, by simp⟩
    have hw : s.WritersRest := by
      rcases h.writers_mine hmine with hw | hw
      · exact hw
      · simp [hp, Thread.Copying] at hw
    simp only [piperead] at hx
    split_ifs at hx with hempty hkilled
    · cases hx
      exact .leave hs hp ⟨by simp, by simp⟩ Others.setThread hr hw
    · cases hx
      refine State.Rested.holder hs (.inl hin) Others.setThread (.inl fun _ => hempty)
        (.inl (hw.setThread (by simp))) ?_
      simp [release, setThread, Thread.Storing]
    · cases hx
      exact hcopy ⟨by simp, by simp⟩ ⟨by simp, by simp⟩ trivial
  | sleep => cases hx
  | loop =>
    simp only [piperead] at hx
    split_ifs at hx with hmore
    · cases hx
      exact hcopy ⟨by simp, by simp⟩ ⟨by simp, by simp⟩ trivial
    · cases hx
      exact hcopy ⟨by simp, by simp⟩ ⟨by simp, by simp⟩ trivial
  | take =>
    obtain ⟨hin, hmine⟩ := hs.inside hp ⟨by simp, by simp⟩
    have hsome : s.pipe.toRingBuffer.count uintMod ≠ 0 := hknows
    cases hx
    refine State.Rested.holder hs (.inl hin) Others.setThread (.inl ?_)
      (.inr ⟨hmine, ?_⟩) ?_
    · intro hsleeps
      have hempty := (hreaders ⟨by simp, by simp⟩ (readerSleeps_setThread (by simp) hsleeps)).1
      exact absurd ((RingBuffer.count_eq_zero hs.valid).mpr hempty) hsome
    · simp [setThread, Thread.Copying]
    · simp [setThread, Thread.Storing]
  | copyout ch =>
    cases input with
    | none =>
      cases hx
      exact hcopy ⟨by simp, by simp⟩ ⟨by simp, by simp⟩ trivial
    | some _ =>
      cases hx
      exact hcopy ⟨by simp, by simp⟩ ⟨by simp, by simp⟩ trivial
  | finish =>
    cases hx
    exact .leave hs hp ⟨by simp, by simp⟩ Others.wakeupWriters
      ((hreaders ⟨by simp, by simp⟩).keep readerSleeps_wakeupWriters rfl)
      (fun hw => absurd hw not_writerSleeps_wakeupWriters)

/-- No process is killed in the middle of the loop of `pipewrite`. -/
def Unhurt (s : State) : Event → Prop
  | .kill p => ¬ (s.thread p).MidWrite
  | _ => True

instance (s : State) (e : Event) : Decidable (Unhurt s e) := by
  unfold Unhurt
  cases e <;> infer_instance

theorem Thread.Ready.not_holds {x : Thread} (h : x.Ready) : ¬ x.Holds := by
  cases x with
  | idle => exact id
  | pipewrite i n pc => exact h.elim
  | piperead i n pc => exact h.elim
  | returned r => exact id

theorem State.Rested.begin {x : Thread} (h : s.Rested) (hready : (s.thread p).Ready)
    (hx : ¬ x.Holds) (hr : ∀ i n, x ≠ .piperead i n .sleep)
    (hw : ∀ i n, x ≠ .pipewrite i n .sleep) :
    (s.setThread p x).Rested := by
  refine h.outside rfl rfl ?_ ?_ ?_ ?_
  · intro q hq
    by_cases hqp : q = p
    · subst hqp
      rw [thread_setThread] at hq ⊢
      exact absurd hq (not_or.mpr ⟨hready.not_holds, hx⟩)
    · simp [setThread, hqp]
  · intro q _
    rfl
  · exact readerSleeps_setThread hr
  · exact writerSleeps_setThread hw

theorem State.Rested.kill (h : s.Rested) (hp : ¬ (s.thread p).MidWrite) :
    ({ s.setThread p (s.thread p).kill with killed := Function.update s.killed p true } :
      State).Rested := by
  have hkill : ∀ i n, (s.thread p).kill ≠ .piperead i n .sleep ∧
      (s.thread p).kill ≠ .pipewrite i n .sleep := by
    intro i n
    unfold Thread.kill
    split
    · simp
    · simp
    · next hw hr => exact ⟨hr i n, hw i n⟩
  refine h.outside rfl rfl ?_ ?_ ?_ ?_
  · intro q hq
    by_cases hqp : q = p
    · subst hqp
      change (s.setThread q _).thread q = _
      rw [thread_setThread]
      rcases hq with hq | hq
      · unfold Thread.kill
        split
        · next heq => exact absurd rfl (heq ▸ hq).2
        · next heq => exact absurd rfl (heq ▸ hq).2
        · rfl
      · have hsame : (s.setThread q (s.thread q).kill).thread q = (s.thread q).kill :=
          thread_setThread s q _
        exact holds_kill (hsame ▸ hq)
    · simp [setThread, hqp]
  · intro q hq
    have hqp : q ≠ p := fun heq => hp (heq ▸ hq)
    exact Function.update_of_ne hqp _ _
  · exact readerSleeps_setThread fun i n => (hkill i n).1
  · exact writerSleeps_setThread fun i n => (hkill i n).2

/-- `pipeclose` wakes up those who wait for the end that it closes. -/
theorem pipeclose_rested (hs : s.Sound) (h : s.Rested) (hfree : s.lock = none) (writable : Bool) :
    (pipeclose s writable).Rested := by
  obtain ⟨hr, hw⟩ := h.free hfree
  have hnone : ∀ q, ¬ (s.thread q).Holds := by
    intro q hq
    have hlock := hs.locked q hq
    rw [hfree] at hlock
    cases hlock
  cases writable with
  | true =>
    refine ⟨.inl ?_, .inl ?_, ?_⟩
    · intro hsleeps
      exact absurd hsleeps not_readerSleeps_wakeupReaders
    · intro hsleeps
      exact hw (writerSleeps_wakeupReaders hsleeps)
    · intro q hq
      have hsame : s.wakeupReaders.thread q = s.thread q := holds_wakeupReaders hq.holds
      exact absurd (hsame ▸ hq.holds) (hnone q)
  | false =>
    refine ⟨.inl ?_, .inl ?_, ?_⟩
    · intro hsleeps
      exact hr (readerSleeps_wakeupWriters hsleeps)
    · intro hsleeps
      exact absurd hsleeps not_writerSleeps_wakeupWriters
    · intro q hq
      have hsame : s.wakeupWriters.thread q = s.thread q := holds_wakeupWriters hq.holds
      exact absurd (hsame ▸ hq.holds) (hnone q)

theorem step_rested {e : Event} (hs : s.Sound) (h : s.Rested) (he : Unhurt s e)
    (hx : step s e = some t) : t.Rested := by
  cases e with
  | write p n =>
    simp only [step, ite_none_right_eq_some, some.injEq] at hx
    obtain ⟨⟨-, hready⟩, rfl⟩ := hx
    exact h.begin hready (fun hh => hh.1 rfl) (by simp) (by simp)
  | read p n =>
    simp only [step, ite_none_right_eq_some, some.injEq] at hx
    obtain ⟨⟨-, hready⟩, rfl⟩ := hx
    exact h.begin hready (fun hh => hh.1 rfl) (by simp) (by simp)
  | run p input =>
    cases hp : s.thread p with
    | idle => simp [step, hp] at hx
    | pipewrite i n pc =>
      simp only [step, hp] at hx
      exact pipewrite_rested hs h hp hx
    | piperead i n pc =>
      simp only [step, hp] at hx
      exact piperead_rested hs h hp hx
    | returned r => simp [step, hp] at hx
  | kill p =>
    cases hx
    exact h.kill he
  | close writable =>
    simp only [step, ite_none_right_eq_some, some.injEq] at hx
    obtain ⟨hfree, rfl⟩ := hx
    exact pipeclose_rested hs h hfree writable

end Steps

section Runs

variable {page : ℕ → UInt8} {killed : ℕ → Bool} {h : History}

theorem start_rested : (start page killed).state.Rested where
  readers := .inl fun ⟨_, _, _, hp⟩ => by cases hp
  writers := .inl fun ⟨_, _, _, hp⟩ => by cases hp
  storing _ hq := hq.elim

/-- Unless a process is killed in the middle of the loop of `pipewrite`, whenever the lock of the
pipe is free a process that sleeps on `&pi->nread` waits for an empty pipe whose write end is open,
and one that sleeps on `&pi->nwrite` waits for a full pipe whose read end is open. -/
theorem no_stranded_sleeper
    (hr : Reach (stepRel History.step) (fun h e => Unhurt h.state e) (start page killed) h)
    (hfree : h.state.lock = none) :
    (∀ p i n, h.state.thread p = .piperead i n .sleep →
      h.state.pipe.nread = h.state.pipe.nwrite ∧ h.state.pipe.writeopen = true) ∧
    (∀ p i n, h.state.thread p = .pipewrite i n .sleep →
      h.state.pipe.Full ∧ h.state.pipe.readopen = true) := by
  have hinv : h.state.Sound ∧ h.state.Rested := by
    apply hr.invariant (I := fun h => h.state.Sound ∧ h.state.Rested)
    · exact ⟨start_sound, start_rested⟩
    · rintro a e b ⟨hs, hrest⟩ hok hstep
      simp only [stepRel, History.step] at hstep
      cases hx : step a.state e with
      | none => simp [hx] at hstep
      | some t =>
        simp only [hx, Except.ok.injEq] at hstep
        subst hstep
        exact ⟨(step_sound hs hx).1, step_rested hs hrest hok hx⟩
  obtain ⟨hreaders, hwriters⟩ := hinv.2.free hfree
  exact ⟨fun p i n hp => hreaders ⟨p, i, n, hp⟩, fun p i n hp => hwriters ⟨p, i, n, hp⟩⟩

def readerSleeps : List Event := [.read 0 1, .run 0 none, .run 0 none]

/-- A writer puts a byte into the pipe and wakes the reader, which takes it and reads again. -/
def readerWoken : List Event :=
  readerSleeps ++ [.write 1 1, .run 1 none, .run 1 none, .run 1 (some 97), .run 1 none, .run 1 none,
    .run 1 none] ++ replicate 4 (.run 0 none) ++ [.run 0 (some 0), .run 0 none, .run 0 none] ++
    readerSleeps

theorem no_stranded_sleeper_woken : ∃ h, Reach (stepRel History.step)
      (fun h e => Unhurt h.state e) (start (fun _ => 0) fun _ => false) h ∧
      h.state.thread 0 = .piperead 0 1 .sleep ∧ h.state.thread 1 = .returned 1 ∧
      h.state.lock = none ∧ h.state.pipe.nwrite = 1 ∧
      h.state.pipe.nread = h.state.pipe.nwrite ∧ h.state.pipe.writeopen = true := by
  have hrun : (follow History.step (fun h e => Unhurt h.state e)
      (start (fun _ => 0) fun _ => false) readerWoken).map (fun h => (h.state.thread 0,
        h.state.thread 1, h.state.lock, h.state.pipe.nwrite)) =
      some (.piperead 0 1 .sleep, .returned 1, none, 1) := by decide +kernel
  obtain ⟨h, hf, heq⟩ := Option.map_eq_some_iff.mp hrun
  simp only [Prod.mk.injEq] at heq
  obtain ⟨hp, hw, hfree, hn⟩ := heq
  have hr := reach_of_follow readerWoken Reach.refl hf
  exact ⟨h, hr, hp, hw, hfree, hn, (no_stranded_sleeper hr hfree).1 0 0 1 hp⟩

def killedBetween : List Event :=
  readerSleeps ++
    [.write 1 2, .run 1 none, .run 1 none, .run 1 (some 97), .run 1 none, .kill 1, .run 1 none]

/-- The reader still sleeps on `&pi->nread`, with a byte in the pipe. -/
theorem killed_writer_strands_reader : ∃ h, Reach (stepRel History.step) (fun _ _ => True)
      (start (fun _ => 0) fun _ => false) h ∧ h.state.lock = none ∧
      h.state.thread 0 = .piperead 0 1 .sleep ∧ h.state.thread 1 = .returned (-1) ∧
      h.state.pipe.nread = 0 ∧ h.state.pipe.nwrite = 1 := by
  have hrun : (follow History.step (fun _ _ => True) (start (fun _ => 0) fun _ => false)
      killedBetween).map (fun h => (h.state.lock, h.state.thread 0, h.state.thread 1,
        h.state.pipe.nread, h.state.pipe.nwrite)) =
      some (none, .piperead 0 1 .sleep, .returned (-1), 0, 1) := by decide
  obtain ⟨h, hf, heq⟩ := Option.map_eq_some_iff.mp hrun
  simp only [Prod.mk.injEq] at heq
  exact ⟨h, reach_of_follow killedBetween Reach.refl hf, heq⟩

end Runs

end Xv6.Pipes
