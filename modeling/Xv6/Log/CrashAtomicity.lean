import Xv6.Library.Run
import Xv6.Log.Commit
import Mathlib.Data.List.GetD

/-!
# Crash atomicity of the log

The header write is the only commit point: before it recovery does nothing to
home blocks, after it recovery finishes the installation from the log blocks.
Both phases are conditions on the disk alone, so that they survive a reboot, and
every single block write of `commit` and of `recover_from_log` keeps them.
-/
namespace Xv6.Log

open Library Function List Option

theorem getLE_putBlocks_of_lt (bs : List ℕ) (d : Bytes) (i off : ℕ) (h : off + 4 ≤ 4 + 4 * i) :
    (putBlocks d i bs).getLE off 4 = d.getLE off 4 := by
  induction bs generalizing d i with
  | nil => rfl
  | cons b bs ih =>
    rw [putBlocks, ih _ _ (by omega), Bytes.getLE_setLE_of_disjoint _ _ _ _ _ _ (by omega)]

theorem getLE_putBlocks (bs : List ℕ) (d : Bytes) (i j : ℕ) (hj : j < bs.length)
    (h : ∀ b ∈ bs, b < 2 ^ 32) : (putBlocks d i bs).getLE (4 + 4 * (i + j)) 4 = bs[j] := by
  induction bs generalizing d i j with
  | nil => simp at hj
  | cons b bs ih =>
    cases j with
    | zero =>
      have hb : b < 256 ^ 4 := by simpa using h b (by simp)
      simp only [putBlocks, Nat.add_zero, getElem_cons_zero]
      rw [getLE_putBlocks_of_lt _ _ _ _ (by omega), Bytes.getLE_setLE_of_lt _ _ _ _ hb]
    | succ j =>
      have hj' : j < bs.length := by simpa using hj
      rw [putBlocks, show i + (j + 1) = i + 1 + j by omega,
        ih _ _ _ hj' fun c hc => h c (by simp [hc])]
      rfl

theorem headerCount_putHeader (d : Bytes) (lh : List ℕ) (h : lh.length < 2 ^ 31) :
    headerCount (putHeader d lh) = lh.length := by
  have hw : (putHeader d lh).getLE 0 4 = lh.length := by
    rw [putHeader, getLE_putBlocks_of_lt _ _ _ _ (by omega),
      Bytes.getLE_setLE_of_lt _ _ _ _ (by omega)]
  rw [headerCount, hw, if_pos h]

theorem getHeader_putHeader (d : Bytes) (lh : List ℕ) (hn : lh.length < 2 ^ 31)
    (hb : ∀ b ∈ lh, b < 2 ^ 32) : getHeader (putHeader d lh) = lh := by
  apply ext_getElem
  · simp [getHeader, headerCount_putHeader d lh hn]
  · intro i hi hi'
    have := getLE_putBlocks lh (d.setLE 0 4 lh.length) 0 i hi' hb
    simpa [getHeader, putHeader] using this

/-- A transaction `commit` can be called on: the log header on disk is empty and
the logged blocks are distinct blocks outside the log that fit into it. -/
structure Store.Ready (s : Store) : Prop where
  empty : headerCount (s.disk s.start) = 0
  fits : s.lh.length ≤ logSize
  fitsArea : s.lh.length < s.size
  nodup : s.lh.Nodup
  home : ∀ b ∈ s.lh, ¬ s.InLog b
  uint : ∀ b ∈ s.lh, b < 2 ^ 32

/-- A block's contents once the transaction has taken effect. -/
def Store.newData (s : Store) (b : ℕ) : Bytes := if b ∈ s.lh then s.view b else s.disk b

def Before (s : Store) (d : ℕ → Bytes) : Prop :=
  headerCount (d s.start) = 0 ∧ ∀ b, ¬ s.InLog b → d b = s.disk b

/-- The header is committed and the log holds the new contents; home blocks are
installed in part. -/
structure Committed (s : Store) (d : ℕ → Bytes) : Prop where
  header : getHeader (d s.start) = s.lh
  logged : ∀ i (h : i < s.lh.length), d (s.start + i + 1) = s.newData s.lh[i]
  home : ∀ b, ¬ s.InLog b → d b = s.disk b ∨ d b = s.newData b

def After (s : Store) (d : ℕ → Bytes) : Prop :=
  headerCount (d s.start) = 0 ∧ ∀ b, ¬ s.InLog b → d b = s.newData b

/-- The crash invariant of `commit` and of recovery. -/
def Consistent (s : Store) (d : ℕ → Bytes) : Prop := Before s d ∨ Committed s d ∨ After s d

/-- One block write: block `b` now holds `d`, on disk and for every reader. -/
structure Wrote (t : Store) (b : ℕ) (d : Bytes) (t' : Store) : Prop where
  start : t'.start = t.start
  size : t'.size = t.size
  lh : t'.lh = t.lh
  disk : t'.disk = update t.disk b d
  view : ∀ c, t'.view c = if c = b then d else t.view c

theorem wrote_flush (t : Store) (b : ℕ) (d : Bytes) : Wrote t b d ((t.setBuf b d).flush b) where
  start := rfl
  size := rfl
  lh := rfl
  disk := by simp [Store.flush, Store.setBuf, Store.view]
  view c := by
    rw [Store.view_flush]
    split_ifs with h
    · rw [h, Store.view_setBuf_self]
    · rw [Store.view_setBuf_of_ne _ _ h]

theorem Wrote.of_read {t : Store} {a b : ℕ} {d : Bytes} {t' : Store}
    (h : Wrote (t.setBuf a (t.view a)) b d t') : Wrote t b d t' where
  start := h.start
  size := h.size
  lh := h.lh
  disk := h.disk
  view c := by rw [h.view c, Store.view_setBuf_view]

theorem bwrite_cases (t : Store) (b : ℕ) :
    bwrite b t = .error .powerFailure t ∨ bwrite b t = .ok ⟨⟩ (t.flush b) := by
  by_cases h : t.writesLeft = some 0
  · left
    simp only [bwrite, get_run, h, if_true]
    rfl
  · right
    simp only [bwrite, get_run, h, if_false]
    rfl

/-- A program that performs exactly one block write, or loses power before it. -/
def WritesBlock (t : Store) (b : ℕ) (d : Bytes) (x : LogM PUnit) : Prop :=
  Triple (fun u => u = t) x (fun _ => Wrote t b d) (fun _ u => u.disk = t.disk)

theorem writesBlock_setData (t : Store) (b : ℕ) (d : Bytes) :
    WritesBlock t b d (do setData b d; bwrite b) := by
  rintro t rfl
  simp only [bind, EStateM.bind, setData_eq]
  rcases bwrite_cases (t.setBuf b d) b with h | h <;> rw [h]
  · rfl
  · exact wrote_flush t b d

theorem WritesBlock.read {t : Store} {a b : ℕ} {d : Bytes} {f : Bytes → LogM PUnit}
    (h : WritesBlock (t.setBuf a (t.view a)) b d (f (t.view a))) :
    WritesBlock t b d (bread a >>= f) := by
  rintro t rfl
  simp only [bind, EStateM.bind, bread_eq]
  cases hx : f (t.view a) (t.setBuf a (t.view a)) with
  | ok _ u => exact Wrote.of_read (h.of_ok rfl hx)
  | error _ u => exact h.of_error rfl hx

theorem WritesBlock.triple {x : LogM PUnit} {P Q : Store → Prop} {E : Crash → Store → Prop}
    {b : Store → ℕ} {d : Store → Bytes} (hx : ∀ t, P t → WritesBlock t (b t) (d t) x)
    (hQ : ∀ t t', P t → Wrote t (b t) (d t) t' → Q t')
    (hE : ∀ t t', P t → t'.disk = t.disk → E .powerFailure t') : Triple P x (fun _ => Q) E :=
  .fix fun t ht => (hx t ht).conseq (fun _ h => h) (fun _ t' h => hQ t t' ht h)
    fun _ t' h => hE t t' ht h

section Commit

variable {s : Store}

theorem Store.getD_mem {i : ℕ} (hi : i < s.lh.length) : s.lh.getD i 0 ∈ s.lh := by
  rw [getD_eq_getElem _ _ hi]
  exact getElem_mem hi

theorem triple_get_bind {P : Store → Prop} {f : Store → LogM PUnit} {Q : PUnit → Store → Prop}
    {E : Crash → Store → Prop} (h : ∀ t, P t → Triple P (f t) Q E) : Triple P (get >>= f) Q E :=
  fun t ht => h t ht t ht

theorem writesBlock_writeHead (t : Store) :
    WritesBlock t t.start (putHeader (t.view t.start) t.lh) writeHead := by
  have h : WritesBlock t t.start (putHeader (t.view t.start) t.lh)
      (bread t.start >>= fun buf => do setData t.start (putHeader buf t.lh); bwrite t.start) :=
    WritesBlock.read (writesBlock_setData _ _ _)
  rintro u rfl
  exact h u rfl

theorem getHeader_of_count_zero {d : Bytes} (h : headerCount d = 0) : getHeader d = [] := by
  simp [getHeader, h]

variable (hs : s.Ready)
include hs

theorem Store.start_inLog : s.InLog s.start := ⟨le_rfl, by have := hs.fitsArea; omega⟩

theorem Store.logBlock_inLog {i : ℕ} (hi : i < s.lh.length) :
    s.InLog (s.start + i + 1) := ⟨by omega, by have := hs.fitsArea; omega⟩

/-- `write_log` has copied the first `i` blocks into the log. -/
structure Logging (s : Store) (i : ℕ) (t : Store) : Prop where
  start : t.start = s.start
  lh : t.lh = s.lh
  before : Before s t.disk
  view : ∀ b ∈ s.lh, t.view b = s.newData b
  logged : ∀ j (h : j < s.lh.length), j < i → t.disk (s.start + j + 1) = s.newData s.lh[j]
  logView : ∀ j (h : j < s.lh.length), j < i → t.view (s.start + j + 1) = s.newData s.lh[j]

theorem Logging.step {i : ℕ} (hi : i < s.lh.length) {t t' : Store}
    (h : Logging s i t) (hw : Wrote t (s.start + i + 1) (t.view (s.lh.getD i 0)) t') :
    Logging s (i + 1) t' where
  start := hw.start.trans h.start
  lh := hw.lh.trans h.lh
  before := by
    have hne : s.start ≠ s.start + i + 1 := by omega
    refine ⟨?_, fun b hb => ?_⟩
    · rw [hw.disk, update_of_ne hne]
      exact h.before.1
    · have hbne : b ≠ s.start + i + 1 := fun hbe => hb (hbe ▸ Store.logBlock_inLog hs hi)
      rw [hw.disk, update_of_ne hbne]
      exact h.before.2 b hb
  view b hb := by
    have hbne : b ≠ s.start + i + 1 := fun hbe => hs.home b hb (hbe ▸ Store.logBlock_inLog hs hi)
    rw [hw.view, if_neg hbne]
    exact h.view b hb
  logged j hj hji := by
    by_cases hje : j = i
    · subst hje
      rw [hw.disk, update_self, h.view _ (Store.getD_mem hj), getD_eq_getElem _ _ hj]
    · rw [hw.disk, update_of_ne (by omega)]
      exact h.logged j hj (by omega)
  logView j hj hji := by
    by_cases hje : j = i
    · subst hje
      rw [hw.view, if_pos rfl, h.view _ (Store.getD_mem hj), getD_eq_getElem _ _ hj]
    · rw [hw.view, if_neg (by omega)]
      exact h.logView j hj (by omega)

theorem writeLog_triple : Triple (Logging s 0) writeLog (fun _ => Logging s s.lh.length)
      (fun _ t => Consistent s t.disk) := by
  refine triple_get_bind fun a ha => ?_
  rw [ha.start, ha.lh]
  refine (Triple.loop (I := Logging s) 0 s.lh.length fun i _ hi => ?_).post
    fun _ t ht => by simpa using ht
  refine WritesBlock.triple (b := fun _ => s.start + i + 1) (d := fun t => t.view (s.lh.getD i 0))
    (fun t _ => ?_) (fun t t' ht hw => ht.step hs (by omega) hw) fun t t' ht hd => ?_
  · refine WritesBlock.read (WritesBlock.read ?_)
    rw [Store.view_setBuf_view]
    exact writesBlock_setData _ _ _
  · rw [hd]
    exact .inl ht.before

/-- The header is committed and the first `i` blocks are installed. -/
structure Installing (s : Store) (i : ℕ) (t : Store) : Prop where
  start : t.start = s.start
  lh : t.lh = s.lh
  committed : Committed s t.disk
  logView : ∀ j (h : j < s.lh.length), t.view (s.start + j + 1) = s.newData s.lh[j]
  installed : ∀ j (h : j < s.lh.length), j < i → t.disk s.lh[j] = s.newData s.lh[j]

/-- The header write commits the transaction. -/
theorem Logging.commitPoint {t t' : Store} (h : Logging s s.lh.length t)
    (hw : Wrote t t.start (putHeader (t.view t.start) t.lh) t') : Installing s 0 t' where
  start := hw.start.trans h.start
  lh := hw.lh.trans h.lh
  committed := by
    have hfit : s.lh.length < 2 ^ 31 := lt_of_le_of_lt hs.fits (by decide)
    rw [h.start, h.lh] at hw
    refine ⟨?_, fun j hj => ?_, fun b hb => ?_⟩
    · rw [hw.disk, update_self]
      exact getHeader_putHeader _ _ hfit hs.uint
    · rw [hw.disk, update_of_ne (by omega)]
      exact h.logged j hj hj
    · have hne : b ≠ s.start := fun hbe => hb (hbe ▸ Store.start_inLog hs)
      rw [hw.disk, update_of_ne hne]
      exact .inl (h.before.2 b hb)
  logView j hj := by
    rw [hw.view, h.start, if_neg (by omega)]
    exact h.logView j hj hj
  installed _ _ hj := absurd hj (Nat.not_lt_zero _)

theorem Installing.step {i : ℕ} (hi : i < s.lh.length) {t t' : Store}
    (h : Installing s i t) (hw : Wrote t (s.lh.getD i 0) (t.view (s.start + i + 1)) t') :
    Installing s (i + 1) t' := by
  rw [getD_eq_getElem _ _ hi, h.logView i hi] at hw
  have hhome := hs.home _ (getElem_mem hi)
  have hlog : ∀ j, j < s.lh.length → s.start + j + 1 ≠ s.lh[i] := fun j hj he =>
    hhome (he ▸ Store.logBlock_inLog hs hj)
  have hdisk : ∀ b, t'.disk b = if b = s.lh[i] then s.newData b else t.disk b := fun b => by
    rw [hw.disk, update_apply]
    split_ifs with hb
    · rw [hb]
    · rfl
  refine ⟨hw.start.trans h.start, hw.lh.trans h.lh, ⟨?_, fun j hj => ?_, fun b hb => ?_⟩,
    fun j hj => ?_, fun j hj hji => ?_⟩
  · have hne : s.start ≠ s.lh[i] := fun he => hhome (he ▸ Store.start_inLog hs)
    rw [hdisk, if_neg hne]
    exact h.committed.header
  · rw [hdisk, if_neg (hlog j hj)]
    exact h.committed.logged j hj
  · rw [hdisk]
    split_ifs
    · exact .inr rfl
    · exact h.committed.home b hb
  · rw [hw.view, if_neg (hlog j hj)]
    exact h.logView j hj
  · rw [hdisk]
    split_ifs with hb
    · rfl
    · refine h.installed j hj (Nat.lt_of_le_of_ne (by omega) fun hje => hb ?_)
      subst hje
      rfl

theorem installTrans_triple :
    Triple (Installing s 0) installTrans (fun _ => Installing s s.lh.length)
      (fun _ t => Consistent s t.disk) := by
  refine triple_get_bind fun a ha => ?_
  rw [ha.start, ha.lh]
  refine (Triple.loop (I := Installing s) 0 s.lh.length fun i _ hi => ?_).post
    fun _ t ht => by simpa using ht
  refine WritesBlock.triple (b := fun _ => s.lh.getD i 0) (d := fun t => t.view (s.start + i + 1))
    (fun t _ => ?_) (fun t t' ht hw => ht.step hs (by omega) hw) fun t t' ht hd => ?_
  · exact WritesBlock.read (WritesBlock.read (writesBlock_setData _ _ _))
  · rw [hd]
    exact .inr (Or.inl ht.committed)

omit hs in
theorem Installing.home_eq {t : Store} (h : Installing s s.lh.length t) (b : ℕ)
    (hb : ¬ s.InLog b) : t.disk b = s.newData b := by
  by_cases hm : b ∈ s.lh
  · obtain ⟨j, hj, rfl⟩ := getElem_of_mem hm
    exact h.installed j hj hj
  · rcases h.committed.home b hb with hd | hd
    · rw [hd, Store.newData, if_neg hm]
    · exact hd

/-- Writing an empty header erases the log and touches no home block. -/
theorem triple_erase {P : Store → Prop} {f : ℕ → Bytes}
    (hstart : ∀ t, P t → t.start = s.start) (hlh : ∀ t, P t → t.lh = [])
    (hhome : ∀ t, P t → ∀ b, ¬ s.InLog b → t.disk b = f b)
    (hcrash : ∀ t, P t → Consistent s t.disk) : Triple P writeHead
      (fun _ t => headerCount (t.disk s.start) = 0 ∧ ∀ b, ¬ s.InLog b → t.disk b = f b)
      (fun _ t => Consistent s t.disk) := by
  refine WritesBlock.triple (fun t _ => writesBlock_writeHead t)
    (fun t t' ht hw => ⟨?_, fun b hb => ?_⟩)
    fun t t' ht hd => by rw [hd]; exact hcrash t ht
  · rw [hw.disk, hstart t ht, update_self, hlh t ht]
    exact headerCount_putHeader _ _ (by simp)
  · have hne : b ≠ t.start := fun hbe => hb (by rw [hbe, hstart t ht]; exact Store.start_inLog hs)
    rw [hw.disk, update_of_ne hne]
    exact hhome t ht b hb

omit hs in
theorem clearHead_triple (s : Store) {E : Crash → Store → Prop} :
    Triple (Installing s s.lh.length) clearHead
      (fun _ t => t.start = s.start ∧ t.lh = [] ∧ Committed s t.disk ∧
        ∀ b, ¬ s.InLog b → t.disk b = s.newData b) E :=
  .modify fun _ ht => ⟨ht.start, rfl, ht.committed, ht.home_eq⟩

theorem install_erase_triple :
    Triple (Installing s 0) (do installTrans; clearHead; writeHead) (fun _ t => After s t.disk)
      (fun _ t => Consistent s t.disk) := by
  refine (installTrans_triple hs).seq ((clearHead_triple s).seq ?_)
  exact triple_erase hs (fun _ h => h.1) (fun _ h => h.2.1) (fun _ h => h.2.2.2)
    fun _ h => .inr (.inl h.2.2.1)

/-- Every block write of `commit` keeps the disk consistent. -/
theorem commit_triple : Triple (Logging s 0) commit (fun _ t => Consistent s t.disk)
      (fun _ t => Consistent s t.disk) := by
  refine triple_get_bind fun a _ => .ite (fun _ => ?_) fun _ => ?_
  · refine (writeLog_triple hs).seq (.seq (M := Installing s 0) ?_ ?_)
    · refine WritesBlock.triple (fun t _ => writesBlock_writeHead t)
        (fun t t' ht hw => ht.commitPoint hs hw) fun t t' ht hd => ?_
      rw [hd]
      exact .inl ht.before
    · exact (install_erase_triple hs).post fun _ t ht => .inr (.inr ht)
  · exact .pure fun t ht => .inl ht.before

structure Rebooted (s : Store) (t : Store) : Prop where
  start : t.start = s.start
  cold : ∀ b, t.view b = t.disk b
  disk : Consistent s t.disk

/-- What `read_head` finds: an empty log over one of the two home states, or the
committed transaction. -/
def HeadRead (s t : Store) : Prop :=
  (t.start = s.start ∧ t.lh = [] ∧ (Before s t.disk ∨ After s t.disk)) ∨ Installing s 0 t

omit hs in
theorem readHead_triple (s : Store) {E : Crash → Store → Prop} :
    Triple (Rebooted s) readHead (fun _ => HeadRead s) E := by
  intro t ht
  change HeadRead s { t.setBuf t.start (t.view t.start) with lh := getHeader (t.view t.start) }
  have hv : t.view t.start = t.disk s.start := by rw [ht.cold, ht.start]
  rcases ht.disk with hb | hc | ha
  · refine .inl ⟨ht.start, ?_, .inl hb⟩
    rw [hv]
    exact getHeader_of_count_zero hb.1
  · refine .inr ⟨ht.start, ?_, hc, fun j hj => ?_, fun _ _ hj => absurd hj (Nat.not_lt_zero _)⟩
    · rw [hv]
      exact hc.header
    · exact ((t.view_setBuf_view t.start _).trans (ht.cold _)).trans (hc.logged j hj)
  · refine .inl ⟨ht.start, ?_, .inr ha⟩
    rw [hv]
    exact getHeader_of_count_zero ha.1

/-- Over an empty log the rest of recovery only rewrites the empty header. -/
theorem recover_empty_triple :
    Triple (fun t => t.start = s.start ∧ t.lh = [] ∧ (Before s t.disk ∨ After s t.disk))
      (do installTrans; clearHead; writeHead)
      (fun _ t => Before s t.disk ∨ After s t.disk) (fun _ t => Consistent s t.disk) := by
  refine .fix fun t ht => ?_
  have hskip : Triple (fun u => u = t) installTrans (fun _ u => u = t)
      (fun _ u => Consistent s u.disk) := by
    rintro u rfl
    simp [installTrans, get_run, ht.2.1, loop, pure, EStateM.pure]
  have hclear : Triple (fun u => u = t) clearHead
      (fun _ u => u.start = s.start ∧ u.lh = [] ∧ u.disk = t.disk)
      (fun _ u => Consistent s u.disk) := .modify fun u hu => by
    subst hu
    exact ⟨ht.1, rfl, rfl⟩
  refine hskip.seq (hclear.seq ?_)
  rcases ht.2.2 with hb | ha
  · refine (triple_erase hs (f := s.disk) (fun _ h => h.1) (fun _ h => h.2.1) (fun u hu b hb' => ?_)
      fun u hu => ?_).post fun _ _ h => .inl h
    · rw [hu.2.2]
      exact hb.2 b hb'
    · rw [hu.2.2]
      exact .inl hb
  · refine (triple_erase hs (f := s.newData) (fun _ h => h.1) (fun _ h => h.2.1)
      (fun u hu b hb' => ?_) fun u hu => ?_).post fun _ _ h => .inr h
    · rw [hu.2.2]
      exact ha.2 b hb'
    · rw [hu.2.2]
      exact .inr (.inr ha)

theorem recoverFromLog_triple :
    Triple (Rebooted s) recoverFromLog (fun _ t => Before s t.disk ∨ After s t.disk)
      (fun _ t => Consistent s t.disk) := by
  refine (readHead_triple s).seq fun t ht => ?_
  rcases ht with h | h
  · exact recover_empty_triple hs t h
  · exact (install_erase_triple hs).post (fun _ _ h => .inr h) t h

end Commit

section Progress

def Completes (x : LogM PUnit) : Prop :=
  Triple (fun t => t.writesLeft = none) x (fun _ t => t.writesLeft = none) (fun _ _ => False)

theorem completes_bread (b : ℕ) {f : Bytes → LogM PUnit} (h : ∀ d, Completes (f d)) :
    Completes (bread b >>= f) :=
  fun t ht => h (t.view b) (t.setBuf b (t.view b)) ht

theorem completes_setData (b : ℕ) (d : Bytes) : Completes (do setData b d; bwrite b) := by
  intro t ht
  simp only [bind, EStateM.bind, setData_eq]
  have hw : (t.setBuf b d).writesLeft = none := ht
  simp only [bwrite, get_run, hw, reduceCtorEq, if_false]
  change ((t.setBuf b d).flush b).writesLeft = none
  simp [Store.flush, hw]

theorem completes_get {f : Store → LogM PUnit} (h : ∀ t, Completes (f t)) :
    Completes (get >>= f) :=
  fun t ht => h t t ht

theorem completes_loop {body : ℕ → LogM PUnit} (h : ∀ i, Completes (body i)) (a k : ℕ) :
    Completes (loop body a k) :=
  .loop (I := fun _ (t : Store) => t.writesLeft = none) a k fun i _ _ => h i

theorem completes_recoverFromLog : Completes recoverFromLog := by
  have hread : Completes readHead :=
    completes_get fun _ => completes_bread _ fun _ => .modify fun _ h => h
  have hinstall : Completes installTrans := completes_get fun _ =>
    completes_loop (fun _ => completes_bread _ fun _ => completes_bread _ fun _ =>
      completes_setData _ _) _ _
  have hclear : Completes clearHead := .modify fun _ h => h
  have hwrite : Completes writeHead :=
    completes_get fun _ => completes_bread _ fun _ => completes_setData _ _
  exact hread.seq (hinstall.seq (hclear.seq hwrite))

end Progress

section Atomicity

variable {s : Store}

theorem diskAfter_of_triple {x : LogM PUnit} {P : Store → Prop} {D : (ℕ → Bytes) → Prop}
    (h : Triple P x (fun _ t => D t.disk) (fun _ t => D t.disk)) {t : Store} (ht : P t) :
    D (diskAfter x t) := by
  unfold diskAfter
  cases hx : x t with
  | ok _ u => exact h.of_ok ht hx
  | error _ u => exact h.of_error ht hx

theorem crashedCommit_consistent (hs : s.Ready) (k : ℕ) : Consistent s (crashedCommit s k) := by
  refine diskAfter_of_triple (commit_triple hs) ⟨rfl, rfl, ⟨hs.empty, fun _ _ => rfl⟩, ?_, ?_, ?_⟩
  · intro b hb
    rw [Store.newData, if_pos hb]
    rfl
  · exact fun _ _ h => absurd h (Nat.not_lt_zero _)
  · exact fun _ _ h => absurd h (Nat.not_lt_zero _)

theorem rebooted_reboot {d : ℕ → Bytes} (h : Consistent s d) (k : Option ℕ) :
    Rebooted s (reboot s d k) :=
  ⟨rfl, fun _ => rfl, h⟩

theorem crashedRecoveries_consistent (hs : s.Ready) (ks : List ℕ) {d : ℕ → Bytes}
    (h : Consistent s d) : Consistent s (crashedRecoveries s d ks) := by
  induction ks generalizing d with
  | nil => exact h
  | cons k ks ih =>
    refine ih (diskAfter_of_triple (P := Rebooted s) ?_ (rebooted_reboot h (some k)))
    exact (recoverFromLog_triple hs).post fun _ t ht =>
      ht.elim .inl fun ha => .inr (.inr ha)

theorem recover_consistent (hs : s.Ready) {d : ℕ → Bytes} (hd : Consistent s d) :
    ∃ t, recoverFromLog (reboot s d none) = .ok ⟨⟩ t ∧ (Before s t.disk ∨ After s t.disk) := by
  cases hx : recoverFromLog (reboot s d none) with
  | ok _ t => exact ⟨t, rfl, (recoverFromLog_triple hs).of_ok (rebooted_reboot hd none) hx⟩
  | error _ t => exact (completes_recoverFromLog.of_error rfl hx).elim

/-- After a crash at any point of `commit` and any number of crashed recoveries, a
recovery that runs to its end finds an empty log header and leaves every home block
at its value before the transaction, or every one at its value after it. -/
theorem recover_after_crash_atomic (s : Store) (hs : s.Ready) (k : ℕ) (ks : List ℕ) :
    ∃ t, recoverFromLog (reboot s (crashedRecoveries s (crashedCommit s k) ks) none) = .ok ⟨⟩ t ∧
      headerCount (t.disk s.start) = 0 ∧
      ((∀ b, ¬ s.InLog b → t.disk b = s.disk b) ∨
        ∀ b, ¬ s.InLog b → t.disk b = s.newData b) := by
  obtain ⟨t, hx, ht⟩ := recover_consistent hs
    (crashedRecoveries_consistent hs ks (crashedCommit_consistent hs k))
  refine ⟨t, hx, ?_⟩
  rcases ht with hb | ha
  · exact ⟨hb.1, .inl hb.2⟩
  · exact ⟨ha.1, .inr ha.2⟩

/-- A log area of 30 blocks at block 2 with two logged blocks. -/
def twoBlockStore : Store where
  start := 2
  size := 30
  lh := [70, 46]
  disk := fun _ _ => 0
  cache := fun b => if b = 70 ∨ b = 46 then some fun _ => 7 else none
  writesLeft := none

theorem twoBlockStore_ready : twoBlockStore.Ready where
  empty := by decide
  fits := by decide
  fitsArea := by decide
  nodup := by decide
  home := by decide
  uint := by decide

/-- Power fails after the header and one home block, then again in recovery. -/
theorem recover_after_crash_atomic_twoBlocks :
    twoBlockStore.Ready ∧
    ∃ t, recoverFromLog
        (reboot twoBlockStore (crashedRecoveries twoBlockStore (crashedCommit twoBlockStore 4) [1])
          none) = .ok ⟨⟩ t ∧
      headerCount (t.disk twoBlockStore.start) = 0 ∧
      ((∀ b, ¬ twoBlockStore.InLog b → t.disk b = twoBlockStore.disk b) ∨
        ∀ b, ¬ twoBlockStore.InLog b → t.disk b = twoBlockStore.newData b) :=
  ⟨twoBlockStore_ready, recover_after_crash_atomic twoBlockStore twoBlockStore_ready 4 [1]⟩

end Atomicity

end Xv6.Log
