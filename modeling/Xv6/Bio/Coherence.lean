import Xv6.Bio.Cache
import Xv6.Library.Counted

/-!
# Invariants of the buffer cache

With every buffer on the log's device: the list holds each buffer once (`Linked`); reference
counts are the handles plus the pins of the log (`Names`); a sleep lock belongs to the handle that
is past taking it (`Locks`); a valid buffer holds the latest contents of its block unless the
holder of its lock has changed them, and the disk holds those of every block that is not pinned
(`Contents`).
-/
namespace Xv6.Bio

open Xv6.Library Function List Option

def Op.unpins (ops : List Op) : List ℕ :=
  ops.filterMap fun
    | .bunpin _ b => some b
    | _ => none

def Stage.holding : Stage → Bool
  | .locked => true
  | .ready => true
  | _ => false

structure Buf.Like (y z : Buf) : Prop where
  valid : y.valid = z.valid
  data : y.data = z.data
  dev : y.dev = z.dev
  blockno : y.blockno = z.blockno
  lock : y.lock = z.lock

def Handle.key (x : Handle) : ℕ × ℕ × ℕ := (x.buf, x.dev, x.blockno)

namespace Cache

section Invariants

variable (s : Cache) (pins : ℕ → Option ℕ)

/-- The blocks in the header that `install_trans` has not written home and unpinned. -/
def toInstall : List ℕ := if s.todo = [] then s.lh else Op.unpins s.todo

/-- What holds each buffer: the handles, and the pins by block number. -/
def holds : ℕ ⊕ ℕ → Option ℕ := Sum.elim (Option.map Handle.buf ∘ s.handle) pins

def refcnt : ℕ → ℕ := Buf.refcnt ∘ s.buf

def locked (h : ℕ) : Option ℕ :=
  match s.handle h with
  | some x => if x.stage.holding then some x.buf else none
  | none => none

/-- The caller that has the lock of buffer `i` has changed the data. -/
def Dirty (i : ℕ) : Prop := ∃ h x, s.handle h = some x ∧ x.buf = i ∧ x.status = .dirty

def Linked : Prop := ∃ l, l.Perm (range nBuf) ∧ s.links.Circular nBuf l

structure Names : Prop where
  dev : s.dev ≠ 0
  counted : Counted (s.holds pins) s.refcnt
  handles : ∀ h, s.handles ≤ h → s.handle h = none
  handle : ∀ h x, s.handle h = some x → x.buf < nBuf ∧ x.dev = s.dev ∧
    (s.buf x.buf).dev = s.dev ∧ (s.buf x.buf).blockno = x.blockno
  pin : ∀ b i, pins b = some i → i < nBuf ∧ (s.buf i).dev = s.dev ∧ (s.buf i).blockno = b
  idle : ∀ i, (s.buf i).dev = s.dev ∨ (s.buf i).dev = 0
  unique : ∀ i j, i < nBuf → j < nBuf → (s.buf i).dev = s.dev → (s.buf j).dev = s.dev →
    (s.buf i).blockno = (s.buf j).blockno → i = j

def Locks : Prop := ∀ i h, (s.buf i).lock = some h ↔ s.locked h = some i

structure Contents : Prop where
  used : ∀ i, (s.buf i).valid = true → i < nBuf ∧ (s.buf i).dev = s.dev
  ready : ∀ h x, s.handle h = some x → x.stage = .ready → (s.buf x.buf).valid = true
  clean : ∀ h x, s.handle h = some x → x.stage ≠ .ready → x.status = .clean
  pinned : ∀ b i, pins b = some i → (s.buf i).valid = true
  coherent : ∀ i, (s.buf i).valid = true →
    (s.buf i).data = s.latest s.dev (s.buf i).blockno ∨ s.Dirty i
  disk : ∀ b, pins b = none → s.disk b = s.latest s.dev b
  written : ∀ h x, s.handle h = some x → x.status = .written →
    s.disk x.blockno = s.latest s.dev x.blockno

end Invariants

variable {s s' : Cache} {pins : ℕ → Option ℕ} {h i : ℕ} {x x' : Handle} {y : Buf}

section Search

theorem cached_eq {l : List ℕ} (hlen : l.length = nBuf) (hcirc : s.links.Circular nBuf l)
    (dev blockno : ℕ) : s.cached dev blockno =
      some (l.find? fun b => decide ((s.buf b).dev = dev ∧ (s.buf b).blockno = blockno)) := by
  rw [← hcirc.walk_next, hlen]
  rfl

theorem unused_eq {l : List ℕ} (hlen : l.length = nBuf) (hcirc : s.links.Circular nBuf l) :
    s.unused = some (l.reverse.find? fun b => decide ((s.buf b).refcnt = 0)) := by
  rw [← hcirc.walk_prev, hlen]
  rfl

theorem Linked.cached_some (hl : s.Linked) {dev blockno : ℕ}
    (hc : s.cached dev blockno = some (some i)) :
    i < nBuf ∧ (s.buf i).dev = dev ∧ (s.buf i).blockno = blockno := by
  obtain ⟨l, hp, hcirc⟩ := hl
  rw [cached_eq (hp.length_eq.trans length_range) hcirc, some.injEq] at hc
  have hmem := hp.subset (mem_of_find?_eq_some hc)
  refine ⟨mem_range.mp hmem, ?_⟩
  simpa using find?_some hc

theorem Linked.cached_none (hl : s.Linked) {dev blockno : ℕ}
    (hc : s.cached dev blockno = some none) (i : ℕ) (hi : i < nBuf) :
    ¬((s.buf i).dev = dev ∧ (s.buf i).blockno = blockno) := by
  obtain ⟨l, hp, hcirc⟩ := hl
  rw [cached_eq (hp.length_eq.trans length_range) hcirc, some.injEq] at hc
  have hall := find?_eq_none.mp hc i (hp.symm.subset (mem_range.mpr hi))
  simpa using hall

theorem Linked.unused_some (hl : s.Linked) (hu : s.unused = some (some i)) :
    i < nBuf ∧ (s.buf i).refcnt = 0 := by
  obtain ⟨l, hp, hcirc⟩ := hl
  rw [unused_eq (hp.length_eq.trans length_range) hcirc, some.injEq] at hu
  have hmem := hp.subset (mem_reverse.mp (mem_of_find?_eq_some hu))
  refine ⟨mem_range.mp hmem, ?_⟩
  simpa using find?_some hu

theorem Linked.move (hl : s.Linked) (hi : i < nBuf)
    (hlinks : s'.links = (s.links.unlink i).pushFront nBuf i) : s'.Linked := by
  obtain ⟨l, hp, hcirc⟩ := hl
  have hmem : i ∈ l := hp.symm.subset (mem_range.mpr hi)
  obtain ⟨l1, l2, rfl⟩ := append_of_mem hmem
  have hnot : i ∉ nBuf :: (l1 ++ l2) := by
    have hn := (nodup_cons.mp hcirc.nodup).2
    rw [nodup_middle, nodup_cons] at hn
    simp only [mem_cons, not_or]
    exact ⟨by omega, hn.1⟩
  refine ⟨i :: (l1 ++ l2), perm_middle.symm.trans hp, ?_⟩
  rw [hlinks]
  exact hcirc.unlink.pushFront hnot

end Search

section Frames

theorem holds_handle {h : ℕ} (hx : s.handle h = some x) :
    s.holds pins (.inl h) = some x.buf := by
  simp [holds, hx]

theorem Names.pos (hn : s.Names pins) (hx : s.handle h = some x) : 0 < (s.buf x.buf).refcnt :=
  hn.counted.pos (a := x.buf) (holds_handle hx)

/-- Steps that keep what is held and which buffer is for which block. -/
theorem Names.frame (hn : s.Names pins) (hdev : s'.dev = s.dev) (hhandles : s'.handles = s.handles)
    (hkey : ∀ h, (s'.handle h).map Handle.key = (s.handle h).map Handle.key)
    (hbuf : ∀ i, (s'.buf i).refcnt = (s.buf i).refcnt ∧ (s'.buf i).dev = (s.buf i).dev ∧
      (s'.buf i).blockno = (s.buf i).blockno) : s'.Names pins where
  dev := hdev ▸ hn.dev
  counted := by
    have hcount : s'.refcnt = s.refcnt := funext fun i => (hbuf i).1
    have hhold : s'.holds pins = s.holds pins := by
      funext o
      cases o with
      | inl h =>
        have hk := congrArg (Option.map Prod.fst) (hkey h)
        simpa [holds, Option.map_map, Function.comp_def, Handle.key] using hk
      | inr b => rfl
    rw [hcount, hhold]
    exact hn.counted
  handles h hh := by
    have hk := hkey h
    rw [hn.handles h (hhandles ▸ hh)] at hk
    simpa using hk
  handle h x hx := by
    have hk := hkey h
    rw [hx, map_some, eq_comm, map_eq_some_iff] at hk
    obtain ⟨z, hz, hq⟩ := hk
    simp only [Handle.key, Prod.mk.injEq] at hq
    have hold := hn.handle h z hz
    rw [(hbuf x.buf).2.1, (hbuf x.buf).2.2, hdev, ← hq.1, ← hq.2.1, ← hq.2.2]
    exact hold
  pin b i hb := by
    rw [(hbuf i).2.1, (hbuf i).2.2, hdev]
    exact hn.pin b i hb
  idle i := by
    rw [(hbuf i).2.1, hdev]
    exact hn.idle i
  unique i j hi hj hdi hdj hb := by
    simp only [hbuf, hdev] at hdi hdj hb
    exact hn.unique i j hi hj hdi hdj hb

theorem Locks.frame (hl : s.Locks) (hbuf : ∀ i, (s'.buf i).lock = (s.buf i).lock)
    (hlocked : ∀ h, s'.locked h = s.locked h) : s'.Locks := by
  intro i h
  rw [hbuf, hlocked]
  exact hl i h

/-- A step of the caller with handle `h` that takes or gives back the sleep lock of `i`. -/
theorem Locks.move (hl : s.Locks) (hbuf : ∀ j, j ≠ i → (s'.buf j).lock = (s.buf j).lock)
    (hlocked : ∀ g, g ≠ h → s'.locked g = s.locked g)
    (hbefore : (s.buf i).lock = none ∧ s.locked h = none ∨ (s.buf i).lock = some h)
    (hafter : (s'.buf i).lock = none ∧ s'.locked h = none ∨
      (s'.buf i).lock = some h ∧ s'.locked h = some i) : s'.Locks := by
  have hother : ∀ g, g ≠ h → s.locked g ≠ some i := by
    intro g hg hq
    have hlock := (hl i g).mpr hq
    rcases hbefore with ⟨hnone, -⟩ | hsome
    · simp [hnone] at hlock
    · rw [hsome, some.injEq] at hlock
      exact hg hlock.symm
  have hmine : ∀ j, j ≠ i → s.locked h ≠ some j := by
    intro j hj hq
    rcases hbefore with ⟨-, hnone⟩ | hsome
    · simp [hnone] at hq
    · rw [(hl i h).mp hsome, some.injEq] at hq
      exact hj hq.symm
  intro j g
  by_cases hj : j = i
  · subst hj
    by_cases hg : g = h
    · subst hg
      rcases hafter with ⟨h1, h2⟩ | ⟨h1, h2⟩ <;> simp [h1, h2]
    · rw [hlocked g hg]
      have hne := hother g hg
      rcases hafter with ⟨h1, -⟩ | ⟨h1, -⟩
      · simp [h1, hne]
      · simp [h1, hne, Ne.symm hg]
  · rw [hbuf j hj]
    by_cases hg : g = h
    · subst hg
      have hold : (s.buf j).lock ≠ some g := fun hq => hmine j hj ((hl j g).mp hq)
      rcases hafter with ⟨-, h2⟩ | ⟨-, h2⟩
      · simp [h2, hold]
      · simp [h2, hold, Ne.symm hj]
    · rw [hlocked g hg]
      exact hl j g

theorem locked_eq (hx : s.handle h = some x) :
    s.locked h = if x.stage.holding then some x.buf else none := by
  simp [locked, hx]

theorem Locks.exclusive (hl : s.Locks) {g : ℕ} {z : Handle} (hx : s.handle h = some x)
    (hz : s.handle g = some z) (hxs : x.stage.holding) (hzs : z.stage.holding)
    (hb : x.buf = z.buf) : h = g := by
  have h1 := (hl x.buf h).mpr (by rw [locked_eq hx, if_pos hxs])
  have h2 := (hl z.buf g).mpr (by rw [locked_eq hz, if_pos hzs])
  rw [hb, h2, some.injEq] at h1
  exact h1.symm

/-- Steps that leave data, disk and record alone. A handle that changes is clean and not ready. -/
theorem Contents.frame (hc : s.Contents pins) (hdev : s'.dev = s.dev) (hdisk : s'.disk = s.disk)
    (hlatest : s'.latest = s.latest)
    (hbuf : ∀ i, (s'.buf i).valid = (s.buf i).valid ∧ (s'.buf i).data = (s.buf i).data ∧
      (s'.buf i).dev = (s.buf i).dev ∧ (s'.buf i).blockno = (s.buf i).blockno)
    (hnew : ∀ h x, s'.handle h = some x →
      s.handle h = some x ∨ x.stage ≠ .ready ∧ x.status = .clean)
    (hold : ∀ h x, s.handle h = some x → x.status = .dirty → s'.handle h = some x) :
    s'.Contents pins where
  used i hi := by
    rw [(hbuf i).2.2.1, hdev]
    exact hc.used i ((hbuf i).1 ▸ hi)
  ready h x hx hs := by
    rw [(hbuf x.buf).1]
    rcases hnew h x hx with hx' | ⟨hne, -⟩
    · exact hc.ready h x hx' hs
    · exact absurd hs hne
  clean h x hx hs := by
    rcases hnew h x hx with hx' | ⟨-, hq⟩
    · exact hc.clean h x hx' hs
    · exact hq
  pinned b i hb := by
    rw [(hbuf i).1]
    exact hc.pinned b i hb
  coherent i hi := by
    rw [(hbuf i).2.1, (hbuf i).2.2.2, hdev, hlatest]
    apply (hc.coherent i ((hbuf i).1 ▸ hi)).imp_right
    rintro ⟨h, x, hx, hb, hd⟩
    exact ⟨h, x, hold h x hx hd, hb, hd⟩
  disk b hb := by
    rw [hdisk, hlatest, hdev]
    exact hc.disk b hb
  written h x hx hw := by
    rw [hdisk, hlatest, hdev]
    rcases hnew h x hx with hx' | ⟨-, hq⟩
    · exact hc.written h x hx' hw
    · simp [hq] at hw

end Frames

section Acts

structure Sound (s : Cache) (pins : ℕ → Option ℕ) : Prop where
  linked : s.Linked
  names : s.Names pins
  locks : s.Locks
  contents : s.Contents pins

theorem setBuf_self (s : Cache) (i : ℕ) (y : Buf) : (s.setBuf i y).buf i = y :=
  update_self _ _ _

theorem setBuf_other (s : Cache) {i j : ℕ} (y : Buf) (hj : j ≠ i) :
    (s.setBuf i y).buf j = s.buf j :=
  update_of_ne hj _ _

theorem forall_setBuf {P : ℕ → Buf → Prop} (hi : P i y) (hothers : ∀ j, j ≠ i → P j (s.buf j))
    (j : ℕ) : P j ((s.setBuf i y).buf j) := by
  by_cases hj : j = i
  · rw [hj, setBuf_self]
    exact hi
  · rw [setBuf_other s y hj]
    exact hothers j hj

theorem Names.tend (hn : s.Names pins) (hx : s.handle h = some x)
    (hhandle : s'.handle = update s.handle h (some x')) (hkey : x'.key = x.key)
    (hdev : s'.dev = s.dev) (hhandles : s'.handles = s.handles)
    (hbuf : ∀ i, (s'.buf i).refcnt = (s.buf i).refcnt ∧ (s'.buf i).dev = (s.buf i).dev ∧
      (s'.buf i).blockno = (s.buf i).blockno) : s'.Names pins := by
  apply hn.frame hdev hhandles _ hbuf
  intro g
  rw [hhandle]
  by_cases hg : g = h
  · rw [hg, update_self, hx, map_some, map_some, hkey]
  · rw [update_of_ne hg]

theorem Contents.tend (hc : s.Contents pins) (hx : s.handle h = some x) (hdirty : x.status ≠ .dirty)
    (hstage : x'.stage ≠ .ready) (hstatus : x'.status = .clean)
    (hbuf : y.valid = (s.buf i).valid ∧ y.data = (s.buf i).data ∧ y.dev = (s.buf i).dev ∧
      y.blockno = (s.buf i).blockno) :
    ((s.setBuf i y).setHandle h (some x')).Contents pins := by
  refine hc.frame rfl rfl rfl ?_ ?_ ?_
  · exact forall_setBuf (P := fun j z => z.valid = (s.buf j).valid ∧ z.data = (s.buf j).data ∧
      z.dev = (s.buf j).dev ∧ z.blockno = (s.buf j).blockno) hbuf fun j _ => ⟨rfl, rfl, rfl, rfl⟩
  · intro g z hz
    simp only [setHandle] at hz
    by_cases hg : g = h
    · rw [hg, update_self, some.injEq] at hz
      exact .inr (hz ▸ ⟨hstage, hstatus⟩)
    · rw [update_of_ne hg] at hz
      exact .inl hz
  · intro g z hz hd
    have hg : g ≠ h := by
      intro hq
      rw [hq, hx, some.injEq] at hz
      exact hdirty (hz ▸ hd)
    exact (update_of_ne hg _ _).trans hz

theorem locked_setHandle {g : ℕ} {o : Option Handle} (hg : g ≠ h) :
    (s.setHandle h o).locked g = s.locked g := by
  simp [locked, setHandle, update_of_ne hg]

theorem Sound.relock {lock : Option ℕ} {stage : Stage} {status : Status} (hs : s.Sound pins)
    (hx : s.handle h = some x) (hd : x.status ≠ .dirty) (hstage : stage ≠ .ready)
    (hclean : status = .clean)
    (hbefore : (s.buf x.buf).lock = none ∧ s.locked h = none ∨ (s.buf x.buf).lock = some h)
    (hafter : lock = none ∧ ¬ stage.holding ∨ lock = some h ∧ stage.holding) :
    ((s.setBuf x.buf { s.buf x.buf with lock }).setHandle h
      (some { x with stage, status })).Sound pins := by
  refine ⟨hs.linked, ?_, ?_, hs.contents.tend hx hd hstage hclean ⟨rfl, rfl, rfl, rfl⟩⟩
  · refine hs.names.tend hx rfl rfl rfl rfl ?_
    exact forall_setBuf (P := fun j z => z.refcnt = (s.buf j).refcnt ∧ z.dev = (s.buf j).dev ∧
      z.blockno = (s.buf j).blockno) ⟨rfl, rfl, rfl⟩ fun j _ => ⟨rfl, rfl, rfl⟩
  · have hlock := congrArg Buf.lock (setBuf_self s x.buf { s.buf x.buf with lock })
    refine hs.locks.move (fun j hj => congrArg Buf.lock (setBuf_other s _ hj))
      (fun g hg => locked_setHandle (s := s.setBuf x.buf _) hg) hbefore ?_
    rcases hafter with ⟨rfl, hl⟩ | ⟨rfl, hl⟩
    · exact .inl ⟨hlock, by simp [locked, setHandle, hl]⟩
    · exact .inr ⟨hlock, by simp [locked, setHandle, hl]⟩

theorem Sound.acquire (hs : s.Sound pins) (hx : s.handle h = some x) (hw : x.stage = .waiting)
    (hok : s.acquire h x = .ok s') : s'.Sound pins := by
  unfold Cache.acquire at hok
  split_ifs at hok with hfree
  cases hok
  have hclean := hs.contents.clean h x hx (by simp [hw])
  exact hs.relock hx (by simp [hclean]) (by simp) hclean
    (.inl ⟨hfree, by simp [locked_eq hx, hw, Stage.holding]⟩) (.inr ⟨rfl, by simp [Stage.holding]⟩)

theorem Sound.unlock (hs : s.Sound pins) (hx : s.handle h = some x) (hd : x.status ≠ .dirty)
    (hok : s.unlock h x = .ok s') : s'.Sound pins := by
  unfold Cache.unlock at hok
  split_ifs at hok with hlock
  cases hok
  exact hs.relock hx hd (by simp) rfl (.inr (by simpa using hlock))
    (.inl ⟨rfl, by simp [Stage.holding]⟩)

theorem Locks.keep (hl : s.Locks) (hx : s.handle h = some x)
    (hhandle : s'.handle = update s.handle h (some x')) (hhold : x.stage.holding)
    (hhold' : x'.stage.holding) (hb : x'.buf = x.buf)
    (hbuf : ∀ i, (s'.buf i).lock = (s.buf i).lock) : s'.Locks := by
  apply hl.frame hbuf
  intro g
  simp only [locked, hhandle]
  by_cases hg : g = h
  · simp [hg, hx, hhold, hhold', hb]
  · simp [update_of_ne hg]

/-- A dirty buffer stays dirty when a caller goes on that has not written to it. -/
theorem Dirty.keep (hd : s.Dirty i) (hx : s.handle h = some x) (hne : x.status = .dirty → i ≠ x.buf)
    (hhandle : s'.handle = update s.handle h (some x')) : s'.Dirty i := by
  obtain ⟨g, z, hz, hb, hs⟩ := hd
  have hg : g ≠ h := by
    intro hq
    rw [hq, hx, some.injEq] at hz
    exact hne (hz ▸ hs) (by rw [← hb, hz])
  exact ⟨g, z, by rw [hhandle, update_of_ne hg, hz], hb, hs⟩

/-- What `Contents` says about handles, after the one of `h` has become `x'`. -/
theorem forall_setHandle {P : ℕ → Handle → Prop}
    (hhandle : s'.handle = update s.handle h (some x')) (hmine : P h x')
    (hothers : ∀ g z, g ≠ h → s.handle g = some z → P g z) (g : ℕ) (z : Handle)
    (hz : s'.handle g = some z) : P g z := by
  rw [hhandle] at hz
  by_cases hg : g = h
  · rw [hg, update_self, some.injEq] at hz
    rw [hg, ← hz]
    exact hmine
  · rw [update_of_ne hg] at hz
    exact hothers g z hg hz

theorem latest_record (hdev : y.dev = s.dev) (b : ℕ) :
    (s.record y).latest s.dev b = if b = y.blockno then y.data else s.latest s.dev b := by
  rw [← hdev]
  by_cases hb : b = y.blockno <;> simp [record, hb]

theorem refcnt_setBuf : (s.setBuf i y).refcnt = update s.refcnt i y.refcnt :=
  comp_update _ _ _ _

theorem holds_pin {b : ℕ} {o : Option ℕ} :
    s.holds (update pins b o) = update (s.holds pins) (.inr b) o :=
  (Sum.update_elim_inr).symm

theorem holds_setHandle {o : Option Handle} (hhandle : s'.handle = update s.handle h o) :
    s'.holds pins = update (s.holds pins) (.inl h) (o.map Handle.buf) := by
  rw [holds, hhandle, comp_update]
  exact (Sum.update_elim_inl).symm

theorem like_recount (s : Cache) (i n : ℕ) :
    ∀ j, ((s.setBuf i { s.buf i with refcnt := n }).buf j).Like (s.buf j) :=
  forall_setBuf (P := fun j z => z.Like (s.buf j)) ⟨rfl, rfl, rfl, rfl, rfl⟩
    fun _ _ => ⟨rfl, rfl, rfl, rfl, rfl⟩

/-- What `bget` does up to the sleep lock: the buffer is one that caches the block, or one that
is not in use and is taken for a block that no buffer caches. -/
theorem Linked.bget_ok {dev b : ℕ} {c : Bool} (hl : s.Linked) (hok : s.bget dev b c = .ok s') :
    ∃ i y, s' = (s.setBuf i y).openHandle i dev b c ∧ i < nBuf ∧ y.refcnt = (s.buf i).refcnt + 1 ∧
      y.dev = dev ∧ y.blockno = b ∧ y.lock = (s.buf i).lock ∧
      (y.valid = (s.buf i).valid ∧ y.data = (s.buf i).data ∧ (s.buf i).dev = dev ∧
          (s.buf i).blockno = b ∨
        y.valid = false ∧ (s.buf i).refcnt = 0 ∧
          ∀ j < nBuf, ¬((s.buf j).dev = dev ∧ (s.buf j).blockno = b)) := by
  unfold Cache.bget at hok
  split at hok
  · cases hok
  · rename_i i hc
    cases hok
    obtain ⟨hi, hd, hb⟩ := hl.cached_some hc
    exact ⟨i, _, rfl, hi, rfl, hd, hb, rfl, .inl ⟨rfl, rfl, hd, hb⟩⟩
  · rename_i hc
    split at hok
    · cases hok
    · cases hok
    · rename_i i hu
      cases hok
      obtain ⟨hi, hz⟩ := hl.unused_some hu
      exact ⟨i, _, rfl, hi, by simp [hz], rfl, rfl, rfl, .inr ⟨rfl, hz, hl.cached_none hc⟩⟩

variable (hs : s.Sound pins)
include hs

/-- The invariant does not look at the header or at the progress of `commit`. -/
theorem Sound.env (hbuf : s'.buf = s.buf) (hlinks : s'.links = s.links)
    (hdisk : s'.disk = s.disk) (hhandle : s'.handle = s.handle) (hhandles : s'.handles = s.handles)
    (hdev : s'.dev = s.dev) (hlatest : s'.latest = s.latest) : s'.Sound pins := by
  refine ⟨?_, ?_, ?_, ?_⟩
  · rw [Linked, hlinks]
    exact hs.linked
  · apply hs.names.frame hdev hhandles
    · simp [hhandle]
    · simp [hbuf]
  · apply hs.locks.frame
    · simp [hbuf]
    · simp [locked, hhandle]
  · apply hs.contents.frame hdev hdisk hlatest
    · simp [hbuf]
    · intro h x hx
      exact .inl (hhandle ▸ hx)
    · intro h x hx _
      exact hhandle ▸ hx

/-- A change of a reference count, with the pins and handles that explain it. -/
theorem Sound.recount {n : ℕ} (pins' : ℕ → Option ℕ) (handle : ℕ → Option Handle)
    (hcounted : Counted ({ s with handle := handle }.holds pins') (update s.refcnt i n))
    (hold : ∀ g z, handle g = some z → s.handle g = some z)
    (hlocked : ∀ g, { s with handle := handle }.locked g = s.locked g)
    (hdirty : ∀ g z, s.handle g = some z → z.status = .dirty → handle g = some z)
    (hpins : ∀ b j, pins' b = some j → pins b = some j ∨
      (s.buf j).valid = true ∧ (s.buf j).blockno = b)
    (hdisk : ∀ b, pins' b = none → s.disk b = s.latest s.dev b) :
    ({ s.setBuf i { s.buf i with refcnt := n } with handle := handle } : Cache).Sound pins' := by
  have hkeep := like_recount s i n
  refine ⟨hs.linked, ?_, hs.locks.frame (fun j => (hkeep j).lock) hlocked, ?_⟩
  · constructor
    case dev => exact hs.names.dev
    case counted =>
      change Counted _ (s.setBuf i { s.buf i with refcnt := n }).refcnt
      rw [refcnt_setBuf]
      exact hcounted
    case handles =>
      intro g hg
      cases hz : handle g with
      | none => exact hz
      | some z => exact absurd (hold g z hz) (by simp [hs.names.handles g hg])
    case handle =>
      intro g z hz
      simp only [(hkeep z.buf).dev, (hkeep z.buf).blockno]
      exact hs.names.handle g z (hold g z hz)
    case pin =>
      intro b j hb
      simp only [(hkeep j).dev, (hkeep j).blockno]
      rcases hpins b j hb with hp | ⟨hv, hblock⟩
      · exact hs.names.pin b j hp
      · obtain ⟨hj, hjd⟩ := hs.contents.used j hv
        exact ⟨hj, hjd, hblock⟩
    case idle =>
      intro j
      simp only [(hkeep j).dev]
      exact hs.names.idle j
    case unique =>
      intro j k hj hk
      simp only [(hkeep j).dev, (hkeep j).blockno, (hkeep k).dev, (hkeep k).blockno]
      exact hs.names.unique j k hj hk
  · constructor
    case used =>
      intro j hj
      simp only [(hkeep j).dev]
      exact hs.contents.used j ((hkeep j).valid ▸ hj)
    case ready =>
      intro g z hz hr
      simp only [(hkeep z.buf).valid]
      exact hs.contents.ready g z (hold g z hz) hr
    case clean => exact fun g z hz => hs.contents.clean g z (hold g z hz)
    case pinned =>
      intro b j hb
      simp only [(hkeep j).valid]
      rcases hpins b j hb with hp | ⟨hv, -⟩
      · exact hs.contents.pinned b j hp
      · exact hv
    case coherent =>
      intro j hj
      simp only [(hkeep j).data, (hkeep j).blockno]
      apply (hs.contents.coherent j ((hkeep j).valid ▸ hj)).imp_right
      rintro ⟨g, z, hz, hb, hd⟩
      exact ⟨g, z, hdirty g z hz hd, hb, hd⟩
    case disk => exact hdisk
    case written => exact fun g z hz => hs.contents.written g z (hold g z hz)

section

variable (hx : s.handle h = some x)
include hx

/-- A caller that has the lock goes on with its own buffer and block; the buffer is valid then. -/
theorem Sound.proceed (hhold : x.stage.holding)
    (hhandle : s'.handle = update s.handle h (some x')) (hkey : x'.key = x.key)
    (hready : x'.stage = .ready) (hlinks : s'.links = s.links) (hdev : s'.dev = s.dev)
    (hhandles : s'.handles = s.handles) (hothers : ∀ j, j ≠ x.buf → s'.buf j = s.buf j)
    (hself : s'.buf x.buf = y) (hy : y.refcnt = (s.buf x.buf).refcnt ∧ y.dev = (s.buf x.buf).dev ∧
      y.blockno = (s.buf x.buf).blockno ∧ y.lock = (s.buf x.buf).lock) (hvalid : y.valid = true)
    (hblocks : ∀ b, b ≠ x.blockno → s'.disk b = s.disk b ∧ s'.latest s.dev b = s.latest s.dev b)
    (hdata : y.data = s'.latest s.dev x.blockno ∨ s'.Dirty x.buf)
    (hdisk : pins x.blockno = none ∨ x'.status = .written →
      s'.disk x.blockno = s'.latest s.dev x.blockno) : s'.Sound pins := by
  obtain ⟨hin, -, hxdev, hblock⟩ := hs.names.handle h x hx
  obtain ⟨hb, -, hxb⟩ : x'.buf = x.buf ∧ x'.dev = x.dev ∧ x'.blockno = x.blockno := by
    simpa [Handle.key] using hkey
  have hbuf : ∀ j, (s'.buf j).refcnt = (s.buf j).refcnt ∧ (s'.buf j).dev = (s.buf j).dev ∧
      (s'.buf j).blockno = (s.buf j).blockno ∧ (s'.buf j).lock = (s.buf j).lock := by
    intro j
    by_cases hj : j = x.buf
    · rw [hj, hself]
      exact hy
    · rw [hothers j hj]
      exact ⟨rfl, rfl, rfl, rfl⟩
  have hvalids : ∀ j, (s.buf j).valid = true → (s'.buf j).valid = true := by
    intro j hv
    by_cases hj : j = x.buf
    · rwa [hj, hself]
    · rwa [hothers j hj]
  refine ⟨?_, ?_, ?_, ?_⟩
  · rw [Linked, hlinks]
    exact hs.linked
  · exact hs.names.tend hx hhandle hkey hdev hhandles fun j =>
      ⟨(hbuf j).1, (hbuf j).2.1, (hbuf j).2.2.1⟩
  · exact hs.locks.keep hx hhandle hhold (by simp [hready, Stage.holding]) hb fun j =>
      (hbuf j).2.2.2
  · constructor
    case used =>
      intro j hj
      rw [(hbuf j).2.1, hdev]
      by_cases hq : j = x.buf
      · rw [hq]
        exact ⟨hin, hxdev⟩
      · exact hs.contents.used j (hothers j hq ▸ hj)
    case ready =>
      exact forall_setHandle (P := fun _ z => z.stage = .ready →
        (s'.buf z.buf).valid = true) hhandle
        (fun _ => by rwa [hb, hself]) fun g z _ hz hr => hvalids _ (hs.contents.ready g z hz hr)
    case clean =>
      exact forall_setHandle (P := fun _ z => z.stage ≠ .ready → z.status = .clean) hhandle
        (fun hn => absurd hready hn) fun g z _ hz => hs.contents.clean g z hz
    case pinned => exact fun b j hj => hvalids j (hs.contents.pinned b j hj)
    case coherent =>
      intro j hj
      rw [hdev, (hbuf j).2.2.1]
      by_cases hq : j = x.buf
      · rw [hq, hself, hblock]
        exact hdata
      · rw [hothers j hq] at hj ⊢
        obtain ⟨hj', hjd⟩ := hs.contents.used j hj
        have hne : (s.buf j).blockno ≠ x.blockno := fun hjb =>
          hq (hs.names.unique j x.buf hj' hin hjd hxdev (hjb.trans hblock.symm))
        rw [(hblocks _ hne).2]
        exact (hs.contents.coherent j hj).imp_right fun hd => hd.keep hx (fun _ => hq) hhandle
    case disk =>
      intro b hp
      rw [hdev]
      by_cases hq : b = x.blockno
      · rw [hq]
        exact hdisk (.inl (hq ▸ hp))
      · rw [(hblocks b hq).1, (hblocks b hq).2]
        exact hs.contents.disk b hp
    case written =>
      refine forall_setHandle (P := fun _ z => z.status = .written →
        s'.disk z.blockno = s'.latest s'.dev z.blockno) hhandle ?_ ?_
      · intro hw
        rw [hdev, hxb]
        exact hdisk (.inr hw)
      · intro g z hg hz hw
        -- another caller with the same block would have the same lock
        have hne : z.blockno ≠ x.blockno := by
          intro hq
          obtain ⟨hzin, -, hzdev, hzblock⟩ := hs.names.handle g z hz
          have hsame := hs.names.unique x.buf z.buf hin hzin hxdev hzdev
            (hblock.trans (hq.symm.trans hzblock.symm))
          have hzr : z.stage = .ready := by
            by_contra hnr
            simp [hs.contents.clean g z hz hnr] at hw
          exact hg (hs.locks.exclusive hx hz hhold (by simp [hzr, Stage.holding]) hsame).symm
        rw [hdev, (hblocks _ hne).1, (hblocks _ hne).2]
        exact hs.contents.written g z hz hw

theorem Sound.fill (hl : x.stage = .locked) : (s.fill h x).Sound pins := by
  have hclean := hs.contents.clean h x hx (by simp [hl])
  obtain ⟨hin, -, hdev, hblock⟩ := hs.names.handle h x hx
  have hhold : x.stage.holding := by simp [hl, Stage.holding]
  unfold Cache.fill
  split_ifs with hv
  · have hdata := hs.contents.coherent x.buf hv
    rw [hblock] at hdata
    refine hs.proceed hx hhold rfl rfl rfl rfl rfl rfl (fun _ _ => rfl) rfl ⟨rfl, rfl, rfl, rfl⟩ hv
      (fun _ _ => ⟨rfl, rfl⟩) (hdata.imp_right fun hd => hd.keep hx (by simp [hclean]) rfl) ?_
    rintro (hp | hw)
    · exact hs.contents.disk _ hp
    · simp [hclean] at hw
  · have hunpinned : pins x.blockno = none := by
      cases hp : pins x.blockno with
      | none => rfl
      | some j =>
        obtain ⟨hj, hjd, hjb⟩ := hs.names.pin _ _ hp
        have hq := hs.names.unique j x.buf hj hin hjd hdev (hjb.trans hblock.symm)
        exact absurd (hs.contents.pinned _ _ hp) (hq ▸ hv)
    have hdisk := hs.contents.disk _ hunpinned
    refine hs.proceed hx hhold rfl rfl rfl rfl rfl rfl (fun j hj => setBuf_other s _ hj)
      (setBuf_self s _ _) ⟨rfl, rfl, rfl, rfl⟩ rfl (fun _ _ => ⟨rfl, rfl⟩) (.inl ?_) fun _ => hdisk
    rw [hblock]
    exact hdisk

theorem Sound.modify {data : Bytes} (hr : x.stage = .ready) : (s.modify h x data).Sound pins := by
  refine hs.proceed hx (by simp [hr, Stage.holding]) rfl rfl hr rfl rfl rfl
    (fun j hj => setBuf_other s _ hj) (setBuf_self s _ _) ⟨rfl, rfl, rfl, rfl⟩
    (hs.contents.ready h x hx hr) (fun _ _ => ⟨rfl, rfl⟩)
    (.inr ⟨h, _, update_self _ _ _, rfl, rfl⟩) ?_
  rintro (hp | hw)
  · exact hs.contents.disk _ hp
  · cases hw

omit hx in
/-- The caller makes its data the latest contents of the block, on disk or by logging them. -/
theorem Sound.publish {st : Status} (disk : ℕ → Bytes)
    (hx : s.handle h = some x) (hr : x.stage = .ready)
    (hothers : ∀ b, b ≠ x.blockno → disk b = s.disk b)
    (hmine : disk x.blockno = (s.buf x.buf).data ∨ pins x.blockno ≠ none ∧ st = .clean) :
    (({ s with disk := disk }.record (s.buf x.buf)).setHandle h
    (some { x with status := st })).Sound
      pins := by
  obtain ⟨-, -, hdev, hblock⟩ := hs.names.handle h x hx
  have hlatest : ∀ b, ({ s with disk := disk }.record (s.buf x.buf)).latest s.dev b =
      if b = x.blockno then (s.buf x.buf).data else s.latest s.dev b := by
    intro b
    rw [← hblock]
    exact latest_record (s := { s with disk := disk }) hdev b
  refine hs.proceed hx (by simp [hr, Stage.holding]) rfl rfl hr rfl rfl rfl (fun _ _ => rfl) rfl
    ⟨rfl, rfl, rfl, rfl⟩ (hs.contents.ready h x hx hr)
    (fun b hb => ⟨hothers b hb, (hlatest b).trans (if_neg hb)⟩)
    (.inl ((hlatest _).trans (if_pos rfl)).symm) fun hq => ?_
  refine Eq.trans ?_ ((hlatest _).trans (if_pos rfl)).symm
  rcases hmine with hd | ⟨hp, rfl⟩
  · exact hd
  · rcases hq with hnone | hw
    · exact absurd hnone hp
    · cases hw

theorem Sound.bwrite (hr : x.stage = .ready) (hok : s.bwrite h x = .ok s') : s'.Sound pins := by
  unfold Cache.bwrite at hok
  split_ifs at hok
  cases hok
  obtain ⟨-, -, -, hblock⟩ := hs.names.handle h x hx
  apply hs.publish _ hx hr
  · intro b hb
    rw [hblock, update_of_ne hb]
  · refine .inl ?_
    rw [hblock, update_self]

theorem Sound.logged (hr : x.stage = .ready) (hp : pins x.blockno ≠ none) :
    ((s.record (s.buf x.buf)).setHandle h (some { x with status := .clean })).Sound pins :=
  hs.publish s.disk hx hr (fun _ _ => rfl) (.inr ⟨hp, rfl⟩)

theorem Sound.bpin (hr : x.stage = .ready) (hp : pins x.blockno = none) :
    (s.bpin x.buf).Sound (update pins x.blockno (some x.buf)) := by
  obtain ⟨-, -, -, hblock⟩ := hs.names.handle h x hx
  refine hs.recount _ s.handle ?_ (fun _ _ hz => hz) (fun _ => rfl) (fun _ _ hz _ => hz)
    ?_ ?_
  · rw [holds_pin]
    exact hs.names.counted.take (by simp [holds, hp])
  · intro b j hb
    by_cases hq : b = x.blockno
    · rw [hq, update_self, some.injEq] at hb
      subst hb
      exact .inr ⟨hs.contents.ready h x hx hr, hblock.trans hq.symm⟩
    · rw [update_of_ne hq] at hb
      exact .inl hb
  · intro b hb
    have hq : b ≠ x.blockno := fun hq => by simp [hq] at hb
    rw [update_of_ne hq] at hb
    exact hs.contents.disk b hb

/-- `bunpin` after `bwrite`, by the caller that has the lock. -/
theorem Sound.bunpin (hw : x.status = .written) (hp : pins x.blockno ≠ none) :
    (s.bunpin x.buf).Sound (update pins x.blockno none) := by
  obtain ⟨hin, -, hdev, hblock⟩ := hs.names.handle h x hx
  obtain ⟨j, hj⟩ := ne_none_iff_exists'.mp hp
  obtain ⟨hjin, hjdev, hjblock⟩ := hs.names.pin _ _ hj
  have hq : j = x.buf := hs.names.unique j x.buf hjin hin hjdev hdev (hjblock.trans hblock.symm)
  subst hq
  refine hs.recount _ s.handle ?_ (fun _ _ hz => hz) (fun _ => rfl) (fun _ _ hz _ => hz)
    ?_ ?_
  · rw [holds_pin]
    exact hs.names.counted.drop (h := .inr x.blockno) (a := x.buf) (by simp [holds, hj])
  · intro b _ hb
    have hne : b ≠ x.blockno := fun hq => by simp [hq] at hb
    rw [update_of_ne hne] at hb
    exact .inl hb
  · intro b hb
    by_cases hq : b = x.blockno
    · rw [hq]
      exact hs.contents.written h x hx hw
    · rw [update_of_ne hq] at hb
      exact hs.contents.disk b hb

theorem Sound.drop (hr : x.stage = .released) : (s.drop h x).Sound pins := by
  obtain ⟨hin, -, -, -⟩ := hs.names.handle h x hx
  have hclean := hs.contents.clean h x hx (by simp [hr])
  have hne : ∀ g z, s.handle g = some z → z.status = .dirty → g ≠ h := by
    rintro g z hz hd rfl
    rw [hx, some.injEq] at hz
    simp [← hz, hclean] at hd
  have hsound := hs.recount (i := x.buf) (n := (s.buf x.buf).refcnt - 1) pins
    (update s.handle h none)
    (by
      rw [holds_setHandle (s := s) (h := h) (o := none) rfl]
      exact hs.names.counted.drop (holds_handle hx))
    (fun g z hz => by
      have hg : g ≠ h := fun hq => by simp [hq] at hz
      rwa [update_of_ne hg] at hz)
    (fun g => by
      by_cases hq : g = h
      · simp [locked, hq, hx, hr, Stage.holding]
      · simp [locked, update_of_ne hq])
    (fun g z hz hd => by rwa [update_of_ne (hne g z hz hd)])
    (fun _ _ hp => .inl hp) hs.contents.disk
  unfold Cache.drop
  simp only
  split_ifs
  · refine ⟨hs.linked.move hin rfl, ?_, ?_, ?_⟩
    · exact hsound.names.frame rfl rfl (fun _ => rfl) fun _ => ⟨rfl, rfl, rfl⟩
    · exact hsound.locks.frame (fun _ => rfl) fun _ => rfl
    · exact hsound.contents.frame rfl rfl rfl (fun _ => ⟨rfl, rfl, rfl, rfl⟩)
        (fun _ _ hz => .inl hz)
        fun _ _ hz _ => hz
  · exact hsound

end

/-- The new handle is on a buffer for its block, and every buffer that something holds is as
before but for its count. -/
theorem Sound.bget {b : ℕ} {c : Bool} (hok : s.bget s.dev b c = .ok s') : s'.Sound pins := by
  obtain ⟨i, y, rfl, hi, hcount, hyd, hyb, hyl, hcase⟩ := hs.linked.bget_ok hok
  have hself : (s.setBuf i y).buf i = y := setBuf_self s i y
  have hother : ∀ j, j ≠ i → ((s.setBuf i y).buf j).Like (s.buf j) := by
    intro j hj
    rw [setBuf_other s y hj]
    exact ⟨rfl, rfl, rfl, rfl, rfl⟩
  have hfound : y.valid = true ∨ (s.buf i).refcnt ≠ 0 → y.Like (s.buf i) := by
    intro hor
    rcases hcase with ⟨hv, hd, hdev, hb⟩ | ⟨hv, hz, -⟩
    · exact ⟨hv, hd, hyd.trans hdev.symm, hyb.trans hb.symm, hyl⟩
    · simp [hv, hz] at hor
  have hheld : ∀ h x, s.handle h = some x → ((s.setBuf i y).buf x.buf).Like (s.buf x.buf) := by
    intro h x hx
    by_cases hq : x.buf = i
    · have hpos := hs.names.pos hx
      rw [hq] at hpos ⊢
      rw [hself]
      exact hfound (.inr (by omega))
    · exact hother _ hq
  have hpin : ∀ b j, pins b = some j → ((s.setBuf i y).buf j).Like (s.buf j) := by
    intro b j hb
    by_cases hq : j = i
    · have hpos := hs.names.counted.pos (h := .inr b) (a := j) (by simp [holds, hb])
      rw [hq] at hpos ⊢
      rw [hself]
      exact hfound (.inr (by simpa [refcnt] using hpos.ne'))
    · exact hother _ hq
  have hnew : ∀ g z, ((s.setBuf i y).openHandle i s.dev b c).handle g = some z →
      s.handle g = some z ∨ z = ⟨s.dev, b, i, .waiting, .clean, c⟩ := by
    intro g z hz
    simp only [openHandle] at hz
    by_cases hq : g = (s.setBuf i y).handles
    · rw [hq, update_self, some.injEq] at hz
      exact .inr hz.symm
    · rw [update_of_ne hq] at hz
      exact .inl hz
  have hkeep : ∀ g z, s.handle g = some z →
      ((s.setBuf i y).openHandle i s.dev b c).handle g = some z := by
    intro g z hz
    have hq : g ≠ s.handles := fun hq => by simp [hq, hs.names.handles _ le_rfl] at hz
    exact (update_of_ne hq _ _).trans hz
  refine ⟨hs.linked, ?_, ?_, ?_⟩
  · constructor
    case dev => exact hs.names.dev
    case counted =>
      have htake := hs.names.counted.take (h := .inl s.handles) (a := i)
        (by simp [holds, hs.names.handles _ le_rfl])
      rw [holds_setHandle (s := s) (h := s.handles) rfl]
      change Counted _ (s.setBuf i y).refcnt
      rw [refcnt_setBuf, hcount]
      exact htake
    case handles =>
      intro g hg
      have hlt : s.handles + 1 ≤ g := hg
      have hq : g ≠ s.handles := by omega
      exact (update_of_ne hq _ _).trans (hs.names.handles g (by omega))
    case handle =>
      intro g z hz
      change z.buf < nBuf ∧ z.dev = s.dev ∧ ((s.setBuf i y).buf z.buf).dev = s.dev ∧
        ((s.setBuf i y).buf z.buf).blockno = z.blockno
      rcases hnew g z hz with hz | rfl
      · rw [(hheld g z hz).dev, (hheld g z hz).blockno]
        exact hs.names.handle g z hz
      · rw [hself]
        exact ⟨hi, rfl, hyd, hyb⟩
    case pin =>
      intro b' j hb'
      change j < nBuf ∧ ((s.setBuf i y).buf j).dev = s.dev ∧ ((s.setBuf i y).buf j).blockno = b'
      rw [(hpin b' j hb').dev, (hpin b' j hb').blockno]
      exact hs.names.pin b' j hb'
    case idle =>
      exact forall_setBuf (P := fun _ z => z.dev = s.dev ∨ z.dev = 0) (.inl hyd)
        fun j _ => hs.names.idle j
    case unique =>
      have hone : ∀ k, k < nBuf → k ≠ i → (s.buf k).dev = s.dev → (s.buf k).blockno ≠ b := by
        intro k hk hne hd hb
        rcases hcase with ⟨-, -, hdi, hbi⟩ | ⟨-, -, hnot⟩
        · exact hne (hs.names.unique k i hk hi hd hdi (hb.trans hbi.symm))
        · exact hnot k hk ⟨hd, hb⟩
      intro j k hj hk hjd hkd hjk
      change ((s.setBuf i y).buf j).dev = s.dev at hjd
      change ((s.setBuf i y).buf k).dev = s.dev at hkd
      change ((s.setBuf i y).buf j).blockno = ((s.setBuf i y).buf k).blockno at hjk
      by_cases hqj : j = i <;> by_cases hqk : k = i
      · rw [hqj, hqk]
      · rw [hqj, hself, hyb, (hother k hqk).blockno] at hjk
        rw [(hother k hqk).dev] at hkd
        exact absurd hjk.symm (hone k hk hqk hkd)
      · rw [hqk, hself, hyb, (hother j hqj).blockno] at hjk
        rw [(hother j hqj).dev] at hjd
        exact absurd hjk (hone j hj hqj hjd)
      · rw [(hother j hqj).blockno, (hother k hqk).blockno] at hjk
        rw [(hother j hqj).dev] at hjd
        rw [(hother k hqk).dev] at hkd
        exact hs.names.unique j k hj hk hjd hkd hjk
  · apply hs.locks.frame
    · exact forall_setBuf (P := fun j z => z.lock = (s.buf j).lock) hyl fun _ _ => rfl
    · intro g
      by_cases hq : g = s.handles
      · have hnone := hs.names.handles s.handles le_rfl
        simp [locked, openHandle, setBuf, hq, hnone, Stage.holding]
      · simp [locked, openHandle, setBuf, update_of_ne hq]
  · constructor
    case used =>
      exact forall_setBuf (P := fun j z => z.valid = true → j < nBuf ∧ z.dev = s.dev)
        (fun _ => ⟨hi, hyd⟩) fun j _ => hs.contents.used j
    case ready =>
      intro g z hz hr
      rcases hnew g z hz with hz | rfl
      · exact (hheld g z hz).valid.trans (hs.contents.ready g z hz hr)
      · cases hr
    case clean =>
      intro g z hz hr
      rcases hnew g z hz with hz | rfl
      · exact hs.contents.clean g z hz hr
      · rfl
    case pinned =>
      intro b' j hb'
      exact (hpin b' j hb').valid.trans (hs.contents.pinned b' j hb')
    case coherent =>
      have hdirty : ∀ j, s.Dirty j → ((s.setBuf i y).openHandle i s.dev b c).Dirty j := by
        rintro j ⟨g, z, hz, hb, hd⟩
        exact ⟨g, z, hkeep g z hz, hb, hd⟩
      refine forall_setBuf (P := fun j z => z.valid = true → z.data = s.latest s.dev z.blockno ∨
        ((s.setBuf i y).openHandle i s.dev b c).Dirty j) ?_ ?_
      · intro hv
        have hlike := hfound (.inl hv)
        rw [hlike.data, hlike.blockno]
        exact (hs.contents.coherent i (hlike.valid ▸ hv)).imp_right (hdirty i)
      · intro j _ hv
        exact (hs.contents.coherent j hv).imp_right (hdirty j)
    case disk => exact hs.contents.disk
    case written =>
      intro g z hz hw
      rcases hnew g z hz with hz | rfl
      · exact hs.contents.written g z hz hw
      · cases hw

end Acts

end Cache

end Xv6.Bio
