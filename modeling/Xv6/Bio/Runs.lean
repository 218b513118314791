import Xv6.Bio.Commit

/-!
# Runs of the buffer cache

In every run on the log's device `bread` returns the contents last logged or written, and no step
recycles a buffer in use. `log_write` tells blocks apart by their number alone: a block of another
device with the number of a logged block is not pinned, and what was logged for it can be lost.
-/
namespace Xv6.Bio

open Xv6.Library Function List

namespace Cache

variable {s s' : Cache} {pins : ℕ → Option ℕ} {h k : ℕ} {x : Handle}

section Steps

theorem Keeps.bget {dev b : ℕ} {c : Bool} (hl : s.Linked) (hok : s.bget dev b c = .ok s') :
    s.Keeps s' := by
  obtain ⟨i, y, rfl, -, -, hyd, hyb, -, hcase⟩ := hl.bget_ok hok
  refine Keeps.of_setBuf rfl fun hpos => ?_
  rcases hcase with ⟨-, -, hd, hb⟩ | ⟨-, hz, -⟩
  · exact ⟨hyd.trans hd.symm, hyb.trans hb.symm⟩
  · omega

theorem Keeps.perform {op : Op} (hl : s.Linked) (hok : s.perform op = .ok s') : s.Keeps s' := by
  cases op with
  | bget k b =>
    exact Keeps.bget (s := { s with var := update s.var k (some s.handles) }) hl hok
  | acquire k =>
    obtain ⟨h, x, -, -, -, -, hf⟩ := viaVar_ok hok
    exact (acquire_moves hf).keeps
  | fill k =>
    obtain ⟨h, x, -, -, -, -, hf⟩ := viaVar_ok hok
    cases hf
    exact fill_moves.keeps
  | memmove k k' =>
    obtain ⟨h, x, -, -, -, -, hf⟩ := viaVar_ok hok
    obtain ⟨h', x', -, -, -, -, hf'⟩ := viaVar_ok hf
    cases hf'
    exact Keeps.of_setBuf rfl fun _ => ⟨rfl, rfl⟩
  | putHead k =>
    obtain ⟨h, x, -, -, -, -, hf⟩ := viaVar_ok hok
    cases hf
    exact Keeps.of_setBuf rfl fun _ => ⟨rfl, rfl⟩
  | bwrite k =>
    obtain ⟨h, x, -, -, -, -, hf⟩ := viaVar_ok hok
    exact (bwrite_moves hf).keeps
  | bunpin k b =>
    obtain ⟨h, x, -, -, -, -, hf⟩ := viaVar_ok hok
    cases hf
    exact Keeps.of_setBuf rfl fun _ => ⟨rfl, rfl⟩
  | unlock k =>
    obtain ⟨h, x, -, -, -, -, hf⟩ := viaVar_ok hok
    exact (unlock_moves hf).keeps
  | drop k =>
    obtain ⟨h, x, -, -, -, -, hf⟩ := viaVar_ok hok
    cases hf
    exact drop_moves.keeps
  | clear =>
    cases hok
    exact Keeps.of_eq rfl

/-- No step recycles a buffer in use. -/
theorem Keeps.step {e : Event} (hl : s.Linked) (hok : s.step e = .ok s') : s.Keeps s' := by
  cases e with
  | bget dev b => exact Keeps.bget hl hok
  | acquire h =>
    obtain ⟨x, -, -, -, hf⟩ := via_ok hok
    exact (acquire_moves hf).keeps
  | fill h =>
    obtain ⟨x, -, -, -, hf⟩ := via_ok hok
    cases hf
    exact fill_moves.keeps
  | modify h data =>
    obtain ⟨x, -, -, -, hf⟩ := via_ok hok
    cases hf
    exact Keeps.of_setBuf rfl fun _ => ⟨rfl, rfl⟩
  | logWrite h =>
    obtain ⟨x, -, -, -, hf⟩ := via_ok hok
    exact (logWrite_moves hf).2.keeps
  | bwrite h =>
    obtain ⟨x, -, -, -, hf⟩ := via_ok hok
    exact (bwrite_moves hf).keeps
  | unlock h =>
    obtain ⟨x, -, -, -, hf⟩ := via_ok hok
    exact (unlock_moves hf).keeps
  | drop h =>
    obtain ⟨x, -, -, -, hf⟩ := via_ok hok
    cases hf
    exact drop_moves.keeps
  | beginOp =>
    simp only [Cache.step, Cache.beginOp] at hok
    split_ifs at hok
    cases hok
    exact Keeps.of_eq rfl
  | endOp =>
    simp only [Cache.step, Cache.endOp] at hok
    split_ifs at hok
    · cases hok
      exact Keeps.of_eq rfl
    · cases hok
      exact Keeps.of_eq rfl
  | commit =>
    simp only [Cache.step] at hok
    split at hok
    · cases hok
    · rename_i op ops _
      exact Keeps.perform (s := { s with todo := ops }) hl hok
  | finish =>
    simp only [Cache.step] at hok
    split_ifs at hok
    cases hok
    exact Keeps.of_eq rfl

def OnLog (s : Cache) : Event → Prop
  | .bget dev _ => dev = s.dev
  | _ => True

instance (s : Cache) (e : Event) : Decidable (s.OnLog e) :=
  match e with
  | .bget dev _ => inferInstanceAs (Decidable (dev = s.dev))
  | .acquire _ | .fill _ | .modify .. | .logWrite _ | .bwrite _ | .unlock _ | .drop _ | .beginOp
  | .endOp | .commit | .finish => .isTrue trivial

def ProperOnLog (s : Cache) (e : Event) : Prop := s.Proper e ∧ s.OnLog e

instance (s : Cache) (e : Event) : Decidable (s.ProperOnLog e) :=
  inferInstanceAs (Decidable (s.Proper e ∧ s.OnLog e))

theorem beginOp_sound (hs : s.Sound pins) (hc : s.Script pins) (hok : s.beginOp = .ok s') :
    s'.Sound pins ∧ s'.Script pins := by
  unfold beginOp at hok
  split_ifs at hok with hcm
  cases hok
  refine ⟨hs.env rfl rfl rfl rfl rfl rfl rfl, ?_⟩
  exact ⟨hc.vars, hc.apart, hc.mine, hc.inOrder, hc.clears, hc.busy, fun hq => absurd hq hcm,
    hc.nodup, hc.pinned⟩

theorem endOp_sound (hs : s.Sound pins) (hc : s.Script pins) (hok : s.endOp = .ok s') :
    s'.Sound pins ∧ s'.Script pins := by
  unfold endOp at hok
  split_ifs at hok with hzero hcm hone
  · cases hok
    refine ⟨hs.env rfl rfl rfl rfl rfl rfl rfl, ?_⟩
    have htodo : s.todo = [] := by
      by_contra ht
      exact hcm (hc.busy ht)
    have hview : s.view = Op.free := by
      have hin := hc.inOrder
      rwa [htodo, Op.inOrder_nil] at hin
    have hto : ({ s with
        outstanding := 0
        committing := true
        todo := Op.commit s.start s.lh } : Cache).toInstall = s.toInstall := by
      by_cases hlh : s.lh.length > 0
      · have hne : Op.commit s.start s.lh ≠ [] := ne_nil_of_mem (Op.clear_mem_commit _ _ hlh)
        simp [toInstall, htodo, hne, Op.unpins_commit _ _ hlh]
      · simp [toInstall, htodo, Op.commit, hlh]
    constructor
    case vars => exact hc.vars
    case apart => exact hc.apart
    case mine => exact hc.mine
    case inOrder =>
      change Op.InOrder s.view (Op.commit s.start s.lh)
      rw [hview]
      exact Op.inOrder_commit _ _
    case clears =>
      intro ht
      by_cases hlh : s.lh.length > 0
      · exact .inl (Op.clear_mem_commit _ _ hlh)
      · simp [Op.commit, hlh] at ht
    case busy => exact fun _ => rfl
    case alone => exact fun _ => rfl
    case nodup =>
      rw [hto]
      exact hc.nodup
    case pinned =>
      rw [hto]
      exact hc.pinned
  · cases hok
    refine ⟨hs.env rfl rfl rfl rfl rfl rfl rfl, ?_⟩
    exact ⟨hc.vars, hc.apart, hc.mine, hc.inOrder, hc.clears, hc.busy, fun hq => absurd hq hcm,
      hc.nodup, hc.pinned⟩

/-- Every step on the log's device keeps the invariants. -/
theorem step_sound {e : Event} (hs : s.Sound pins) (hc : s.Script pins) (hp : s.Proper e)
    (hlog : s.OnLog e) (hok : s.step e = .ok s') : ∃ pins', s'.Sound pins' ∧ s'.Script pins' := by
  cases e with
  | bget dev b =>
    have hd : dev = s.dev := hlog
    subst hd
    obtain ⟨ha, hlh⟩ := hc.aside_bget hs hok
    exact ⟨pins, hs.bget hok, hc.bystander ha hlh⟩
  | acquire h =>
    obtain ⟨x, hx, hg, hx', hf⟩ := via_ok hok
    exact ⟨pins, hs.acquire hx hg hf, hc.client hx hx' (acquire_moves hf)⟩
  | fill h =>
    obtain ⟨x, hx, hg, hx', hf⟩ := via_ok hok
    cases hf
    exact ⟨pins, hs.fill hx hg, hc.client hx hx' fill_moves⟩
  | modify h data =>
    obtain ⟨x, hx, hg, hx', hf⟩ := via_ok hok
    cases hf
    exact ⟨pins, hs.modify hx hg, hc.client hx hx' modify_moves⟩
  | logWrite h =>
    obtain ⟨x, hx, hg, hx', hf⟩ := via_ok hok
    exact logWrite_sound hs hc hx hg hx' hf
  | bwrite h =>
    obtain ⟨x, hx, hg, hx', hf⟩ := via_ok hok
    exact ⟨pins, hs.bwrite hx hg hf, hc.client hx hx' (bwrite_moves hf)⟩
  | unlock h =>
    obtain ⟨x, hx, hg, hx', hf⟩ := via_ok hok
    have hclean : x.status ≠ .dirty := by simpa [Proper, hx] using hp
    exact ⟨pins, hs.unlock hx hclean hf, hc.client hx hx' (unlock_moves hf)⟩
  | drop h =>
    obtain ⟨x, hx, hg, hx', hf⟩ := via_ok hok
    cases hf
    exact ⟨pins, hs.drop hx hg, hc.client hx hx' drop_moves⟩
  | beginOp => exact ⟨pins, beginOp_sound hs hc hok⟩
  | endOp => exact ⟨pins, endOp_sound hs hc hok⟩
  | commit =>
    simp only [step] at hok
    split at hok
    · cases hok
    · exact perform_sound hs hc ‹_› hok
  | finish =>
    simp only [step] at hok
    split_ifs at hok with hq
    cases hok
    refine ⟨pins, hs.env rfl rfl rfl rfl rfl rfl rfl, ?_⟩
    exact ⟨hc.vars, hc.apart, hc.mine, hc.inOrder, hc.clears, fun ht => absurd hq.2 ht,
      (fun hcm => by cases hcm), hc.nodup, hc.pinned⟩

end Steps

section Runs

variable {disk : ℕ → Bytes} {dev start size : ℕ}

theorem binitLinks_circular (l : List ℕ) (hl : l.Nodup) (hlt : ∀ b ∈ l, b ≠ nBuf) :
    (l.foldl (fun L b => Links.pushFront L nBuf b) ⟨fun _ => nBuf, fun _ => nBuf⟩).Circular nBuf
      l.reverse := by
  induction l using reverseRecOn with
  | nil => exact Links.circular_nil nBuf
  | append_singleton l b ih =>
    rw [nodup_append_comm, singleton_append, nodup_cons] at hl
    have hrest := ih hl.2 fun c hc => hlt c (mem_append_left _ hc)
    rw [foldl_append, reverse_append, reverse_singleton, singleton_append]
    apply hrest.pushFront
    simp only [mem_cons, mem_reverse, not_or]
    exact ⟨hlt b (by simp), hl.1⟩

theorem binit_linked : (binit disk dev start size).Linked := by
  refine ⟨(range nBuf).reverse, reverse_perm _, ?_⟩
  apply binitLinks_circular _ nodup_range
  intro b hb
  exact (mem_range.mp hb).ne

theorem binit_sound (hdev : dev ≠ 0) : (binit disk dev start size).Sound fun _ => none where
  linked := binit_linked
  names :=
    { dev := hdev
      counted := by
        have hnone : (binit disk dev start size).holds (fun _ => none) = fun _ => none := by
          funext o
          cases o <;> rfl
        rw [hnone]
        exact Counted.none fun _ => rfl
      handles := fun _ _ => rfl
      handle := by simp [binit]
      pin := by simp
      idle := fun _ => .inr rfl
      unique := fun i j _ _ hi => absurd hi.symm hdev }
  locks := by
    intro i h
    simp [binit, locked]
  contents :=
    { used := by simp [binit]
      ready := by simp [binit]
      clean := by simp [binit]
      pinned := by simp
      coherent := by simp [binit]
      disk := fun _ _ => rfl
      written := by simp [binit] }

theorem binit_script : (binit disk dev start size).Script fun _ => none where
  vars := by simp [binit]
  apart := by simp [binit]
  mine := by simp [binit]
  inOrder := Op.inOrder_nil.mpr rfl
  clears := by simp [binit]
  busy := by simp [binit]
  alone := by simp [binit]
  nodup := by simp [toInstall, binit]
  pinned := by simp [toInstall, binit]

theorem reach_sound (hdev : dev ≠ 0)
    (hr : Reach (stepRel step) ProperOnLog (binit disk dev start size) s) :
    ∃ pins, s.Sound pins ∧ s.Script pins := by
  apply hr.invariant (I := fun s => ∃ pins, s.Sound pins ∧ s.Script pins)
  · exact ⟨_, binit_sound hdev, binit_script⟩
  · rintro s e t ⟨pins, hs, hc⟩ ⟨hp, hlog⟩ hok
    exact step_sound hs hc hp hlog hok

/-- A caller that has a buffer, and has not changed it, sees the latest contents of its block. -/
theorem Sound.latest (hs : s.Sound pins) (hx : s.handle h = some x) (hr : x.stage = .ready)
    (hd : x.status ≠ .dirty) : (s.buf x.buf).data = s.latest x.dev x.blockno := by
  obtain ⟨-, hxdev, -, hblock⟩ := hs.names.handle h x hx
  rw [hxdev, ← hblock]
  rcases hs.contents.coherent x.buf (hs.contents.ready h x hx hr) with hq | ⟨g, z, hz, hb, hst⟩
  · exact hq
  · have hzr : z.stage = .ready := by
      by_contra hne
      have hc := hs.contents.clean g z hz hne
      simp [hc] at hst
    have hsame := hs.locks.exclusive hx hz (by simp [hr, Stage.holding])
      (by simp [hzr, Stage.holding]) hb.symm
    subst hsame
    rw [hx, Option.some.injEq] at hz
    exact absurd (hz ▸ hst) hd

/-- From `binit` on, when every buffer is asked for on the log's device: the list is a circular
doubly linked list of all buffers, no two buffers cache the same block, a buffer in use keeps its
block, the blocks of the header that `install_trans` has not yet dealt with are cached in buffers
in use, and `bread` returns the contents last logged or written. -/
theorem cache_coherent (hdev : dev ≠ 0)
    (hr : Reach (stepRel step) ProperOnLog (binit disk dev start size) s) :
    (∃ l, l.Perm (List.range nBuf) ∧ s.links.Circular nBuf l) ∧
    (∀ i j, i < nBuf → j < nBuf → (s.buf i).dev ≠ 0 → (s.buf i).dev = (s.buf j).dev →
      (s.buf i).blockno = (s.buf j).blockno → i = j) ∧
    (∀ e s', s.step e = .ok s' → ∀ i, 0 < (s.buf i).refcnt →
      (s'.buf i).dev = (s.buf i).dev ∧ (s'.buf i).blockno = (s.buf i).blockno) ∧
    (∀ b ∈ s.toInstall, ∃ i < nBuf, (s.buf i).dev = s.dev ∧ (s.buf i).blockno = b ∧
      (s.buf i).valid = true ∧ 0 < (s.buf i).refcnt) ∧
    ∀ h x, s.handle h = some x → x.stage = .ready → x.status ≠ .dirty →
      (s.buf x.buf).data = s.latest x.dev x.blockno := by
  obtain ⟨pins, hs, hc⟩ := reach_sound hdev hr
  refine ⟨hs.linked, ?_, fun e s' hok => Keeps.step hs.linked hok, ?_,
    fun h x hx hready hd => hs.latest hx hready hd⟩
  · intro i j hi hj hne hd hb
    have hid := (hs.names.idle i).resolve_right hne
    exact hs.names.unique i j hi hj hid (hd ▸ hid) hb
  · intro b hb
    obtain ⟨i, hi⟩ := Option.ne_none_iff_exists'.mp ((hc.pinned b).mp hb)
    obtain ⟨hin, hd, hblock⟩ := hs.names.pin b i hi
    have hpos := hs.names.counted.pos (h := .inr b) (a := i) (by simp [holds, hi])
    exact ⟨i, hin, hd, hblock, hs.contents.pinned b i hi, hpos⟩

/-- One caller logs a block and another reads it back. -/
def readBack : List Event :=
  [.beginOp, .bget 1 5, .acquire 0, .fill 0, .modify 0 fun _ => 7, .logWrite 0, .unlock 0,
  .bget 1 5,
    .acquire 1, .fill 1]

theorem cache_coherent_readBack :
    ∃ s h x, Reach (stepRel step) ProperOnLog
        (binit (fun _ _ => 0) 1 2 30) s ∧ s.handle h = some x ∧ x.stage = .ready ∧ s.lh = [5] ∧
      s.disk 5 0 = 0 ∧ (s.buf x.buf).data 0 = 7 ∧ (s.buf x.buf).data = s.latest 1 5 := by
  have hrun : (follow step ProperOnLog (binit (fun _ _ => 0) 1 2 30)
      readBack).map (fun s => (s.handle 1, s.lh, s.disk 5 0, s.latest 1 5 0)) =
        some (some ⟨1, 5, 0, .ready, .clean, false⟩, [5], 0, 7) := by
    decide +kernel
  obtain ⟨s, hs, hq⟩ := Option.map_eq_some_iff.mp hrun
  simp only [Prod.mk.injEq] at hq
  obtain ⟨hx, hlh, hdisk, hlatest⟩ := hq
  have hr : Reach (stepRel step) ProperOnLog _ s := reach_of_follow readBack Reach.refl hs
  obtain ⟨-, -, -, -, hdata⟩ := cache_coherent (by decide) hr
  have hsame := hdata 1 _ hx rfl (by decide)
  exact ⟨s, 1, _, hr, hx, rfl, hlh, hdisk, (congrFun hsame 0).trans hlatest, hsame⟩

end Runs

section Devices

variable {b i : ℕ} {l used r rest : List ℕ}

/-- A state that callers who keep to the interface can go on to. -/
def Leads (s s' : Cache) : Prop :=
  ∀ s₀, Reach (stepRel step) Proper s₀ s → Reach (stepRel step) Proper s₀ s'

theorem Leads.step {e : Event} (hp : s.Proper e) (hok : s.step e = .ok s') : s.Leads s' :=
  fun _ hr => hr.tail hp hok

theorem Leads.trans {t : Cache} (h : s.Leads t) (h' : t.Leads s') : s.Leads s' :=
  fun s0 hr => h' s0 (h s0 hr)

/-- `bget` for a block that no buffer caches takes the first unused buffer from the end of the
list. -/
theorem bget_new {c : Bool} (dev b : ℕ) (hlen : l.length = nBuf) (hcirc : s.links.Circular nBuf l)
    (hnew : ∀ j ∈ l, ¬((s.buf j).dev = dev ∧ (s.buf j).blockno = b))
    (hfirst : l.reverse.find? (fun j => (s.buf j).refcnt = 0) = some i) :
    s.bget dev b c = .ok ((s.setBuf i { s.buf i with
      dev := dev, blockno := b, valid := false, refcnt := 1 }).openHandle i dev b c) := by
  have hcached : s.cached dev b = some none := by
    rw [cached_eq hlen hcirc, Option.some.injEq, find?_eq_none]
    simpa using hnew
  have hunused : s.unused = some (some i) := by rw [unused_eq hlen hcirc, hfirst]
  simp only [bget, hcached, hunused]

/-- Callers that ask for enough blocks that nobody caches get the unused buffers in turn. -/
theorem leads_fill (hlen : l.length = nBuf) (hcirc : s.links.Circular nBuf l)
    (hl : l.reverse = used ++ (r ++ rest)) (hused : ∀ j ∈ used, (s.buf j).refcnt ≠ 0)
    (hr : ∀ j ∈ r, (s.buf j).refcnt = 0)
    (hnew : ∀ j ∈ l, (s.buf j).dev ≠ 1 ∨ (s.buf j).blockno < b) :
    ∃ s', s.Leads s' ∧ s'.links = s.links ∧ s'.disk = s.disk ∧ s'.latest = s.latest ∧
      (∀ j, j ∉ r → s'.buf j = s.buf j) ∧
      (∀ j ∈ r, (s'.buf j).refcnt ≠ 0 ∧ (s'.buf j).dev = 1) ∧
      ∀ j ∈ l, (s'.buf j).dev ≠ 1 ∨ (s'.buf j).blockno < b + r.length := by
  induction r generalizing s used b with
  | nil => exact ⟨s, fun _ h => h, rfl, rfl, rfl, fun _ _ => rfl, by simp, by simpa using hnew⟩
  | cons i r ih =>
    have hnd : (used ++ i :: (r ++ rest)).Nodup := by
      rw [← cons_append, ← hl, nodup_reverse]
      exact (nodup_cons.mp hcirc.nodup).2
    have hir : i ∉ r := by
      have hn := (nodup_append.mp hnd).2.1
      rw [nodup_cons] at hn
      exact fun hmem => hn.1 (mem_append_left _ hmem)
    have hfirst : l.reverse.find? (fun j => decide ((s.buf j).refcnt = 0)) = some i := by
      rw [hl, find?_append, find?_eq_none.mpr (by simpa using hused)]
      simp [hr i (by simp)]
    have hbget := bget_new (c := false) 1 b hlen hcirc
      (fun j hj hq => by rcases hnew j hj with hd | hb <;> omega) hfirst
    have hstep := Leads.step (s := s) (e := .bget 1 b) (by simp [Proper]) hbget
    set t := (s.setBuf i { s.buf i with
      dev := 1, blockno := b, valid := false, refcnt := 1 }).openHandle i 1 b false with ht
    have hself : t.buf i = { s.buf i with dev := 1, blockno := b, valid := false, refcnt := 1 } :=
      setBuf_self s i _
    have hother : ∀ j, j ≠ i → t.buf j = s.buf j := fun j hj => setBuf_other s _ hj
    have hl' : l.reverse = (used ++ [i]) ++ (r ++ rest) := by
      rw [hl]
      simp
    obtain ⟨s', hlead, hlinks, hdisk, hlatest, hsame, hfilled, hbelow⟩ :=
      ih (s := t) (b := b + 1) hcirc hl'
        (by
          intro j hj
          by_cases hq : j = i
          · rw [hq, hself]
            simp
          · rw [hother j hq]
            exact hused j (by simpa [hq] using hj))
        (by
          intro j hj
          rw [hother j fun hq => hir (hq ▸ hj)]
          exact hr j (mem_cons_of_mem i hj))
        (by
          intro j hj
          by_cases hq : j = i
          · rw [hq, hself]
            exact .inr (Nat.lt_succ_self b)
          · rw [hother j hq]
            exact (hnew j hj).imp_right fun hb => Nat.lt_succ_of_lt hb)
    refine ⟨s', hstep.trans hlead, hlinks, hdisk, hlatest, ?_, ?_, ?_⟩
    · intro j hj
      rw [mem_cons, not_or] at hj
      rw [hsame j hj.2, hother j hj.1]
    · intro j hj
      rcases mem_cons.mp hj with rfl | hj
      · rw [hsame j hir, hself]
        simp
      · exact hfilled j hj
    · rw [length_cons, Nat.add_comm r.length 1, ← Nat.add_assoc]
      exact hbelow

theorem via_eq {c : Bool} {g : Stage} {f : Handle → Except Refused Cache}
    (hx : s.handle h = some x) (hg : x.stage = g) (hc : x.commit = c) : s.via c h g f = f x := by
  simp [via, hx, hg, hc]

/-- A caller reads a block that no buffer caches into the only buffer that is not in use. -/
theorem leads_bread (dev b : ℕ) (hl : s.Linked) (hdev : dev ≠ 0)
    (hnew : ∀ j < nBuf, ¬((s.buf j).dev = dev ∧ (s.buf j).blockno = b)) (hi : i < nBuf)
    (hz : (s.buf i).refcnt = 0) (honly : ∀ j < nBuf, (s.buf j).refcnt = 0 → j = i)
    (hlock : (s.buf i).lock = none) :
    ∃ s', s.Leads s' ∧ s'.handle s.handles = some ⟨dev, b, i, .ready, .clean, false⟩ ∧
      s'.links = s.links ∧ s'.disk = s.disk ∧ s'.latest = s.latest ∧
      s'.buf = update s.buf i ⟨true, dev, b, some s.handles, 1, s.disk b⟩ := by
  obtain ⟨l, hp, hcirc⟩ := hl
  have hlen : l.length = nBuf := by rw [hp.length_eq, length_range]
  have hlt : ∀ j ∈ l, j < nBuf := fun j hj => mem_range.mp (hp.subset hj)
  have hfirst : l.reverse.find? (fun j => decide ((s.buf j).refcnt = 0)) = some i := by
    cases hf : l.reverse.find? (fun j => decide ((s.buf j).refcnt = 0)) with
    | none =>
      have hmem : i ∈ l.reverse := mem_reverse.mpr (hp.symm.subset (mem_range.mpr hi))
      have hno := find?_eq_none.mp hf i hmem
      simp [hz] at hno
    | some j =>
      have hmem := mem_reverse.mp (mem_of_find?_eq_some hf)
      have hj : (s.buf j).refcnt = 0 := by simpa using find?_some hf
      rw [honly j (hlt j hmem) hj]
  have hbget := bget_new (c := false) dev b hlen hcirc (fun j hj => hnew j (hlt j hj)) hfirst
  have h1 := Leads.step (s := s) (e := .bget dev b) hdev hbget
  set s1 := (s.setBuf i { s.buf i with
    dev := dev, blockno := b, valid := false, refcnt := 1 }).openHandle i dev b false
  set x : Handle := ⟨dev, b, i, .waiting, .clean, false⟩
  have hx1 : s1.handle s.handles = some x := update_self _ _ _
  have hb1 : s1.buf i = ⟨false, dev, b, (s.buf i).lock, 1, (s.buf i).data⟩ := setBuf_self s i _
  have hacquire : s1.step (.acquire s.handles) = .ok _ :=
    (via_eq hx1 rfl rfl).trans (if_pos (by rw [hb1]; exact hlock))
  have h2 := Leads.step (s := s1) (e := .acquire s.handles) trivial hacquire
  set s2 := (s1.setBuf x.buf { s1.buf x.buf with lock := some s.handles }).setHandle s.handles
    (some { x with stage := .locked })
  have hx2 : s2.handle s.handles = some { x with stage := .locked } := update_self _ _ _
  have hb2 : s2.buf i = ⟨false, dev, b, some s.handles, 1, (s.buf i).data⟩ := by
    have hself : s2.buf i = { s1.buf i with lock := some s.handles } := setBuf_self s1 i _
    rw [hself, hb1]
  have hfill : s2.step (.fill s.handles) = .ok (s2.fill s.handles { x with stage := .locked }) :=
    via_eq hx2 rfl rfl
  have h3 := Leads.step (s := s2) (e := .fill s.handles) trivial hfill
  refine ⟨_, (h1.trans h2).trans h3, ?_⟩
  have hv : ¬(s2.buf i).valid = true := by simp [hb2]
  have hblock : (s2.buf i).blockno = b := by rw [hb2]
  rw [fill, if_neg hv]
  refine ⟨update_self _ _ _, rfl, rfl, rfl, ?_⟩
  change update s2.buf i { s2.buf i with
    data := s2.disk (s2.buf i).blockno, valid := true } = _
  rw [hb2]
  change update (update (update s.buf i _) i _) i _ = _
  rw [update_idem, update_idem]
  rfl

/-- The caller of `bread` that is alone with its buffer gives it back. -/
theorem leads_brelse (hx : s.handle h = some x) (hready : x.stage = .ready)
    (hstatus : x.status ≠ .dirty) (hc : x.commit = false) (hlock : (s.buf x.buf).lock = some h)
    (hone : (s.buf x.buf).refcnt = 1) :
    ∃ s', s.Leads s' ∧ s'.links = (s.links.unlink x.buf).pushFront nBuf x.buf ∧ s'.disk = s.disk ∧
      s'.latest = s.latest ∧
      s'.buf = update s.buf x.buf { s.buf x.buf with lock := none, refcnt := 0 } := by
  have hunlock : s.step (.unlock h) = .ok _ :=
    (via_eq hx hready hc).trans (if_neg (by simpa using hlock))
  have hp : s.Proper (.unlock h) := by simpa [Proper, hx] using hstatus
  have h1 := Leads.step hp hunlock
  set s1 := (s.setBuf x.buf { s.buf x.buf with lock := none }).setHandle h
    (some { x with stage := .released, status := .clean })
  have hx1 : s1.handle h = some { x with stage := .released, status := .clean } :=
    update_self _ _ _
  have hb1 : s1.buf x.buf = { s.buf x.buf with lock := none } := setBuf_self s _ _
  have hdrop : s1.step (.drop h) = .ok (s1.drop h
      { x with stage := .released, status := .clean }) :=
    via_eq hx1 rfl hc
  have h2 := Leads.step (s := s1) (e := .drop h) trivial hdrop
  refine ⟨_, h1.trans h2, ?_⟩
  have hzero : (s1.buf x.buf).refcnt - 1 = 0 := by
    rw [hb1]
    simp [hone]
  simp only [drop, hzero, if_true]
  refine ⟨rfl, rfl, rfl, ?_⟩
  change update s1.buf x.buf { s1.buf x.buf with refcnt := 0 } = _
  rw [hb1]
  change update (update s.buf x.buf _) x.buf _ = _
  rw [update_idem]

/-- Block 5 of device 1 and then block 5 of device 2 are logged; the log is on device 1. -/
def logBoth : List Event :=
  [.beginOp, .bget 1 5, .acquire 0, .fill 0, .modify 0 fun _ => 1, .logWrite 0, .unlock 0, .drop 0,
    .bget 2 5, .acquire 1, .fill 1, .modify 1 fun _ => 2, .logWrite 1, .unlock 1, .drop 1]

def mostRecent : List ℕ := 1 :: (range' 2 28).reverse ++ [0]

/-- The block of device 2 was absorbed by the entry of the other one: its buffer is not pinned. -/
theorem logBoth_unpinned :
    ∃ s, Reach (stepRel step) Proper (binit (fun _ _ => 0) 1 2 30) s ∧
      s.links.Circular nBuf mostRecent ∧ s.latest 2 5 0 = 2 ∧ s.disk 5 0 = 0 ∧ s.lh = [5] ∧
      (s.buf 0).refcnt = 1 ∧ (s.buf 0).dev = 1 ∧ (s.buf 1).refcnt = 0 ∧ (s.buf 1).lock = none ∧
      ∀ j ∈ mostRecent, (s.buf j).blockno < 100 ∧ (2 ≤ j → (s.buf j).refcnt = 0) := by
  have hrun : (follow step Proper (binit (fun _ _ => 0) 1 2 30) logBoth).map (fun s =>
      decide ((nBuf :: mostRecent).Nodup ∧ (nBuf :: (mostRecent ++ [nBuf])).IsChain s.links.Adj ∧
        s.latest 2 5 0 = 2 ∧ s.disk 5 0 = 0 ∧ s.lh = [5] ∧ (s.buf 0).refcnt = 1 ∧
        (s.buf 0).dev = 1 ∧ (s.buf 1).refcnt = 0 ∧ (s.buf 1).lock = none ∧
        ∀ j ∈ mostRecent, (s.buf j).blockno < 100 ∧ (2 ≤ j → (s.buf j).refcnt = 0))) =
      some true := by
    decide +kernel
  obtain ⟨s, hs, hq⟩ := Option.map_eq_some_iff.mp hrun
  obtain ⟨hnd, hchain, hfacts⟩ := of_decide_eq_true hq
  exact ⟨s, reach_of_follow logBoth Reach.refl hs, ⟨hnd, hchain⟩, hfacts⟩

/-- When its buffer has been recycled, `bread` does not return what was logged. -/
theorem bread_loses_logged :
    ∃ s h x, Reach (stepRel step) Proper (binit (fun _ _ => 0) 1 2 30) s ∧ s.handle h = some x ∧
      x.stage = .ready ∧ x.status ≠ .dirty ∧ (s.buf x.buf).data ≠ s.latest x.dev x.blockno := by
  obtain ⟨s, hr, hcirc, hlatest, hdisk, -, hr0, hd0, hr1, hl1, hall⟩ := logBoth_unpinned
  have hperm : mostRecent.Perm (List.range nBuf) := by decide
  have hlen : mostRecent.length = nBuf := by decide
  have hrev : mostRecent.reverse = [0] ++ (List.range' 2 28 ++ [1]) := by decide
  have hmem : ∀ j < nBuf, j ∈ mostRecent := fun j hj => hperm.symm.subset (List.mem_range.mpr hj)
  have hunused : ∀ j ∈ List.range' 2 28, (s.buf j).refcnt = 0 := by
    intro j hj
    have hj' := List.mem_range'_1.mp hj
    exact (hall j (hmem j (by unfold nBuf maxOpBlocks; omega))).2 hj'.1
  obtain ⟨s2, hlead2, hlinks2, hdisk2, hlatest2, hsame2, hfilled2, hbelow2⟩ :=
    leads_fill (b := 100) hlen hcirc hrev (by simp [hr0]) hunused fun j hj => .inr (hall j hj).1
  have hb0 : s2.buf 0 = s.buf 0 := hsame2 0 (by decide)
  have hb1 : s2.buf 1 = s.buf 1 := hsame2 1 (by decide)
  have hlinked2 : s2.Linked := ⟨mostRecent, hperm, hlinks2 ▸ hcirc⟩
  have hcases : ∀ j < nBuf, j = 0 ∨ j = 1 ∨ j ∈ List.range' 2 28 := by decide
  have honly2 : ∀ j < nBuf, (s2.buf j).refcnt = 0 → j = 1 := by
    intro j hj hz
    rcases hcases j hj with rfl | rfl | hj'
    · rw [hb0, hr0] at hz
      cases hz
    · rfl
    · exact absurd hz (hfilled2 j hj').1
  have hnew2 : ∀ j < nBuf, ¬((s2.buf j).dev = 1 ∧ (s2.buf j).blockno = 128) := by
    rintro j hj ⟨hd, hq⟩
    rcases hbelow2 j (hmem j hj) with hd' | hlt
    · exact hd' hd
    · simp [hq] at hlt
  obtain ⟨s3, hlead3, hx3, hlinks3, hdisk3, hlatest3, hbuf3⟩ :=
    leads_bread (i := 1) 1 128 hlinked2 (by decide) hnew2 (by decide)
      (by rw [hb1, hr1]) honly2 (by rw [hb1, hl1])
  obtain ⟨s4, hlead4, hlinks4, hdisk4, hlatest4, hbuf4⟩ :=
    leads_brelse hx3 rfl (by simp) rfl (by rw [hbuf3, update_self])
      (by rw [hbuf3, update_self])
  have hlinked3 : s3.Linked := ⟨mostRecent, hperm, by rw [hlinks3, hlinks2]; exact hcirc⟩
  have hlinked4 : s4.Linked := hlinked3.move (i := 1) (by decide) hlinks4
  have hself4 : s4.buf 1 = ⟨true, 1, 128, none, 0, s2.disk 128⟩ := by
    rw [hbuf4, update_self, hbuf3, update_self]
  have hother4 : ∀ j, j ≠ 1 → s4.buf j = s2.buf j := by
    intro j hj
    rw [hbuf4, update_of_ne hj, hbuf3, update_of_ne hj]
  have honly4 : ∀ j < nBuf, (s4.buf j).refcnt = 0 → j = 1 := by
    intro j hj hz
    by_contra hne
    rw [hother4 j hne] at hz
    exact hne (honly2 j hj hz)
  have hnew4 : ∀ j < nBuf, ¬((s4.buf j).dev = 2 ∧ (s4.buf j).blockno = 5) := by
    rintro j hj ⟨hd, -⟩
    rcases hcases j hj with rfl | rfl | hj'
    · rw [hother4 0 (by decide), hb0, hd0] at hd
      cases hd
    · rw [hself4] at hd
      cases hd
    · have hne : j ≠ 1 := by
        have hle := (List.mem_range'_1.mp hj').1
        omega
      rw [hother4 j hne, (hfilled2 j hj').2] at hd
      cases hd
  obtain ⟨s5, hlead5, hx5, -, -, hlatest5, hbuf5⟩ :=
    leads_bread (i := 1) 2 5 hlinked4 (by decide) hnew4 (by decide)
      (by rw [hself4]) honly4 (by rw [hself4])
  have hlead := ((hlead2.trans hlead3).trans hlead4).trans hlead5
  refine ⟨s5, s4.handles, _, hlead _ hr, hx5, rfl, by simp, ?_⟩
  intro hq
  have hbyte := congrFun hq 0
  rw [hbuf5, update_self, hlatest5, hlatest4, hlatest3, hlatest2, hlatest, hdisk4, hdisk3,
    hdisk2] at hbyte
  exact absurd (hdisk.symm.trans hbyte) (by decide)

end Devices

end Cache

end Xv6.Bio
