import Xv6.Bio.Coherence

/-!
# Commits through the buffer cache

`commit` is a sequence of calls on two local variables. Whether the sequence is in order (a buffer
is read before it is copied, written before it is unpinned, and released in the end) is read off
the calls alone by `Op.after`. With this, every step keeps the invariants of the cache.
-/
namespace Xv6.Bio

open Xv6.Library Function List Option

/-- The block, stage and status of the buffers in the local variables of `commit`. -/
abbrev View := ℕ → Option (ℕ × Stage × Status)

/-- The variables after a call, if the call is in order. -/
def Op.after (v : View) : Op → Option View
  | .bget k b =>
    match v k with
    | none => some (update v k (some (b, .waiting, .clean)))
    | _ => none
  | .acquire k =>
    match v k with
    | some (b, .waiting, st) => some (update v k (some (b, .locked, st)))
    | _ => none
  | .fill k =>
    match v k with
    | some (b, .locked, st) => some (update v k (some (b, .ready, st)))
    | _ => none
  | .memmove k _ =>
    match v k with
    | some (b, .ready, _) => some (update v k (some (b, .ready, .dirty)))
    | _ => none
  | .putHead k =>
    match v k with
    | some (b, .ready, _) => some (update v k (some (b, .ready, .dirty)))
    | _ => none
  | .bwrite k =>
    match v k with
    | some (b, .ready, _) => some (update v k (some (b, .ready, .written)))
    | _ => none
  | .bunpin k b => if v k = some (b, .ready, .written) then some v else none
  | .unlock k =>
    match v k with
    | some (_, .ready, .dirty) => none
    | some (b, .ready, _) => some (update v k (some (b, .released, .clean)))
    | _ => none
  | .drop k =>
    match v k with
    | some (_, .released, _) => some (update v k none)
    | _ => none
  | .clear => some v

namespace Op

def free : View := fun _ => none

/-- A sequence of calls that is in order and in the end holds no buffer. -/
def InOrder (v : View) (ops : List Op) : Prop := ops.foldlM after v = some free

theorem inOrder_nil {v : View} : InOrder v [] ↔ v = free := by simp [InOrder]

theorem inOrder_cons {v : View} {op : Op} {ops : List Op} :
    InOrder v (op :: ops) ↔ ∃ v', op.after v = some v' ∧ InOrder v' ops := by
  simp [InOrder, foldlM_cons, bind_eq_some_iff]

theorem InOrder.append {ops ops' : List Op} (h : InOrder free ops) (h' : InOrder free ops') :
    InOrder free (ops ++ ops') := by
  rw [InOrder, foldlM_append, h]
  exact h'

theorem inOrder_of_eq {ops : List Op} {v : View} (hops : ops.foldlM after free = some v)
    (hv : ∀ k, v k = none) : InOrder free ops := by
  rw [InOrder, hops, some.injEq]
  exact funext hv

theorem inOrder_writeLog (start : ℕ) (tail : ℕ) (lh : List ℕ) :
    InOrder free (writeLog start tail lh) := by
  induction lh generalizing tail with
  | nil => exact inOrder_nil.mpr rfl
  | cons b bs ih =>
    refine InOrder.append (inOrder_of_eq rfl ?_) (ih (tail + 1))
    intro k
    by_cases h0 : k = 0 <;> by_cases h1 : k = 1 <;> simp [free, update, h0, h1]

theorem inOrder_installTrans (start : ℕ) (tail : ℕ) (lh : List ℕ) :
    InOrder free (installTrans start tail lh) := by
  induction lh generalizing tail with
  | nil => exact inOrder_nil.mpr rfl
  | cons b bs ih =>
    refine InOrder.append ?_ (ih (tail + 1))
    iterate 8 refine inOrder_cons.mpr ⟨_, rfl, ?_⟩
    refine inOrder_cons.mpr ⟨_, if_pos rfl, ?_⟩
    iterate 4 refine inOrder_cons.mpr ⟨_, rfl, ?_⟩
    apply inOrder_nil.mpr
    funext k
    by_cases h0 : k = 0 <;> by_cases h1 : k = 1 <;> simp [free, update, h0, h1]

theorem inOrder_writeHead (start : ℕ) : InOrder free (writeHead start) := by
  refine inOrder_of_eq rfl ?_
  intro k
  by_cases h0 : k = 0 <;> simp [free, update, h0]

/-- `commit` is in order, unpins the blocks of the header, and clears it. -/
theorem inOrder_commit (start : ℕ) (lh : List ℕ) : InOrder free (commit start lh) := by
  unfold commit
  split_ifs
  · have hclear : InOrder free [.clear] := inOrder_cons.mpr ⟨free, rfl, inOrder_nil.mpr rfl⟩
    have hlog := (inOrder_writeLog start 0 lh).append (inOrder_writeHead start)
    have hinstall := hlog.append (inOrder_installTrans start 0 lh)
    exact (hinstall.append hclear).append (inOrder_writeHead start)
  · exact inOrder_nil.mpr rfl

theorem unpins_append (ops ops' : List Op) : unpins (ops ++ ops') = unpins ops ++ unpins ops' :=
  filterMap_append

theorem unpins_writeLog (start tail : ℕ) (lh : List ℕ) : unpins (writeLog start tail lh) = [] := by
  induction lh generalizing tail with
  | nil => rfl
  | cons b bs ih =>
    rw [writeLog, unpins_append, ih]
    rfl

theorem unpins_installTrans (start tail : ℕ) (lh : List ℕ) :
    unpins (installTrans start tail lh) = lh := by
  induction lh generalizing tail with
  | nil => rfl
  | cons b bs ih =>
    rw [installTrans, unpins_append, ih]
    rfl

theorem unpins_commit (start : ℕ) (lh : List ℕ) (hlh : lh.length > 0) :
    unpins (commit start lh) = lh := by
  have hhead : unpins (writeHead start) = [] := rfl
  have hclear : unpins [.clear] = [] := rfl
  rw [commit, if_pos hlh, unpins_append, unpins_append, unpins_append, unpins_append,
    unpins_writeLog, unpins_installTrans, hhead, hclear]
  simp

theorem clear_mem_commit (start : ℕ) (lh : List ℕ) (hlh : lh.length > 0) :
    .clear ∈ commit start lh := by
  simp [commit, hlh]

end Op

namespace Cache

variable {s s' : Cache} {pins : ℕ → Option ℕ} {h k : ℕ} {x : Handle}

/-- What the variables of `commit` hold. -/
def view (s : Cache) : View := fun k =>
  (s.var k).bind fun h => (s.handle h).map fun x => (x.blockno, x.stage, x.status)

structure Script (s : Cache) (pins : ℕ → Option ℕ) : Prop where
  vars : ∀ k h, s.var k = some h → h < s.handles
  apart : ∀ k k' h, s.var k = some h → s.var k' = some h → k = k'
  mine : ∀ k h x, s.var k = some h → s.handle h = some x → x.commit = true
  inOrder : Op.InOrder s.view s.todo
  clears : s.todo ≠ [] → .clear ∈ s.todo ∨ s.lh = []
  busy : s.todo ≠ [] → s.committing = true
  alone : s.committing = true → s.outstanding = 0
  nodup : s.toInstall.Nodup
  pinned : ∀ b, b ∈ s.toInstall ↔ pins b ≠ none

theorem via_ok {c : Bool} {g : Stage} {f : Handle → Except Refused Cache}
    (hok : s.via c h g f = .ok s') :
    ∃ x, s.handle h = some x ∧ x.stage = g ∧ x.commit = c ∧ f x = .ok s' := by
  unfold via at hok
  split at hok
  · split_ifs at hok with hg
    exact ⟨_, ‹_›, hg.1, hg.2, hok⟩
  · cases hok

theorem viaVar_ok {g : Stage} {f : ℕ → Handle → Except Refused Cache}
    (hok : s.viaVar k g f = .ok s') :
    ∃ h x, s.var k = some h ∧ s.handle h = some x ∧ x.stage = g ∧ x.commit = true ∧
      f h x = .ok s' := by
  unfold viaVar at hok
  split at hok
  · rename_i h hv
    obtain ⟨x, hx, hg, hc, hf⟩ := via_ok hok
    exact ⟨h, x, hv, hx, hg, hc, hf⟩
  · cases hok

def Keeps (s s' : Cache) : Prop :=
  ∀ i, 0 < (s.buf i).refcnt → (s'.buf i).dev = (s.buf i).dev ∧
    (s'.buf i).blockno = (s.buf i).blockno

theorem Keeps.of_eq (hbuf : s'.buf = s.buf) : s.Keeps s' := by
  intro i _
  rw [hbuf]
  exact ⟨rfl, rfl⟩

theorem Keeps.of_setBuf {i : ℕ} {y : Buf} (hbuf : s'.buf = update s.buf i y)
    (hy : 0 < (s.buf i).refcnt → y.dev = (s.buf i).dev ∧ y.blockno = (s.buf i).blockno) :
    s.Keeps s' := by
  intro j hj
  rw [hbuf]
  by_cases hq : j = i
  · subst hq
    simpa using hy hj
  · simp [update_of_ne hq]

section Acts

/-- A step of the caller with handle `h`, of which `o` is left, and the header after it. -/
structure Moves (s s' : Cache) (h : ℕ) (o : Option Handle) (lh : List ℕ) : Prop where
  handle : s'.handle = update s.handle h o
  handles : s'.handles = s.handles
  var : s'.var = s.var
  todo : s'.todo = s.todo
  committing : s'.committing = s.committing
  outstanding : s'.outstanding = s.outstanding
  lh : s'.lh = lh
  keeps : s.Keeps s'

theorem acquire_moves (hok : s.acquire h x = .ok s') :
    s.Moves s' h (some { x with stage := .locked }) s.lh := by
  unfold acquire at hok
  split_ifs at hok
  cases hok
  exact ⟨rfl, rfl, rfl, rfl, rfl, rfl, rfl, .of_setBuf rfl fun _ => ⟨rfl, rfl⟩⟩

theorem fill_moves : s.Moves (s.fill h x) h (some { x with stage := .ready }) s.lh := by
  unfold fill
  split_ifs
  · exact ⟨rfl, rfl, rfl, rfl, rfl, rfl, rfl, .of_eq rfl⟩
  · exact ⟨rfl, rfl, rfl, rfl, rfl, rfl, rfl, .of_setBuf rfl fun _ => ⟨rfl, rfl⟩⟩

theorem modify_moves {data : Bytes} :
    s.Moves (s.modify h x data) h (some { x with status := .dirty }) s.lh :=
  ⟨rfl, rfl, rfl, rfl, rfl, rfl, rfl, .of_setBuf rfl fun _ => ⟨rfl, rfl⟩⟩

theorem bwrite_moves (hok : s.bwrite h x = .ok s') :
    s.Moves s' h (some { x with status := .written }) s.lh := by
  unfold bwrite at hok
  split_ifs at hok
  cases hok
  exact ⟨rfl, rfl, rfl, rfl, rfl, rfl, rfl, .of_eq rfl⟩

theorem unlock_moves (hok : s.unlock h x = .ok s') :
    s.Moves s' h (some { x with stage := .released, status := .clean }) s.lh := by
  unfold unlock at hok
  split_ifs at hok
  cases hok
  exact ⟨rfl, rfl, rfl, rfl, rfl, rfl, rfl, .of_setBuf rfl fun _ => ⟨rfl, rfl⟩⟩

theorem drop_moves : s.Moves (s.drop h x) h none s.lh := by
  unfold drop
  simp only
  split_ifs <;> exact ⟨rfl, rfl, rfl, rfl, rfl, rfl, rfl, .of_setBuf rfl fun _ => ⟨rfl, rfl⟩⟩

theorem bunpin_moves (hx : s.handle h = some x) :
    s.Moves (s.bunpin x.buf) h (some x) s.lh :=
  ⟨(update_eq_self_iff.mpr hx.symm).symm, rfl, rfl, rfl, rfl, rfl, rfl,
    .of_setBuf rfl fun _ => ⟨rfl, rfl⟩⟩

theorem logWrite_moves (hok : s.logWrite h x = .ok s') :
    ¬s.outstanding < 1 ∧ s.Moves s' h (some { x with status := .clean })
      (if (s.buf x.buf).blockno ∈ s.lh then s.lh else s.lh ++ [(s.buf x.buf).blockno]) := by
  unfold logWrite at hok
  split_ifs at hok with hbig hout hin
  · cases hok
    rw [if_pos hin]
    exact ⟨hout, rfl, rfl, rfl, rfl, rfl, rfl, rfl, .of_eq rfl⟩
  · cases hok
    rw [if_neg hin]
    exact ⟨hout, rfl, rfl, rfl, rfl, rfl, rfl, rfl, .of_setBuf rfl fun _ => ⟨rfl, rfl⟩⟩

end Acts

section Clients

/-- What a step of a caller other than `commit` leaves alone. -/
structure Aside (s s' : Cache) : Prop where
  var : s'.var = s.var
  todo : s'.todo = s.todo
  committing : s'.committing = s.committing
  outstanding : s'.outstanding = s.outstanding
  handles : s.handles ≤ s'.handles
  handle : ∀ k h, s.var k = some h → s'.handle h = s.handle h

theorem Aside.view (ha : s.Aside s') : s'.view = s.view := by
  funext k
  simp only [Cache.view, ha.var]
  cases hv : s.var k with
  | none => rfl
  | some h => simp [ha.handle k h hv]

theorem Script.aside_bget {dev b : ℕ} {c : Bool} (hs : s.Sound pins) (hc : s.Script pins)
    (hok : s.bget dev b c = .ok s') : s.Aside s' ∧ s'.lh = s.lh := by
  obtain ⟨i, y, rfl, -⟩ := hs.linked.bget_ok hok
  refine ⟨⟨rfl, rfl, rfl, rfl, Nat.le_succ _, ?_⟩, rfl⟩
  intro k g hv
  have hlt := hc.vars k g hv
  exact update_of_ne hlt.ne _ _

variable (hc : s.Script pins)
include hc

theorem Script.not_var (hx : s.handle h = some x) (hx' : x.commit = false)
    {g : ℕ} (hv : s.var k = some g) : g ≠ h := by
  intro hq
  have hm := hc.mine k g x hv (hq ▸ hx)
  simp [hx'] at hm

theorem Script.aside {pins' : ℕ → Option ℕ} (ha : s.Aside s')
    (hnodup : s'.toInstall.Nodup) (hpinned : ∀ b, b ∈ s'.toInstall ↔ pins' b ≠ none)
    (hlh : s.todo ≠ [] → s'.lh = s.lh) : s'.Script pins' where
  vars k h hv := lt_of_lt_of_le (hc.vars k h (ha.var ▸ hv)) ha.handles
  apart k k' h hk hk' := hc.apart k k' h (ha.var ▸ hk) (ha.var ▸ hk')
  mine k h x hv hx := by
    rw [ha.var] at hv
    exact hc.mine k h x hv (ha.handle k h hv ▸ hx)
  inOrder := by
    rw [ha.view, ha.todo]
    exact hc.inOrder
  clears ht := by
    rw [ha.todo] at ht ⊢
    rw [hlh ht]
    exact hc.clears ht
  busy ht := by
    rw [ha.committing]
    exact hc.busy (ha.todo ▸ ht)
  alone hcm := by
    rw [ha.outstanding]
    exact hc.alone (ha.committing ▸ hcm)
  nodup := hnodup
  pinned := hpinned

theorem Script.bystander (ha : s.Aside s') (hlh : s'.lh = s.lh) : s'.Script pins := by
  have hto : s'.toInstall = s.toInstall := by simp [toInstall, ha.todo, hlh]
  apply hc.aside ha
  · rw [hto]
    exact hc.nodup
  · rw [hto]
    exact hc.pinned
  · exact fun _ => hlh

theorem Script.asideOf {o : Option Handle} {lh : List ℕ}
    (hx : s.handle h = some x) (hx' : x.commit = false) (hm : s.Moves s' h o lh) : s.Aside s' where
  var := hm.var
  todo := hm.todo
  committing := hm.committing
  outstanding := hm.outstanding
  handles := hm.handles.ge
  handle k g hv := by
    rw [hm.handle, update_of_ne (hc.not_var hx hx' hv)]

theorem Script.client {o : Option Handle} (hx : s.handle h = some x)
    (hx' : x.commit = false) (hm : s.Moves s' h o s.lh) : s'.Script pins :=
  hc.bystander (hc.asideOf hx hx' hm) hm.lh

theorem Script.idle (hout : ¬s.outstanding < 1) : s.todo = [] := by
  by_contra ht
  have hz := hc.alone (hc.busy ht)
  omega

theorem Script.log {b i : ℕ} (ha : s.Aside s') (htodo : s.todo = [])
    (hnew : b ∉ s.lh) (hlh : s'.lh = s.lh ++ [b]) :
    s'.Script (update pins b (some i)) := by
  have hto : s.toInstall = s.lh := by simp [toInstall, htodo]
  have hto' : s'.toInstall = s.lh ++ [b] := by simp [toInstall, ha.todo, htodo, hlh]
  apply hc.aside ha
  · rw [hto', nodup_append_comm, singleton_append, nodup_cons]
    exact ⟨hnew, hto ▸ hc.nodup⟩
  · intro c
    rw [hto', mem_append, mem_singleton, ← hto, hc.pinned]
    by_cases hq : c = b <;> simp [hq]
  · intro ht
    exact absurd htodo ht

omit hc in
theorem logWrite_sound (hs : s.Sound pins) (hc : s.Script pins) (hx : s.handle h = some x)
    (hr : x.stage = .ready) (hx' : x.commit = false) (hok : s.logWrite h x = .ok s') :
    ∃ pins', s'.Sound pins' ∧ s'.Script pins' := by
  obtain ⟨-, -, -, hblock⟩ := hs.names.handle h x hx
  obtain ⟨hout, hm⟩ := logWrite_moves hok
  have htodo := hc.idle hout
  have hto : s.toInstall = s.lh := by simp [toInstall, htodo]
  unfold logWrite at hok
  split_ifs at hok with hbig hin
  · cases hok
    have hp : pins x.blockno ≠ none := (hc.pinned _).mp (by rwa [hto, ← hblock])
    rw [if_pos hin] at hm
    exact ⟨pins, hs.logged hx hr hp, hc.client hx hx' hm⟩
  · cases hok
    rw [if_neg hin] at hm
    rw [hblock] at hin
    have hp : pins x.blockno = none := by
      by_contra hne
      exact hin (hto ▸ (hc.pinned _).mpr hne)
    refine ⟨update pins x.blockno (some x.buf), ?_, ?_⟩
    · have hpin := hs.bpin hx hr hp
      have hlog := hpin.logged (h := h) (x := x) hx hr (by simp)
      have hbuf : (s.bpin x.buf).buf x.buf =
          { s.buf x.buf with refcnt := (s.buf x.buf).refcnt + 1 } := setBuf_self s _ _
      rw [hbuf] at hlog
      exact hlog.env rfl rfl rfl rfl rfl rfl rfl
    · exact hc.log (hc.asideOf hx hx' hm) htodo hin (hm.lh.trans (by rw [hblock]))

end Clients

section Commit

theorem view_eq (hv : s.var k = some h) (hx : s.handle h = some x) :
    s.view k = some (x.blockno, x.stage, x.status) := by
  simp [view, hv, hx]

theorem toInstall_eq {op : Op} {ops : List Op} (htodo : s.todo = op :: ops) :
    s.toInstall = Op.unpins (op :: ops) := by
  simp [toInstall, htodo]

section

variable (hc : s.Script pins)
include hc

/-- The variables after a step of `commit` on one of them. -/
theorem Script.view_update {o : Option Handle} (hv : s.var k = some h)
    (hvar : s'.var = s.var) (hhandle : s'.handle = update s.handle h o) :
    s'.view = update s.view k (o.map fun x => (x.blockno, x.stage, x.status)) := by
  funext j
  simp only [view, hvar, hhandle]
  by_cases hj : j = k
  · simp [hj, hv]
  · rw [update_of_ne hj]
    cases hvj : s.var j with
    | none => simp [view, hvj]
    | some g =>
      have hg : g ≠ h := fun hq => hj (hc.apart j k h (hq ▸ hvj) hv)
      simp [view, hvj, update_of_ne hg]

/-- A call by `commit`: its variables and pins go as the call says. -/
theorem Script.work {op : Op} {ops : List Op} {pins' : ℕ → Option ℕ}
    (htodo : s.todo = op :: ops) (htodo' : s'.todo = ops)
    (hcommitting : s'.committing = s.committing) (houtstanding : s'.outstanding = s.outstanding)
    (hvars : ∀ k h, s'.var k = some h → h < s'.handles)
    (hapart : ∀ k k' h, s'.var k = some h → s'.var k' = some h → k = k')
    (hmine : ∀ k h x, s'.var k = some h → s'.handle h = some x → x.commit = true)
    (hafter : ∀ v, op.after s.view = some v → s'.view = v)
    (hlh : s'.lh = if op = .clear then [] else s.lh)
    (hpins : ∀ b, b ∈ Op.unpins ops ↔ pins' b ≠ none) : s'.Script pins' := by
  have hbusy : s.todo ≠ [] := by simp [htodo]
  have hclears : .clear ∈ ops ∨ s'.lh = [] := by
    rw [hlh]
    have hold := hc.clears hbusy
    rw [htodo, mem_cons] at hold
    by_cases hq : op = .clear
    · exact .inr (if_pos hq)
    · rw [if_neg hq]
      rcases hold with (hop | hmem) | hnil
      · exact absurd hop.symm hq
      · exact .inl hmem
      · exact .inr hnil
  have hto : s'.toInstall = Op.unpins ops := by
    by_cases hq : ops = []
    · have hnil : s'.lh = [] := hclears.resolve_left (by simp [hq])
      simp [toInstall, htodo', hq, hnil, Op.unpins]
    · simp [toInstall, htodo', hq]
  constructor
  case vars => exact hvars
  case apart => exact hapart
  case mine => exact hmine
  case inOrder =>
    have hin := hc.inOrder
    rw [htodo, Op.inOrder_cons] at hin
    obtain ⟨v, hv, hrest⟩ := hin
    rw [hafter v hv, htodo']
    exact hrest
  case clears =>
    intro _
    rw [htodo']
    exact hclears
  case busy =>
    intro _
    rw [hcommitting]
    exact hc.busy hbusy
  case alone =>
    intro hcm
    rw [houtstanding]
    exact hc.alone (hcommitting ▸ hcm)
  case nodup =>
    have hn := hc.nodup
    rw [toInstall_eq htodo] at hn
    rw [hto]
    exact List.Nodup.sublist (List.Sublist.filterMap _ (sublist_cons_self op ops)) hn
  case pinned =>
    rw [hto]
    exact hpins

/-- A call by `commit` on the buffer in variable `k`. -/
theorem Script.workOn {op : Op} {ops : List Op} {pins' : ℕ → Option ℕ} {o : Option Handle}
    (htodo : s.todo = op :: ops) (hv : s.var k = some h)
    (hm : Moves { s with todo := ops } s' h o s.lh) (ho : ∀ z, o = some z → z.commit = true)
    (hop : op ≠ .clear)
    (hafter : op.after s.view =
      some (update s.view k (o.map fun x => (x.blockno, x.stage, x.status))))
    (hpins : ∀ b, b ∈ Op.unpins ops ↔ pins' b ≠ none) : s'.Script pins' := by
  apply hc.work htodo hm.todo hm.committing hm.outstanding
  · intro j g hj
    rw [hm.var] at hj
    rw [hm.handles]
    exact hc.vars j g hj
  · intro j j' g hj hj'
    rw [hm.var] at hj hj'
    exact hc.apart j j' g hj hj'
  · intro j g z hj hz
    rw [hm.var] at hj
    rw [hm.handle] at hz
    by_cases hq : g = h
    · rw [hq, update_self] at hz
      exact ho z hz
    · rw [update_of_ne hq] at hz
      exact hc.mine j g z hj hz
  · intro v hv'
    rw [hc.view_update hv hm.var hm.handle]
    exact some.inj (hafter.symm.trans hv')
  · rw [if_neg hop, hm.lh]
  · exact hpins

theorem Script.keepPins {op : Op} {ops : List Op} (htodo : s.todo = op :: ops)
    (hop : Op.unpins (op :: ops) = Op.unpins ops) (b : ℕ) : b ∈ Op.unpins ops ↔ pins b ≠ none := by
  rw [← hop, ← toInstall_eq htodo]
  exact hc.pinned b

/-- `commit` opens a buffer in a variable that holds none. -/
theorem Script.workBget {b i : ℕ} {ops : List Op}
    (htodo : s.todo = .bget k b :: ops) (htodo' : s'.todo = ops)
    (hcommitting : s'.committing = s.committing) (houtstanding : s'.outstanding = s.outstanding)
    (hvar : s'.var = update s.var k (some s.handles))
    (hhandle : s'.handle = update s.handle s.handles
      (some ⟨s.dev, b, i, .waiting, .clean, true⟩))
    (hhandles : s'.handles = s.handles + 1) (hlh : s'.lh = s.lh) : s'.Script pins := by
  have hold : ∀ j g, j ≠ k → s'.var j = some g → s.var j = some g ∧ g < s.handles := by
    intro j g hj hg
    rw [hvar, update_of_ne hj] at hg
    exact ⟨hg, hc.vars j g hg⟩
  have hmine : ∀ g, s'.var k = some g → g = s.handles := by
    intro g hg
    rw [hvar, update_self, some.injEq] at hg
    exact hg.symm
  apply hc.work htodo htodo' hcommitting houtstanding
  · intro j g hg
    rw [hhandles]
    by_cases hj : j = k
    · rw [hmine g (hj ▸ hg)]
      exact Nat.lt_succ_self _
    · exact Nat.lt_succ_of_lt (hold j g hj hg).2
  · intro j j' g hg hg'
    by_cases hj : j = k <;> by_cases hj' : j' = k
    · rw [hj, hj']
    · have hlt := (hold j' g hj' hg').2
      rw [hmine g (hj ▸ hg)] at hlt
      omega
    · have hlt := (hold j g hj hg).2
      rw [hmine g (hj' ▸ hg')] at hlt
      omega
    · exact hc.apart j j' g (hold j g hj hg).1 (hold j' g hj' hg').1
  · intro j g z hg hz
    rw [hhandle] at hz
    by_cases hj : j = k
    · rw [hmine g (hj ▸ hg), update_self, some.injEq] at hz
      rw [← hz]
    · obtain ⟨hg', hlt⟩ := hold j g hj hg
      rw [update_of_ne hlt.ne] at hz
      exact hc.mine j g z hg' hz
  · intro v hv
    have hview : s'.view = update s.view k (some (b, .waiting, .clean)) := by
      funext j
      by_cases hj : j = k
      · simp [view, hj, hvar, hhandle]
      · rw [update_of_ne hj]
        simp only [view, hvar, hhandle, update_of_ne hj]
        cases hg : s.var j with
        | none => rfl
        | some g => simp [update_of_ne (hc.vars j g hg).ne]
    rw [hview]
    simp only [Op.after] at hv
    split at hv
    · exact some.inj hv
    · cases hv
  · rw [if_neg (by simp), hlh]
  · exact hc.keepPins htodo rfl

end

/-- Every call of `commit` keeps the cache sound and the rest of the calls in order. -/
theorem perform_sound {op : Op} {ops : List Op} (hs : s.Sound pins) (hc : s.Script pins)
    (htodo : s.todo = op :: ops) (hok : { s with todo := ops }.perform op = .ok s') :
    ∃ pins', s'.Sound pins' ∧ s'.Script pins' := by
  have hs1 : ({ s with todo := ops } : Cache).Sound pins := hs.env rfl rfl rfl rfl rfl rfl rfl
  have hin := hc.inOrder
  rw [htodo, Op.inOrder_cons] at hin
  obtain ⟨w, hw, -⟩ := hin
  cases op with
  | bget k b =>
    have hs2 : ({ s with todo := ops, var := update s.var k (some s.handles) } : Cache).Sound
        pins := hs.env rfl rfl rfl rfl rfl rfl rfl
    refine ⟨pins, hs2.bget hok, ?_⟩
    obtain ⟨i, y, rfl, -⟩ := hs2.linked.bget_ok hok
    exact hc.workBget htodo rfl rfl rfl rfl rfl rfl rfl
  | acquire k =>
    obtain ⟨h, x, hv, hx, hg, hcm, hf⟩ := viaVar_ok hok
    have hview : s.view k = some (x.blockno, .waiting, x.status) := hg ▸ view_eq (s := s) hv hx
    refine ⟨pins, hs1.acquire hx hg hf, ?_⟩
    exact hc.workOn htodo hv (acquire_moves hf) (by simpa using hcm) (by simp)
      (by simp [Op.after, hview]) (hc.keepPins htodo rfl)
  | fill k =>
    obtain ⟨h, x, hv, hx, hg, hcm, hf⟩ := viaVar_ok hok
    cases hf
    have hview : s.view k = some (x.blockno, .locked, x.status) := hg ▸ view_eq (s := s) hv hx
    refine ⟨pins, hs1.fill hx hg, ?_⟩
    exact hc.workOn htodo hv fill_moves (by simpa using hcm) (by simp)
      (by simp [Op.after, hview]) (hc.keepPins htodo rfl)
  | memmove k k' =>
    obtain ⟨h, x, hv, hx, hg, hcm, hf⟩ := viaVar_ok hok
    obtain ⟨_, x', -, -, -, -, hf'⟩ := viaVar_ok hf
    cases hf'
    have hview : s.view k = some (x.blockno, .ready, x.status) := hg ▸ view_eq (s := s) hv hx
    refine ⟨pins, hs1.modify hx hg, ?_⟩
    exact hc.workOn htodo hv modify_moves (by simpa using hcm) (by simp)
      (by simp [Op.after, hview, hg]) (hc.keepPins htodo rfl)
  | putHead k =>
    obtain ⟨h, x, hv, hx, hg, hcm, hf⟩ := viaVar_ok hok
    cases hf
    have hview : s.view k = some (x.blockno, .ready, x.status) := hg ▸ view_eq (s := s) hv hx
    refine ⟨pins, hs1.modify hx hg, ?_⟩
    exact hc.workOn htodo hv modify_moves (by simpa using hcm) (by simp)
      (by simp [Op.after, hview, hg]) (hc.keepPins htodo rfl)
  | bwrite k =>
    obtain ⟨h, x, hv, hx, hg, hcm, hf⟩ := viaVar_ok hok
    have hview : s.view k = some (x.blockno, .ready, x.status) := hg ▸ view_eq (s := s) hv hx
    refine ⟨pins, hs1.bwrite hx hg hf, ?_⟩
    exact hc.workOn htodo hv (bwrite_moves hf) (by simpa using hcm) (by simp)
      (by simp [Op.after, hview, hg]) (hc.keepPins htodo rfl)
  | bunpin k b =>
    obtain ⟨h, x, hv, hx, hg, hcm, hf⟩ := viaVar_ok hok
    cases hf
    have hview : s.view k = some (x.blockno, x.stage, x.status) := view_eq (s := s) hv hx
    simp only [Op.after, hview] at hw
    split_ifs at hw with hq
    simp only [some.injEq, Prod.mk.injEq] at hq
    obtain ⟨hb, -, hst⟩ := hq
    have hpin : pins x.blockno ≠ none := by
      rw [← hc.pinned, toInstall_eq htodo, hb]
      simp [Op.unpins]
    refine ⟨update pins x.blockno none, hs1.bunpin hx hst hpin, ?_⟩
    refine hc.workOn htodo hv (bunpin_moves (s := { s with todo := ops }) hx) (by simpa using hcm)
      (by simp) ?_ ?_
    · rw [Op.after, hview, if_pos (by rw [hb, hg, hst]), map_some, ← hview,
        update_eq_self]
    · intro c
      have hn := hc.nodup
      rw [toInstall_eq htodo] at hn
      have hall := hc.pinned c
      rw [toInstall_eq htodo] at hall
      have hcons : Op.unpins (.bunpin k b :: ops) = b :: Op.unpins ops := rfl
      rw [hcons, nodup_cons] at hn
      rw [hcons, mem_cons] at hall
      by_cases hcb : c = x.blockno
      · rw [hcb, update_self, hb]
        simp [hn.1]
      · rw [update_of_ne hcb, ← hall]
        simp [hb ▸ hcb]
  | unlock k =>
    obtain ⟨h, x, hv, hx, hg, hcm, hf⟩ := viaVar_ok hok
    have hview : s.view k = some (x.blockno, .ready, x.status) := hg ▸ view_eq (s := s) hv hx
    have hclean : x.status ≠ .dirty := by
      intro hq
      simp [Op.after, hview, hq] at hw
    refine ⟨pins, hs1.unlock hx hclean hf, ?_⟩
    refine hc.workOn htodo hv (unlock_moves hf) (by simpa using hcm) (by simp) ?_
      (hc.keepPins htodo rfl)
    simp only [Op.after, hview]
    cases hst : x.status with
    | dirty => exact absurd hst hclean
    | clean => rfl
    | written => rfl
  | drop k =>
    obtain ⟨h, x, hv, hx, hg, hcm, hf⟩ := viaVar_ok hok
    cases hf
    have hview : s.view k = some (x.blockno, .released, x.status) := hg ▸ view_eq (s := s) hv hx
    refine ⟨pins, hs1.drop hx hg, ?_⟩
    exact hc.workOn htodo hv drop_moves (by simp) (by simp) (by simp [Op.after, hview])
      (hc.keepPins htodo rfl)
  | clear =>
    cases hok
    refine ⟨pins, hs.env rfl rfl rfl rfl rfl rfl rfl, ?_⟩
    refine hc.work htodo rfl rfl rfl hc.vars hc.apart hc.mine ?_ rfl (hc.keepPins htodo rfl)
    intro v hv
    exact some.inj hv

end Commit

end Cache

end Xv6.Bio
