import Xv6.Fs.InodeTable
import Xv6.Library.Counted

/-!
# Identity of in-memory inodes

Two invariants of every interleaving. `Names`: the counts of the entries are the references handed
out, and no two entries in use are for the same inode. `Locks`: the sleep lock of an entry belongs
to the one call that is past taking it. The window in `iput` is harmless because a freed copy is
invalid by the time its lock is free.
-/
namespace Xv6.Fs

open Xv6.Library Function List Option

/-- What the holder of a sleep lock is doing. -/
inductive Doing
  | ilock (g : Stage)
  | iput (g : PutStage)

namespace Table

section Invariants

variable (s : Table)

def target : ℕ → Option ℕ := Option.map Ref.entry ∘ s.ref

def count : ℕ → ℕ := Entry.ref ∘ s.entry

/-- The entry whose sleep lock a call has, and what it is doing with it. -/
def phase : Owner → Option (ℕ × Doing)
  | .call a =>
    match s.call a with
    | some ⟨_, .waiting⟩ => none
    | some ⟨t, g⟩ => (s.target t).map fun e => (e, .ilock g)
    | none => none
  | .put t =>
    match s.ref t with
    | some ⟨_, some .dropping⟩ => none
    | some ⟨e, some g⟩ => some (e, .iput g)
    | _ => none

def Distinct : Prop :=
  ∀ e e', 0 < (s.entry e).ref → 0 < (s.entry e').ref → (s.entry e).dev = (s.entry e').dev →
    (s.entry e).inum = (s.entry e').inum → e = e'

structure Names : Prop where
  counted : Counted s.target s.count
  refs : ∀ t, s.refs ≤ t → s.ref t = none
  calls : ∀ a, s.calls ≤ a → s.call a = none
  called : ∀ a c, s.call a = some c → ∃ e, s.ref c.ref = some ⟨e, none⟩
  inside : ∀ e, 0 < (s.entry e).ref → e < nInode
  unique : s.Distinct

end Invariants

end Table

/-- How the copy of an entry is while the holder of its lock is at a stage. -/
def Entry.Fits (x : Entry) : Doing → Prop
  | .ilock .locked => x.valid = true ∧ x.freed = false
  | .ilock _ => x.valid = false
  | .iput .unlocking => x.freed = true ∧ x.valid = false
  | .iput _ => x.freed = true

theorem Entry.Fits.freed {x : Entry} {g : PutStage} (h : x.Fits (.iput g)) : x.freed = true := by
  cases g with
  | unlocking => exact h.1
  | _ => exact h

namespace Table

structure Locks (s : Table) : Prop where
  owned : ∀ o e, (s.entry e).lock = some o ↔ ∃ g, s.phase o = some (e, g)
  fits : ∀ o e g, s.phase o = some (e, g) → (s.entry e).Fits g
  free : ∀ e, (s.entry e).lock = none → (s.entry e).freed = true → (s.entry e).valid = false

variable {s s' : Table} {t a e : ℕ} {x : Entry}

section Counts

theorem target_setRef (r : Option Ref) :
    (s.setRef t r).target = update s.target t (r.map Ref.entry) :=
  comp_update _ _ _ _

theorem target_handOut : (s.handOut e).target = update s.target s.refs (some e) :=
  comp_update _ _ _ _

theorem count_setEntry : (s.setEntry e x).count = update s.count e x.ref :=
  comp_update _ _ _ _

theorem Distinct.setEntry (h : s.Distinct) (hdev : x.dev = (s.entry e).dev)
    (hinum : x.inum = (s.entry e).inum) (hpos : 0 < x.ref → 0 < (s.entry e).ref) :
    (s.setEntry e x).Distinct := by
  have hkey : ∀ e', (0 < ((s.setEntry e x).entry e').ref → 0 < (s.entry e').ref) ∧
      ((s.setEntry e x).entry e').dev = (s.entry e').dev ∧
      ((s.setEntry e x).entry e').inum = (s.entry e').inum := by
    intro e'
    by_cases hq : e' = e
    · subst hq
      simpa [Table.setEntry, hdev, hinum] using hpos
    · simp [Table.setEntry, update_of_ne hq]
  intro e1 e2 h1 h2 hd hi
  simp only [hkey] at hd hi
  exact h e1 e2 ((hkey e1).1 h1) ((hkey e2).1 h2) hd hi

/-- So does one that is taken for an inode no entry in use is for. -/
theorem Distinct.recycle (h : s.Distinct)
    (hnew : ∀ e', 0 < (s.entry e').ref →
      ¬((s.entry e').dev = x.dev ∧ (s.entry e').inum = x.inum)) : (s.setEntry e x).Distinct := by
  intro e1 e2 h1 h2 hdev hinum
  simp only [Table.setEntry] at h1 h2 hdev hinum
  by_cases hq1 : e1 = e <;> by_cases hq2 : e2 = e
  · rw [hq1, hq2]
  · simp only [hq1, update_self, update_of_ne hq2] at h2 hdev hinum
    exact absurd ⟨hdev.symm, hinum.symm⟩ (hnew e2 h2)
  · simp only [hq2, update_self, update_of_ne hq1] at h1 hdev hinum
    exact absurd ⟨hdev, hinum⟩ (hnew e1 h1)
  · simp only [update_of_ne hq1, update_of_ne hq2] at h1 h2 hdev hinum
    exact h e1 e2 h1 h2 hdev hinum

variable (h : s.Names)
include h

theorem Names.target_refs : s.target s.refs = none := by
  simp [target, h.refs s.refs le_rfl]

theorem Names.pos {p : Option PutStage} (ht : s.ref t = some ⟨e, p⟩) : 0 < (s.entry e).ref :=
  h.counted.pos (a := e) (h := t) (by simp [target, ht])

/-- Steps that keep who refers to what, and which entry is for which inode. -/
theorem Names.frame (htarget : s'.target = s.target) (hrefs : s'.refs = s.refs)
    (hcalls : ∀ a, s'.calls ≤ a → s'.call a = none)
    (hcalled : ∀ a c, s'.call a = some c → ∃ e, s'.ref c.ref = some ⟨e, none⟩)
    (hentry : ∀ e, (s'.entry e).ref = (s.entry e).ref ∧ (s'.entry e).dev = (s.entry e).dev ∧
      (s'.entry e).inum = (s.entry e).inum) : s'.Names where
  counted := by
    have hcount : s'.count = s.count := funext fun e => (hentry e).1
    rw [htarget, hcount]
    exact h.counted
  refs t ht := by
    have hnone := congrFun htarget t
    simpa [target, h.refs t (hrefs ▸ ht)] using hnone
  calls := hcalls
  called := hcalled
  inside e he := h.inside e ((hentry e).1 ▸ he)
  unique e e' he he' hdev hinum := by
    simp only [hentry] at he he' hdev hinum
    exact h.unique e e' he he' hdev hinum

theorem Names.inside_setEntry (hin : e < nInode) (e' : ℕ)
    (hpos : 0 < ((s.setEntry e x).entry e').ref) : e' < nInode := by
  by_cases hq : e' = e
  · exact hq ▸ hin
  · simp only [Table.setEntry, update_of_ne hq] at hpos
    exact h.inside e' hpos

/-- A reference is handed out and counted. -/
theorem Names.handOut (hcount : x.ref = (s.entry e).ref + 1) (hin : e < nInode)
    (hdistinct : (s.setEntry e x).Distinct) : ((s.setEntry e x).handOut e).Names where
  counted := by
    have ht := h.counted.take (a := e) h.target_refs
    rw [target_handOut]
    change Counted _ (s.setEntry e x).count
    rw [count_setEntry, hcount]
    exact ht
  refs t ht := by
    have hlt : s.refs + 1 ≤ t := ht
    have hne : t ≠ s.refs := by omega
    exact (update_of_ne hne _ _).trans (h.refs t (by omega))
  calls := h.calls
  called a c hc := by
    obtain ⟨e', he'⟩ := h.called a c hc
    have hne : c.ref ≠ s.refs := fun hq => by simp [hq, h.refs s.refs le_rfl] at he'
    exact ⟨e', (update_of_ne hne _ _).trans he'⟩
  inside := h.inside_setEntry hin
  unique := hdistinct

/-- The end of `iput`. -/
def putDown (s : Table) (t e : ℕ) : Table :=
  (s.setEntry e { s.entry e with ref := (s.entry e).ref - 1 }).setRef t none

theorem Names.putDown {p : Option PutStage} (ht : s.ref t = some ⟨e, p⟩)
    (hun : ∀ a c, s.call a = some c → c.ref ≠ t) : (s.putDown t e).Names where
  counted := by
    have hd := h.counted.drop (h := t) (a := e) (by simp [target, ht])
    rw [Table.putDown, target_setRef]
    change Counted _ (s.setEntry e _).count
    rw [count_setEntry]
    exact hd
  refs t' ht' := by
    by_cases hq : t' = t
    · simp [Table.putDown, setRef, hq]
    · exact (update_of_ne hq _ _).trans (h.refs t' ht')
  calls := h.calls
  called a c hc := by
    obtain ⟨e', he'⟩ := h.called a c hc
    exact ⟨e', (update_of_ne (hun a c hc) _ _).trans he'⟩
  inside := h.inside_setEntry (h.inside e (h.pos ht))
  unique := Distinct.setEntry h.unique rfl rfl fun _ => h.pos ht

end Counts

section Holders

/-- Steps in which no call takes, uses or gives back a sleep lock. Only an entry whose lock is
free may become invalid. -/
theorem Locks.frame (h : s.Locks) (hphase : ∀ o, s'.phase o = s.phase o)
    (hentry : ∀ e, (s'.entry e).lock = (s.entry e).lock ∧
      (s'.entry e).freed = (s.entry e).freed ∧
      ((s'.entry e).valid = (s.entry e).valid ∨
        (s.entry e).lock = none ∧ (s'.entry e).valid = false)) : s'.Locks where
  owned o e := by
    rw [(hentry e).1, hphase o]
    exact h.owned o e
  fits o e g hg := by
    rw [hphase o] at hg
    obtain ⟨hlock, hfreed, hvalid | ⟨hnone, hvalid⟩⟩ := hentry e
    · have hf := h.fits o e g hg
      cases g <;> simpa [Entry.Fits, hfreed, hvalid] using hf
    · have hl := (h.owned o e).mpr ⟨g, hg⟩
      simp [hnone] at hl
  free e hl hf := by
    obtain ⟨hlock, hfreed, hvalid | ⟨hnone, hvalid⟩⟩ := hentry e
    · rw [hvalid]
      exact h.free e (hlock ▸ hl) (hfreed ▸ hf)
    · exact hvalid

/-- A step of `o` that takes, uses or gives back the sleep lock of entry `e`. -/
theorem Locks.move {o : Owner} (h : s.Locks) (hentry : s'.entry = update s.entry e x)
    (hothers : ∀ o', o' ≠ o → s'.phase o' = s.phase o')
    (hbefore : (s.entry e).lock = none ∧ s.phase o = none ∨ (s.entry e).lock = some o)
    (hafter : x.lock = some o ∧ (∃ g, s'.phase o = some (e, g) ∧ x.Fits g) ∨
      x.lock = none ∧ s'.phase o = none ∧ (x.freed = true → x.valid = false)) : s'.Locks := by
  have hold : ∀ o' g, s.phase o' = some (e, g) → o' = o := by
    intro o' g hg
    have hl := (h.owned o' e).mpr ⟨g, hg⟩
    rcases hbefore with ⟨hnone, -⟩ | hlock
    · simp [hnone] at hl
    · simpa [hlock, eq_comm] using hl
  have hmine : ∀ e' g, s.phase o = some (e', g) → e' = e := by
    intro e' g hg
    rcases hbefore with ⟨-, hnone⟩ | hlock
    · simp [hnone] at hg
    · obtain ⟨g', hg'⟩ := (h.owned o e).mp hlock
      rw [hg] at hg'
      simp only [some.injEq, Prod.mk.injEq] at hg'
      exact hg'.1
  have hnow : ∀ e' g, s'.phase o = some (e', g) → e' = e ∧ x.lock = some o ∧ x.Fits g := by
    intro e' g hg
    rcases hafter with ⟨hlock, g', hg', hfit⟩ | ⟨-, hnone, -⟩
    · rw [hg] at hg'
      simp only [some.injEq, Prod.mk.injEq] at hg'
      exact ⟨hg'.1, hlock, hg'.2 ▸ hfit⟩
    · simp [hnone] at hg
  constructor
  case owned =>
    intro o' e'
    rw [hentry]
    by_cases hq : e' = e
    · subst hq
      rw [update_self]
      constructor
      · intro hl
        rcases hafter with ⟨hlock, g, hg, -⟩ | ⟨hnone, -, -⟩
        · rw [hlock, some.injEq] at hl
          exact ⟨g, hl ▸ hg⟩
        · simp [hnone] at hl
      · rintro ⟨g, hg⟩
        by_cases ho : o' = o
        · subst ho
          exact (hnow e' g hg).2.1
        · rw [hothers o' ho] at hg
          exact absurd (hold o' g hg) ho
    · rw [update_of_ne hq, h.owned o' e']
      by_cases ho : o' = o
      · subst ho
        constructor
        · rintro ⟨g, hg⟩
          exact absurd (hmine e' g hg) hq
        · rintro ⟨g, hg⟩
          exact absurd (hnow e' g hg).1 hq
      · rw [hothers o' ho]
  case fits =>
    intro o' e' g hg
    by_cases ho : o' = o
    · subst ho
      obtain ⟨rfl, -, hfit⟩ := hnow e' g hg
      rwa [hentry, update_self]
    · rw [hothers o' ho] at hg
      have hq : e' ≠ e := fun hq => ho (hold o' g (hq ▸ hg))
      rw [hentry, update_of_ne hq]
      exact h.fits o' e' g hg
  case free =>
    intro e' hl hf
    rw [hentry] at hl hf ⊢
    by_cases hq : e' = e
    · subst hq
      rw [update_self] at hl hf ⊢
      rcases hafter with ⟨hlock, -⟩ | ⟨-, -, hfree⟩
      · simp [hlock] at hl
      · exact hfree hf
    · rw [update_of_ne hq] at hl hf ⊢
      exact h.free e' hl hf

theorem phase_call {g : Stage} {p : Option PutStage} (hc : s.call a = some ⟨t, g⟩)
    (ht : s.ref t = some ⟨e, p⟩) (hg : g ≠ .waiting) : s.phase (.call a) = some (e, .ilock g) := by
  cases g <;> simp_all [phase, target]

theorem phase_put {g : PutStage} (ht : s.ref t = some ⟨e, some g⟩) (hg : g ≠ .dropping) :
    s.phase (.put t) = some (e, .iput g) := by
  cases g <;> simp_all [phase]

theorem phase_call_target {d : Doing} (ho : s.phase (.call a) = some (e, d)) :
    ∃ c, s.call a = some c ∧ s.target c.ref = some e := by
  simp only [phase] at ho
  split at ho
  · cases ho
  · rename_i hc
    obtain ⟨e', he', hq⟩ := map_eq_some_iff.mp ho
    cases hq
    exact ⟨_, hc, he'⟩
  · cases ho

theorem phase_put_target {d : Doing} (ho : s.phase (.put t) = some (e, d)) :
    s.target t = some e := by
  simp only [phase] at ho
  split at ho
  · cases ho
  · rename_i ht
    cases ho
    simp [target, ht]
  · cases ho

theorem phase_target {o : Owner} {d : Doing} (ho : s.phase o = some (e, d)) :
    ∃ t, s.target t = some e := by
  cases o with
  | call a =>
    obtain ⟨c, -, hc⟩ := phase_call_target ho
    exact ⟨c.ref, hc⟩
  | put t => exact ⟨t, phase_put_target ho⟩

theorem phase_setCall {o : Owner} {c : Option Call} (ho : o ≠ .call a) :
    (s.setCall a c).phase o = s.phase o := by
  cases o with
  | call b =>
    have hne : b ≠ a := fun hq => ho (hq ▸ rfl)
    simp only [phase, setCall, update_of_ne hne]
    rfl
  | put t => rfl

/-- What happens to a reference that no call goes through concerns its own `iput` alone. -/
theorem phase_setRef {o : Owner} {r : Option Ref} (hun : ∀ a c, s.call a = some c → c.ref ≠ t)
    (ho : o ≠ .put t) : (s.setRef t r).phase o = s.phase o := by
  cases o with
  | call a =>
    have htarget : ∀ c, s.call a = some c → (s.setRef t r).target c.ref = s.target c.ref := by
      intro c hc
      rw [target_setRef, update_of_ne (hun a c hc)]
    change (match s.call a with | some ⟨_, .waiting⟩ => _ | some ⟨t, g⟩ => _ | none => _) = _
    cases hc : s.call a with
    | none => simp [phase, hc]
    | some c =>
      have ht := htarget c hc
      obtain ⟨t', g⟩ := c
      cases g <;> simp_all [phase]
  | put t' =>
    have hne : t' ≠ t := fun hq => ho (hq ▸ rfl)
    simp only [phase, setRef, update_of_ne hne]

theorem phase_handOut {o : Owner} (h : s.Names) : (s.handOut e).phase o = s.phase o := by
  have hun : ∀ a c, s.call a = some c → c.ref ≠ s.refs := by
    intro a c hc hq
    obtain ⟨e', he'⟩ := h.called a c hc
    rw [hq, h.refs s.refs le_rfl] at he'
    cases he'
  change (s.setRef s.refs (some ⟨e, none⟩)).phase o = s.phase o
  by_cases ho : o = .put s.refs
  · subst ho
    simp [phase, setRef, h.refs s.refs le_rfl]
  · exact phase_setRef hun ho

end Holders

section Steps

structure Sound (s : Table) : Prop where
  names : s.Names
  locks : s.Locks

theorem through_ok {k : ℕ → Except Refused Table} (h : s.through t k = .ok s') :
    ∃ e, s.ref t = some ⟨e, none⟩ ∧ k e = .ok s' := by
  unfold through at h
  split at h
  · exact ⟨_, ‹_›, h⟩
  · cases h

theorem during_ok {g : Stage} {k : ℕ → ℕ → Except Refused Table}
    (h : s.during a g k = .ok s') :
    ∃ t e, s.call a = some ⟨t, g⟩ ∧ s.ref t = some ⟨e, none⟩ ∧ k t e = .ok s' := by
  unfold during at h
  split at h
  · rename_i t g' hc
    split_ifs at h with hg
    obtain ⟨e, he, hk⟩ := through_ok h
    exact ⟨t, e, hg ▸ hc, he, hk⟩
  · cases h

theorem find_some {dev inum : ℕ} (h : s.find dev inum = some e) :
    0 < (s.entry e).ref ∧ (s.entry e).dev = dev ∧ (s.entry e).inum = inum := by
  simpa using find?_some h

theorem Names.find_none {dev inum : ℕ} (h : s.Names) (hf : s.find dev inum = none) (e : ℕ)
    (he : 0 < (s.entry e).ref) : ¬((s.entry e).dev = dev ∧ (s.entry e).inum = inum) := by
  have hall := find?_eq_none.mp hf e (mem_range.mpr (h.inside e he))
  simpa [he] using hall

theorem empty_some (h : s.empty = some e) : (s.entry e).ref = 0 ∧ e < nInode := by
  have hmem := mem_range.mp (mem_of_find?_eq_some h)
  exact ⟨by simpa using find?_some h, hmem⟩

theorem setCall_self {c : Option Call} (hc : s.call a = c) : s.setCall a c = s := by
  simp [setCall, ← hc]

theorem Names.putting {p p' : Option PutStage} (h : s.Names) (ht : s.ref t = some ⟨e, p⟩)
    (hun : ∀ a c, s.call a = some c → c.ref ≠ t) (href : x.ref = (s.entry e).ref)
    (hdev : x.dev = (s.entry e).dev) (hinum : x.inum = (s.entry e).inum) :
    ((s.setEntry e x).setRef t (some ⟨e, p'⟩)).Names := by
  refine h.frame ?_ rfl h.calls ?_ ?_
  · rw [target_setRef]
    change update s.target t (some e) = s.target
    rw [update_eq_self_iff]
    simp [target, ht]
  · intro a c hc
    obtain ⟨e', he'⟩ := h.called a c hc
    exact ⟨e', (update_of_ne (hun a c hc) _ _).trans he'⟩
  · intro e'
    by_cases hq : e' = e
    · subst hq
      simp [setRef, setEntry, href, hdev, hinum]
    · simp [setRef, setEntry, update_of_ne hq]

theorem Names.unused_of_put {g : PutStage} (h : s.Names) (ht : s.ref t = some ⟨e, some g⟩) :
    ∀ a c, s.call a = some c → c.ref ≠ t := by
  intro a c hc hq
  obtain ⟨e', he'⟩ := h.called a c hc
  rw [hq, ht] at he'
  cases he'

theorem Names.unused (h : s.Names) (hun : s.Unused t) : ∀ a c, s.call a = some c → c.ref ≠ t := by
  intro a c hc hq
  have ha : a < s.calls := by
    by_contra hle
    rw [h.calls a (by omega)] at hc
    cases hc
  apply hun a ha
  simp [hc, hq]

variable (h : s.Sound)
include h

theorem Sound.handOut (hcount : x.ref = (s.entry e).ref + 1) (hin : e < nInode)
    (hdistinct : (s.setEntry e x).Distinct) (hlock : x.lock = (s.entry e).lock)
    (hfreed : x.freed = (s.entry e).freed)
    (hvalid : x.valid = (s.entry e).valid ∨ (s.entry e).lock = none ∧ x.valid = false) :
    ((s.setEntry e x).handOut e).Sound where
  names := h.names.handOut hcount hin hdistinct
  locks := by
    apply h.locks.frame
    · intro o
      exact phase_handOut (s := s) h.names
    · intro e'
      by_cases hq : e' = e
      · subst hq
        simpa [Table.handOut, Table.setEntry, hlock, hfreed] using hvalid
      · simp [Table.handOut, Table.setEntry, update_of_ne hq]

theorem Sound.idup (he : 0 < (s.entry e).ref) : (s.idup e).Sound :=
  h.handOut rfl (h.names.inside e he) (Distinct.setEntry h.names.unique rfl rfl fun _ => he) rfl rfl
    (.inl rfl)

theorem Sound.unlocked (he : (s.entry e).ref = 0) : (s.entry e).lock = none := by
  cases hl : (s.entry e).lock with
  | none => rfl
  | some o =>
    obtain ⟨g, hg⟩ := (h.locks.owned o e).mp hl
    obtain ⟨t, ht⟩ := phase_target hg
    exact absurd ht (h.names.counted.unheld he t)

theorem Sound.iget {dev inum : ℕ} (hx : s.iget dev inum = .ok s') : s'.Sound := by
  unfold Table.iget at hx
  split at hx
  · rename_i e hf
    cases hx
    exact h.idup (find_some hf).1
  · rename_i hf
    split at hx
    · cases hx
    · rename_i e hempty
      cases hx
      obtain ⟨hz, hin⟩ := empty_some hempty
      have hlock := h.unlocked hz
      exact h.handOut (by simp [hz]) hin (Distinct.recycle h.names.unique (h.names.find_none hf))
        rfl rfl (.inr ⟨hlock, rfl⟩)

theorem Sound.ilock (ht : s.ref t = some ⟨e, none⟩) (hx : s.ilock t e = .ok s') : s'.Sound := by
  unfold Table.ilock at hx
  split_ifs at hx
  cases hx
  constructor
  · refine h.names.frame rfl rfl ?_ ?_ ?_
    · intro a ha
      have hlt : s.calls + 1 ≤ a := ha
      have hne : a ≠ s.calls := by omega
      exact (update_of_ne hne _ _).trans (h.names.calls a (by omega))
    · intro a c hc
      by_cases hq : a = s.calls
      · simp only [hq, update_self, some.injEq] at hc
        exact ⟨e, hc ▸ ht⟩
      · simp only [update_of_ne hq] at hc
        exact h.names.called a c hc
    · simp
  · apply h.locks.frame
    · intro o
      change (s.setCall s.calls (some ⟨t, .waiting⟩)).phase o = s.phase o
      by_cases ho : o = .call s.calls
      · subst ho
        simp [phase, setCall, h.names.calls s.calls le_rfl]
      · exact phase_setCall ho
    · simp

omit h in
theorem Names.during {g : Stage} {c : Option Call} (h : s.Names) (hc : s.call a = some ⟨t, g⟩)
    (hcall : ∀ c', c = some c' → c'.ref = t) (href : x.ref = (s.entry e).ref)
    (hdev : x.dev = (s.entry e).dev) (hinum : x.inum = (s.entry e).inum) :
    ((s.setEntry e x).setCall a c).Names := by
  refine h.frame rfl rfl ?_ ?_ ?_
  · intro b hb
    have hne : b ≠ a := fun hq => by
      have hnone := h.calls b hb
      rw [hq, hc] at hnone
      cases hnone
    exact (update_of_ne hne _ _).trans (h.calls b hb)
  · intro b c' hc'
    by_cases hq : b = a
    · simp only [setCall, hq, update_self] at hc'
      rw [hcall c' hc']
      exact h.called a _ hc
    · simp only [setCall, update_of_ne hq] at hc'
      exact h.called b c' hc'
  · intro e'
    by_cases hq : e' = e
    · subst hq
      simp [setCall, setEntry, href, hdev, hinum]
    · simp [setCall, setEntry, update_of_ne hq]

/-- A call that has the lock keeps it and goes on to stage `g'`. -/
theorem Sound.goOn {g g' : Stage} (hc : s.call a = some ⟨t, g⟩)
    (ht : s.ref t = some ⟨e, none⟩) (hg : g ≠ .waiting) (hg' : g' ≠ .waiting)
    (hlock : x.lock = (s.entry e).lock) (hfit : x.Fits (.ilock g'))
    (href : x.ref = (s.entry e).ref) (hdev : x.dev = (s.entry e).dev)
    (hinum : x.inum = (s.entry e).inum) : ((s.setEntry e x).setCall a (some ⟨t, g'⟩)).Sound where
  names := h.names.during hc (by simp) href hdev hinum
  locks := by
    have hmine := (h.locks.owned (.call a) e).mpr ⟨_, phase_call hc ht hg⟩
    apply h.locks.move (o := .call a) (e := e) (x := x) rfl
    · intro o ho
      exact phase_setCall (s := s.setEntry e x) ho
    · exact .inr hmine
    · refine .inl ⟨hlock.trans hmine, _, ?_, hfit⟩
      exact phase_call (s := (s.setEntry e x).setCall a (some ⟨t, g'⟩)) (update_self _ _ _)
        ht hg'

theorem Sound.acquire (hc : s.call a = some ⟨t, .waiting⟩)
    (ht : s.ref t = some ⟨e, none⟩) (hx : s.acquire a t e = .ok s') : s'.Sound := by
  unfold Table.acquire at hx
  split_ifs at hx with hfree hvalid
  · cases hx
    refine ⟨h.names.during hc (by simp) rfl rfl rfl, ?_⟩
    apply h.locks.move (o := .call a) rfl
    · intro o ho
      exact phase_setCall (s := s.setEntry e _) ho
    · exact .inl ⟨hfree, by simp [phase, hc]⟩
    · refine .inl ⟨rfl, .ilock .locked, ?_, hvalid, ?_⟩
      · simp [phase, setCall, target, setEntry, ht]
      · cases hf : (s.entry e).freed with
        | false => rfl
        | true => simp [h.locks.free e hfree hf] at hvalid
  · cases hx
    refine ⟨h.names.during hc (by simp) rfl rfl rfl, ?_⟩
    apply h.locks.move (o := .call a) rfl
    · intro o ho
      exact phase_setCall (s := s.setEntry e _) ho
    · exact .inl ⟨hfree, by simp [phase, hc]⟩
    · refine .inl ⟨rfl, .ilock .loading, ?_, ?_⟩
      · simp [phase, setCall, target, setEntry, ht]
      · simpa [Entry.Fits] using hvalid

theorem Sound.load (hc : s.call a = some ⟨t, .loading⟩)
    (ht : s.ref t = some ⟨e, none⟩) (hx : s.load a t e = .ok s') : s'.Sound := by
  simp only [Table.load] at hx
  split_ifs at hx
  cases hx
  exact h.goOn hc ht (by decide) (by decide) rfl ⟨rfl, rfl⟩ rfl rfl rfl

theorem Sound.write {d : Dinode} (hc : s.call a = some ⟨t, .locked⟩)
    (ht : s.ref t = some ⟨e, none⟩) : (s.write e d).Sound := by
  have hfit := h.locks.fits _ _ _ (phase_call hc ht (by decide))
  have hgo : ((s.setEntry e { s.entry e with copy := d }).setCall a (some ⟨t, .locked⟩)).Sound :=
    h.goOn hc ht (by decide) (by decide) rfl hfit rfl rfl rfl
  rwa [setCall_self (s := s.setEntry e _) hc] at hgo

theorem Sound.setDisk {dev inum : ℕ} {d : Dinode} : (s.setDisk dev inum d).Sound :=
  ⟨⟨h.names.counted, h.names.refs, h.names.calls, h.names.called, h.names.inside,
    h.names.unique⟩, ⟨h.locks.owned, h.locks.fits, h.locks.free⟩⟩

theorem Sound.iunlock (hc : s.call a = some ⟨t, .locked⟩)
    (ht : s.ref t = some ⟨e, none⟩) (hx : s.iunlock a e = .ok s') : s'.Sound := by
  unfold Table.iunlock at hx
  split_ifs at hx with hlock
  cases hx
  have hphase := phase_call hc ht (by decide)
  have hfit := h.locks.fits _ _ _ hphase
  refine ⟨h.names.during hc (by simp) rfl rfl rfl, ?_⟩
  apply h.locks.move (o := .call a) rfl
  · intro o ho
    exact phase_setCall (s := s.setEntry e _) ho
  · exact .inr ((h.locks.owned _ _).mpr ⟨_, hphase⟩)
  · refine .inr ⟨rfl, by simp [phase, setCall], ?_⟩
    intro hf
    have hnot : (s.entry e).freed = false := hfit.2
    simp [hnot] at hf

/-- An `iput` that has the lock keeps it and goes on to stage `g'`. -/
theorem Sound.putOn {g g' : PutStage} (ht : s.ref t = some ⟨e, some g⟩)
    (hg : g ≠ .dropping) (hg' : g' ≠ .dropping) (hlock : x.lock = (s.entry e).lock)
    (hfit : x.Fits (.iput g')) (href : x.ref = (s.entry e).ref) (hdev : x.dev = (s.entry e).dev)
    (hinum : x.inum = (s.entry e).inum) :
    ((s.setEntry e x).setRef t (some ⟨e, some g'⟩)).Sound where
  names := h.names.putting ht (h.names.unused_of_put ht) href hdev hinum
  locks := by
    have hmine := (h.locks.owned (.put t) e).mpr ⟨_, phase_put ht hg⟩
    apply h.locks.move (o := .put t) (e := e) (x := x) rfl
    · intro o ho
      exact phase_setRef (s := s.setEntry e x) (h.names.unused_of_put ht) ho
    · exact .inr hmine
    · refine .inl ⟨hlock.trans hmine, _, ?_, hfit⟩
      exact phase_put (s := (s.setEntry e x).setRef t _) (update_self _ _ _) hg'

theorem Sound.putDown {p : Option PutStage} (ht : s.ref t = some ⟨e, p⟩)
    (hp : p = none ∨ p = some .dropping) (hun : ∀ a c, s.call a = some c → c.ref ≠ t) :
    (s.putDown t e).Sound where
  names := h.names.putDown ht hun
  locks := by
    apply h.locks.frame
    · intro o
      by_cases ho : o = .put t
      · subst ho
        rcases hp with rfl | rfl <;> simp [phase, Table.putDown, setRef, ht]
      · exact phase_setRef (s := s.setEntry e _) hun ho
    · intro e'
      by_cases hq : e' = e
      · subst hq
        simp [Table.putDown, setRef, setEntry]
      · simp [Table.putDown, setRef, setEntry, update_of_ne hq]

theorem Sound.iput (ht : s.ref t = some ⟨e, none⟩) (hun : s.Unused t)
    (hx : s.iput t e = .ok s') : s'.Sound := by
  have hcalls := h.names.unused hun
  unfold Table.iput at hx
  split_ifs at hx with hfree hlock
  · cases hx
    refine ⟨h.names.putting ht hcalls rfl rfl rfl, ?_⟩
    apply h.locks.move (o := .put t) rfl
    · intro o ho
      exact phase_setRef (s := s.setEntry e _) hcalls ho
    · exact .inl ⟨hlock, by simp [phase, ht]⟩
    · exact .inl ⟨rfl, .iput .truncating, by simp [phase, setRef], rfl⟩
  · cases hx
    exact h.putDown ht (.inl rfl) hcalls

theorem Sound.free {g : PutStage} (ht : s.ref t = some ⟨e, some g⟩)
    (hx : s.free t e g = .ok s') : s'.Sound := by
  have hfit : g ≠ .dropping → (s.entry e).Fits (.iput g) := fun hg =>
    h.locks.fits _ _ _ (phase_put ht hg)
  cases g with
  | truncating =>
    cases hx
    have hgo : ((s.setEntry e { s.entry e with copy := (s.entry e).copy.truncated }).setRef t
        (some ⟨e, some .clearing⟩)).Sound :=
      h.putOn ht (by decide) (by decide) rfl (hfit (by decide)) rfl rfl rfl
    exact hgo.setDisk
  | clearing =>
    cases hx
    have hgo : ((s.setEntry e { s.entry e with
        copy := { (s.entry e).copy with type := 0 } }).setRef t
        (some ⟨e, some .invalidating⟩)).Sound :=
      h.putOn ht (by decide) (by decide) rfl (hfit (by decide)) rfl rfl rfl
    exact hgo.setDisk
  | invalidating =>
    cases hx
    exact h.putOn ht (by decide) (by decide) rfl ⟨hfit (by decide), rfl⟩ rfl rfl rfl
  | unlocking =>
    cases hx
    have hphase := phase_put ht (g := .unlocking) (by decide)
    have hcalls := h.names.unused_of_put ht
    refine ⟨h.names.putting ht hcalls rfl rfl rfl, ?_⟩
    apply h.locks.move (o := .put t) rfl
    · intro o ho
      exact phase_setRef (s := s.setEntry e _) hcalls ho
    · exact .inr ((h.locks.owned _ _).mpr ⟨_, hphase⟩)
    · exact .inr ⟨rfl, by simp [phase, setRef], fun _ => (hfit (by decide)).2⟩
  | dropping =>
    cases hx
    exact h.putDown ht (.inr rfl) (h.names.unused_of_put ht)

theorem Sound.ialloc {dev inum type : ℕ} (hx : s.ialloc dev inum type = .ok s') : s'.Sound := by
  unfold Table.ialloc at hx
  split_ifs at hx
  cases hx
  exact h.setDisk

/-- Every piece of every call keeps the invariant. -/
theorem Sound.step {p : Piece} (hx : s.step p = .ok s') : s'.Sound := by
  cases p with
  | iget dev inum => exact h.iget hx
  | idup t =>
    obtain ⟨e, he, hk⟩ := through_ok hx
    cases hk
    exact h.idup (h.names.pos he)
  | ilock t =>
    obtain ⟨e, he, hk⟩ := through_ok hx
    exact h.ilock he hk
  | acquire a =>
    obtain ⟨t, e, hc, he, hk⟩ := during_ok hx
    exact h.acquire hc he hk
  | load a =>
    obtain ⟨t, e, hc, he, hk⟩ := during_ok hx
    exact h.load hc he hk
  | write a d =>
    obtain ⟨t, e, hc, he, hk⟩ := during_ok hx
    cases hk
    exact h.write hc he
  | iupdate a =>
    obtain ⟨t, e, -, -, hk⟩ := during_ok hx
    cases hk
    exact h.setDisk
  | iunlock a =>
    obtain ⟨t, e, hc, he, hk⟩ := during_ok hx
    exact h.iunlock hc he hk
  | iput t =>
    simp only [Table.step] at hx
    split_ifs at hx with hun
    obtain ⟨e, he, hk⟩ := through_ok hx
    exact h.iput he hun hk
  | free t =>
    simp only [Table.step] at hx
    split at hx
    · exact h.free ‹_› hx
    · cases hx
  | ialloc dev inum type => exact h.ialloc hx

end Steps

section Runs

variable {disk : ℕ → ℕ → Dinode}

theorem iinit_sound : (iinit disk).Sound where
  names :=
    { counted := Counted.none fun _ => rfl
      refs := fun _ _ => rfl
      calls := fun _ _ => rfl
      called := by simp [iinit]
      inside := by simp [iinit]
      unique := by simp [Distinct, iinit] }
  locks :=
    { owned := by
        intro o e
        cases o <;> simp [iinit, phase]
      fits := by
        intro o e g hg
        cases o <;> simp [iinit, phase] at hg
      free := by simp [iinit] }

theorem reach_sound (hr : Reach (stepRel step) (fun _ _ => True) (iinit disk) s) : s.Sound :=
  hr.invariant iinit_sound fun _ _ _ h _ hx => h.step hx

/-- How a piece changes an entry: one in use stays for the same inode, and only an `ilock` that
reads the inode from disk takes the mark off a freed copy. -/
structure Changes (s : Table) (p : Piece) (e : ℕ) (x : Entry) : Prop where
  keeps : 0 < (s.entry e).ref → x.dev = (s.entry e).dev ∧ x.inum = (s.entry e).inum
  freed : (s.entry e).freed = true → x.freed = true ∨
    ∃ a t, p = .load a ∧ s.call a = some ⟨t, .loading⟩ ∧ s.ref t = some ⟨e, none⟩ ∧
      x.copy = s.disk (s.entry e).dev (s.entry e).inum

theorem Changes.same {p : Piece} (hdev : x.dev = (s.entry e).dev)
    (hinum : x.inum = (s.entry e).inum)
    (hfreed : x.freed = (s.entry e).freed) : s.Changes p e x :=
  ⟨fun _ => ⟨hdev, hinum⟩, fun hf => .inl (hfreed.trans hf)⟩

theorem changes_iget {dev inum : ℕ} (hx : s.iget dev inum = .ok s') :
    ∃ e x, s'.entry = update s.entry e x ∧ s.Changes (.iget dev inum) e x := by
  unfold iget at hx
  split at hx
  · cases hx
    exact ⟨_, _, rfl, .same rfl rfl rfl⟩
  · split at hx
    · cases hx
    · rename_i e hempty
      cases hx
      refine ⟨e, _, rfl, ?_, fun hf => .inl hf⟩
      intro hpos
      have hz := (empty_some hempty).1
      omega

theorem changes_iput (hx : s.iput t e = .ok s') :
    ∃ x, s'.entry = update s.entry e x ∧ s.Changes (.iput t) e x := by
  unfold iput at hx
  split_ifs at hx
  · cases hx
    exact ⟨_, rfl, fun _ => ⟨rfl, rfl⟩, fun _ => .inl rfl⟩
  · cases hx
    exact ⟨_, rfl, .same rfl rfl rfl⟩

theorem changes_free {g : PutStage} (hx : s.free t e g = .ok s') :
    ∃ x, s'.entry = update s.entry e x ∧ s.Changes (.free t) e x := by
  cases g <;> cases hx <;> exact ⟨_, rfl, .same rfl rfl rfl⟩

/-- Every piece changes at most one entry. -/
theorem step_changes {p : Piece} (hx : s.step p = .ok s') :
    ∃ e x, s'.entry = update s.entry e x ∧ s.Changes p e x := by
  have hself : ∀ {p}, s'.entry = s.entry →
      ∃ e x, s'.entry = update s.entry e x ∧ s.Changes p e x := fun hq =>
    ⟨0, s.entry 0, by rw [hq, update_eq_self], .same rfl rfl rfl⟩
  cases p with
  | iget dev inum => exact changes_iget hx
  | idup t =>
    obtain ⟨e, -, hk⟩ := through_ok hx
    cases hk
    exact ⟨e, _, rfl, .same rfl rfl rfl⟩
  | ilock t =>
    obtain ⟨e, -, hk⟩ := through_ok hx
    unfold ilock at hk
    split_ifs at hk
    cases hk
    exact hself rfl
  | acquire a =>
    obtain ⟨t, e, -, -, hk⟩ := during_ok hx
    unfold acquire at hk
    split_ifs at hk <;> cases hk <;> exact ⟨e, _, rfl, .same rfl rfl rfl⟩
  | load a =>
    obtain ⟨t, e, hc, he, hk⟩ := during_ok hx
    simp only [load] at hk
    split_ifs at hk
    cases hk
    exact ⟨e, _, rfl, fun _ => ⟨rfl, rfl⟩, fun _ => .inr ⟨a, t, rfl, hc, he, rfl⟩⟩
  | write a d =>
    obtain ⟨t, e, -, -, hk⟩ := during_ok hx
    cases hk
    exact ⟨e, _, rfl, .same rfl rfl rfl⟩
  | iupdate a =>
    obtain ⟨t, e, -, -, hk⟩ := during_ok hx
    cases hk
    exact hself rfl
  | iunlock a =>
    obtain ⟨t, e, -, -, hk⟩ := during_ok hx
    unfold iunlock at hk
    split_ifs at hk
    cases hk
    exact ⟨e, _, rfl, .same rfl rfl rfl⟩
  | iput t =>
    simp only [step] at hx
    split_ifs at hx
    obtain ⟨e, -, hk⟩ := through_ok hx
    exact ⟨e, changes_iput hk⟩
  | free t =>
    simp only [step] at hx
    split at hx
    · exact ⟨_, changes_free hx⟩
    · cases hx
  | ialloc dev inum type =>
    simp only [step, ialloc] at hx
    split_ifs at hx
    cases hx
    exact hself rfl

theorem step_keeps {p : Piece} (hx : s.step p = .ok s') (he : 0 < (s.entry e).ref) :
    (s'.entry e).dev = (s.entry e).dev ∧ (s'.entry e).inum = (s.entry e).inum := by
  obtain ⟨e0, x, hentry, hch⟩ := step_changes hx
  rw [hentry]
  by_cases hq : e = e0
  · subst hq
    simpa using hch.keeps he
  · simp [update_of_ne hq]

/-- A freed copy stays marked until some `ilock` reads the inode from disk. -/
theorem step_freed {p : Piece} (hx : s.step p = .ok s') (hf : (s.entry e).freed = true)
    (hf' : (s'.entry e).freed = false) :
    ∃ a t, p = .load a ∧ s.call a = some ⟨t, .loading⟩ ∧ s.ref t = some ⟨e, none⟩ ∧
      (s'.entry e).copy = s.disk (s.entry e).dev (s.entry e).inum := by
  obtain ⟨e0, x, hentry, hch⟩ := step_changes hx
  rw [hentry] at hf' ⊢
  by_cases hq : e = e0
  · subst hq
    rw [update_self] at hf' ⊢
    rcases hch.freed hf with hstill | hload
    · simp [hstill] at hf'
    · exact hload
  · rw [update_of_ne hq, hf] at hf'
    cases hf'

/-- `ilock` on a freed copy goes to disk. -/
theorem Sound.acquire_freed (h : s.Sound) (hc : s.call a = some ⟨t, .waiting⟩)
    (ht : s.ref t = some ⟨e, none⟩) (hf : (s.entry e).freed = true)
    (hx : s.step (.acquire a) = .ok s') : s'.call a = some ⟨t, .loading⟩ := by
  obtain ⟨t', e', hc', ht', hk⟩ := during_ok hx
  rw [hc] at hc'
  cases hc'
  rw [ht] at ht'
  cases ht'
  unfold Table.acquire at hk
  split_ifs at hk with hfree hvalid
  · simp [h.locks.free e hfree hf] at hvalid
  · cases hk
    simp [setCall]

/-- In every interleaving of the pieces of `iget`, `idup`, `ilock`, `iunlock`, `iput` and
`ialloc`: entries in use are for different inodes, are counted by the references handed out and
not yet put, and stay for the same inode. A copy that `iput` is freeing is marked, the mark goes
only when an `ilock` reads the inode from disk, an `ilock` that gets the lock of a marked copy
does so, and no `ilock` returns with a marked copy. -/
theorem inode_identity (hr : Reach (stepRel step) (fun _ _ => True) (iinit disk) s) :
    (∀ e e', 0 < (s.entry e).ref → 0 < (s.entry e').ref → (s.entry e).dev = (s.entry e').dev →
      (s.entry e).inum = (s.entry e').inum → e = e') ∧
    (∀ e, (s.entry e).ref = {t | ∃ p, s.ref t = some ⟨e, p⟩}.ncard) ∧
    (∀ p s', s.step p = .ok s' → ∀ e, 0 < (s.entry e).ref →
      (s'.entry e).dev = (s.entry e).dev ∧ (s'.entry e).inum = (s.entry e).inum) ∧
    (∀ t e g, s.ref t = some ⟨e, some g⟩ → g ≠ .dropping → (s.entry e).freed = true) ∧
    (∀ p s' e, s.step p = .ok s' → (s.entry e).freed = true → (s'.entry e).freed = false →
      ∃ a t, p = .load a ∧ s.call a = some ⟨t, .loading⟩ ∧ s.ref t = some ⟨e, none⟩ ∧
        (s'.entry e).copy = s.disk (s.entry e).dev (s.entry e).inum) ∧
    (∀ a t e s', s.call a = some ⟨t, .waiting⟩ → s.ref t = some ⟨e, none⟩ →
      (s.entry e).freed = true → s.step (.acquire a) = .ok s' → s'.call a = some ⟨t, .loading⟩) ∧
    ∀ a t e, s.call a = some ⟨t, .locked⟩ → s.ref t = some ⟨e, none⟩ →
      (s.entry e).valid = true ∧ (s.entry e).freed = false := by
  have h := reach_sound hr
  refine ⟨h.names.unique, ?_, fun p s' hx e he => step_keeps hx he, ?_,
    fun p s' e hx hf hf' => step_freed hx hf hf',
    fun a t e s' hc ht hf hx => h.acquire_freed hc ht hf hx, ?_⟩
  · intro e
    have hcount := h.names.counted.count e
    have hset : {t | ∃ p, s.ref t = some ⟨e, p⟩} = holders s.target e := by
      ext t
      constructor
      · rintro ⟨p, hp⟩
        simp [holders, target, hp]
      · intro ht
        obtain ⟨r, hr, rfl⟩ := Option.map_eq_some_iff.mp ht
        exact ⟨r.put, hr⟩
    rw [hset]
    exact hcount
  · intro t e g ht hg
    exact Entry.Fits.freed (h.locks.fits _ _ _ (phase_put ht hg))
  · intro a t e hc ht
    exact h.locks.fits _ _ _ (phase_call hc ht (by decide))

def oneFile : ℕ → ℕ → Dinode := fun _ inum =>
  if inum = 5 then ⟨2, 0, 0, 1, 7, fun _ => 0⟩ else ⟨0, 0, 0, 0, 0, fun _ => 0⟩

/-- A process unlinks and puts the file; while it is being freed, another allocates the same inode
and waits for its lock; then the lock is free. -/
def reallocated : List Piece :=
  [.iget 1 5, .ilock 0, .acquire 0, .load 0, .write 0 ⟨2, 0, 0, 0, 7, fun _ => 0⟩, .iupdate 0,
    .iunlock 0, .iput 0, .free 0, .free 0, .ialloc 1 5 3, .iget 1 5, .ilock 1, .free 0, .free 0]

theorem inode_identity_reallocated :
    ∃ s, Reach (stepRel step) (fun _ _ => True) (iinit oneFile) s ∧ (s.entry 0).ref = 2 ∧
      (s.entry 0).freed = true ∧ s.call 1 = some ⟨1, .waiting⟩ ∧ s.ref 1 = some ⟨0, none⟩ ∧
      {t | ∃ p, s.ref t = some ⟨0, p⟩}.ncard = 2 ∧
      ∃ s', s.step (.acquire 1) = .ok s' ∧ s'.call 1 = some ⟨1, .loading⟩ := by
  have hrun : (follow step (fun _ _ => True) (iinit oneFile) reallocated).map (fun s =>
      ((s.entry 0).ref, (s.entry 0).freed, s.call 1, s.ref 1, (s.entry 0).lock.isNone)) =
        some (2, true, some ⟨1, .waiting⟩, some ⟨0, none⟩, true) := by
    decide +kernel
  obtain ⟨s, hs, hq⟩ := Option.map_eq_some_iff.mp hrun
  simp only [Prod.mk.injEq] at hq
  obtain ⟨href, hfreed, hcall, ht, hfree⟩ := hq
  have hlock : (s.entry 0).lock = none := Option.isNone_iff_eq_none.mp hfree
  have hr : Reach (stepRel step) (fun _ _ => True) _ s :=
    reach_of_follow reallocated Reach.refl hs
  obtain ⟨-, hcount, -, -, -, hacq, -⟩ := inode_identity hr
  obtain ⟨s', hx⟩ : ∃ s', s.step (.acquire 1) = .ok s' := by
    simp [step, during, hcall, through, ht, acquire, hlock]
  exact ⟨s, hr, href, hfreed, hcall, ht, (hcount 0).symm.trans href, s', hx,
    hacq 1 1 0 s' hcall ht hfreed hx⟩

theorem through_panic {k : ℕ → Except Refused Table} (h : s.through t k = .error .panic) :
    ∃ e, s.ref t = some ⟨e, none⟩ ∧ k e = .error .panic := by
  unfold through at h
  split at h
  · exact ⟨_, ‹_›, h⟩
  · cases h

theorem during_panic {g : Stage} {k : ℕ → ℕ → Except Refused Table}
    (h : s.during a g k = .error .panic) :
    ∃ t e, s.call a = some ⟨t, g⟩ ∧ s.ref t = some ⟨e, none⟩ ∧ k t e = .error .panic := by
  unfold during at h
  split at h
  · rename_i t g' hc
    split_ifs at h with hg
    · obtain ⟨e, he, hk⟩ := through_panic h
      exact ⟨t, e, hg ▸ hc, he, hk⟩
    · cases h
  · cases h

/-- `iput` takes the lock with `itable.lock` held, and finds it free: whoever had it would be using
the only reference. -/
theorem Sound.iput_unlocked (h : s.Sound) (ht : s.ref t = some ⟨e, none⟩) (hun : s.Unused t)
    (hone : (s.entry e).ref = 1) : (s.entry e).lock = none := by
  have htarget : s.target t = some e := by simp [target, ht]
  cases hl : (s.entry e).lock with
  | none => rfl
  | some o =>
    obtain ⟨d, hd⟩ := (h.locks.owned o e).mp hl
    cases o with
    | call a =>
      obtain ⟨c, hc, hce⟩ := phase_call_target hd
      exact absurd (h.names.counted.sole hone hce htarget) (h.names.unused hun a c hc)
    | put t' =>
      obtain rfl := h.names.counted.sole hone (phase_put_target hd) htarget
      simp [phase, ht] at hd

theorem Sound.iput_returns (h : s.Sound) :
    s.step (.iput t) ≠ .error .panic ∧ s.step (.iput t) ≠ .error .blocked := by
  by_cases hun : s.Unused t
  · rw [Table.step, if_pos hun]
    unfold through
    split
    · rename_i e he
      unfold Table.iput
      split_ifs with hfree hlock
      · simp
      · exact absurd (h.iput_unlocked he hun hfree.1) hlock
      · simp
    · simp
  · simp [Table.step, if_neg hun]

theorem Sound.iunlock_returns (h : s.Sound) : s.step (.iunlock a) ≠ .error .panic := by
  intro hx
  obtain ⟨t, e, hc, he, hk⟩ := during_panic hx
  have hlock := (h.locks.owned _ e).mpr ⟨_, phase_call hc he (by decide)⟩
  have hpos := h.names.pos he
  simp [Table.iunlock, hlock, Nat.not_lt.mpr hpos] at hk

theorem panic_cases (h : s.Sound) {p : Piece} (hx : s.step p = .error .panic) :
    (∃ dev inum, p = .iget dev inum ∧ ∀ e < nInode, (s.entry e).ref ≠ 0) ∨
      ∃ a t e, p = .load a ∧ s.call a = some ⟨t, .loading⟩ ∧ s.ref t = some ⟨e, none⟩ ∧
        (s.disk (s.entry e).dev (s.entry e).inum).type = 0 := by
  cases p with
  | iget dev inum =>
    refine .inl ⟨dev, inum, rfl, fun e he => ?_⟩
    simp only [step, iget] at hx
    split at hx
    · cases hx
    · split at hx
      · simpa using find?_eq_none.mp ‹s.empty = none› e (mem_range.mpr he)
      · cases hx
  | ilock t =>
    obtain ⟨e, he, hk⟩ := through_panic hx
    have hpos := h.names.pos he
    simp [ilock, Nat.not_lt.mpr hpos] at hk
  | load a =>
    obtain ⟨t, e, hc, he, hk⟩ := during_panic hx
    simp only [load] at hk
    split_ifs at hk with htype
    exact .inr ⟨a, t, e, rfl, hc, he, htype⟩
  | iunlock a => exact absurd hx h.iunlock_returns
  | iput t => exact absurd hx h.iput_returns.1
  | acquire a =>
    obtain ⟨t, e, -, -, hk⟩ := during_panic hx
    simp only [acquire] at hk
    split_ifs at hk
    cases hk
  | free t =>
    simp only [step] at hx
    split at hx
    · cases ‹PutStage› <;> cases hx
    · cases hx
  | ialloc dev inum type =>
    simp only [step, ialloc] at hx
    split_ifs at hx
    cases hx
  | idup t =>
    obtain ⟨e, -, hk⟩ := through_panic hx
    cases hk
  | write a d | iupdate a =>
    obtain ⟨t, e, -, -, hk⟩ := during_panic hx
    cases hk

/-- In every interleaving the only panics of these functions are that of `iget` when all entries are
in use, and that of `ilock` when the inode that it reads is free on disk. `iput` does not sleep. -/
theorem panics_iget_or_load (hr : Reach (stepRel step) (fun _ _ => True) (iinit disk) s) :
    (∀ p, s.step p = .error .panic →
      (∃ dev inum, p = .iget dev inum ∧ ∀ e < nInode, (s.entry e).ref ≠ 0) ∨
        ∃ a t e, p = .load a ∧ s.call a = some ⟨t, .loading⟩ ∧ s.ref t = some ⟨e, none⟩ ∧
          (s.disk (s.entry e).dev (s.entry e).inum).type = 0) ∧
      ∀ t, s.step (.iput t) ≠ .error .blocked :=
  ⟨fun _ hx => panic_cases (reach_sound hr) hx, fun _ => (reach_sound hr).iput_returns.2⟩

theorem panics_iget_or_load_freeInode : ∃ s,
    Reach (stepRel step) (fun _ _ => True) (iinit oneFile) s ∧ s.step (.load 0) = .error .panic ∧
      ∃ t e, s.ref t = some ⟨e, none⟩ ∧ (s.disk (s.entry e).dev (s.entry e).inum).type = 0 := by
  have hrun : (follow step (fun _ _ => True) (iinit oneFile) [.iget 1 6, .ilock 0, .acquire 0]).any
      (fun s => stopsWith .panic (s.step (.load 0))) = true := by decide +kernel
  obtain ⟨s, hs, hx⟩ := (Option.any_eq_true _ _).mp hrun
  have hr : Reach (stepRel step) (fun _ _ => True) _ s := reach_of_follow _ .refl hs
  refine ⟨s, hr, of_stopsWith hx, ?_⟩
  rcases (panics_iget_or_load hr).1 _ (of_stopsWith hx) with ⟨_, _, hp, -⟩ |
    ⟨a, t, e, -, -, ht, hfree⟩
  · cases hp
  · exact ⟨t, e, ht, hfree⟩

end Runs

end Table

end Xv6.Fs
