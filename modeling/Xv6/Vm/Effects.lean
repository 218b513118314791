import Xv6.Vm.Ownership

/-!
# What the paging functions do

One lemma for each function says what its return implies: how the accounts of
pages stand, and which parts of the state changed. `Quiet s s'` covers the work
that user code cannot see: pages were taken from the free list and filled or made
into tables, and everything else is as before.
-/
namespace Xv6.Vm

open Library Function Kernel

def Inode.Has (i : Inode) (bn : ℕ) : Prop := i.blocks bn = true ∧ (nDirect ≤ bn → i.indirect = true)

def Inode.Full (i : Inode) : Prop := ∀ off < i.size, off / bSize < maxFile ∧ i.Has (off / bSize)

/-- Only free pages were touched, and no process but `np` was changed. -/
structure Aside (np : Option ℕ) (s s' : Kernel) : Prop where
  tables : ∀ t v, some t ≠ np → s'.trans t v = s.trans t v
  free : ∀ pa ∈ s'.freelist, pa ∈ s.freelist
  ref : ∀ pa, pa ∉ s.freelist → s'.ref pa = s.ref pa
  mem : ∀ pa, pa ∉ s.freelist → s'.mem pa = s.mem pa
  own : ∀ y pa, s'.own y = some pa → s.own y = some pa ∨ pa ∈ s.freelist
  faulted : ∀ pa ∈ s'.faulted, pa ∈ s.faulted ∧ (pa ∈ s.freelist → pa ∈ s'.freelist)
  inode : ∀ ip, (s.inode ip).Full → s'.inode ip = s.inode ip
  procs : ∀ p, some p ≠ np → s'.proc p = s.proc p
  vmas : s'.vmas = s.vmas
  file : s'.file = s.file
  ilocked : s'.ilocked = s.ilocked
  bounded : s.Bounded → s'.Bounded
  absent : ∀ t, some t ≠ np → s.table t = none → s'.table t = none

/-- Only free pages were touched, and no translation changed. -/
abbrev Quiet : Kernel → Kernel → Prop := Aside none

/-- Page `pa` was free in `s` and has been taken since. -/
structure Fresh (s s' : Kernel) (pa : ℕ) : Prop where
  was : pa ∈ s.freelist
  taken : s.freelist.Nodup → pa ∉ s'.freelist ∧ s'.ref pa = 1
  faulted : pa ∉ s'.faulted

def Keeps (s s' : Kernel) : Prop := ∀ D, s.Owned D → s'.Owned D

namespace Aside

variable {np : Option ℕ} {s s1 s' : Kernel} {t pa : ℕ} {rest : List ℕ}

theorem others {np : ℕ} (h : Aside (some np) s s') : ∀ q, q ≠ np → s'.proc q = s.proc q :=
  fun q hq => h.procs q (by simpa using hq)

theorem apart {np : ℕ} (h : Aside (some np) s s') : ∀ t v, t ≠ np → s'.trans t v = s.trans t v :=
  fun t v ht => h.tables t v (by simpa using ht)

theorem refl (s : Kernel) : Aside np s s where
  tables _ _ _ := rfl
  free _ h := h
  ref _ _ := rfl
  mem _ _ := rfl
  own _ _ h := Or.inl h
  faulted _ h := ⟨h, id⟩
  inode _ _ := rfl
  procs _ _ := rfl
  vmas := rfl
  file := rfl
  ilocked := rfl
  bounded := id
  absent _ _ h := h

theorem andThen (h : Aside np s s1) (h' : Aside np s1 s') : Aside np s s' where
  tables t v ht := (h'.tables t v ht).trans (h.tables t v ht)
  free a ha := h.free a (h'.free a ha)
  ref a ha := (h'.ref a fun hf => ha (h.free a hf)).trans (h.ref a ha)
  mem a ha := (h'.mem a fun hf => ha (h.free a hf)).trans (h.mem a ha)
  own y a hy := by
    rcases h'.own y a hy with hy | hf
    · exact h.own y a hy
    · exact .inr (h.free a hf)
  faulted a ha := by
    obtain ⟨h1, h2⟩ := h'.faulted a ha
    obtain ⟨h3, h4⟩ := h.faulted a h1
    exact ⟨h3, fun hf => h2 (h4 hf)⟩
  inode ip hip := by
    have h1 := h.inode ip hip
    exact (h'.inode ip (h1 ▸ hip)).trans h1
  procs q hq := (h'.procs q hq).trans (h.procs q hq)
  vmas := h'.vmas.trans h.vmas
  file := h'.file.trans h.file
  ilocked := h'.ilocked.trans h.ilocked
  bounded hb := h'.bounded (h.bounded hb)
  absent t ht hn := h'.absent t ht (h.absent t ht hn)

theorem trans (h : Quiet s s') (t v : ℕ) : s'.trans t v = s.trans t v := h.tables t v (by simp)

theorem proc (h : Quiet s s') : s'.proc = s.proc := funext fun q => h.procs q (by simp)

theorem of_quiet (h : Quiet s s') : Aside np s s' :=
  { h with
    tables := fun t v _ => h.trans t v
    procs := fun q _ => by rw [h.proc]
    absent := fun t _ hn => h.absent t (by simp) hn }

theorem fresh (h : Aside np s1 s') (hf : Fresh s s1 pa) : Fresh s s' pa where
  was := hf.was
  taken hnd := by
    obtain ⟨hfree, href⟩ := hf.taken hnd
    exact ⟨fun hmem => hfree (h.free pa hmem), (h.ref pa hfree).trans href⟩
  faulted hfl := hf.faulted (h.faulted pa hfl).1

theorem walkaddr (h : Quiet s s') (t va : ℕ) : s'.walkaddr t va = s.walkaddr t va := by
  simp [Kernel.walkaddr, h.trans]

theorem allocated (hf : s.freelist = pa :: rest) : Aside np s (s.allocated pa rest) where
  tables _ _ _ := rfl
  free a ha := by
    rw [hf]
    exact List.mem_cons_of_mem pa ha
  ref a ha := by
    have hne : a ≠ pa := fun he => ha (by simp [hf, he])
    simp [Kernel.allocated, hne]
  mem a ha := by
    have hne : a ≠ pa := fun he => ha (by simp [hf, he])
    simp [Kernel.allocated, hne]
  own _ _ h := Or.inl h
  faulted a ha := by
    obtain ⟨hne, hmem⟩ := Finset.mem_erase.mp ha
    refine ⟨hmem, fun hfree => ?_⟩
    rw [hf] at hfree
    exact (List.mem_cons.mp hfree).resolve_left hne
  inode _ _ := rfl
  procs _ _ := rfl
  vmas := rfl
  file := rfl
  ilocked := rfl
  bounded := id
  absent _ _ h := h

theorem setPage (h : Aside np s s') (hpa : pa ∈ s.freelist) (bytes : Bytes) :
    Aside np s (s'.setPage pa bytes) :=
  { h with
    mem := fun a ha => by
      have hne : a ≠ pa := fun he => ha (he ▸ hpa)
      simp only [Kernel.setPage, update_of_ne hne]
      exact h.mem a ha }

theorem freed (h : Aside np s s') (hpa : pa ∈ s.freelist) : Aside np s (s'.freed pa) :=
  { h with
    free := fun a ha => by
      rcases List.mem_cons.mp ha with rfl | ha
      · exact hpa
      · exact h.free a ha
    mem := fun a ha => by
      have hne : a ≠ pa := fun he => ha (he ▸ hpa)
      simp only [Kernel.freed, update_of_ne hne]
      exact h.mem a ha
    faulted := fun a ha =>
      ⟨(h.faulted a ha).1, fun hf => List.mem_cons_of_mem pa ((h.faulted a ha).2 hf)⟩ }

theorem setTable (h : Aside np s s') {pt pt' : PageTable} {x : Slot}
    (hpa : pa ∈ s.freelist) (hs : s'.table t = some pt)
    (hholds : pt'.holds = update pt.holds x (some pa))
    (htrans : ∀ v, pt'.trans v = pt.trans v)
    (hdir : ∀ i, 512 ≤ i → pt.dir i = none → pt'.dir i = none) :
    Aside np s (s'.setTable t (some pt')) :=
  { h with
    bounded := fun hb => by
      apply Kernel.Owned.bounded_setTable (h.bounded hb)
      rintro _ ⟨⟩
      obtain ⟨ht, hd⟩ := h.bounded hb t pt hs
      exact ⟨ht, fun i hi => hdir i hi (hd i hi)⟩
    absent := fun t' ht' hn => by
      have hnone := h.absent t' ht' hn
      have hne : t' ≠ t := fun he => by simp [he, hs] at hnone
      simpa [Kernel.setTable, hne] using hnone
    tables := fun t' v ht' => by
      rw [Kernel.trans_setTable, ← h.tables t' v ht']
      split_ifs with ht
      · subst ht
        simp [Kernel.trans, hs, htrans]
      · rfl
    own := fun y a hy => by
      rw [Kernel.own_setTable hs hholds, update_apply] at hy
      split_ifs at hy
      · cases hy
        exact .inr hpa
      · exact h.own y a hy }

end Aside

section Allocator

variable {s s' : Kernel} {D : ℕ → ℤ} {pa : ℕ} {r : Option ℕ} {u : PUnit}

theorem kalloc_ok (hx : kalloc s = .ok r s') :
    (r = none ∧ s' = s) ∨
      ∃ pa rest, r = some pa ∧ s.freelist = pa :: rest ∧ s' = s.allocated pa rest := by
  unfold kalloc at hx
  rw [get_run] at hx
  cases hf : s.freelist with
  | nil =>
    simp only [hf, pure_ok] at hx
    exact .inl ⟨hx.1.symm, hx.2.symm⟩
  | cons pa rest =>
    simp only [hf, bind_ok, set_ok, pure_ok] at hx
    obtain ⟨_, _, rfl, rfl, rfl⟩ := hx
    exact .inr ⟨pa, rest, rfl, rfl, rfl⟩

theorem kalloc_nil (hf : s.freelist = []) : kalloc s = .ok none s := by
  unfold kalloc
  rw [get_run]
  simp [hf]

theorem kalloc_cons {rest : List ℕ} (hf : s.freelist = pa :: rest) :
    kalloc s = .ok (some pa) (s.allocated pa rest) := by
  unfold kalloc
  rw [get_run]
  simp only [hf]
  rfl

theorem kalloc_some (hx : kalloc s = .ok (some pa) s') :
    Quiet s s' ∧ Fresh s s' pa ∧ s'.table = s.table := by
  rcases kalloc_ok hx with ⟨hr, -⟩ | ⟨pa', rest, hr, hf, rfl⟩
  · cases hr
  · cases hr
    refine ⟨Aside.allocated hf, ⟨by simp [hf], fun hnd => ⟨?_, ?_⟩, ?_⟩, rfl⟩
    · rw [hf] at hnd
      exact (List.nodup_cons.mp hnd).1
    · simp [allocated]
    · simp [allocated]

theorem kalloc_owned (h : s.Owned D) (hx : kalloc s = .ok (some pa) s') :
    s'.Owned (D + Pi.single pa 1) ∧ D pa = 0 := by
  rcases kalloc_ok hx with ⟨hr, -⟩ | ⟨pa', rest, hr, hf, rfl⟩
  · cases hr
  · cases hr
    exact ⟨h.allocated hf, h.debt_of_free hf⟩

theorem kalloc_none (hx : kalloc s = .ok none s') : s' = s := by
  rcases kalloc_ok hx with ⟨-, rfl⟩ | ⟨_, _, hr, -⟩
  · rfl
  · cases hr

theorem kfree_ok (hx : kfree pa s = .ok u s') : s.ref pa = 1 ∧ s' = s.freed pa := by
  unfold kfree at hx
  rw [get_run] at hx
  split_ifs at hx with hr h1
  · exact ⟨h1, (set_ok.mp hx).symm⟩
  · simp at hx
  · simp at hx

/-- `uvmcreate` makes a free page the root of an empty page table. -/
theorem uvmcreate_cases {t : ℕ} {b : Bool} (hx : uvmcreate t s = .ok b s') :
    (b = false ∧ s' = s) ∨ (b = true ∧ ∃ pa rest, s.freelist = pa :: rest ∧
      s' = (s.allocated pa rest).setTable t
        (some ⟨pa, fun _ => none, fun _ => none, fun _ => .zero⟩)) := by
  unfold uvmcreate at hx
  obtain ⟨r, s1, hk, hnext⟩ := bind_ok.mp hx
  rcases kalloc_ok hk with ⟨rfl, rfl⟩ | ⟨pa, rest, rfl, hf, rfl⟩
  · obtain ⟨rfl, rfl⟩ := pure_ok.mp hnext
    exact .inl ⟨rfl, rfl⟩
  · simp only [bind_ok, modify_ok, pure_ok] at hnext
    obtain ⟨_, _, rfl, rfl, rfl⟩ := hnext
    exact .inr ⟨rfl, pa, rest, hf, rfl⟩

theorem incref_ok (hx : incref pa s = .ok u s') : s' = s.setRef pa (u32 (s.ref pa + 1)) := by
  unfold incref at hx
  rw [get_run] at hx
  split_ifs at hx
  · exact (set_ok.mp hx).symm
  · simp at hx

theorem decref_ok (hx : decref pa s = .ok u s') : s' = s.setRef pa (u32 (s.ref pa - 1)) := by
  unfold decref at hx
  rw [get_run] at hx
  split_ifs at hx
  · exact (set_ok.mp hx).symm
  · simp at hx

end Allocator

section Walk

variable {s s' : Kernel} {D : ℕ → ℤ} {t i va pa : ℕ} {b : Bool} {perm : Perm}

/-- Tables are made for `t`, each of the first free page: `new` in all. -/
inductive Tabling (t : ℕ) : List ℕ → Kernel → Kernel → Prop
  | refl (s : Kernel) : Tabling t [] s s
  | attach {new rest : List ℕ} {s s' : Kernel} {pa : ℕ} {pt pt' : PageTable}
    (hf : s.freelist = pa :: rest) (hs : s.table t = some pt) (ha : pt.Attached pa pt')
    (h : Tabling t new ((s.allocated pa rest).setTable t (some pt')) s') :
    Tabling t (pa :: new) s s'

theorem walkDir_cons {pt : PageTable} {rest : List ℕ} (hs : s.table t = some pt)
    (hd : pt.dir i = none) (hf : s.freelist = pa :: rest) :
    walkDir t i s = .ok true ((s.allocated pa rest).setTable t (some (pt.withDir i pa))) := by
  have hs1 : (s.allocated pa rest).table t = some pt := hs
  unfold walkDir
  rw [get_run]
  simp only [hs, hd, Option.isSome_none, Bool.false_eq_true, if_false]
  rw [bind_run (kalloc_cons hf)]
  exact bind_ok.mpr ⟨⟨⟩, _, rfl, pure_ok.mpr ⟨rfl, by simp [withDir, hs1]⟩⟩

theorem walkTab_cons {pt : PageTable} {rest : List ℕ} (hs : s.table t = some pt)
    (hd : pt.tab i = none) (hf : s.freelist = pa :: rest) :
    walkTab t i s = .ok true ((s.allocated pa rest).setTable t (some (pt.withTab i pa))) := by
  have hs1 : (s.allocated pa rest).table t = some pt := hs
  unfold walkTab
  rw [get_run]
  simp only [hs, hd, Option.isSome_none, Bool.false_eq_true, if_false]
  rw [bind_run (kalloc_cons hf)]
  exact bind_ok.mpr ⟨⟨⟩, _, rfl, pure_ok.mpr ⟨rfl, by simp [withTab, hs1]⟩⟩

/-- `walkTab` leaves a level-0 table behind or runs out of memory. -/
theorem walkTab_run {pt : PageTable} (hs : s.table t = some pt)
    (hdir : (pt.dir (parent i)).isSome) :
    ∃ b new s', walkTab t i s = .ok b s' ∧ Tabling t new s s' ∧ new.length ≤ 1 ∧
      (b = false → s'.freelist = [] ∧ new = []) ∧ (b = true → (pt.tab i = none → new.length = 1) ∧
        ∃ pt', s'.table t = some pt' ∧ (pt'.dir (parent i)).isSome ∧ (pt'.tab i).isSome) := by
  cases ht : pt.tab i with
  | some pa => exact ⟨true, [], s, by simp [walkTab, hs, ht], .refl s, by simp, by simp,
      fun _ => ⟨by simp, pt, hs, hdir, by simp [ht]⟩⟩
  | none =>
    cases hf : s.freelist with
    | nil => exact ⟨false, [], s, by simp [walkTab, hs, ht, kalloc_nil hf], .refl s, by simp,
        fun _ => ⟨hf, rfl⟩, by simp⟩
    | cons pa rest =>
      refine ⟨true, [pa], _, walkTab_cons hs ht hf,
        .attach hf hs (PageTable.attached_withTab hdir ht) (.refl _), le_rfl, by simp,
        fun _ => ⟨by simp, pt.withTab i pa, by simp [setTable], ?_, ?_⟩⟩
      · simpa [PageTable.withTab] using hdir
      · simp [PageTable.withTab]

theorem parent_parent_lt (h : va < maxVa) : parent (parent (va / pgSize)) < 512 := by
  unfold parent pgSize maxVa at *
  omega

/-- `walk` makes the missing tables, or runs out of memory. -/
theorem walk_run {pt : PageTable} (hs : s.table t = some pt) (hva : va < maxVa) :
    ∃ b new s', walk t va s = .ok b s' ∧ Tabling t new s s' ∧ new.length ≤ 2 ∧
      (b = false → s'.freelist = [] ∧ new.length ≤ 1) ∧
      (b = true → (s'.lookup t (va / pgSize)).isSome ∧
        (pt.dir (parent (parent (va / pgSize))) = none → new.length = 2)) := by
  unfold walk
  rw [if_neg (by omega)]
  cases hd : pt.dir (parent (parent (va / pgSize))) with
  | some pa =>
    have hdir : walkDir t (parent (parent (va / pgSize))) s = .ok true s := by
      simp [walkDir, hs, hd]
    obtain ⟨b, new, s', hx, hnew, hlen, hfalse, htrue⟩ :=
      walkTab_run hs (i := parent (va / pgSize)) (by simp [hd])
    refine ⟨b, new, s', by rw [bind_run hdir]; exact hx, hnew, by omega,
      fun hb => ⟨(hfalse hb).1, hlen⟩, fun hb => ?_⟩
    obtain ⟨-, pt', hs', hd', ht'⟩ := htrue hb
    exact ⟨by simp [lookup, hs', PageTable.lookup, hd', ht'], by simp⟩
  | none =>
    cases hf : s.freelist with
    | nil => exact ⟨false, [], s, by simp [walkDir, hs, hd, kalloc_nil hf], .refl s, by simp,
        fun _ => ⟨hf, by simp⟩, by simp⟩
    | cons pa rest =>
      have hattach := PageTable.attached_withDir pa hd (parent_parent_lt hva)
      obtain ⟨b, new, s', hx, hnew, hlen, hfalse, htrue⟩ := walkTab_run (t := t)
        (s := (s.allocated pa rest).setTable t
          (some (pt.withDir (parent (parent (va / pgSize))) pa)))
        (i := parent (va / pgSize)) (update_self ..) (by simp [PageTable.withDir])
      refine ⟨b, pa :: new, s', by rw [bind_run (walkDir_cons hs hd hf)]; exact hx,
        .attach hf hs hattach hnew, by simpa using hlen,
        fun hb => ⟨(hfalse hb).1, by simp [(hfalse hb).2]⟩, fun hb => ?_⟩
      obtain ⟨hmade, pt', hs', hd', ht'⟩ := htrue hb
      refine ⟨by simp [lookup, hs', PageTable.lookup, hd', ht'], fun _ => ?_⟩
      rw [List.length_cons, hmade (by simp [PageTable.withDir])]

/-- `walk` stops outside the address space and without a page table. -/
theorem walk_stops (t va : ℕ) (s : Kernel) :
    (maxVa ≤ va ∧ walk t va s = .error (.panic .walk) s) ∨
    (s.table t = none ∧ walk t va s = .error .fault s) ∨
    ∃ pt, s.table t = some pt ∧ va < maxVa := by
  by_cases hva : va ≥ maxVa
  · exact .inl ⟨hva, by simp [walk, hva]; rfl⟩
  · cases hs : s.table t with
    | none =>
      refine .inr (Or.inl ⟨rfl, ?_⟩)
      unfold walk walkDir
      rw [if_neg hva]
      simp only [bind_assoc, get_run, hs]
      rfl
    | some pt => exact .inr (Or.inr ⟨pt, rfl, by omega⟩)

theorem walk_cases (hx : walk t va s = .ok b s') :
    ∃ pt new, s.table t = some pt ∧ va < maxVa ∧ Tabling t new s s' ∧ new.length ≤ 2 ∧
      (b = false → s'.freelist = [] ∧ new.length ≤ 1) ∧
      (b = true → (s'.lookup t (va / pgSize)).isSome ∧
        (pt.dir (parent (parent (va / pgSize))) = none → new.length = 2)) := by
  rcases walk_stops t va s with ⟨-, h⟩ | ⟨-, h⟩ | ⟨pt, hs, hva⟩
  · cases hx.symm.trans h
  · cases hx.symm.trans h
  · obtain ⟨b', new, s1, hx', hrest⟩ := walk_run hs hva
    obtain ⟨rfl, rfl⟩ := EStateM.Result.ok.inj (hx.symm.trans hx')
    exact ⟨pt, new, hs, hva, hrest⟩

/-- A rule for `walk`: what making tables keeps. -/
theorem walk_triple {P : Kernel → Prop} {Q : Bool → Kernel → Prop} {E : Stop → Prop}
    (hQ : ∀ s b s' new, P s → Tabling t new s s' → Q b s')
    (hwalk : E (.panic .walk)) (hfault : E .fault) : Triple P (walk t va) Q fun e _ => E e := by
  intro s hs
  rcases walk_stops t va s with ⟨-, h⟩ | ⟨-, h⟩ | ⟨pt, hpt, hva⟩
  · rw [h]
    exact hwalk
  · rw [h]
    exact hfault
  · obtain ⟨b, new, s', hx, hnew, -⟩ := walk_run hpt hva
    rw [hx]
    exact hQ s b s' new hs hnew

namespace Tabling

variable {new : List ℕ}

theorem quiet (h : Tabling t new s s') : Quiet s s' := by
  induction h with
  | refl s => exact .refl s
  | attach hf hs ha _ ih =>
    obtain ⟨x, -, -, hholds⟩ := ha.place
    exact ((Aside.allocated hf).setTable (by simp [hf]) hs hholds ha.trans ha.dir).andThen ih

theorem keeps (h : Tabling t new s s') : Keeps s s' := by
  induction h with
  | refl s => exact fun _ h => h
  | attach hf hs ha _ ih =>
    intro D hD
    refine ih D ?_
    have hone := (hD.allocated hf).attachTable hs ha (by simp [hD.debt_of_free hf])
      (by simp [allocated])
    rwa [add_sub_cancel_right] at hone

theorem taken (h : Tabling t new s s') : s.freelist = new ++ s'.freelist := by
  induction h with
  | refl s => rfl
  | attach hf hs ha _ ih => rw [hf, List.cons_append, ← ih]; rfl

end Tabling

theorem walk_ok (hx : walk t va s = .ok b s') :
    Quiet s s' ∧ Keeps s s' ∧ va < maxVa ∧ (b = true → (s'.lookup t (va / pgSize)).isSome) := by
  obtain ⟨pt, new, -, hva, hnew, -, -, htrue⟩ := walk_cases hx
  exact ⟨hnew.quiet, hnew.keeps, hva, fun hb => (htrue hb).1⟩

/-- Where the tables exist, `walk` makes none. -/
theorem walk_of_lookup (h : (s.lookup t (va / pgSize)).isSome) (hva : va < maxVa) :
    walk t va s = .ok true s := by
  obtain ⟨pt, hs, hl⟩ := exists_table_of_lookup h
  have hpath : (pt.dir (parent (parent (va / pgSize)))).isSome ∧
      (pt.tab (parent (va / pgSize))).isSome := by
    by_contra hc
    simp [PageTable.lookup, hc] at hl
  have hdir : walkDir t (parent (parent (va / pgSize))) s = .ok true s := by
    simp [walkDir, hs, hpath.1]
  have htab : walkTab t (parent (va / pgSize)) s = .ok true s := by
    simp [walkTab, hs, hpath.2]
  unfold walk
  rw [if_neg (by omega)]
  simp [hdir, htab]

/-- The entry of a page is written where none was valid, or the table is left alone. -/
theorem mappages_walk (hx : mappages t va pa perm s = .ok b s') :
    ∃ s1, walk t va s = .ok b s1 ∧ ((b = false ∧ s' = s1) ∨
      (b = true ∧ (s1.lookup t (va / pgSize)).isSome ∧ s1.trans t (va / pgSize) = none ∧
        s' = s1.withPte t (va / pgSize) ⟨true, perm, pa⟩)) := by
  unfold mappages at hx
  obtain ⟨b1, s1, hwalk, hx⟩ := bind_ok.mp hx
  obtain ⟨-, -, -, hl⟩ := walk_ok hwalk
  rcases ite_ok hx with ⟨hb, hx⟩ | ⟨hb, hx⟩
  · obtain rfl : b1 = true := hb
    replace hx := get_bind_ok hx
    obtain ⟨hn, hx⟩ := throw_ite_ok hx
    simp only [bind_ok, set_ok, pure_ok] at hx
    obtain ⟨_, _, rfl, rfl, rfl⟩ := hx
    exact ⟨s1, hwalk, .inr ⟨rfl, hl rfl, by simpa using hn, rfl⟩⟩
  · obtain ⟨rfl, rfl⟩ := pure_ok.mp hx
    obtain rfl : b1 = false := by simpa using hb
    exact ⟨s1, hwalk, .inl ⟨rfl, rfl⟩⟩

/-- `mappages` finds the entry invalid and sets it, or runs out of table pages. -/
theorem mappages_ok (hx : mappages t va pa perm s = .ok b s') :
    ∃ s1, Quiet s s1 ∧ Keeps s s1 ∧ va < maxVa ∧ ((b = false ∧ s' = s1) ∨
      (b = true ∧ (s1.lookup t (va / pgSize)).isSome ∧ s1.trans t (va / pgSize) = none ∧
        s' = s1.withPte t (va / pgSize) ⟨true, perm, pa⟩)) := by
  obtain ⟨s1, hwalk, hcase⟩ := mappages_walk hx
  obtain ⟨hq, hk, hlt, -⟩ := walk_ok hwalk
  exact ⟨s1, hq, hk, hlt, hcase⟩

/-- Where the tables exist, `mappages` cannot run out of pages. -/
theorem mappages_of_lookup (h : (s.lookup t (va / pgSize)).isSome)
    (hx : mappages t va pa perm s = .ok b s') :
    b = true ∧ s' = s.withPte t (va / pgSize) ⟨true, perm, pa⟩ := by
  obtain ⟨s1, -, -, hva, -⟩ := mappages_ok hx
  unfold mappages at hx
  obtain ⟨b1, s1, hwalk, hx⟩ := bind_ok.mp hx
  rw [walk_of_lookup h hva] at hwalk
  cases hwalk
  simp only [if_true] at hx
  rw [get_run] at hx
  split_ifs at hx with ht
  · simp at hx
  · simp only [bind_ok, set_ok, pure_ok] at hx
    obtain ⟨_, _, rfl, rfl, rfl⟩ := hx
    exact ⟨rfl, rfl⟩

end Walk

section Files

variable {s s' : Kernel} {ip bn pa off n : ℕ} {b : Bool} {u : PUnit}

def Kernel.withFiles (s : Kernel) (inode : ℕ → Inode) (freeBlocks : ℕ) : Kernel :=
  { s with inode, freeBlocks }

theorem balloc_ok (hx : balloc s = .ok b s') : ∃ fb, s' = s.withFiles s.inode fb := by
  unfold balloc at hx
  rw [get_run] at hx
  split_ifs at hx
  · obtain ⟨-, rfl⟩ := pure_ok.mp hx
    exact ⟨s.freeBlocks, rfl⟩
  · simp only [bind_ok, set_ok, pure_ok] at hx
    obtain ⟨_, _, rfl, -, rfl⟩ := hx
    exact ⟨s.freeBlocks - 1, rfl⟩

theorem bmapEntry_ok (hx : bmapEntry ip bn s = .ok b s') :
    ∃ ino fb, s' = s.withFiles ino fb ∧ (∀ k, k ≠ ip → ino k = s.inode k) ∧
      (ino ip).size = (s.inode ip).size ∧ ((s.inode ip).blocks bn = true → s' = s ∧ b = true) := by
  unfold bmapEntry at hx
  rw [get_run] at hx
  split_ifs at hx with hb
  · obtain ⟨rfl, rfl⟩ := pure_ok.mp hx
    exact ⟨s.inode, s.freeBlocks, rfl, fun _ _ => rfl, rfl, fun _ => ⟨rfl, rfl⟩⟩
  · obtain ⟨b1, s1, hal, hx⟩ := bind_ok.mp hx
    obtain ⟨fb, rfl⟩ := balloc_ok hal
    split_ifs at hx
    · simp only [bind_ok, modify_ok, pure_ok] at hx
      obtain ⟨_, _, rfl, -, rfl⟩ := hx
      refine ⟨_, fb, rfl, fun k hk => update_of_ne hk _ _, ?_, fun h => absurd h hb⟩
      simp [withFiles]
    · obtain ⟨-, rfl⟩ := pure_ok.mp hx
      exact ⟨s.inode, fb, rfl, fun _ _ => rfl, rfl, fun h => absurd h hb⟩

/-- `bmap` does not change sizes, and changes nothing when the block exists. -/
theorem bmap_ok (hx : bmap ip bn s = .ok b s') :
    ∃ ino fb, s' = s.withFiles ino fb ∧ (∀ k, k ≠ ip → ino k = s.inode k) ∧
      (ino ip).size = (s.inode ip).size ∧ ((s.inode ip).Has bn → s' = s ∧ b = true) := by
  unfold bmap at hx
  split_ifs at hx with hdir hmax
  · obtain ⟨ino, fb, rfl, hother, hsize, hhas⟩ := bmapEntry_ok hx
    exact ⟨ino, fb, rfl, hother, hsize, fun h => hhas h.1⟩
  · rw [get_run] at hx
    split_ifs at hx with hind
    · obtain ⟨ino, fb, rfl, hother, hsize, hhas⟩ := bmapEntry_ok hx
      exact ⟨ino, fb, rfl, hother, hsize, fun h => hhas h.1⟩
    · have hno : ¬ (s.inode ip).Has bn := fun h => hind (h.2 (by omega))
      obtain ⟨b1, s1, hal, hx⟩ := bind_ok.mp hx
      obtain ⟨fb, rfl⟩ := balloc_ok hal
      split_ifs at hx
      · simp only [bind_ok, modify_ok] at hx
        obtain ⟨_, _, rfl, hx⟩ := hx
        obtain ⟨ino, fb', rfl, hother, hsize, -⟩ := bmapEntry_ok hx
        refine ⟨ino, fb', rfl, fun k hk => ?_, ?_, fun h => absurd h hno⟩
        · rw [hother k hk]
          exact update_of_ne hk _ _
        · simpa [setInode, withFiles] using hsize
      · obtain ⟨-, rfl⟩ := pure_ok.mp hx
        exact ⟨s.inode, fb, rfl, fun _ _ => rfl, rfl, fun h => absurd h hno⟩
  · simp at hx

/-- `n` bytes of the file from `off` on, put into a buffer. -/
def Inode.readInto (i : Inode) (old : Bytes) (tot off n : ℕ) : Bytes :=
  old.blit tot (fun k => i.data (off + k)) n

theorem Inode.readInto_add (i : Inode) (old : Bytes) (tot off m n : ℕ) :
    i.readInto (i.readInto old tot off m) (tot + m) (off + m) n =
      i.readInto old tot off (m + n) := by
  funext a
  simp only [Inode.readInto, Bytes.blit]
  by_cases h1 : tot + m ≤ a ∧ a < tot + m + n
  · rw [if_pos h1, if_pos (by omega)]
    congr 1
    omega
  · rw [if_neg h1]
    by_cases h2 : tot ≤ a ∧ a < tot + m
    · rw [if_pos h2, if_pos (by omega)]
    · rw [if_neg h2, if_neg (by omega)]

/-- `readi` writes to its page only, allocates no block of a full file, and then
delivers the file's bytes. -/
theorem readiLoop_ok {fuel tot : ℕ} (hx : readiLoop ip pa n fuel tot off s = .ok u s')
    (hfuel : n ≤ tot + fuel) :
    ∃ bytes ino fb, s' = (s.withFiles ino fb).setPage pa bytes ∧
      (∀ k, k ≠ ip → ino k = s.inode k) ∧
      ((s.inode ip).Full → off + (n - tot) ≤ (s.inode ip).size →
        ino ip = s.inode ip ∧ bytes = (s.inode ip).readInto (s.mem pa) tot off (n - tot)) := by
  induction fuel generalizing s tot off with
  | zero =>
    obtain ⟨-, rfl⟩ := pure_ok.mp hx
    refine ⟨s.mem pa, s.inode, s.freeBlocks, ?_, fun _ _ => rfl, fun _ _ => ⟨rfl, ?_⟩⟩
    · simp [setPage, withFiles]
    · funext a
      simp only [Inode.readInto, Bytes.blit]
      rw [if_neg (by omega)]
  | succ fuel ih =>
    unfold readiLoop at hx
    split_ifs at hx with hlt
    · obtain ⟨b1, s1, hb, hx⟩ := bind_ok.mp hx
      obtain ⟨ino1, fb1, rfl, hother1, -, hhas⟩ := bmap_ok hb
      have hmod : off % bSize < bSize := Nat.mod_lt _ (by decide)
      split_ifs at hx with hb1
      · simp only [bind_ok, modify_ok] at hx
        obtain ⟨_, s2, rfl, hx⟩ := hx
        set m := min (n - tot) (bSize - off % bSize) with hm
        obtain ⟨bytes, ino, fb, rfl, hother, hfull⟩ := ih hx (by omega)
        refine ⟨bytes, ino, fb, ?_, fun k hk => (hother k hk).trans (hother1 k hk),
          fun hF hle => ?_⟩
        · simp [setPage, withFiles]
        · have hin := hF off (by omega)
          obtain ⟨hsame, -⟩ := hhas hin.2
          have hino : ino1 = s.inode := by
            have := congrArg inode hsame
            exact this
          subst hino
          obtain ⟨h1, h2⟩ := hfull hF (by simp only [setPage, withFiles]; omega)
          refine ⟨h1, ?_⟩
          rw [h2]
          simp only [setPage, withFiles, update_self]
          rw [show n - tot = m + (n - (tot + m)) by omega, ← Inode.readInto_add]
          rfl
      · obtain ⟨-, rfl⟩ := pure_ok.mp hx
        refine ⟨s.mem pa, ino1, fb1, ?_, hother1, fun hF hle => ?_⟩
        · simp [setPage, withFiles]
        · exact absurd (hhas (hF off (by omega)).2).2 hb1
    · obtain ⟨-, rfl⟩ := pure_ok.mp hx
      refine ⟨s.mem pa, s.inode, s.freeBlocks, ?_, fun _ _ => rfl, fun _ _ => ⟨rfl, ?_⟩⟩
      · simp [setPage, withFiles]
      · funext a
        simp only [Inode.readInto, Bytes.blit]
        rw [if_neg (by omega)]

theorem Inode.Full.of_direct {i : Inode} (hsize : i.size ≤ n * bSize) (hn : n ≤ nDirect)
    (hb : ∀ bn < n, i.blocks bn = true) : i.Full := by
  intro off hoff
  have hbn : off / bSize < n := Nat.div_lt_of_lt_mul (by rw [Nat.mul_comm]; omega)
  have hmax : nDirect ≤ maxFile := by decide
  exact ⟨by omega, hb _ hbn, by omega⟩

def Inode.read (i : Inode) (old : Bytes) (off n : ℕ) : Bytes :=
  if off > i.size ∨ u32 (off + n) < off then old
  else i.readInto old 0 off (if u32 (off + n) > i.size then i.size - off else n)

theorem u64_of_lt {k : ℕ} (h : k < 2 ^ 64) : u64 k = k := by
  unfold u64
  omega

theorem u32_of_lt {k : ℕ} (h : k < 2 ^ 32) : u32 k = k := by
  unfold u32
  omega

theorem u32_lt (z : ℤ) : u32 z < 2 ^ 32 := by
  unfold u32
  omega

theorem Inode.read_bound {i : Inode} (hoff : off < 2 ^ 32) (hn : n < 2 ^ 32)
    (h : ¬(off > i.size ∨ u32 (off + n) < off)) :
    off + (if u32 (off + n) > i.size then i.size - off else n) ≤ i.size := by
  obtain ⟨h1, h2⟩ := not_or.mp h
  split_ifs with hbig
  · omega
  · unfold u32 at hbig h2
    omega

theorem readi_ok (hoff : off < 2 ^ 32) (hn : n < 2 ^ 32) (hx : readi ip pa off n s = .ok u s') :
    ∃ bytes ino fb, s' = (s.withFiles ino fb).setPage pa bytes ∧
      (∀ k, (s.inode k).Full → ino k = s.inode k) ∧
      ((s.inode ip).Full → bytes = (s.inode ip).read (s.mem pa) off n) := by
  unfold readi at hx
  rw [get_run] at hx
  rcases pure_ite_ok hx with ⟨hbad, -, rfl⟩ | ⟨hbad, hx⟩
  · refine ⟨s.mem pa, s.inode, s.freeBlocks, ?_, fun _ _ => rfl, fun _ => ?_⟩
    · simp [setPage, withFiles]
    · rw [Inode.read, if_pos hbad]
  · have hle := Inode.read_bound hoff hn hbad
    obtain ⟨bytes, ino, fb, rfl, hother, hfull⟩ := readiLoop_ok hx (by omega)
    rw [Nat.sub_zero] at hfull
    refine ⟨bytes, ino, fb, rfl, fun k hk => ?_, fun hF => ?_⟩
    · by_cases hki : k = ip
      · subst hki
        exact (hfull hk hle).1
      · exact hother k hki
    · rw [(hfull hF hle).2, Inode.read, if_neg hbad]

end Files

end Xv6.Vm
