import Xv6.Vm.Unmap

/-!
# Making and discarding a process

While `fork` sets up a child, all the pages it works with come from the free list
and belong to the child's page table or trapframe. `Nascent np s₀ s` says so for the
state `s`, where `s₀` is the state before. Whatever fails half-way gives every page
back.
-/
namespace Xv6.Vm

open Library Function Kernel PageTable List Option

/-- Process `np`, which had no page in `s₀`, has been worked on alone. -/
structure Nascent (np : ℕ) (s₀ s : Kernel) : Prop where
  aside : Aside (some np) s₀ s
  keeps : Keeps s₀ s
  noTable : s₀.table np = none
  noFrame : (s₀.proc np).trapframe = none

namespace Nascent

variable {np pa v : ℕ} {s₀ s s' : Kernel} {x : Slot} {pte : Pte}

theorem free_of_own (h : Nascent np s₀ s) (hy : s.own (.table np x) = some pa) :
    pa ∈ s₀.freelist := by
  rcases h.aside.own _ _ hy with hy | hf
  · simp [own, h.noTable] at hy
  · exact hf

theorem free_of_trapframe (h : Nascent np s₀ s) (hy : (s.proc np).trapframe = some pa) :
    pa ∈ s₀.freelist := by
  rcases h.aside.own (.trapframe np) _ hy with hy | hf
  · simp [own, h.noFrame] at hy
  · exact hf

theorem quiet (h : Nascent np s₀ s) (hq : Quiet s s') (hk : Keeps s s') : Nascent np s₀ s' :=
  ⟨h.aside.andThen (.of_quiet hq), fun D hD => hk D (h.keeps D hD), h.noTable, h.noFrame⟩

end Nascent

section Aside

variable {np pa v : ℕ} {s₀ s : Kernel} {pte : Pte}

/-- The new process's own table may change at will, within the pages that were free. -/
theorem Aside.setTable_self {o : Option PageTable} (h : Aside (some np) s₀ s)
    (hown : ∀ x a, o.bind (·.holds x) = some a →
      s.own (.table np x) = some a ∨ a ∈ s₀.freelist)
    (hb : ∀ pt, s.Bounded → o = some pt → np < nProc ∧ ∀ i, 512 ≤ i → pt.dir i = none) :
    Aside (some np) s₀ (s.setTable np o) :=
  { h with
    bounded := fun hb0 =>
      Kernel.Owned.bounded_setTable (h.bounded hb0) fun pt ho => hb pt (h.bounded hb0) ho
    absent := fun t ht hn => by
      have hne : t ≠ np := fun he => ht (by rw [he])
      simpa [Kernel.setTable, hne] using h.absent t ht hn
    tables := fun t v ht => by
      have hne : t ≠ np := fun he => ht (by rw [he])
      rw [Kernel.trans_setTable, if_neg hne]
      exact h.tables t v ht
    own := fun y a hy => by
      cases y with
      | table t x =>
        by_cases ht : t = np
        · subst ht
          rcases hown x a (by simpa [Kernel.own, Kernel.setTable] using hy) with hs | hf
          · exact h.own _ a hs
          · exact .inr hf
        · exact h.own _ a (by simpa [Kernel.own, Kernel.setTable, ht] using hy)
      | trapframe q => exact h.own (.trapframe q) a hy }

theorem Aside.setProc_self {f : Proc → Proc} (h : Aside (some np) s₀ s)
    (hf : ∀ a, (f (s.proc np)).trapframe = some a →
      (s.proc np).trapframe = some a ∨ a ∈ s₀.freelist) :
    Aside (some np) s₀ (s.setProc np f) :=
  { h with
    procs := fun q hq => by
      have hne : q ≠ np := fun he => hq (by rw [he])
      simp only [Kernel.setProc, update_of_ne hne]
      exact h.procs q hq
    own := fun y a hy => by
      cases y with
      | table t x => exact h.own (.table t x) a hy
      | trapframe q =>
        by_cases hq : q = np
        · subst hq
          rcases hf a (by simpa [Kernel.own, Kernel.setProc] using hy) with hs | hf
          · exact h.own (.trapframe q) a hs
          · exact .inr hf
        · exact h.own (.trapframe q) a (by simpa [Kernel.own, Kernel.setProc, hq] using hy) }

theorem Aside.withPte_self (h : Aside (some np) s₀ s) (hl : (s.lookup np v).isSome)
    (hpte : v < trapVpn → pte.valid = true → pte.ppn ∈ s₀.freelist) :
    Aside (some np) s₀ (s.withPte np v pte) := by
  obtain ⟨pt, hs, hlp⟩ := Kernel.exists_table_of_lookup hl
  rw [Kernel.withPte_eq hs]
  refine h.setTable_self (fun x a hx => ?_) (by rintro _ hb ⟨⟩; exact hb np pt hs)
  rw [bind_some] at hx
  by_cases hv : v < trapVpn
  · rw [holds_withLeaf hlp hv, update_apply] at hx
    split_ifs at hx with hxv hval
    · cases hx
      exact .inr (hpte hv hval)
    · left
      simpa [Kernel.own, hs] using hx
  · rw [holds_withLeaf_of_ge hlp (by omega)] at hx
    left
    simpa [Kernel.own, hs] using hx

end Aside

section Tables

variable {np pa v k : ℕ} {s₀ s s' : Kernel} {pt : PageTable} {pte : Pte} {u : PUnit}

/-- Giving back a page that the new process held: `s'` is `s` without the handle. -/
theorem Nascent.release (h : Nascent np s₀ s) (hpa : pa ∈ s₀.freelist)
    (haside : Aside (some np) s₀ s') (hdetach : ∀ D, s.Owned D → s'.Owned (D + Pi.single pa 1))
    (href : s'.ref pa = 1) : Nascent np s₀ (s'.freed pa) := by
  refine ⟨haside.freed hpa, fun D hD => ?_, h.noTable, h.noFrame⟩
  have hd : D pa = 0 := hD.balanced.settled pa hpa
  have h1 := (hdetach D (h.keeps D hD)).freed (by simp [hd]) href
  rwa [add_sub_cancel_right] at h1

theorem Nascent.unmapFree (h : Nascent np s₀ s) (hv : v < trapVpn)
    (ht : s.trans np v = some pte) (href : s.ref pte.ppn = 1) :
    Nascent np s₀ ((s.freed pte.ppn).withPte np v .zero) := by
  have hl := lookup_isSome_of_trans ht
  have hpa : pte.ppn ∈ s₀.freelist := h.free_of_own (Kernel.Owned.own_leaf_of_trans ht hv)
  have haside : Aside (some np) s₀ (s.withPte np v .zero) :=
    h.aside.withPte_self hl (by simp [Pte.zero])
  exact h.release hpa haside (fun D hD => hD.unmap hv ht rfl) href

theorem Nascent.withPte_of_ge (h : Nascent np s₀ s) (hl : (s.lookup np v).isSome)
    (hv : trapVpn ≤ v) (hu : ∀ y, s.trans np v = some y → y.perm.u = false)
    (hu' : pte.perm.u = false) : Nascent np s₀ (s.withPte np v pte) :=
  ⟨h.aside.withPte_self hl (by omega), fun D hD => (h.keeps D hD).withPte_of_ge hl hv hu hu',
    h.noTable, h.noFrame⟩

theorem freewalkEntry_ok (hx : freewalkEntry np v s = .ok u s') :
    s' = s ∧ s.trans np v = none := by
  unfold freewalkEntry at hx
  rw [get_run] at hx
  cases ht : s.trans np v with
  | none =>
    simp only [ht, pure_ok] at hx
    exact ⟨hx.2.symm, rfl⟩
  | some pte =>
    simp only [ht] at hx
    rcases ite_ok hx with ⟨-, hx⟩ | ⟨-, hx⟩ <;> simp at hx

/-- The scan of a level-0 table finds no valid entry. -/
theorem freewalkEntries_ok (hx : loop (fun i => freewalkEntry np (k * 512 + i)) 0 512 s =
    .ok u s') :
    s' = s ∧ ∀ v, parent v = k → s.trans np v = none := by
  have hinv : s' = s ∧ ∀ i < 0 + 512, s.trans np (k * 512 + i) = none := by
    refine loop_ok (I := fun j t => t = s ∧ ∀ i < j, s.trans np (k * 512 + i) = none) hx
      ⟨rfl, by simp⟩ ?_
    rintro j t t' - - ⟨rfl, hj⟩ hentry
    obtain ⟨hsame, hnone⟩ := freewalkEntry_ok hentry
    refine ⟨hsame, fun i hi => ?_⟩
    rcases Nat.lt_succ_iff_lt_or_eq.mp hi with hi | rfl
    · exact hj i hi
    · exact hnone
  refine ⟨hinv.1, fun v hv => ?_⟩
  have hmod : k * 512 + v % 512 = v := by
    unfold parent at hv
    omega
  rw [← hmod]
  exact hinv.2 (v % 512) (by omega)

theorem Aside.drop_self {pt' : PageTable} {x : Slot} (h : Aside (some np) s₀ s)
    (hs : s.table np = some pt) (hholds : pt'.holds = update pt.holds x none)
    (hdir : ∀ i, pt.dir i = none → pt'.dir i = none) :
    Aside (some np) s₀ (s.setTable np (some pt')) := by
  have hb : ∀ pt1, s.Bounded → some pt' = some pt1 →
      np < nProc ∧ ∀ i, 512 ≤ i → pt1.dir i = none := by
    rintro _ hb ⟨⟩
    obtain ⟨hnp, hd⟩ := hb np pt hs
    exact ⟨hnp, fun i hi => hdir i (hd i hi)⟩
  refine h.setTable_self (fun y a hy => .inl ?_) hb
  rw [bind_some, hholds, update_apply] at hy
  split_ifs at hy
  simpa [Kernel.own, hs] using hy

/-- What a property of states must allow so that page table `t` can be given up: each table
page goes back to the free list once nothing hangs below it. -/
structure FreesTables (t : ℕ) (N : Kernel → Prop) : Prop where
  dropTab : ∀ {s pt k pa}, N s → s.table t = some pt → (pt.dir (parent k)).isSome →
    pt.tab k = some pa → (∀ v, parent v = k → pt.trans v = none) → s.ref pa = 1 →
    N ((s.setTable t (some (pt.dropTab k))).freed pa)
  dropDir : ∀ {s pt k pa}, N s → s.table t = some pt → pt.dir k = some pa →
    (∀ i, parent i = k → pt.tab i = none) → s.ref pa = 1 →
    N ((s.setTable t (some (pt.dropDir k))).freed pa)
  dropRoot : ∀ {s pt}, N s → s.table t = some pt → (∀ i, pt.dir i = none) →
    s.ref pt.root = 1 → N ((s.setTable t none).freed pt.root)

namespace FreesTables

variable {t : ℕ} {N : Kernel → Prop}

/-- A level-0 table is freed when all its entries are invalid. -/
theorem freewalkTab (hN : FreesTables t N) (h : N s) (hs : s.table t = some pt)
    (hdir : (pt.dir (parent k)).isSome) (hx : freewalkTab t k s = .ok u s') :
    N s' ∧ s'.table t = some (pt.dropTab k) := by
  unfold Vm.freewalkTab at hx
  rw [get_run] at hx
  simp only [hs, bind_some] at hx
  cases hk : pt.tab k with
  | none =>
    simp only [hk, pure_ok] at hx
    obtain ⟨-, rfl⟩ := hx
    exact ⟨h, by rw [hs, PageTable.dropTab, update_eq_self_iff.mpr hk.symm]⟩
  | some pa =>
    simp only [hk, bind_ok, modify_ok] at hx
    obtain ⟨_, s1, hloop, _, s2, hfree, rfl⟩ := hx
    obtain ⟨rfl, hnone⟩ := freewalkEntries_ok hloop
    obtain ⟨href, rfl⟩ := kfree_ok hfree
    have hs2 : (s1.freed pa).table t = some pt := hs
    have hleaf : ∀ v, parent v = k → pt.trans v = none := fun v hv => by
      simpa [Kernel.trans, hs] using hnone v hv
    rw [hs2, map_some]
    exact ⟨hN.dropTab h hs hdir hk hleaf href, by simp [setTable]⟩

/-- A level-1 table is freed after the level-0 tables under it. -/
theorem freewalkDir (hN : FreesTables t N) (h : N s) (hs : s.table t = some pt)
    (hx : freewalkDir t k s = .ok u s') :
    N s' ∧ ∃ pt', s'.table t = some pt' ∧ pt'.root = pt.root ∧
      pt'.dir = update pt.dir k none := by
  unfold Vm.freewalkDir at hx
  rw [get_run] at hx
  simp only [hs, bind_some] at hx
  cases hk : pt.dir k with
  | none =>
    simp only [hk, pure_ok] at hx
    obtain ⟨-, rfl⟩ := hx
    exact ⟨h, pt, hs, rfl, (update_eq_self_iff.mpr hk.symm).symm⟩
  | some pa =>
    simp only [hk, bind_ok, modify_ok] at hx
    obtain ⟨_, s1, hloop, _, s2, hfree, rfl⟩ := hx
    have hinv : N s1 ∧ ∃ pt', s1.table t = some pt' ∧
        pt'.root = pt.root ∧ pt'.dir = pt.dir ∧ ∀ i < 0 + 512, pt'.tab (k * 512 + i) = none := by
      refine loop_ok (I := fun j x => N x ∧ ∃ pt',
        x.table t = some pt' ∧ pt'.root = pt.root ∧ pt'.dir = pt.dir ∧
        ∀ i < j, pt'.tab (k * 512 + i) = none) hloop ⟨h, pt, hs, rfl, rfl, by simp⟩ ?_
      rintro j x x' - hj ⟨ht, pt', hs', hroot, hdir', htab⟩ htabx
      have hpar : parent (k * 512 + j) = k := by
        unfold parent
        omega
      obtain ⟨ht', hs''⟩ := hN.freewalkTab ht hs' (by rw [hpar, hdir', hk]; rfl) htabx
      refine ⟨ht', _, hs'', hroot, hdir', fun i hi => ?_⟩
      by_cases hij : i = j
      · simp [PageTable.dropTab, hij]
      · have hne : k * 512 + i ≠ k * 512 + j := by omega
        simp only [PageTable.dropTab, update_of_ne hne]
        exact htab i (by omega)
    obtain ⟨h1, pt', hs1, hroot, hdir', htab⟩ := hinv
    obtain ⟨href, rfl⟩ := kfree_ok hfree
    have hs2 : (s1.freed pa).table t = some pt' := hs1
    have hempty : ∀ i, parent i = k → pt'.tab i = none := by
      intro i hi
      have hmod : k * 512 + i % 512 = i := by
        unfold parent at hi
        omega
      rw [← hmod]
      exact htab (i % 512) (by omega)
    have hk' : pt'.dir k = some pa := by rw [hdir', hk]
    rw [hs2, map_some]
    exact ⟨hN.dropDir h1 hs1 hk' hempty href, pt'.dropDir k, by simp [setTable], hroot,
      by rw [PageTable.dropDir, hdir']⟩

theorem freewalk (hN : FreesTables t N) (h : N s)
    (hshallow : ∀ pt, s.table t = some pt → ∀ i, 512 ≤ i → pt.dir i = none)
    (hx : freewalk t s = .ok u s') : N s' ∧ s'.table t = none := by
  unfold Vm.freewalk at hx
  rw [get_run] at hx
  cases hs : s.table t with
  | none => simp [hs] at hx
  | some pt =>
    simp only [hs, bind_ok, modify_ok] at hx
    obtain ⟨_, s1, hloop, _, s2, hfree, rfl⟩ := hx
    have hinv : N s1 ∧ ∃ pt', s1.table t = some pt' ∧
        pt'.root = pt.root ∧ (∀ i < 0 + 512, pt'.dir i = none) ∧
        ∀ i, 512 ≤ i → pt'.dir i = none := by
      refine loop_ok (I := fun j x => N x ∧ ∃ pt',
        x.table t = some pt' ∧ pt'.root = pt.root ∧ (∀ i < j, pt'.dir i = none) ∧
        ∀ i, 512 ≤ i → pt'.dir i = none)
        hloop ⟨h, pt, hs, rfl, by simp, hshallow pt hs⟩ ?_
      rintro j x x' - - ⟨ht, pt', hs', hroot, hlow, hhigh⟩ hdirx
      obtain ⟨ht', pt'', hs'', hroot', hdir⟩ := hN.freewalkDir ht hs' hdirx
      refine ⟨ht', pt'', hs'', hroot'.trans hroot, fun i hi => ?_, fun i hi => ?_⟩
      · by_cases hij : i = j
        · simp [hdir, hij]
        · rw [hdir, update_of_ne hij]
          exact hlow i (by omega)
      · by_cases hij : i = j
        · simp [hdir, hij]
        · rw [hdir, update_of_ne hij]
          exact hhigh i hi
    obtain ⟨h1, pt', hs1, hroot, hlow, hhigh⟩ := hinv
    obtain ⟨href, rfl⟩ := kfree_ok hfree
    have hempty : ∀ i, pt'.dir i = none := fun i => by
      by_cases hi : i < 512
      · exact hlow i (by omega)
      · exact hhigh i (by omega)
    refine ⟨?_, by simp [setTable]⟩
    rw [← hroot] at href ⊢
    exact hN.dropRoot h1 hs1 hempty href

end FreesTables

/-- The tables of a new process came from free pages. -/
theorem Nascent.freesTables : FreesTables np (Nascent np s₀) where
  dropTab {s pt k pa} h hs hdir hk hleaf href := by
    have hheld : s.own (.table np (.tab k)) = some pa := by
      simp [own, hs, holds, hdir, hk]
    exact h.release (h.free_of_own hheld)
      (h.aside.drop_self hs (holds_dropTab hleaf) fun _ hi => hi)
      (fun D hD => hD.dropTab hs hdir hk hleaf) href
  dropDir {s pt k pa} h hs hk hempty href := by
    have hheld : s.own (.table np (.dir k)) = some pa := by
      simp [own, hs, holds, hk]
    exact h.release (h.free_of_own hheld)
      (h.aside.drop_self hs (holds_dropDir hempty) fun i hi => by
        by_cases hik : i = k <;> simp [dropDir, hik, hi])
      (fun D hD => hD.dropDir hs hk hempty) href
  dropRoot {s pt} h hs hempty href := by
    have hheld : s.own (.table np .root) = some pt.root := by
      simp [own, hs, holds]
    have haside : Aside (some np) s₀ (s.setTable np none) :=
      h.aside.setTable_self (by simp) (by simp)
    exact h.release (h.free_of_own hheld) haside (fun D hD => hD.dropRoot hs hempty) href

theorem freesTables_proc {t : ℕ} {f : ℕ → Proc} : FreesTables t fun s => s.proc = f where
  dropTab h _ _ _ _ _ := h
  dropDir h _ _ _ _ := h
  dropRoot h _ _ _ := h

theorem freewalk_ok (h : Nascent np s₀ s) (hb : s₀.Bounded) (hx : freewalk np s = .ok u s') :
    Nascent np s₀ s' ∧ s'.proc = s.proc ∧ s'.table np = none := by
  have hshallow : ∀ pt, s.table np = some pt → ∀ i, 512 ≤ i → pt.dir i = none :=
    fun pt hs => (h.aside.bounded hb np pt hs).2
  obtain ⟨h', hnone⟩ := Nascent.freesTables.freewalk h hshallow hx
  exact ⟨h', (freesTables_proc.freewalk rfl hshallow hx).1, hnone⟩

end Tables

end Xv6.Vm
