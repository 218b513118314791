import Xv6.Vm.Process
import Xv6.Library.RefCount

/-!
# Who holds a physical page

Pages are held by the tables of a page table, by its leaves, as trapframes and by the rest of the
kernel. Leaves that user code can access may share a page. Each change of the state attaches or
detaches one handle of the reference-counted pool.
-/
namespace Xv6.Vm

open Library Function Kernel PageTable

inductive Slot
  | root
  | dir (i : ℕ)
  | tab (i : ℕ)
  | leaf (v : ℕ)
  deriving DecidableEq

inductive Handle
  | table (t : ℕ) (x : Slot)
  | trapframe (p : ℕ)
  deriving DecidableEq

/-- The page number of `TRAPFRAME`: user pages lie below. -/
def trapVpn : ℕ := Xv6.trapframe / pgSize

theorem trapframe_mul : Xv6.trapframe = trapVpn * pgSize := by decide

def PageTable.holds (pt : PageTable) : Slot → Option ℕ
  | .root => some pt.root
  | .dir i => pt.dir i
  | .tab i => if (pt.dir (parent i)).isSome then pt.tab i else none
  | .leaf v => if v < trapVpn then (pt.trans v).map (·.ppn) else none

def Slot.IsTable : Slot → Prop
  | .dir _ | .tab _ => True
  | .root | .leaf _ => False

/-- `pt'` is `pt` with page `pa` as a table where there was none. -/
structure PageTable.Attached (pt : PageTable) (pa : ℕ) (pt' : PageTable) : Prop where
  place : ∃ x : Slot, x.IsTable ∧ pt.holds x = none ∧
    pt'.holds = update pt.holds x (some pa)
  trans : ∀ v, pt'.trans v = pt.trans v
  dir : ∀ i, 512 ≤ i → pt.dir i = none → pt'.dir i = none

namespace Kernel

variable (s : Kernel)

def own : Handle → Option ℕ
  | .table t x => (s.table t).bind (·.holds x)
  | .trapframe p => (s.proc p).trapframe

def Shared : Handle → Prop
  | .table t (.leaf v) => ∃ pte, s.trans t v = some pte ∧ pte.perm.u = true
  | _ => False

def Bounded : Prop :=
  ∀ t pt, s.table t = some pt → t < nProc ∧ ∀ i, 512 ≤ i → pt.dir i = none

/-- The counts are exact, up to the debt of the call in progress. -/
structure Owned (debt : ℕ → ℤ) : Prop where
  balanced : Balanced s.own s.Shared s.freelist s.ref debt
  bounded : s.Bounded
  small : ∀ pa, s.ref pa < 2 ^ 32

end Kernel

section Trans

variable {pt : PageTable} {v v' i pa : ℕ} {pte : Pte}

theorem PageTable.trans_withLeaf (h : (pt.lookup v).isSome) :
    (pt.withLeaf v pte).trans v' =
      if v' = v then (if pte.valid then some pte else none) else pt.trans v' := by
  have hpath : (pt.dir (parent (parent v))).isSome ∧ (pt.tab (parent v)).isSome := by
    by_contra hc
    simp [lookup, hc] at h
  unfold PageTable.trans lookup withLeaf
  by_cases hv : v' = v
  · subst hv
    simp only [hpath, and_self, if_true, update_self]
    cases hval : pte.valid <;> simp [hval]
  · simp [hv]

theorem PageTable.trans_withDir (h : pt.dir i = none) : (pt.withDir i pa).trans v = pt.trans v := by
  unfold PageTable.trans lookup withDir
  by_cases hv : parent (parent v) = i
  · simp [hv, h]
  · simp [hv]

theorem PageTable.trans_withTab (h : pt.tab i = none) : (pt.withTab i pa).trans v = pt.trans v := by
  unfold PageTable.trans lookup withTab
  by_cases hv : parent v = i
  · subst hv
    simp only [update_self, h, Option.isSome_some, Option.isSome_none, if_true]
    split_ifs <;> simp_all [Pte.zero]
  · simp [hv]

theorem PageTable.lookup_isSome_of_trans (h : pt.trans v = some pte) : (pt.lookup v).isSome := by
  unfold PageTable.trans at h
  cases hl : pt.lookup v with
  | none => simp [hl] at h
  | some e => rfl

theorem PageTable.lookup_withLeaf_isSome :
    ((pt.withLeaf v pte).lookup v').isSome = (pt.lookup v').isSome := by
  unfold lookup withLeaf
  split_ifs <;> rfl

theorem PageTable.holds_withDir (h : pt.dir i = none) :
    (pt.withDir i pa).holds = update pt.holds (.dir i) (some pa) := by
  funext x
  cases x with
  | root => simp [holds, withDir]
  | dir k => by_cases hk : k = i <;> simp [holds, withDir, hk]
  | tab k => by_cases hk : parent k = i <;> simp [holds, withDir, hk, h]
  | leaf v => simp [holds, trans_withDir h]

theorem PageTable.holds_withTab (hd : (pt.dir (parent i)).isSome) (h : pt.tab i = none) :
    (pt.withTab i pa).holds = update pt.holds (.tab i) (some pa) := by
  funext x
  cases x with
  | root => simp [holds, withTab]
  | dir k => simp [holds, withTab]
  | tab k => by_cases hk : k = i <;> simp [holds, withTab, hk, hd]
  | leaf v => simp [holds, trans_withTab h]

theorem PageTable.attached_withDir (pa : ℕ) (h : pt.dir i = none) (hi : i < 512) :
    pt.Attached pa (pt.withDir i pa) where
  place := ⟨.dir i, trivial, h, holds_withDir h⟩
  trans _ := trans_withDir h
  dir k hk hnone := by
    have hne : k ≠ i := by omega
    simp [withDir, hne, hnone]

theorem PageTable.attached_withTab (hd : (pt.dir (parent i)).isSome) (h : pt.tab i = none) :
    pt.Attached pa (pt.withTab i pa) where
  place := ⟨.tab i, trivial, by simp [holds, h], holds_withTab hd h⟩
  trans _ := trans_withTab h
  dir _ _ hnone := hnone

theorem PageTable.holds_withLeaf (h : (pt.lookup v).isSome) (hv : v < trapVpn) :
    (pt.withLeaf v pte).holds =
      update pt.holds (.leaf v) (if pte.valid then some pte.ppn else none) := by
  funext x
  cases x with
  | root => rw [update_of_ne (by simp)]; rfl
  | dir k => rw [update_of_ne (by simp)]; rfl
  | tab k => rw [update_of_ne (by simp)]; rfl
  | leaf w =>
    by_cases hw : w = v
    · subst hw
      cases hval : pte.valid <;> simp [holds, trans_withLeaf h, hval, hv]
    · simp [holds, trans_withLeaf h, hw]

theorem PageTable.holds_withLeaf_of_ge (h : (pt.lookup v).isSome) (hv : trapVpn ≤ v) :
    (pt.withLeaf v pte).holds = pt.holds := by
  funext x
  cases x with
  | leaf w =>
    by_cases hw : w = v
    · subst hw
      simp only [holds, if_neg (Nat.not_lt.mpr hv)]
    · simp [holds, trans_withLeaf h, hw]
  | _ => rfl

theorem PageTable.trans_dropTab (h : ∀ v, parent v = i → pt.trans v = none) :
    (pt.dropTab i).trans v = pt.trans v := by
  by_cases hv : parent v = i
  · rw [h v hv]
    simp [dropTab, PageTable.trans, lookup, hv]
  · simp [dropTab, PageTable.trans, lookup, hv]

theorem PageTable.holds_dropTab (h : ∀ v, parent v = i → pt.trans v = none) :
    (pt.dropTab i).holds = update pt.holds (.tab i) none := by
  funext x
  cases x with
  | root => simp [holds, dropTab]
  | dir k => simp [holds, dropTab]
  | tab k => by_cases hk : k = i <;> simp [holds, dropTab, hk]
  | leaf v => simp [holds, trans_dropTab h]

theorem PageTable.trans_dropDir (h : ∀ k, parent k = i → pt.tab k = none) :
    (pt.dropDir i).trans v = pt.trans v := by
  by_cases hv : parent (parent v) = i
  · simp [dropDir, PageTable.trans, lookup, hv, h (parent v) hv]
  · simp [dropDir, PageTable.trans, lookup, hv]

theorem PageTable.holds_dropDir (h : ∀ k, parent k = i → pt.tab k = none) :
    (pt.dropDir i).holds = update pt.holds (.dir i) none := by
  funext x
  cases x with
  | root => simp [holds, dropDir]
  | dir k => by_cases hk : k = i <;> simp [holds, dropDir, hk]
  | tab k =>
    by_cases hk : parent k = i
    · simp [holds, dropDir, hk, h k hk]
    · simp [holds, dropDir, hk]
  | leaf v => simp [holds, trans_dropDir h]

end Trans

section Kernel

variable {s : Kernel} {pt pt' : PageTable} {t t' v v' pa : ℕ} {x : Slot} {o : Option ℕ} {pte : Pte}

theorem Kernel.trans_setTable {o : Option PageTable} :
    (s.setTable t o).trans t' v = if t' = t then o.bind (·.trans v) else s.trans t' v := by
  unfold Kernel.trans setTable
  by_cases ht : t' = t <;> simp [ht]

theorem Kernel.own_setTable (hs : s.table t = some pt)
    (h : pt'.holds = update pt.holds x o) :
    (s.setTable t (some pt')).own = update s.own (.table t x) o := by
  funext y
  cases y with
  | table t' z =>
    by_cases ht : t' = t
    · subst ht
      by_cases hz : z = x <;> simp [own, setTable, h, hz, hs]
    · simp [own, setTable, ht]
  | trapframe p => rw [update_of_ne (by simp)]; rfl

theorem Kernel.withPte_eq (hs : s.table t = some pt) :
    s.withPte t v pte = s.setTable t (some (pt.withLeaf v pte)) := by
  simp [withPte, hs]

theorem Kernel.lookup_isSome_of_trans (h : s.trans t v = some pte) : (s.lookup t v).isSome := by
  unfold Kernel.trans at h
  cases hs : s.table t with
  | none => simp [hs] at h
  | some pt =>
    simp only [hs, Option.bind_some] at h
    simp [lookup, hs, PageTable.lookup_isSome_of_trans h]

variable (h : (s.lookup t v).isSome)
include h

theorem Kernel.exists_table_of_lookup : ∃ pt, s.table t = some pt ∧ (pt.lookup v).isSome := by
  unfold lookup at h
  cases hs : s.table t with
  | none => simp [hs] at h
  | some pt => exact ⟨pt, rfl, by simpa [hs] using h⟩

theorem Kernel.trans_withPte : (s.withPte t v pte).trans t' v' =
      if t' = t ∧ v' = v then (if pte.valid then some pte else none) else s.trans t' v' := by
  obtain ⟨pt, hs, hl⟩ := exists_table_of_lookup h
  rw [withPte_eq hs, trans_setTable]
  by_cases ht : t' = t
  · subst ht
    by_cases hv : v' = v <;> simp [trans_withLeaf hl, hv, Kernel.trans, hs]
  · simp [ht]

theorem Kernel.trans_withPte_of_ne (hne : ¬(t' = t ∧ v' = v)) :
    (s.withPte t v pte).trans t' v' = s.trans t' v' := by
  rw [trans_withPte h, if_neg hne]

theorem Kernel.shared_withPte_of_ne {y : Handle}
    (hy : y ≠ .table t (.leaf v)) : (s.withPte t v pte).Shared y ↔ s.Shared y := by
  cases y with
  | table t' z =>
    cases z with
    | leaf v' =>
      have hne : ¬(t' = t ∧ v' = v) := fun hc => hy (by rw [hc.1, hc.2])
      simp [Kernel.Shared, trans_withPte_of_ne h hne]
    | _ => rfl
  | _ => rfl

end Kernel

namespace Kernel.Owned

variable {s : Kernel} {D : ℕ → ℤ} {pt : PageTable} {t v i p pa : ℕ} {rest : List ℕ} {pte : Pte}
  {perm : Perm}

theorem bounded_setTable (h : s.Bounded) {o : Option PageTable}
    (ho : ∀ pt, o = some pt → t < nProc ∧ ∀ i, 512 ≤ i → pt.dir i = none) :
    (s.setTable t o).Bounded := by
  intro t' pt' ht'
  by_cases ht : t' = t
  · subst ht
    exact ho pt' (by simpa [setTable] using ht')
  · exact h t' pt' (by simpa [setTable, ht] using ht')

theorem shared_setTable {pt' : PageTable} (hs : s.table t = some pt)
    (htrans : ∀ v, pt'.trans v = pt.trans v) (z : Handle) :
    (s.setTable t (some pt')).Shared z ↔ s.Shared z := by
  cases z with
  | table t' y =>
    cases y with
    | leaf v =>
      by_cases ht : t' = t
      · subst ht
        have hold : s.trans t' v = pt.trans v := by simp [Kernel.trans, hs]
        simp [Kernel.Shared, trans_setTable, htrans, hold]
      · simp [Kernel.Shared, trans_setTable, ht]
    | _ => rfl
  | _ => rfl

theorem bounded_of_dir (h : s.Bounded) {pt' : PageTable} (hs : s.table t = some pt)
    (hdir : pt'.dir = pt.dir) : (s.setTable t (some pt')).Bounded := by
  refine bounded_setTable h ?_
  rintro _ ⟨⟩
  rw [hdir]
  exact h t pt hs

theorem bounded_withPte (h : s.Bounded) : (s.withPte t v pte).Bounded := by
  cases hs : s.table t with
  | none =>
    rw [withPte, hs]
    exact bounded_setTable h (by simp)
  | some pt =>
    rw [withPte_eq hs]
    exact bounded_of_dir h hs rfl

theorem own_withPte (hl : (s.lookup t v).isSome) (hv : v < trapVpn) :
    (s.withPte t v pte).own =
      update s.own (.table t (.leaf v)) (if pte.valid then some pte.ppn else none) := by
  obtain ⟨pt, hs, hl⟩ := exists_table_of_lookup hl
  rw [withPte_eq hs]
  exact own_setTable hs (holds_withLeaf hl hv)

theorem own_leaf_of_trans_none (h : s.trans t v = none) : s.own (.table t (.leaf v)) = none := by
  cases hs : s.table t with
  | none => simp [own, hs]
  | some pt =>
    have : pt.trans v = none := by simpa [Kernel.trans, hs] using h
    simp [own, hs, holds, this]

theorem own_leaf_of_trans (h : s.trans t v = some pte) (hv : v < trapVpn) :
    s.own (.table t (.leaf v)) = some pte.ppn := by
  cases hs : s.table t with
  | none => simp [Kernel.trans, hs] at h
  | some pt =>
    have : pt.trans v = some pte := by simpa [Kernel.trans, hs] using h
    simp [own, hs, holds, this, hv]

variable (h : s.Owned D)
include h

theorem not_free (hd : D pa ≠ 0) : pa ∉ s.freelist :=
  fun hf => hd (h.balanced.settled pa hf)

theorem unheld (hd : D pa = 1) (hr : s.ref pa = 1) (y : Handle) : s.own y ≠ some pa :=
  h.balanced.unheld_of_debt (h.not_free (by omega)) (by omega) y

theorem allocated (hf : s.freelist = pa :: rest) :
    (s.allocated pa rest).Owned (D + Pi.single pa 1) := by
  refine ⟨(hf ▸ h.balanced).alloc, h.bounded, fun a => ?_⟩
  by_cases ha : a = pa
  · simp [Kernel.allocated, ha]
  · simpa [Kernel.allocated, ha] using h.small a

theorem debt_of_free (hf : s.freelist = pa :: rest) : D pa = 0 :=
  h.balanced.settled pa (by simp [hf])

theorem freed (hd : D pa = 1) (hr : s.ref pa = 1) : (s.freed pa).Owned (D - Pi.single pa 1) :=
  ⟨h.balanced.release (h.not_free (by omega)) hd hr, h.bounded, h.small⟩

theorem setRef (hpa : pa ∉ s.freelist) {n : ℕ} (hn : n < 2 ^ 32) :
    (s.setRef pa n).Owned (D + Pi.single pa ((n : ℤ) - s.ref pa)) := by
  refine ⟨h.balanced.recount hpa n, h.bounded, fun a => ?_⟩
  by_cases ha : a = pa
  · simpa [Kernel.setRef, ha] using hn
  · simpa [Kernel.setRef, ha] using h.small a

theorem attach {s' : Kernel} {y : Handle} (hown : s'.own = update s.own y (some pa))
    (hshared : ∀ z, z ≠ y → (s'.Shared z ↔ s.Shared z)) (hfree : s'.freelist = s.freelist)
    (href : s'.ref = s.ref) (hb : s'.Bounded) (hy : s.own y = none)
    (hd : D pa = 1) (hr : s.ref pa = 1) : s'.Owned (D - Pi.single pa 1) := by
  refine ⟨?_, hb, by rw [href]; exact h.small⟩
  rw [hown, hfree, href]
  exact h.balanced.attach hshared hy (h.not_free (by omega)) fun z hz => absurd hz
    (h.unheld hd hr z)

theorem map (hl : (s.lookup t v).isSome) (hv : v < trapVpn)
    (hn : s.trans t v = none) (hd : D pa = 1) (hr : s.ref pa = 1) :
    (s.withPte t v ⟨true, perm, pa⟩).Owned (D - Pi.single pa 1) := by
  have hown : (s.withPte t v ⟨true, perm, pa⟩).own =
      update s.own (.table t (.leaf v)) (some pa) := own_withPte hl hv
  exact h.attach hown (fun z hz => shared_withPte_of_ne hl hz) rfl rfl
    (bounded_withPte h.bounded) (own_leaf_of_trans_none hn) hd hr

/-- Map a page that user code can already access elsewhere. -/
theorem mapShared (hl : (s.lookup t v).isSome) (hv : v < trapVpn)
    (hn : s.trans t v = none) {t' v' : ℕ} (hold : s.trans t' v' = some pte) (hv' : v' < trapVpn)
    (hu : pte.perm.u = true) (hperm : perm.u = true) :
    (s.withPte t v ⟨true, perm, pte.ppn⟩).Owned (D - Pi.single pte.ppn 1) := by
  have hown : (s.withPte t v ⟨true, perm, pte.ppn⟩).own =
      update s.own (.table t (.leaf v)) (some pte.ppn) := own_withPte hl hv
  have hheld := own_leaf_of_trans hold hv'
  have hshared : s.Shared (.table t' (.leaf v')) := ⟨pte, hold, hu⟩
  refine ⟨?_, bounded_withPte h.bounded, h.small⟩
  rw [hown]
  refine h.balanced.attach (fun z hz => shared_withPte_of_ne hl hz)
    (own_leaf_of_trans_none hn) (fun hf => h.balanced.unheld _ hf _ hheld) fun z hz => ⟨?_, ?_⟩
  · by_cases hz' : z = .table t' (.leaf v')
    · rw [hz']
      exact hshared
    · exact (h.balanced.exclusive z _ _ hz hheld hz').1
  · exact ⟨⟨true, perm, pte.ppn⟩, by simp [trans_withPte hl], hperm⟩

theorem unmap (hv : v < trapVpn) (ht : s.trans t v = some pte) {pte' : Pte}
    (hval : pte'.valid = false) : (s.withPte t v pte').Owned (D + Pi.single pte.ppn 1) := by
  have hl := lookup_isSome_of_trans ht
  refine ⟨?_, bounded_withPte h.bounded, h.small⟩
  rw [own_withPte hl hv, hval]
  exact h.balanced.detach (fun z hz => shared_withPte_of_ne hl hz) (own_leaf_of_trans ht hv)

/-- Change the permissions of a leaf without hiding it from user code. -/
theorem reperm (ht : s.trans t v = some pte) {perm : Perm} (hu : perm.u = pte.perm.u) :
    (s.withPte t v ⟨true, perm, pte.ppn⟩).Owned D := by
  have hl := lookup_isSome_of_trans ht
  obtain ⟨pt, hs, hlp⟩ := exists_table_of_lookup hl
  have hown : (s.withPte t v ⟨true, perm, pte.ppn⟩).own = s.own := by
    by_cases hv : v < trapVpn
    · rw [own_withPte hl hv]
      exact update_eq_self_iff.mpr (own_leaf_of_trans ht hv).symm
    · rw [withPte_eq hs, own_setTable (x := .leaf v) (o := pt.holds (.leaf v)) hs]
      · rw [update_eq_self_iff]
        simp [own, hs]
      · rw [holds_withLeaf_of_ge hlp (by omega), update_eq_self]
  have hshared : (s.withPte t v ⟨true, perm, pte.ppn⟩).Shared = s.Shared := by
    funext z
    apply propext
    by_cases hz : z = .table t (.leaf v)
    · subst hz
      simp [Kernel.Shared, trans_withPte hl, ht, hu]
    · exact shared_withPte_of_ne hl hz
  refine ⟨?_, bounded_withPte h.bounded, h.small⟩
  rw [hown, hshared]
  exact h.balanced

/-- The trampoline and trapframe leaves are outside the accounts. -/
theorem withPte_of_ge (hl : (s.lookup t v).isSome) (hv : trapVpn ≤ v)
    (hu : ∀ y, s.trans t v = some y → y.perm.u = false) (hu' : pte.perm.u = false) :
    (s.withPte t v pte).Owned D := by
  obtain ⟨pt, hs, hlp⟩ := exists_table_of_lookup hl
  have hown : (s.withPte t v pte).own = s.own := by
    rw [withPte_eq hs, own_setTable (x := .leaf v) (o := pt.holds (.leaf v)) hs]
    · rw [update_eq_self_iff]
      simp [own, hs]
    · rw [holds_withLeaf_of_ge hlp hv, update_eq_self]
  have hshared : (s.withPte t v pte).Shared = s.Shared := by
    funext z
    apply propext
    by_cases hz : z = .table t (.leaf v)
    · subst hz
      simp only [Kernel.Shared, trans_withPte hl, and_self, if_true]
      constructor
      · rintro ⟨y, hy, hyu⟩
        split_ifs at hy
        cases hy
        simp [hu'] at hyu
      · rintro ⟨y, hy, hyu⟩
        simp [hu y hy] at hyu
    · exact shared_withPte_of_ne hl hz
  refine ⟨?_, bounded_withPte h.bounded, h.small⟩
  rw [hown, hshared]
  exact h.balanced

theorem setProc {f : Proc → Proc}
    (hf : (f (s.proc p)).trapframe = (s.proc p).trapframe) : (s.setProc p f).Owned D := by
  have hown : (s.setProc p f).own = s.own := by
    funext y
    cases y with
    | trapframe q => by_cases hq : q = p <;> simp [Kernel.own, Kernel.setProc, hq, hf]
    | _ => rfl
  exact ⟨hown ▸ h.balanced, h.bounded, h.small⟩

/-- A page becomes the root of a new, empty table. -/
theorem newTable (hs : s.table t = none) (ht : t < nProc) (hd : D pa = 1) (hr : s.ref pa = 1) :
    (s.setTable t (some ⟨pa, fun _ => none, fun _ => none, fun _ => .zero⟩)).Owned
      (D - Pi.single pa 1) := by
  set pt : PageTable := ⟨pa, fun _ => none, fun _ => none, fun _ => .zero⟩ with hpt
  have hempty : ∀ v, pt.trans v = none := fun v => by simp [hpt, PageTable.trans, PageTable.lookup]
  have hown : (s.setTable t (some pt)).own = update s.own (.table t .root) (some pa) := by
    funext y
    cases y with
    | table t' x =>
      by_cases ht' : t' = t
      · subst ht'
        cases x <;> simp [own, setTable, hs, PageTable.holds, hempty] <;> simp [hpt]
      · simp [own, setTable, ht']
    | trapframe p => rw [update_of_ne (by simp)]; rfl
  refine h.attach hown (fun z _ => ?_) rfl rfl ?_ (by simp [own, hs]) hd hr
  · cases z with
    | table t' x =>
      cases x with
      | leaf v =>
        by_cases ht' : t' = t
        · subst ht'
          have hold : s.trans t' v = none := by simp [Kernel.trans, hs]
          simp [Kernel.Shared, trans_setTable, hempty, hold]
        · simp [Kernel.Shared, trans_setTable, ht']
      | _ => rfl
    | _ => rfl
  · refine bounded_setTable h.bounded ?_
    rintro _ ⟨⟩
    exact ⟨ht, fun _ _ => rfl⟩

theorem detach {s' : Kernel} {y : Handle} (hown : s'.own = update s.own y none)
    (hshared : ∀ z, s'.Shared z ↔ s.Shared z) (hfree : s'.freelist = s.freelist)
    (href : s'.ref = s.ref) (hb : s'.Bounded) (hy : s.own y = some pa) :
    s'.Owned (D + Pi.single pa 1) := by
  refine ⟨?_, hb, by rw [href]; exact h.small⟩
  rw [hown, hfree, href]
  exact h.balanced.detach (fun z _ => hshared z) hy

section

variable (hs : s.table t = some pt)
include hs

theorem table_lt : t < nProc := (h.bounded t pt hs).1

theorem attachTable {pt' : PageTable}
    (ha : pt.Attached pa pt') (hd : D pa = 1) (hr : s.ref pa = 1) :
    (s.setTable t (some pt')).Owned (D - Pi.single pa 1) := by
  obtain ⟨x, -, hx, hholds⟩ := ha.place
  have hb : (s.setTable t (some pt')).Bounded := by
    refine bounded_setTable h.bounded ?_
    rintro _ ⟨⟩
    exact ⟨h.table_lt hs, fun k hk => ha.dir k hk ((h.bounded t pt hs).2 k hk)⟩
  exact h.attach (own_setTable hs hholds) (fun z _ => shared_setTable hs ha.trans z) rfl rfl
    hb (by simp [own, hs, hx]) hd hr

theorem dropTab (hdir : (pt.dir (parent i)).isSome)
    (hi : pt.tab i = some pa) (hleaf : ∀ v, parent v = i → pt.trans v = none) :
    (s.setTable t (some (pt.dropTab i))).Owned (D + Pi.single pa 1) :=
  h.detach (own_setTable hs (holds_dropTab hleaf))
    (shared_setTable hs fun _ => trans_dropTab hleaf) rfl rfl
    (bounded_of_dir h.bounded hs rfl) (by simp [own, hs, holds, hdir, hi])

theorem dropDir (hi : pt.dir i = some pa) (htab : ∀ k, parent k = i → pt.tab k = none) :
    (s.setTable t (some (pt.dropDir i))).Owned (D + Pi.single pa 1) := by
  refine h.detach (own_setTable hs (PageTable.holds_dropDir htab))
    (shared_setTable hs fun _ => PageTable.trans_dropDir htab) rfl rfl ?_
    (by simp [own, hs, PageTable.holds, hi])
  refine bounded_setTable h.bounded ?_
  rintro _ ⟨⟩
  refine ⟨h.table_lt hs, fun k hk => ?_⟩
  by_cases hki : k = i <;> simp [PageTable.dropDir, hki, (h.bounded t pt hs).2 k hk]

theorem dropRoot (hdir : ∀ k, pt.dir k = none) :
    (s.setTable t none).Owned (D + Pi.single pt.root 1) := by
  have hempty : ∀ v, pt.trans v = none := fun v => by
    simp [PageTable.trans, PageTable.lookup, hdir]
  have hown : (s.setTable t none).own = update s.own (.table t .root) none := by
    funext y
    cases y with
    | table t' x =>
      by_cases ht' : t' = t
      · subst ht'
        cases x <;> simp [own, setTable, hs, PageTable.holds, hdir, hempty]
      · simp [own, setTable, ht']
    | trapframe p => rw [update_of_ne (by simp)]; rfl
  refine h.detach hown (fun z => ?_) rfl rfl (bounded_setTable h.bounded (by simp))
    (by simp [own, hs, PageTable.holds])
  cases z with
  | table t' x =>
    cases x with
    | leaf v =>
      by_cases ht' : t' = t
      · subst ht'
        have hold : s.trans t' v = none := by simp [Kernel.trans, hs, hempty]
        simp [Kernel.Shared, trans_setTable, hold]
      · simp [Kernel.Shared, trans_setTable, ht']
    | _ => rfl
  | _ => rfl

end

omit h in
theorem own_setTrapframe (o : Option ℕ) :
    (s.setProc p fun q => { q with trapframe := o }).own =
      update s.own (.trapframe p) o := by
  funext y
  cases y with
  | trapframe q => by_cases hq : q = p <;> simp [Kernel.own, Kernel.setProc, hq]
  | table t x => rw [update_of_ne (by simp)]; rfl

theorem setTrapframe (hp : (s.proc p).trapframe = none) (hd : D pa = 1) (hr : s.ref pa = 1) :
    (s.setProc p fun q => { q with trapframe := some pa }).Owned (D - Pi.single pa 1) :=
  h.attach (own_setTrapframe _) (fun _ _ => Iff.rfl) rfl rfl h.bounded hp hd hr

theorem dropTrapframe (hp : (s.proc p).trapframe = some pa) :
    (s.setProc p fun q => { q with trapframe := none }).Owned (D + Pi.single pa 1) :=
  h.detach (own_setTrapframe _) (fun _ => Iff.rfl) rfl rfl h.bounded hp

end Kernel.Owned

end Xv6.Vm
