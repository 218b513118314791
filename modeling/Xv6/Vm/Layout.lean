import Xv6.Vm.Sane
import Xv6.Library.Intervals

/-!
# Where regions lie

The regions of a process lie below the trapframe and do not share a page, and `nmp` is the start
of the lowest one, as long as each `mmap` finds room for its region: `sys_mmap` itself does not
look. What remains of a region when it is unmapped lies in the region.
-/
namespace Xv6.Vm

open Library Relation Function Kernel List Option

def Vma.span (v : Vma) : ℕ := pgRoundUp v.size.toNat

def Vma.stop (v : Vma) : ℕ := v.addr + v.span

/-- Page number `w` belongs to the region. -/
def Vma.Covers (v : Vma) (w : ℕ) : Prop := v.addr ≤ w * pgSize ∧ w * pgSize < v.stop

structure Vma.Placed (v : Vma) : Prop where
  aligned : v.addr % pgSize = 0
  nonneg : 0 ≤ v.size
  small : v.size ≤ 2 ^ 31 - pgSize
  below : v.stop ≤ Xv6.trapframe

/-- The pages of `v'` are pages of `v`. -/
structure Vma.Within (v' v : Vma) : Prop where
  start : v.addr ≤ v'.addr
  stop : v'.stop ≤ v.stop
  placed : v.Placed → v'.Placed

section Pages

variable {v v' : Vma} {va w k addr : ℕ} {size off : ℤ} {complete : Bool}

theorem pgRoundUp_eq (n : ℕ) : pgRoundUp n = (n + 4095) / 4096 * 4096 := by
  unfold pgRoundUp pgSize
  omega

theorem trapframe_eq : Xv6.trapframe = 274877898752 := by decide

theorem pageCount_mul (h0 : 0 ≤ size) (h1 : size ≤ 2 ^ 31 - pgSize) :
    pageCount size * pgSize = pgRoundUp size.toNat := by
  unfold pageCount pgRoundUpInt i32
  rw [pgRoundUp_eq]
  unfold pgSize at *
  omega

theorem Vma.not_covers_of_disjoint (h : v.stop ≤ v'.addr ∨ v'.stop ≤ v.addr)
    (hw : v.Covers w) : ¬ v'.Covers w := by
  rintro ⟨h1, h2⟩
  obtain ⟨h3, h4⟩ := hw
  omega

theorem Vma.Within.refl (v : Vma) : v.Within v := ⟨le_rfl, le_rfl, id⟩

theorem Vma.Within.covers (h : v'.Within v) (hw : v'.Covers w) : v.Covers w :=
  ⟨h.start.trans hw.1, hw.2.trans_le h.stop⟩

theorem Vma.Within.of_eq (ha : v'.addr = v.addr) (hs : v'.size = v.size) : v'.Within v := by
  have hspan : v'.span = v.span := by simp [Vma.span, hs]
  have hstop : v'.stop = v.stop := by simp [Vma.stop, ha, hspan]
  refine ⟨ha.ge, hstop.le, fun h => ⟨?_, ?_, ?_, ?_⟩⟩
  · rw [ha]
    exact h.aligned
  · rw [hs]
    exact h.nonneg
  · rw [hs]
    exact h.small
  · rw [hstop]
    exact h.below

variable (h : v.Placed)
include h

theorem Vma.Placed.size_le_span : v.size ≤ v.span := by
  have h0 := h.nonneg
  unfold Vma.span
  rw [pgRoundUp_eq]
  omega

theorem Vma.Placed.fits : v.Fits := by
  have h1 := h.below
  have h2 := h.small
  unfold Vma.stop at h1
  rw [trapframe_eq] at h1
  unfold pgSize at h2
  exact ⟨by omega, h.nonneg, by omega⟩

theorem Vma.Placed.covers (hin : v.Contains va) : v.Covers (va / pgSize) := by
  have hend := h.fits.end_eq hin
  have hspan := h.size_le_span
  have hal := h.aligned
  obtain ⟨h1, h2⟩ := hin
  unfold Vma.Covers Vma.stop
  unfold pgSize at *
  omega

theorem Vma.Placed.pageCount : pageCount v.size * pgSize = v.span :=
  pageCount_mul h.nonneg h.small

theorem Vma.Placed.page (hk : k < Vm.pageCount v.size) :
    u64 (v.addr + (k * pgSize : ℕ)) = v.addr + k * pgSize ∧
      v.Covers ((v.addr + k * pgSize) / pgSize) := by
  have hcount := h.pageCount
  have hbelow := h.below
  have hal := h.aligned
  have hlt : (k + 1) * pgSize ≤ Vm.pageCount v.size * pgSize := Nat.mul_le_mul_right _ hk
  unfold Vma.Covers
  unfold Vma.stop at *
  rw [trapframe_eq] at hbelow
  unfold u64
  unfold pgSize at *
  omega

theorem Vma.Placed.exists_page (hw : v.Covers w) :
    ∃ k < Vm.pageCount v.size, w * pgSize = v.addr + k * pgSize := by
  obtain ⟨h1, h2⟩ := hw
  have hcount := h.pageCount
  have haddr : v.addr / pgSize * pgSize = v.addr :=
    Nat.div_mul_cancel (Nat.dvd_of_mod_eq_zero h.aligned)
  have hle : v.addr / pgSize ≤ w := by
    apply Nat.le_of_mul_le_mul_right (c := pgSize)
    · rw [haddr]
      exact h1
    · decide
  obtain ⟨k, rfl⟩ := Nat.exists_eq_add_of_le hle
  rw [Nat.add_mul, haddr] at h2 ⊢
  refine ⟨k, ?_, rfl⟩
  apply Nat.lt_of_mul_lt_mul_right (a := pgSize)
  rw [hcount]
  unfold Vma.stop at h2
  omega

/-- What is left when whole pages at one end, or all, are cut off. -/
theorem Vma.Placed.cut (hin : v.Contains addr) (hsize : 0 ≤ size ∧ size < 2 ^ 31)
    (hr : (addr % pgSize = 0 ∧ size % pgSize = 0) ∨ (addr = v.addr ∧ size = v.size))
    (hcut : v.cut addr size = some (v', complete, off)) : v'.Within v := by
  have hend := h.fits.end_eq hin
  have hin' := hin
  obtain ⟨hlo, hhi⟩ := hin'
  unfold Vma.cut at hcut
  split_ifs at hcut with hall hfront htail
  · cases hcut
    exact Vma.Within.of_eq rfl rfl
  · cases hcut
    have hpages : size % pgSize = 0 := by
      rcases hr with hr | hr
      · exact hr.2
      · omega
    have hfit := h.fits
    have hu : u64 (v.addr + size) = v.addr + size.toNat := by
      unfold Vma.Fits at hfit
      unfold u64
      have hb := h.below
      have hs := h.size_le_span
      unfold Vma.stop at hb
      rw [trapframe_eq] at hb
      omega
    have hspan : pgRoundUp (v.size - size).toNat + size.toNat = v.span := by
      unfold Vma.span
      rw [pgRoundUp_eq, pgRoundUp_eq]
      unfold pgSize at *
      omega
    refine ⟨?_, ?_, fun _ => ⟨?_, ?_, ?_, ?_⟩⟩
    · simp only [hu]
      omega
    · simp only [Vma.stop, Vma.span, hu]
      rw [← Vma.span]
      omega
    · simp only [hu]
      have := h.aligned
      unfold pgSize at *
      omega
    · simp only
      omega
    · have := h.small
      simp only
      omega
    · have := h.below
      unfold Vma.stop at this
      simp only [Vma.stop, Vma.span, hu]
      omega
  · cases hcut
    obtain ⟨hgt, heq⟩ := htail
    rw [← Int.ofNat_inj, hend] at heq
    have hback : (v.size - size).toNat ≤ v.size.toNat := by omega
    have hspan : pgRoundUp (v.size - size).toNat ≤ v.span := by
      unfold Vma.span
      rw [pgRoundUp_eq, pgRoundUp_eq]
      omega
    have hle : size ≤ v.size := by
      unfold u64 at heq
      have hb := h.below
      have hs := h.size_le_span
      unfold Vma.stop at hb
      rw [trapframe_eq] at hb
      omega
    refine ⟨le_rfl, ?_, fun _ => ⟨h.aligned, ?_, ?_, ?_⟩⟩
    · simp only [Vma.stop, Vma.span] at *
      omega
    · simp only
      omega
    · have := h.small
      simp only
      omega
    · have := h.below
      simp only [Vma.stop, Vma.span] at *
      omega

end Pages

/-- The regions of each process lie apart from each other, and no entry of the global table
is referenced twice. -/
structure Kernel.Arranged (s : Kernel) : Prop where
  slots : ∀ q i, perProcessVmas ≤ i → (s.proc q).vmas i = none
  vacant : ∀ q, (s.proc q).state = .unused → ∀ i, (s.proc q).vmas i = none
  distinct : ∀ q i q' i' j, (s.proc q).vmas i = some j → (s.proc q').vmas i' = some j →
    q = q' ∧ i = i'
  placed : ∀ q i v, s.slot q i = some v → v.Placed
  disjoint : ∀ q i i' v v', i ≠ i' → s.slot q i = some v → s.slot q i' = some v' →
    v.stop ≤ v'.addr ∨ v'.stop ≤ v.addr

/-- Between calls, besides, entries that are referenced are in use, and the next region
goes below the lowest one. -/
structure Kernel.Layout (s : Kernel) : Prop extends Kernel.Arranged s where
  used : ∀ q i j, (s.proc q).vmas i = some j → (s.vmas j).used = true
  next : ∀ q, (s.proc q).state ≠ .unused → (s.proc q).nmp = s.minVma q

section Slots

variable {s s' : Kernel} {p q i k j : ℕ} {v : Vma}

theorem Kernel.slot_eq_some : s.slot p i = some v ↔ ∃ j, (s.proc p).vmas i = some j ∧
    s.vmas j = v := by
  simp [slot, map_eq_some_iff]

/-- A new region, in an entry that no slot refers to. -/
theorem Kernel.slot_addVma (hj : ∀ q k, (s.proc q).vmas k ≠ some j) :
    (s.addVma p i j v).slot q k = if q = p ∧ k = i then some v else s.slot q k := by
  by_cases hq : q = p
  · subst hq
    by_cases hk : k = i
    · simp [hk, slot, addVma, setProc, setFile, setVma]
    · cases hr : (s.proc q).vmas k with
      | none =>
        simp [hk, slot, addVma, setProc, setFile, setVma, hr]
      | some j' =>
        have hne : j' ≠ j := fun he => hj q k (he ▸ hr)
        simp [hk, slot, addVma, setProc, setFile, setVma, hr,
          hne]
  · cases hr : (s.proc q).vmas k with
    | none =>
      simp [hq, slot, addVma, setProc, setFile, setVma, hr]
    | some j' =>
      have hne : j' ≠ j := fun he => hj q k (he ▸ hr)
      simp [hq, slot, addVma, setProc, setFile, setVma, hr,
        hne]

theorem Kernel.proc_addVma_of_ne (hq : q ≠ p) : (s.addVma p i j v).proc q = s.proc q := by
  simp [addVma, setProc, setFile, setVma, hq]

theorem Kernel.proc_addVma : (s.addVma p i j v).proc p =
    { s.proc p with vmas := update (s.proc p).vmas i (some j), nmp := v.addr } := by
  simp [addVma, setProc, setFile, setVma]

theorem Kernel.vmas_addVma : (s.addVma p i j v).vmas = update s.vmas j v := rfl

theorem Kernel.Arranged.covers_unique (h : s.Arranged) {i' w : ℕ} {v' : Vma}
    (hv : s.slot p i = some v) (hv' : s.slot p i' = some v') (hw : v.Covers w)
    (hw' : v'.Covers w) : i = i' ∧ v = v' := by
  have hi : i = i' := by
    by_contra hc
    exact Vma.not_covers_of_disjoint (h.disjoint p i i' v v' hc hv hv') hw hw'
  subst hi
  exact ⟨rfl, some.inj (hv.symm.trans hv')⟩

theorem Kernel.Layout.unreferenced (h : s.Layout) (hj : s.freeVma = some j) (q k : ℕ) :
    (s.proc q).vmas k ≠ some j := by
  intro hr
  have hfree : (s.vmas j).used = false := by simpa using find?_some hj
  rw [h.used q k j hr] at hfree
  cases hfree

end Slots

section Lowest

variable {s s' : Kernel} {p q : ℕ}

theorem Kernel.minVma_congr (h : ∀ i, s'.slot q i = s.slot q i) : s'.minVma q = s.minVma q := by
  simp only [minVma, h]

/-- Taking the minimum over slots, starting from `m`. -/
theorem foldl_minVma (l : List ℕ) (m : ℕ) {P : ℕ → Prop} (hm : P m)
    (hP : ∀ i v, s.slot p i = some v → P v.addr) :
    let r := l.foldl (fun m i =>
      match s.slot p i with
      | some v => min m v.addr
      | none => m) m
    P r ∧ r ≤ m ∧ ∀ i ∈ l, ∀ v, s.slot p i = some v → r ≤ v.addr := by
  induction l generalizing m with
  | nil => exact ⟨hm, le_rfl, by simp⟩
  | cons k l ih =>
    cases hk : s.slot p k with
    | none =>
      obtain ⟨h1, h2, h3⟩ := ih m hm
      simp only [foldl_cons, hk]
      refine ⟨h1, h2, fun i hi v hv => ?_⟩
      rcases mem_cons.mp hi with rfl | hi
      · simp [hk] at hv
      · exact h3 i hi v hv
    | some w =>
      have hmin : P (min m w.addr) := by
        rcases min_choice m w.addr with h | h
        · rwa [h]
        · rw [h]
          exact hP k w hk
      obtain ⟨h1, h2, h3⟩ := ih (min m w.addr) hmin
      simp only [foldl_cons, hk]
      refine ⟨h1, h2.trans (min_le_left _ _), fun i hi v hv => ?_⟩
      rcases mem_cons.mp hi with rfl | hi
      · rw [hk] at hv
        cases hv
        exact h2.trans (min_le_right _ _)
      · exact h3 i hi v hv

theorem Kernel.Arranged.slot_lt (h : s.Arranged) {i : ℕ} {v : Vma} (hv : s.slot p i = some v) :
    i < perProcessVmas := by
  by_contra hc
  obtain ⟨j, hj, -⟩ := slot_eq_some.mp hv
  simp [h.slots p i (by omega)] at hj

theorem Kernel.Arranged.minVma_le (h : s.Arranged) {i : ℕ} {v : Vma} (hv : s.slot p i = some v) :
    s.minVma p ≤ v.addr := by
  obtain ⟨-, -, hle⟩ := foldl_minVma (s := s) (p := p) (range perProcessVmas) Xv6.trapframe
    (P := fun _ => True) trivial fun _ _ _ => trivial
  exact hle i (mem_range.mpr (h.slot_lt hv)) v hv

theorem Kernel.minVma_le_trapframe : s.minVma p ≤ Xv6.trapframe :=
  (foldl_minVma (s := s) (p := p) (range perProcessVmas) Xv6.trapframe
    (P := fun _ => True) trivial fun _ _ _ => trivial).2.1

theorem Kernel.minVma_mem (s : Kernel) (p : ℕ) :
    s.minVma p = Xv6.trapframe ∨ ∃ i v, s.slot p i = some v ∧ v.addr = s.minVma p :=
  (foldl_minVma (range perProcessVmas) Xv6.trapframe
    (P := fun m => m = Xv6.trapframe ∨ ∃ i v, s.slot p i = some v ∧ v.addr = m) (.inl rfl)
    fun i v hv => .inr ⟨i, v, hv, rfl⟩).1

theorem Kernel.Arranged.minVma_aligned (h : s.Arranged) : s.minVma p % pgSize = 0 := by
  rcases s.minVma_mem p with he | ⟨i, v, hv, he⟩
  · rw [he]
    decide
  · rw [← he]
    exact (h.placed p i v hv).aligned

/-- The start of a region below all others is `minVma`. -/
theorem Kernel.Arranged.minVma_eq (h : s.Arranged) {i : ℕ} {v : Vma} (hv : s.slot p i = some v)
    (hlow : ∀ k w, s.slot p k = some w → v.addr ≤ w.addr) : s.minVma p = v.addr := by
  apply le_antisymm (h.minVma_le hv)
  rcases s.minVma_mem p with he | ⟨k, w, hw, he⟩
  · have hbelow := (h.placed p i v hv).below
    unfold Vma.stop at hbelow
    omega
  · rw [← he]
    exact hlow k w hw

end Lowest

namespace Kernel.Arranged

variable {L : Prop} {s s' : Kernel} {p : ℕ}

variable (h : s.Arranged)
include h

/-- Regions may shrink or disappear. -/
theorem shrink (hstate : ∀ q, (s'.proc q).state = .unused → (s.proc q).state = .unused)
    (hvmas : ∀ q i j, (s'.proc q).vmas i = some j → (s.proc q).vmas i = some j)
    (hslot : ∀ q i v', s'.slot q i = some v' → ∃ v, s.slot q i = some v ∧ v'.Within v) :
    s'.Arranged where
  slots q i hi := by
    by_contra hc
    obtain ⟨j, hj⟩ := ne_none_iff_exists'.mp hc
    exact absurd (hvmas q i j hj) (by simp [h.slots q i hi])
  vacant q hq i := by
    by_contra hc
    obtain ⟨j, hj⟩ := ne_none_iff_exists'.mp hc
    have := hvmas q i j hj
    simp [h.vacant q (hstate q hq) i] at this
  distinct q i q' i' j hj hj' := h.distinct q i q' i' j (hvmas q i j hj) (hvmas q' i' j hj')
  placed q i v' hv' := by
    obtain ⟨v, hv, hw⟩ := hslot q i v' hv'
    exact hw.placed (h.placed q i v hv)
  disjoint q i i' v v' hi hv hv' := by
    obtain ⟨w, hw, hin⟩ := hslot q i v hv
    obtain ⟨w', hw', hin'⟩ := hslot q i' v' hv'
    rcases h.disjoint q i i' w w' hi hw hw' with hd | hd
    · exact .inl ((hin.stop.trans hd).trans hin'.start)
    · exact .inr ((hin'.stop.trans hd).trans hin.start)

theorem of_unmoved (hu : Unmoved s s') : s'.Arranged := by
  refine h.shrink (fun q hq => ?_) (fun q i j hj => ?_) fun q i v hv => ⟨v, ?_, Vma.Within.refl v⟩
  · obtain ⟨b, o, hb⟩ := hu.procs q
    rwa [hb] at hq
  · obtain ⟨b, o, hb⟩ := hu.procs q
    rwa [hb] at hj
  · rwa [hu.slot] at hv

theorem setProc {f : Proc → Proc} (hs : (f (s.proc p)).state = .unused → (s.proc p).state = .unused)
    (hv : ∀ i j, (f (s.proc p)).vmas i = some j → (s.proc p).vmas i = some j) :
    (s.setProc p f).Arranged := by
  have hvmas : ∀ q i j, ((s.setProc p f).proc q).vmas i = some j →
      (s.proc q).vmas i = some j := by
    intro q i j hj
    by_cases hq : q = p
    · subst hq
      exact hv i j (by simpa [Kernel.setProc] using hj)
    · simpa [Kernel.setProc, hq] using hj
  refine h.shrink (fun q hu => ?_) hvmas fun q i v hv => ?_
  · by_cases hq : q = p
    · subst hq
      exact hs (by simpa [Kernel.setProc] using hu)
    · simpa [Kernel.setProc, hq] using hu
  · obtain ⟨j, hj, rfl⟩ := Kernel.slot_eq_some.mp hv
    exact ⟨s.vmas j, Kernel.slot_eq_some.mpr ⟨j, hvmas q i j hj, rfl⟩, Vma.Within.refl _⟩

theorem setVma {j : ℕ} {v' : Vma} (hv' : v'.Within (s.vmas j)) : (s.setVma j v').Arranged := by
  refine h.shrink (fun q hu => hu) (fun q i j hj => hj) fun q i v hv => ?_
  · obtain ⟨j', hj', rfl⟩ := Kernel.slot_eq_some.mp hv
    refine ⟨s.vmas j', Kernel.slot_eq_some.mpr ⟨j', hj', rfl⟩, ?_⟩
    by_cases hjj : j' = j
    · subst hjj
      simpa [Kernel.setVma] using hv'
    · simpa [Kernel.setVma, hjj] using Vma.Within.refl (s.vmas j')

/-- A range of whole pages, or all of the region it starts in. -/
theorem range {i addr : ℕ} {size : ℤ} {v : Vma} (hv : s.slot p i = some v)
    (hin : v.Contains addr) (hr : s.Ranges p addr size) :
    (addr % pgSize = 0 ∧ size % pgSize = 0) ∨ (addr = v.addr ∧ size = v.size) := by
  rcases hr with hr | ⟨i', v', hv', rfl, rfl⟩
  · exact .inl hr
  · have hp := h.placed p i _ hv
    have hp' := h.placed p i' _ hv'
    by_cases hi : i = i'
    · subst hi
      rw [hv] at hv'
      cases hv'
      exact .inr ⟨rfl, rfl⟩
    · have hc := hp.covers hin
      have hal := hp'.aligned
      have hpos : v'.size = 0 := by
        by_contra hne
        have hnn := hp'.nonneg
        have hself : v'.Covers (v'.addr / pgSize) := by
          have hspan := hp'.size_le_span
          unfold Vma.Covers Vma.stop
          unfold pgSize at *
          omega
        exact Vma.not_covers_of_disjoint (h.disjoint p i i' _ _ hi hv hv') hc hself
      exact .inl ⟨hal, by simp [hpos]⟩

theorem cut {i j addr : ℕ} {size off : ℤ} {v : Vma} {complete : Bool}
    (hslot : (s.proc p).vmas i = some j) (hin : (s.vmas j).Contains addr)
    (hsize : 0 ≤ size ∧ size < 2 ^ 31) (hr : s.Ranges p addr size)
    (hcut : (s.vmas j).cut addr size = some (v, complete, off)) : v.Within (s.vmas j) := by
  have hv : s.slot p i = some (s.vmas j) := slot_eq_some.mpr ⟨j, hslot, rfl⟩
  exact (h.placed p i _ hv).cut hin hsize (h.range hv hin hr) hcut

theorem act (ha : Act L p s s') : s'.Arranged := by
  cases ha with
  | transfer hd => exact h.of_unmoved hd.steady.toLocal.unmoved
  | freed hf => exact h.of_unmoved hf.unmapped.toLocal.unmoved
  | dropped hf => exact h.of_unmoved hf.unmapped.toLocal.unmoved
  | leaked _ hf => exact h.of_unmoved hf.unmapped.toLocal.unmoved
  | setFile f file => exact h.of_unmoved (.setFile f file)
  | setOfile fd o => exact h.of_unmoved (.setOfile fd o)
  | cut hslot hin hsize hr hcut => exact h.setVma (h.cut hslot hin hsize hr hcut)
  | offset j off => exact h.setVma (Vma.Within.of_eq rfl rfl)
  | dropSlot i =>
    refine h.setProc id fun k j hj => ?_
    by_cases hk : k = i
    · simp [hk] at hj
    · simpa [hk] using hj
  | nmp => exact h.setProc id fun _ _ hj => hj

theorem acts (ha : Acts L p s s') : s'.Arranged := by
  induction ha with
  | refl => exact h
  | tail _ ha ih => exact ih.act ha

end Kernel.Arranged

section Frame

variable {s s' : Kernel} {p : ℕ}

structure SameRegions (s s' : Kernel) : Prop where
  vmas : s'.vmas = s.vmas
  slots : ∀ q, (s'.proc q).vmas = (s.proc q).vmas
  nmp : ∀ q, (s'.proc q).nmp = (s.proc q).nmp
  unused : ∀ q, (s'.proc q).state = .unused ↔ (s.proc q).state = .unused

theorem SameRegions.slot (h : SameRegions s s') : s'.slot = s.slot := by
  funext q k
  simp [Kernel.slot, h.slots, h.vmas]

theorem Kernel.Layout.congr (h : s.Layout) (hs : SameRegions s s') : s'.Layout := by
  refine ⟨⟨?_, ?_, ?_, ?_, ?_⟩, ?_, ?_⟩ <;>
    simp only [hs.slots, hs.vmas, hs.nmp, hs.slot, minVma, ne_eq, hs.unused]
  · exact h.slots
  · exact h.vacant
  · exact h.distinct
  · exact h.placed
  · exact h.disjoint
  · exact h.used
  · exact h.next

theorem Unmoved.sameRegions (h : Unmoved s s') : SameRegions s s' := by
  refine ⟨h.vmas, fun q => ?_, fun q => ?_, fun q => ?_⟩ <;>
  · obtain ⟨b, o, hb⟩ := h.procs q
    rw [hb]

theorem Kernel.Layout.of_unmoved (h : s.Layout) (hu : Unmoved s s') : s'.Layout :=
  h.congr hu.sameRegions

theorem SameRegions.setProc {f : Proc → Proc}
    (hs : (f (s.proc p)).state = .unused ↔ (s.proc p).state = .unused)
    (hv : (f (s.proc p)).vmas = (s.proc p).vmas) (hn : (f (s.proc p)).nmp = (s.proc p).nmp) :
    SameRegions s (s.setProc p f) := by
  refine ⟨rfl, fun q => ?_, fun q => ?_, fun q => ?_⟩ <;> by_cases hq : q = p
  · simp [Kernel.setProc, hq, hv]
  · simp [Kernel.setProc, hq]
  · simp [Kernel.setProc, hq, hn]
  · simp [Kernel.setProc, hq]
  · simp [Kernel.setProc, hq, hs]
  · simp [Kernel.setProc, hq]

theorem Kernel.Layout.setProc (h : s.Layout) {f : Proc → Proc}
    (hs : (f (s.proc p)).state = .unused ↔ (s.proc p).state = .unused)
    (hv : (f (s.proc p)).vmas = (s.proc p).vmas) (hn : (f (s.proc p)).nmp = (s.proc p).nmp) :
    (s.setProc p f).Layout ∧ (s.setProc p f).slot = s.slot :=
  ⟨h.congr (.setProc hs hv hn), (SameRegions.setProc hs hv hn).slot⟩

end Frame

section Mmap

/-- There is room above `low` for the region that `mmap` makes, and rounding its length up
to whole pages does not overflow. -/
def Kernel.Roomy (s : Kernel) (p low : ℕ) (length : ℤ) : Prop :=
  length ≤ 2 ^ 31 - pgSize ∧ low + pgRoundUp length.toNat ≤ (s.proc p).nmp

variable {s s' : Kernel} {p : ℕ}

theorem lowerNmp_eq {nmp : ℕ} {size : ℤ} (h0 : 0 ≤ size) (h1 : size ≤ 2 ^ 31 - pgSize)
    (h2 : pgRoundUp size.toNat ≤ nmp) (h3 : nmp ≤ Xv6.trapframe) :
    lowerNmp nmp size = nmp - pgRoundUp size.toNat := by
  unfold lowerNmp pgRoundUpInt i32 u64
  rw [pgRoundUp_eq] at *
  rw [trapframe_eq] at h3
  unfold pgSize at *
  omega

theorem pgRoundUp_aligned (n : ℕ) : pgRoundUp n % pgSize = 0 := Nat.mul_mod_left _ _

/-- A region of the given size just below `nmp` is well placed. -/
theorem Vma.Placed.of_lower {v : Vma} {nmp : ℕ} (hal : nmp % pgSize = 0)
    (hle : nmp ≤ Xv6.trapframe) (h0 : 0 ≤ v.size) (h1 : v.size ≤ 2 ^ 31 - pgSize)
    (hroom : v.span ≤ nmp) (haddr : v.addr = lowerNmp nmp v.size) :
    v.Placed ∧ v.stop = nmp := by
  rw [lowerNmp_eq h0 h1 hroom hle] at haddr
  have hstop : v.stop = nmp := by
    unfold Vma.stop
    rw [haddr]
    exact Nat.sub_add_cancel hroom
  have hmod := pgRoundUp_aligned v.size.toNat
  refine ⟨⟨?_, h0, h1, by rw [hstop]; exact hle⟩, hstop⟩
  rw [haddr]
  unfold pgSize at *
  omega

end Mmap

namespace Kernel.Layout

variable {L : Prop} {s s' : Kernel} {p : ℕ}

/-- A new region just below the others, in a free entry and a free slot. -/
theorem addVma (h : s.Layout) {i j : ℕ} {v : Vma} (hp : (s.proc p).state ≠ .unused)
    (hi : i < perProcessVmas) (hnone : (s.proc p).vmas i = none)
    (hj : ∀ q k, (s.proc q).vmas k ≠ some j) (hused : v.used = true)
    (hplaced : v.Placed) (hstop : v.stop = (s.proc p).nmp) :
    (s.addVma p i j v).Layout := by
  have hslot : ∀ q k, (s.addVma p i j v).slot q k =
      if q = p ∧ k = i then some v else s.slot q k := fun q k => slot_addVma hj
  have hstate : ∀ q, ((s.addVma p i j v).proc q).state = (s.proc q).state := by
    intro q
    by_cases hq : q = p
    · subst hq
      simp [proc_addVma]
    · simp [proc_addVma_of_ne hq]
  have hvmas : ∀ q k, ((s.addVma p i j v).proc q).vmas k =
      if q = p ∧ k = i then some j else (s.proc q).vmas k := by
    intro q k
    by_cases hq : q = p
    · subst hq
      by_cases hk : k = i <;> simp [proc_addVma, hk]
    · simp [proc_addVma_of_ne hq, hq]
  have hlow : ∀ k w, s.slot p k = some w → v.stop ≤ w.addr := by
    intro k w hw
    rw [hstop, h.next p hp]
    exact h.minVma_le hw
  have har : (s.addVma p i j v).Arranged := ?_
  · refine ⟨har, ?_, ?_⟩
    · intro q k j' hr
      rw [hvmas] at hr
      rw [vmas_addVma]
      split_ifs at hr with hc
      · cases hr
        simpa using hused
      · have hne : j' ≠ j := fun he => hj q k (he ▸ hr)
        simpa [hne] using h.used q k j' hr
    · intro q hq
      rw [hstate] at hq
      by_cases hqp : q = p
      · subst hqp
        have hnew : (s.addVma q i j v).slot q i = some v := by rw [hslot, if_pos ⟨rfl, rfl⟩]
        rw [proc_addVma, har.minVma_eq hnew]
        intro k w hw
        rw [hslot] at hw
        split_ifs at hw
        · cases hw
          exact le_rfl
        · exact (Nat.le_add_right _ _).trans (hlow k w hw)
      · rw [proc_addVma_of_ne hqp, minVma_congr fun k => ?_]
        · exact h.next q hq
        · rw [hslot, if_neg fun hc => hqp hc.1]
  refine ⟨?_, ?_, ?_, ?_, ?_⟩
  · intro q k hk
    rw [hvmas, if_neg (by omega)]
    exact h.slots q k hk
  · intro q hq k
    rw [hstate] at hq
    rw [hvmas, if_neg]
    · exact h.vacant q hq k
    · rintro ⟨rfl, -⟩
      exact hp hq
  · intro q k q' k' j' hr hr'
    rw [hvmas] at hr hr'
    split_ifs at hr hr' with hc hc' hc'
    · exact ⟨hc.1.trans hc'.1.symm, hc.2.trans hc'.2.symm⟩
    · cases hr
      exact absurd hr' (hj q' k')
    · cases hr'
      exact absurd hr (hj q k)
    · exact h.distinct q k q' k' j' hr hr'
  · intro q k w hw
    rw [hslot] at hw
    split_ifs at hw with hc
    · cases hw
      exact hplaced
    · exact h.placed q k w hw
  · intro q k k' w w' hk hw hw'
    rw [hslot] at hw hw'
    split_ifs at hw hw' with hc hc' hc'
    · exact absurd (hc.2.trans hc'.2.symm) hk
    · cases hw
      left
      exact hlow k' w' (hc.1 ▸ hw')
    · cases hw'
      right
      exact hlow k w (hc'.1 ▸ hw)
    · exact h.disjoint q k k' w w' hk hw hw'

theorem mapped (h : s.Layout) {length : ℤ} (hp : (s.proc p).state ≠ .unused)
    (hroom : s.Roomy p 0 length) (hm : Mapped p length s s') : s'.Layout := by
  obtain ⟨i, j, v, hi, hnone, hj, hused, rfl, h0, haddr, rfl⟩ := hm
  have hn := h.next p hp
  obtain ⟨hplaced, hstop⟩ := Vma.Placed.of_lower (hn ▸ h.minVma_aligned)
    (hn ▸ minVma_le_trapframe) h0 hroom.1 ((Nat.zero_add _).symm.le.trans hroom.2) haddr
  exact h.addVma hp hi hnone (h.unreferenced hj) hused hplaced hstop

end Kernel.Layout

section Munmap

variable {bound p addr i j : ℕ} {size off : ℤ} {v : Vma} {complete : Bool} {s s1 s2 s' : Kernel}

/-- What `deallocvma` leaves of regions and slots. -/
theorem Deallocated.regions (hd : Deallocated bound p addr size i j v complete off s s1 s2 s')
    (hsp : s.Special p) :
    s'.vmas = update s.vmas j { v with offset := off } ∧
      ∀ q, ∃ c o, s'.proc q = { s.proc q with
        killed := c
        ofile := o
        nmp := if q = p then s'.minVma p else (s.proc q).nmp
        vmas := fun k => if q = p ∧ k = i ∧ complete = true then none else (s.proc q).vmas k } := by
  have hl : Local p (s.setVma j v) s1 := unmapRange_local hsp hd.range
  have hvmas : s1.vmas = update s.vmas j v := hl.vmas
  have hproc : ∀ q, ∃ c, s1.proc q = { s.proc q with killed := c } := hl.procs
  have h2 : s2.vmas = update s.vmas j { v with offset := off } ∧
      ∀ q, ∃ c o, s2.proc q = { s.proc q with
        killed := c
        ofile := o
        vmas := fun k => if q = p ∧ k = i ∧ complete = true then none else (s.proc q).vmas k } := by
    cases complete with
    | true =>
      obtain ⟨-, hv2, o, hp2⟩ := dropSlot_regions (hd.dropped rfl)
      refine ⟨by simp [hv2, Kernel.setVma, hvmas], fun q => ?_⟩
      obtain ⟨c, hc⟩ := hproc q
      rw [hp2]
      by_cases hq : q = p
      · subst hq
        refine ⟨c, o, ?_⟩
        simp only [Kernel.setVma, hc, update_self, true_and, and_true]
        congr 1
        funext k
        rw [update_apply]
      · exact ⟨c, (s.proc q).ofile, by simp [Kernel.setVma, hc, hq]⟩
    | false =>
      rw [hd.kept rfl]
      refine ⟨by simp [Kernel.setVma, hvmas], fun q => ?_⟩
      obtain ⟨c, hc⟩ := hproc q
      exact ⟨c, (s.proc q).ofile, by simp [Kernel.setVma, hc]⟩
  have hmin : s'.minVma p = s2.minVma p := by
    apply Kernel.minVma_congr
    intro k
    simp [hd.result, Kernel.slot, Kernel.setProc]
  refine ⟨by simp [hd.result, Kernel.setProc, h2.1], fun q => ?_⟩
  obtain ⟨c, o, hq⟩ := h2.2 q
  refine ⟨c, o, ?_⟩
  rw [hmin, hd.result]
  by_cases hqp : q = p
  · subst hqp
    simp [Kernel.setProc, hq]
  · simp [Kernel.setProc, hqp, hq]

theorem Vma.cut_used {v0 : Vma} (h : v0.cut addr size = some (v, complete, off))
    (hc : complete = false) : v.used = v0.used := by
  unfold Vma.cut at h
  split_ifs at h <;> cases h
  · cases hc
  · rfl
  · rfl

theorem Kernel.Layout.deallocvma (h : s.Layout) {b : Bool} (hsp : s.Special p)
    (hsize : 0 ≤ size ∧ size < 2 ^ 31) (hr : s.Ranges p addr size)
    (hx : deallocvma bound p addr size s = .ok b s') : s'.Layout := by
  have hacts : Acts True p s s' := deallocvma_ok hsp hsize hr (.inl trivial) hx
  have har := h.toArranged.acts hacts
  rcases deallocvma_cases hx with ⟨rfl, -⟩ | ⟨i, j, v, complete, off, s1, s2, hd⟩
  · exact h
  obtain ⟨hvmas, hproc⟩ := hd.regions hsp
  have hrefs : ∀ q k j', (s'.proc q).vmas k = some j' →
      (s.proc q).vmas k = some j' ∧ ¬(q = p ∧ k = i ∧ complete = true) := by
    intro q k j' hr
    obtain ⟨c, o, hq⟩ := hproc q
    simp only [hq] at hr
    split_ifs at hr with hc
    exact ⟨hr, hc⟩
  refine ⟨har, fun q k j' hr => ?_, fun q hq => ?_⟩
  · obtain ⟨hr0, hnot⟩ := hrefs q k j' hr
    have hu := h.used q k j' hr0
    rw [hvmas]
    by_cases hjj : j' = j
    · subst hjj
      obtain ⟨rfl, rfl⟩ := h.distinct q k p i j' hr0 hd.slot
      have hc : complete = false := by simpa using hnot
      simpa [Vma.cut_used hd.cut hc] using hu
    · simpa [hjj] using hu
  · obtain ⟨c, o, hq2⟩ := hproc q
    by_cases hqp : q = p
    · rw [hq2, hqp]
      exact if_pos rfl
    · have hq' : s'.proc q = { s.proc q with killed := c, ofile := o } := by simp [hq2, hqp]
      rw [hq'] at hq ⊢
      rw [minVma_congr fun k => ?_]
      · exact h.next q hq
      have hvq : (s'.proc q).vmas = (s.proc q).vmas := by rw [hq']
      cases hr : (s.proc q).vmas k with
      | none => simp [slot, hvq, hr]
      | some j' =>
        have hne : j' ≠ j := by
          rintro rfl
          exact hqp (h.distinct q k p i j' hr hd.slot).1
        have hv : s'.vmas j' = s.vmas j' := by simp [hvmas, hne]
        simp [slot, hvq, hr, hv]

theorem Kernel.Layout.munmap (h : s.Layout) {b : Bool} (hsp : s.Special p)
    (hsize : size < 2 ^ 31) (hx : sysMunmap bound p addr size s = .ok b s') : s'.Layout := by
  rcases sysMunmap_cases hx with rfl | ⟨hpos, haddr, hpages, hx⟩
  · exact h
  · exact h.deallocvma hsp ⟨hpos.le, hsize⟩ (.inl ⟨haddr, hpages⟩) hx

theorem Kernel.Layout.exit {u : PUnit} (h : s.Layout) (hp : (s.proc p).state ≠ .unused)
    (hsp : s.Special p) (hx : exit bound p s = .ok u s') : s'.Layout := by
  let I : ℕ → Kernel → Prop := fun _ t => t.Layout ∧ t.Special p ∧ (t.proc p).state ≠ .unused
  have hend := exit_induction (I := I) (J := I) ⟨h, hsp, hp⟩ (fun _ _ ih _ => ih) ?_ ?_
    (fun _ _ _ ih _ => ih) ?_ hx
  · obtain ⟨t, ⟨hlay, -, hstate⟩, rfl⟩ := hend
    exact (hlay.setProc (by simp [hstate]) rfl rfl).1
  · intro fd f file t ih _ _
    refine ⟨ih.1.of_unmoved (.andThen (.setFile f file) (.setOfile fd none)), ih.2.1, ?_⟩
    simpa [Kernel.setProc, Kernel.setFile] using ih.2.2
  · intro t _ t' ih _ _ hc
    have hu := hc.toLocal.unmoved
    exact ⟨ih.1.of_unmoved hu, hc.special ih.2.1, by rw [hu.state]; exact ih.2.2⟩
  · intro i v b t t' _ ih hv hde
    have hfits := (ih.1.placed p i v hv).fits
    have hr : t.Ranges p v.addr v.size := .inr ⟨i, v, hv, rfl, rfl⟩
    have hacts : Acts True p t t' := deallocvma_ok ih.2.1 hfits.2 hr (.inl trivial) hde
    exact ⟨ih.1.deallocvma ih.2.1 hfits.2 hr hde, hacts.special ih.2.1, hacts.state ih.2.2⟩

end Munmap

end Xv6.Vm
