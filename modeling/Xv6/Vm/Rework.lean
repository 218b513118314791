import Xv6.Vm.Spawn
import Xv6.Vm.System

/-!
# Work on one page table

What the functions of `vm.c` and `exec` do to the state, as far as page tables and
processes go: pages come and go, one page table changes, all else stays. For the page
table that changes, the translations are given exactly.
-/
namespace Xv6.Vm

open Library Function Kernel

def Kernel.Shallow (s : Kernel) (t : ℕ) : Prop :=
  ∀ pt, s.table t = some pt → ∀ i, 512 ≤ i → pt.dir i = none

/-- Pages were handed out and returned, and page table `t` may have changed. -/
structure Reworked (t : ℕ) (s s' : Kernel) : Prop where
  frame : ∃ fl rf mm fa tb, s' = { s with
    freelist := fl, ref := rf, mem := mm, faulted := fa, table := update s.table t tb }
  shallow : s.Shallow t → s'.Shallow t

namespace Reworked

variable {t : ℕ} {s s1 s' : Kernel}

theorem refl (s : Kernel) : Reworked t s s where
  frame := ⟨s.freelist, s.ref, s.mem, s.faulted, s.table t, by simp⟩
  shallow h := h

theorem andThen (h : Reworked t s s1) (h' : Reworked t s1 s') : Reworked t s s' where
  frame := by
    obtain ⟨_, _, _, _, _, rfl⟩ := h.frame
    obtain ⟨fl, rf, mm, fa, tb, rfl⟩ := h'.frame
    exact ⟨fl, rf, mm, fa, tb, by simp⟩
  shallow hs := h'.shallow (h.shallow hs)

section

variable (h : Reworked t s s')
include h

theorem proc : s'.proc = s.proc := by
  obtain ⟨_, _, _, _, _, rfl⟩ := h.frame
  rfl

theorem vmas : s'.vmas = s.vmas := by
  obtain ⟨_, _, _, _, _, rfl⟩ := h.frame
  rfl

theorem file : s'.file = s.file := by
  obtain ⟨_, _, _, _, _, rfl⟩ := h.frame
  rfl

theorem table {q : ℕ} (hq : q ≠ t) : s'.table q = s.table q := by
  obtain ⟨_, _, _, _, _, rfl⟩ := h.frame
  simp [hq]

theorem trans_of_ne {q : ℕ} (hq : q ≠ t) (v : ℕ) : s'.trans q v = s.trans q v := by
  simp [Kernel.trans, h.table hq]

end

theorem setPage (pa : ℕ) (bytes : Bytes) : Reworked t s (s.setPage pa bytes) where
  frame := ⟨s.freelist, s.ref, update s.mem pa bytes, s.faulted, s.table t,
    by simp [Kernel.setPage]⟩
  shallow h := h

theorem setTable {o : Option PageTable}
    (ho : s.Shallow t → ∀ pt, o = some pt → ∀ i, 512 ≤ i → pt.dir i = none) :
    Reworked t s (s.setTable t o) where
  frame := ⟨s.freelist, s.ref, s.mem, s.faulted, o, rfl⟩
  shallow hs := by
    intro pt hpt
    apply ho hs pt
    simpa [Kernel.setTable] using hpt

theorem map {f : PageTable → PageTable} (hf : ∀ pt i, 512 ≤ i → pt.dir i = none →
    (f pt).dir i = none) :
    Reworked t s (s.setTable t ((s.table t).map f)) := by
  apply setTable
  intro hs pt hpt i hi
  obtain ⟨pt0, h0, rfl⟩ := Option.map_eq_some_iff.mp hpt
  exact hf pt0 i hi (hs pt0 h0 i hi)

theorem withPte {v : ℕ} {pte : Pte} : Reworked t s (s.withPte t v pte) :=
  map fun _ _ _ h => h

end Reworked

section Pages

variable {t va pa : ℕ} {s s' : Kernel} {b : Bool} {u : PUnit} {perm : Perm}

theorem kalloc_reworked {r : Option ℕ} (hx : kalloc s = .ok r s') : Reworked t s s' := by
  unfold kalloc at hx
  rw [get_run] at hx
  cases hf : s.freelist with
  | nil =>
    simp only [hf, pure_ok] at hx
    obtain ⟨-, rfl⟩ := hx
    exact Reworked.refl s
  | cons pa rest =>
    simp only [hf, bind_ok, set_ok, pure_ok] at hx
    obtain ⟨_, _, rfl, -, rfl⟩ := hx
    exact ⟨⟨rest, update s.ref pa 1, update s.mem pa fun _ => 5,
      s.faulted.erase pa, s.table t, by simp [allocated]⟩, fun h => h⟩

theorem kfree_reworked (hx : kfree pa s = .ok u s') : Reworked t s s' := by
  obtain ⟨-, rfl⟩ := kfree_ok hx
  exact ⟨⟨pa :: s.freelist, s.ref, _, s.faulted, s.table t, by simp [freed]; rfl⟩, fun h => h⟩

theorem walk_reworked (hx : walk t va s = .ok b s') : Reworked t s s' := by
  obtain ⟨pt, new, -, -, hnew, -⟩ := walk_cases hx
  clear hx
  induction hnew with
  | refl s => exact .refl s
  | attach hf hs ha _ ih =>
    refine (kalloc_reworked (kalloc_cons hf)).andThen (.andThen (.setTable ?_) ih)
    rintro hshallow _ ⟨⟩ i hi
    exact ha.dir i hi (hshallow _ hs i hi)

/-- `mappages` maps a page that was not mapped, or runs out of table pages. -/
theorem mappages_spec (hx : mappages t va pa perm s = .ok b s') :
    Reworked t s s' ∧ va < maxVa ∧ (b = true → s.trans t (va / pgSize) = none) ∧
      ∀ v, s'.trans t v =
        if b = true ∧ v = va / pgSize then some ⟨true, perm, pa⟩ else s.trans t v := by
  obtain ⟨s1, hwalk, hcase⟩ := mappages_walk hx
  have h1 : Reworked t s s1 := walk_reworked hwalk
  obtain ⟨hq, -, hva, -⟩ := walk_ok hwalk
  rcases hcase with ⟨rfl, rfl⟩ | ⟨rfl, hl, hn, rfl⟩
  · exact ⟨h1, hva, by simp, by simp [hq.trans]⟩
  · refine ⟨h1.andThen Reworked.withPte, hva, fun _ => by rw [← hq.trans, hn], fun v => ?_⟩
    rw [trans_withPte hl, hq.trans]
    simp

theorem uvmunmapPage_spec {doFree : Bool} (hx : uvmunmapPage t va doFree s = .ok u s') :
    Reworked t s s' ∧ va < maxVa ∧
      ∀ v, s'.trans t v = if v = va / pgSize then none else s.trans t v := by
  have htrans : ∀ {x : Kernel} {pte}, s.trans t (va / pgSize) = some pte → x.table = s.table →
      ∀ v, (x.withPte t (va / pgSize) .zero).trans t v =
        if v = va / pgSize then none else s.trans t v := by
    intro x pte ht hsame v
    have hx : ∀ v, x.trans t v = s.trans t v := fun v => by rw [Kernel.trans, hsame, Kernel.trans]
    rw [trans_withPte (lookup_isSome_of_trans ((hx _).trans ht)), hx]
    by_cases hv : v = va / pgSize <;> simp [hv, Pte.zero]
  obtain ⟨hva, ⟨hn, rfl⟩ | ⟨pte, ht, ⟨-, -, rfl⟩ | ⟨-, rfl⟩⟩⟩ := uvmunmapPage_cases hx
  · refine ⟨Reworked.refl _, hva, fun v => ?_⟩
    by_cases hv : v = va / pgSize <;> simp [hv, hn]
  · have hfree : Reworked t s (s.freed pte.ppn) :=
      ⟨⟨_, s.ref, _, s.faulted, s.table t, by simp [freed]; exact ⟨rfl, rfl⟩⟩, fun h => h⟩
    exact ⟨hfree.andThen Reworked.withPte, hva, htrans ht rfl⟩
  · exact ⟨Reworked.withPte, hva, htrans ht rfl⟩

/-- `uvmunmap` removes the leaves of a range of pages. -/
theorem uvmunmap_spec {n : ℕ} {doFree : Bool} (hx : uvmunmap t va n doFree s = .ok u s') :
    Reworked t s s' ∧ ∀ v, s'.trans t v =
      if va / pgSize ≤ v ∧ v < va / pgSize + n then none else s.trans t v := by
  unfold uvmunmap at hx
  obtain ⟨-, hx⟩ := throw_ite_ok hx
  have hinv := loop_ok (I := fun k x => Reworked t s x ∧ ∀ v, x.trans t v =
    if va / pgSize ≤ v ∧ v < va / pgSize + k then none else s.trans t v) hx
    ⟨Reworked.refl s, fun v => by rw [if_neg (by omega)]⟩ ?_
  · rwa [Nat.zero_add] at hinv
  intro k x x' _ _ ih hpage
  obtain ⟨hr, -, ht⟩ := uvmunmapPage_spec hpage
  refine ⟨ih.1.andThen hr, fun v => ?_⟩
  rw [Nat.add_mul_div_right _ _ (by decide)] at ht
  rw [ht, ih.2]
  by_cases hv : v = va / pgSize + k
  · rw [if_pos hv, if_pos (by omega)]
  · rw [if_neg hv]
    by_cases hin : va / pgSize ≤ v ∧ v < va / pgSize + k
    · rw [if_pos hin, if_pos (by omega)]
    · rw [if_neg hin, if_neg (by omega)]

end Pages

section Free

variable {t k sz : ℕ} {s s' : Kernel} {b : Bool} {u : PUnit}

theorem freewalkTab_reworked (hx : freewalkTab t k s = .ok u s') : Reworked t s s' := by
  unfold freewalkTab at hx
  rw [get_run] at hx
  cases hk : (s.table t).bind (·.tab k) with
  | none =>
    simp only [hk, pure_ok] at hx
    obtain ⟨-, rfl⟩ := hx
    exact Reworked.refl s
  | some pa =>
    simp only [hk, bind_ok, modify_ok] at hx
    obtain ⟨_, s1, hloop, _, s2, hfree, rfl⟩ := hx
    obtain ⟨rfl, -⟩ := freewalkEntries_ok hloop
    have hfreed : Reworked t s1 s2 := kfree_reworked hfree
    exact hfreed.andThen (Reworked.map fun _ _ _ h => h)

theorem freewalkDir_reworked (hx : freewalkDir t k s = .ok u s') : Reworked t s s' := by
  unfold freewalkDir at hx
  rw [get_run] at hx
  cases hk : (s.table t).bind (·.dir k) with
  | none =>
    simp only [hk, pure_ok] at hx
    obtain ⟨-, rfl⟩ := hx
    exact Reworked.refl s
  | some pa =>
    simp only [hk, bind_ok, modify_ok] at hx
    obtain ⟨_, s1, hloop, _, s2, hfree, rfl⟩ := hx
    have h1 : Reworked t s s1 := loop_ok (I := fun _ x => Reworked t s x) hloop (Reworked.refl s)
      fun _ _ _ _ _ ih hbody => ih.andThen (freewalkTab_reworked hbody)
    apply (h1.andThen (kfree_reworked hfree)).andThen
    apply Reworked.map
    intro pt i _ hnone
    by_cases hik : i = k
    · simp [PageTable.dropDir, hik]
    · simpa [PageTable.dropDir, hik] using hnone

theorem freewalk_spec (hx : freewalk t s = .ok u s') : Reworked t s s' ∧ s'.table t = none := by
  unfold freewalk at hx
  rw [get_run] at hx
  cases hs : s.table t with
  | none => simp [hs] at hx
  | some pt =>
    simp only [hs, bind_ok, modify_ok] at hx
    obtain ⟨_, s1, hloop, _, s2, hfree, rfl⟩ := hx
    have h1 : Reworked t s s1 := loop_ok (I := fun _ x => Reworked t s x) hloop (Reworked.refl s)
      fun _ _ _ _ _ ih hbody => ih.andThen (freewalkDir_reworked hbody)
    refine ⟨(h1.andThen (kfree_reworked hfree)).andThen (Reworked.setTable ?_), ?_⟩
    · intro _ pt' hpt'
      cases hpt'
    · simp [setTable]

theorem uvmfree_spec (hx : uvmfree t sz s = .ok u s') : Reworked t s s' ∧ s'.table t = none := by
  unfold uvmfree at hx
  by_cases hsz : sz > 0
  · rw [if_pos hsz] at hx
    obtain ⟨_, s1, hun, hx⟩ := bind_ok.mp hx
    obtain ⟨h2, hnone⟩ := freewalk_spec hx
    exact ⟨(uvmunmap_spec hun).1.andThen h2, hnone⟩
  · rw [if_neg hsz] at hx
    exact freewalk_spec (by simpa using hx)

theorem procFreepagetable_spec (hx : procFreepagetable t sz s = .ok u s') :
    Reworked t s s' ∧ s'.table t = none := by
  unfold procFreepagetable at hx
  obtain ⟨_, s1, h1, hx⟩ := bind_ok.mp hx
  obtain ⟨_, s2, h2, hx⟩ := bind_ok.mp hx
  obtain ⟨h3, hnone⟩ := uvmfree_spec hx
  exact ⟨((uvmunmap_spec h1).1.andThen (uvmunmap_spec h2).1).andThen h3, hnone⟩

theorem uvmcreate_spec (hn : s.table t = none) (hx : uvmcreate t s = .ok b s') :
    Reworked t s s' ∧ (b = false → s'.table t = none) ∧
      (b = true → (s'.table t).isSome ∧ ∀ v, s'.trans t v = none) := by
  obtain ⟨rfl, rfl⟩ | ⟨rfl, pa, rest, hf, rfl⟩ := uvmcreate_cases hx
  · exact ⟨.refl _, fun _ => hn, by simp⟩
  · refine ⟨(kalloc_reworked (kalloc_cons hf)).andThen (Reworked.setTable ?_), by simp,
      fun _ => ⟨by simp [setTable], fun v => ?_⟩⟩
    · rintro _ _ ⟨⟩ i _
      rfl
    · simp [Kernel.trans, setTable, PageTable.trans, PageTable.lookup]

end Free

section Alloc

variable {t a k start oldsz newsz n sz : ℕ} {s s' : Kernel} {b : Bool} {u : PUnit} {perm : Perm}

/-- Pages `v` to `v + n` are new in page table `t`. -/
structure Extended (t : ℕ) (perm : Perm) (v n : ℕ) (s s' : Kernel) : Prop where
  fresh : ∀ w, v ≤ w → w < v + n → w < maxVa / pgSize ∧ s.trans t w = none ∧
    ∃ pa, s'.trans t w = some ⟨true, perm, pa⟩
  old : ∀ w, ¬(v ≤ w ∧ w < v + n) → s'.trans t w = s.trans t w

theorem pgRoundUp64_eq (h : n ≤ maxVa) : pgRoundUp64 n = pgRoundUp n := by
  have hu : u64 ((n + pgSize - 1 : ℕ) : ℤ) = n + pgSize - 1 := by
    unfold u64 maxVa pgSize at *
    omega
  rw [pgRoundUp64, hu, pgRoundUp]

theorem pgRoundUp64_of_aligned (ha : n % pgSize = 0) (h : n < 2 ^ 64) : pgRoundUp64 n = n := by
  have hu : u64 ((n + pgSize - 1 : ℕ) : ℤ) = n + pgSize - 1 := by
    unfold u64 pgSize at *
    omega
  rw [pgRoundUp64, hu]
  unfold pgSize at *
  omega

theorem pgRoundUp_div_le_trapVpn (h : n ≤ Xv6.trapframe) : pgRoundUp n / pgSize ≤ trapVpn := by
  have htf : Xv6.trapframe = trapVpn * 4096 := by decide
  unfold pgRoundUp pgSize
  omega

theorem pgRoundUp_div_mono (h : n ≤ k) : pgRoundUp n / pgSize ≤ pgRoundUp k / pgSize := by
  unfold pgRoundUp pgSize
  omega

/-- The number of pages in `int` arithmetic. -/
theorem pages_int (h : k ≤ maxVa) :
    u64 (i32 (((pgRoundUp k - pgRoundUp n) / pgSize : ℕ) : ℤ)) =
      pgRoundUp k / pgSize - pgRoundUp n / pgSize := by
  have hdiff : (pgRoundUp k - pgRoundUp n) / pgSize =
    pgRoundUp k / pgSize - pgRoundUp n / pgSize := by
    unfold pgRoundUp pgSize
    omega
  have hsmall : pgRoundUp k / pgSize - pgRoundUp n / pgSize < 2 ^ 31 := by
    have hmax : maxVa < 2 ^ 39 := by decide
    unfold pgRoundUp pgSize
    omega
  rw [hdiff]
  generalize pgRoundUp k / pgSize - pgRoundUp n / pgSize = x at hsmall
  unfold u64 i32
  omega

/-- `uvmdealloc` removes the pages between the two sizes. -/
theorem uvmdealloc_spec {r : ℕ} (hold : oldsz ≤ maxVa)
    (hx : uvmdealloc t oldsz newsz s = .ok r s') :
    Reworked t s s' ∧ r = min newsz oldsz ∧ ∀ v, s'.trans t v =
      if pgRoundUp newsz / pgSize ≤ v ∧ v < pgRoundUp oldsz / pgSize then none
      else s.trans t v := by
  unfold uvmdealloc at hx
  rcases pure_ite_ok hx with ⟨hge, rfl, rfl⟩ | ⟨hlt, hx⟩
  · have hmono := pgRoundUp_div_mono hge
    refine ⟨Reworked.refl s, (Nat.min_eq_right hge).symm, fun v => ?_⟩
    rw [if_neg (by omega)]
  have hle : newsz ≤ oldsz := Nat.le_of_not_le hlt
  have hmin : newsz = min newsz oldsz := (Nat.min_eq_left hle).symm
  rw [pgRoundUp64_eq hold, pgRoundUp64_eq (hle.trans hold)] at hx
  by_cases hpos : pgRoundUp newsz < pgRoundUp oldsz
  · rw [if_pos hpos, pages_int hold] at hx
    obtain ⟨_, s1, hun, hx⟩ := bind_ok.mp hx
    obtain ⟨rfl, rfl⟩ := pure_ok.mp hx
    obtain ⟨h1, ht⟩ := uvmunmap_spec hun
    refine ⟨h1, hmin, fun v => ?_⟩
    rw [ht, Nat.add_sub_cancel' (pgRoundUp_div_mono hle)]
  · rw [if_neg hpos] at hx
    obtain ⟨rfl, rfl⟩ := pure_ok.mp hx
    refine ⟨Reworked.refl s, hmin, fun v => ?_⟩
    have hback := Nat.div_le_div_right (c := pgSize) (Nat.le_of_not_lt hpos)
    rw [if_neg (by omega)]

/-- On failure, the pages mapped so far are removed again. -/
theorem uvmallocLoop_spec (hstart : start % pgSize = 0) (hmod : a % pgSize = 0) (hle : start ≤ a)
    (hbound : a = start ∨ a ≤ maxVa) (hx : uvmallocLoop t start perm k a s = .ok b s') :
    Reworked t s s' ∧ (b = true → Extended t perm (a / pgSize) k s s') ∧
      (b = false → ∀ v, s'.trans t v =
        if start / pgSize ≤ v ∧ v < a / pgSize then none else s.trans t v) := by
  induction k generalizing s a with
  | zero =>
    obtain ⟨rfl, rfl⟩ := pure_ok.mp hx
    refine ⟨Reworked.refl s, fun _ => ⟨fun w _ _ => by omega, fun _ _ => rfl⟩, by simp⟩
  | succ k ih =>
    have hpg : pgSize = 4096 := rfl
    have hundo : ∀ x x' : Kernel, ∀ r, uvmdealloc t a start x = .ok r x' →
        Reworked t x x' ∧ ∀ v, x'.trans t v =
          if start / pgSize ≤ v ∧ v < a / pgSize then none else x.trans t v := by
      intro x x' r hd
      rcases hbound with rfl | hbound
      · unfold uvmdealloc at hd
        rw [if_pos le_rfl] at hd
        obtain ⟨rfl, rfl⟩ := pure_ok.mp hd
        refine ⟨Reworked.refl x, fun v => ?_⟩
        rw [if_neg (by omega)]
      · obtain ⟨h1, -, h2⟩ := uvmdealloc_spec hbound hd
        have hlt : a < 2 ^ 64 := hbound.trans_lt (by decide)
        rw [← pgRoundUp64_eq hbound, ← pgRoundUp64_eq (hle.trans hbound),
          pgRoundUp64_of_aligned hmod hlt,
          pgRoundUp64_of_aligned hstart (hle.trans_lt hlt)] at h2
        exact ⟨h1, h2⟩
    unfold uvmallocLoop at hx
    obtain ⟨o, s1, hk, hx⟩ := bind_ok.mp hx
    have h1 : Reworked t s s1 := kalloc_reworked hk
    cases o with
    | none =>
      simp only [bind_ok, pure_ok] at hx
      obtain ⟨_, _, hd, rfl, rfl⟩ := hx
      obtain ⟨h2, ht⟩ := hundo _ _ _ hd
      rw [kalloc_none hk] at ht
      exact ⟨h1.andThen h2, by simp, fun _ => ht⟩
    | some mem =>
      have htab : s1.table = s.table := (kalloc_some hk).2.2
      have htrans1 : ∀ v, s1.trans t v = s.trans t v := fun v => by simp [Kernel.trans, htab]
      simp only [bind_ok, modify_ok] at hx
      obtain ⟨_, s2, rfl, b1, s3, hmap, hx⟩ := hx
      obtain ⟨h3, hva, hwas, ht3⟩ := mappages_spec hmap
      have hframe : Reworked t s s3 := (h1.andThen (Reworked.setPage mem _)).andThen h3
      have ht3' : ∀ v, s3.trans t v =
          if b1 = true ∧ v = a / pgSize then some ⟨true, perm, mem⟩ else s.trans t v := by
        intro v
        rw [ht3, ← htrans1]
        rfl
      have hwas' : b1 = true → s.trans t (a / pgSize) = none := by
        intro hb1
        rw [← htrans1]
        exact hwas hb1
      cases b1 with
      | true =>
        have hnext : (a + pgSize) / pgSize = a / pgSize + 1 := Nat.add_div_right a (by decide)
        have hroom : a + pgSize ≤ maxVa := by
          have hmv : maxVa % 4096 = 0 := by decide
          rw [hpg] at hmod ⊢
          omega
        obtain ⟨h4, hok, hfail⟩ := ih (by rw [Nat.add_mod_right, hmod]) (by omega) (.inr hroom) hx
        rw [hnext] at hok hfail
        refine ⟨hframe.andThen h4, fun hb => ⟨fun w hw hw' => ?_, fun w hw => ?_⟩, fun hb v => ?_⟩
        · by_cases hwa : w = a / pgSize
          · refine ⟨hwa ▸ div_lt_of_lt hva, hwa ▸ hwas' rfl, mem, ?_⟩
            rw [(hok hb).old w (by omega), ht3', if_pos ⟨rfl, hwa⟩]
          · obtain ⟨hlt, hnone, hnew⟩ := (hok hb).fresh w (by omega) (by omega)
            rw [ht3', if_neg (by simp [hwa])] at hnone
            exact ⟨hlt, hnone, hnew⟩
        · rw [(hok hb).old w (by omega), ht3', if_neg (by intro hc; omega)]
        · rw [hfail hb, ht3']
          by_cases hva' : v = a / pgSize
          · have hdiv : start / pgSize ≤ a / pgSize := Nat.div_le_div_right hle
            rw [if_pos (by omega), if_neg (by omega), hva', hwas' rfl]
          · rw [if_neg (by simp [hva'] : ¬(true = true ∧ v = a / pgSize))]
            by_cases hin : start / pgSize ≤ v ∧ v < a / pgSize
            · rw [if_pos hin, if_pos (by omega)]
            · rw [if_neg hin, if_neg (by omega)]
      | false =>
        simp only [Bool.false_eq_true, if_false, bind_ok, pure_ok] at hx
        obtain ⟨_, s4, hfree, _, s5, hd, rfl, rfl⟩ := hx
        have hfreed : Reworked t s3 s4 := kfree_reworked hfree
        have htab4 : s4.table = s3.table := by
          obtain ⟨-, rfl⟩ := kfree_ok hfree
          rfl
        obtain ⟨h5, ht5⟩ := hundo _ _ _ hd
        refine ⟨(hframe.andThen hfreed).andThen h5, by simp, fun _ v => ?_⟩
        have ht4 : s4.trans t v = s.trans t v := by
          rw [Kernel.trans, htab4, ← Kernel.trans, ht3', if_neg (by simp)]
        rw [ht5, ht4]

def pagesTo (oldsz newsz : ℕ) : ℕ := (newsz - pgRoundUp64 oldsz + pgSize - 1) / pgSize

/-- `uvmalloc` maps the pages up to the new size, or none. -/
theorem uvmalloc_spec {r : ℕ} (hx : uvmalloc t oldsz newsz perm s = .ok r s') :
    Reworked t s s' ∧
      ((newsz < oldsz ∧ r = oldsz ∧ s' = s) ∨
        (oldsz ≤ newsz ∧ r = newsz ∧
          Extended t perm (pgRoundUp64 oldsz / pgSize) (pagesTo oldsz newsz) s s') ∨
        (oldsz ≤ newsz ∧ r = 0 ∧ ∀ v, s'.trans t v = s.trans t v)) := by
  unfold uvmalloc at hx
  rcases pure_ite_ok hx with ⟨hlt, rfl, rfl⟩ | ⟨hge, hx⟩
  · exact ⟨Reworked.refl s, .inl ⟨hlt, rfl, rfl⟩⟩
  obtain ⟨b, s1, hloop, hx⟩ := bind_ok.mp hx
  have hal := pgRoundUp64_mod oldsz
  obtain ⟨h1, hok, hfail⟩ := uvmallocLoop_spec hal hal le_rfl (.inl rfl) hloop
  rcases pure_ite_ok hx with ⟨hb, rfl, rfl⟩ | ⟨hb, hx⟩
  · exact ⟨h1, .inr (.inl ⟨by omega, rfl, hok hb⟩)⟩
  · obtain ⟨rfl, rfl⟩ := pure_ok.mp hx
    refine ⟨h1, .inr (.inr ⟨by omega, rfl, fun v => ?_⟩)⟩
    rw [hfail (by simpa using hb), if_neg (by omega)]

end Alloc

end Xv6.Vm
