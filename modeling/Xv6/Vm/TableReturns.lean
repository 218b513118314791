import Xv6.Vm.Lending
import Xv6.Vm.Teardown

/-!
# Work on a page table that cannot fail

Building and taking down a page table returns when the addresses are in order: a page that
is freed lies in memory and has the count one, an entry that is made was not valid, and a
page table that is given up has no leaf left. The accounts of `Lending` provide the counts.
-/
namespace Xv6.Vm

open Library List Option

def Kernel.Stocks (s : Kernel) (pool : ℕ → Prop) : Prop := ∀ pa, pool pa → s.InRange pa

/-- Every entry has some permission, as `uvmunmap` requires of a leaf. -/
def Kernel.Leaves (s : Kernel) (t : ℕ) : Prop :=
  ∀ v pte, s.trans t v = some pte → pte.perm ≠ ⟨false, false, false, false⟩

section Present

variable {t va pa i k a start n : ℕ} {perm : Perm} {doFree : Bool}

def Kernel.Has (t : ℕ) (s : Kernel) : Prop := (s.table t).isSome

abbrev Preserves {α : Type} (t : ℕ) (x : KernelM α) : Prop :=
  Triple (Kernel.Has t) x (fun _ => Kernel.Has t) fun _ _ => True

theorem Kernel.Has.map {s : Kernel} {f : PageTable → PageTable} (h : s.Has t) :
    (s.setTable t ((s.table t).map f)).Has t := by
  simpa [Kernel.Has, Kernel.setTable] using h

theorem mappages_preserves : Preserves t (mappages t va pa perm) := by
  refine .of_runs fun s b s' hs hx => ?_
  obtain ⟨s1, hwalk, hcase⟩ := mappages_walk hx
  obtain ⟨pt, new, -, -, hnew, -⟩ := walk_cases hwalk
  have h1 : s1.Has t := by
    clear hx hwalk hcase
    induction hnew with
    | refl s => exact hs
    | attach _ _ _ _ ih => exact ih (by simp [Kernel.Has, Kernel.setTable])
  rcases hcase with ⟨-, rfl⟩ | ⟨-, -, -, rfl⟩
  · exact h1
  · exact h1.map

theorem uvmunmapPage_preserves : Preserves t (uvmunmapPage t va doFree) := by
  refine .of_runs fun s u s' hs hx => ?_
  obtain ⟨-, ⟨-, rfl⟩ | ⟨pte, -, ⟨-, -, rfl⟩ | ⟨-, rfl⟩⟩⟩ := uvmunmapPage_cases hx
  · exact hs
  · exact Kernel.Has.map hs
  · exact hs.map

theorem uvmunmap_preserves : Preserves t (uvmunmap t va n doFree) := by
  unfold uvmunmap
  exact .ite (fun _ => .throw fun _ _ => trivial) fun _ =>
    .loop_const (fun _ => uvmunmapPage_preserves) 0 n

end Present

section Pages

variable {t p va pa i k n sz : ℕ} {pool : ℕ → Prop} {s0 s : Kernel} {hand : List ℕ}
  {perm : Perm} {pt : PageTable}

theorem kfree_returns (hr : s.InRange pa) (href : s.ref pa = 1) : Returns (kfree pa) s := by
  unfold kfree
  apply StopsIn.read
  rw [if_pos hr, if_pos href]
  exact stopsIn_set

theorem kalloc_returns : Returns kalloc s := by
  unfold kalloc
  apply StopsIn.read
  cases s.freelist with
  | nil => exact .pure _
  | cons pa rest => exact StopsIn.set (.pure _)

theorem walk_returns (hs : s.table t = some pt) (hva : va < maxVa) : Returns (walk t va) s := by
  obtain ⟨b, new, s', hx, -⟩ := walk_run hs hva
  exact .of_ok hx

theorem mappages_returns (hs : s.table t = some pt) (hva : va < maxVa)
    (hn : s.trans t (va / pgSize) = none) : Returns (mappages t va pa perm) s := by
  unfold mappages
  apply (walk_returns hs hva).bind
  intro b s1 hx
  refine StopsIn.ite (fun _ => ?_) fun _ => .pure _
  apply StopsIn.read
  obtain ⟨hq, -⟩ := walk_ok hx
  rw [hq.trans, hn]
  exact StopsIn.set (.pure _)

theorem uvmcreate_returns : Returns (uvmcreate t) s := by
  unfold uvmcreate
  apply kalloc_returns.bind
  intro o s1 _
  cases o with
  | none => exact .pure _
  | some pa => exact .modify (.pure _)

variable (h : Lent t pool s0 hand s)
include h

theorem Lent.inRange (hpool : s0.Stocks pool) (hpa : pool pa) : s.InRange pa := by
  have hr := hpool pa hpa
  unfold Kernel.InRange at hr ⊢
  rwa [h.kend]

omit h in
theorem Lent.kfree_returns (h : Lent t pool s0 (pa :: hand) s) (hpool : s0.Stocks pool) :
    Returns (kfree pa) s :=
  Vm.kfree_returns (h.inRange hpool (h.loan.taken pa mem_cons_self))
    (h.once pa (.inr mem_cons_self))

theorem Lent.kfree_held {x : Slot} (hpool : s0.Stocks pool)
    (hx : s.held t x = some pa) : Returns (kfree pa) s :=
  Vm.kfree_returns (h.inRange hpool (h.loan.held x pa hx)) (h.once pa (.inl ⟨x, hx⟩))

variable (hpool : s0.Stocks pool)
include hpool

theorem uvmunmapPage_returns {doFree : Bool} (hva : va < maxVa) (hleaf : s.Leaves t)
    (hlow : ∀ pte, s.trans t (va / pgSize) = some pte → doFree = true → va / pgSize < trapVpn) :
    Returns (uvmunmapPage t va doFree) s := by
  unfold uvmunmapPage
  apply StopsIn.read
  rw [if_neg (by omega)]
  cases ht : s.trans t (va / pgSize) with
  | none => exact .pure _
  | some pte =>
    simp only
    rw [if_neg (hleaf _ pte ht)]
    cases doFree with
    | false => exact stopsIn_modify
    | true =>
      have hheld : s.held t (.leaf (va / pgSize)) = some pte.ppn := by
        obtain ⟨pt, hs, htrans⟩ := Option.bind_eq_some_iff.mp ht
        simp [Kernel.held, hs, PageTable.holds, hlow pte ht rfl, htrans]
      exact (h.kfree_held hpool hheld).bind fun _ _ _ => stopsIn_modify

theorem uvmunmap_returns {doFree : Bool}
    (hal : va % pgSize = 0) (hend : va + n * pgSize ≤ maxVa) (hleaf : s.Leaves t)
    (hfree : ∀ v pte, va / pgSize ≤ v → v < va / pgSize + n → v < maxVa / pgSize →
      s.trans t v = some pte → (doFree = true ↔ v < trapVpn)) :
    Returns (uvmunmap t va n doFree) s := by
  unfold uvmunmap
  rw [if_neg (by simpa using hal)]
  have hdiv : ∀ j, (va + j * pgSize) / pgSize = va / pgSize + j := fun j =>
    Nat.add_mul_div_right va j (by decide)
  have hin : ∀ {j}, j < 0 + n → va + j * pgSize < maxVa := by
    intro j hj
    unfold pgSize at hend ⊢
    omega
  refine .loop (I := fun _ x => Lent t pool s0 hand x ∧
    ∀ v pte, x.trans t v = some pte → s.trans t v = some pte) ⟨h, fun _ _ ht => ht⟩ ?_ ?_
  · rintro j x - hj ⟨hl, hsub⟩
    apply uvmunmapPage_returns hl hpool (hin hj) fun v pte ht => hleaf v pte (hsub v pte ht)
    intro pte ht hd
    have hlt := div_lt_of_lt (hin hj)
    rw [hdiv] at ht hlt ⊢
    exact (hfree _ pte (by omega) (by omega) hlt (hsub _ _ ht)).mp hd
  · rintro j x x' - hj ⟨hl, hsub⟩ hpage
    obtain ⟨-, -, htrans⟩ := uvmunmapPage_spec hpage
    refine ⟨uvmunmapPage_lent hl (fun pte ht => ?_) hpage, fun v pte ht => ?_⟩
    · have hlt := div_lt_of_lt (hin hj)
      rw [hdiv] at ht hlt ⊢
      exact hfree _ pte (by omega) (by omega) hlt (hsub _ _ ht)
    · rw [htrans] at ht
      split_ifs at ht
      exact hsub v pte ht

theorem freewalkTab_returns
    (hleaf : s.Leafless t) (hs : s.table t = some pt) (hdir : (pt.dir (parent k)).isSome) :
    Returns (freewalkTab t k) s := by
  unfold freewalkTab
  apply StopsIn.read
  simp only [hs, Option.bind_some]
  cases hk : pt.tab k with
  | none => exact .pure _
  | some pa =>
    refine StopsIn.loop_then (I := fun _ x => x = s) rfl ?_ ?_ ?_
    · rintro j x - - rfl
      unfold freewalkEntry
      apply StopsIn.read
      rw [hleaf]
      exact .pure _
    · rintro j x x' - - rfl hx
      exact (freewalkEntry_ok hx).1
    · rintro x rfl
      have hheld : x.held t (.tab k) = some pa := by
        simp [Kernel.held, hs, PageTable.holds, hdir, hk]
      exact (h.kfree_held hpool hheld).bind fun _ _ _ => stopsIn_modify

theorem freewalkDir_returns
    (hleaf : s.Leafless t) (hs : s.table t = some pt) : Returns (freewalkDir t k) s := by
  unfold freewalkDir
  apply StopsIn.read
  simp only [hs, Option.bind_some]
  cases hk : pt.dir k with
  | none => exact .pure _
  | some pa =>
    have hpar : ∀ {j}, j < 0 + 512 → parent (k * 512 + j) = k := by
      intro j hj
      unfold parent
      omega
    refine .loop_then (I := fun _ x => Lent t pool s0 hand x ∧ x.Leafless t ∧
      ∃ pt', x.table t = some pt' ∧ pt'.dir = pt.dir) ⟨h, hleaf, pt, hs, rfl⟩ ?_ ?_ ?_
    · rintro j x - hj ⟨hl, hleaf', pt', hs', hdir'⟩
      exact freewalkTab_returns hl hpool hleaf' hs' (by rw [hpar hj, hdir', hk]; rfl)
    · rintro j x x' - hj ⟨hl, hleaf', pt', hs', hdir'⟩ hx
      obtain ⟨hl', hs''⟩ :=
        Lent.freesTables.freewalkTab hl hs' (by rw [hpar hj, hdir', hk]; rfl) hx
      exact ⟨hl', freewalkTab_leafless.of_ok hleaf' hx, _, hs'', hdir'⟩
    · rintro x ⟨hl, -, pt', hs', hdir'⟩
      have hheld : x.held t (.dir k) = some pa := by
        simp [Kernel.held, hs', PageTable.holds, hdir', hk]
      exact (hl.kfree_held hpool hheld).bind fun _ _ _ => stopsIn_modify

theorem freewalk_returns
    (hleaf : s.Leafless t) (hs : s.table t = some pt) : Returns (freewalk t) s := by
  unfold freewalk
  apply StopsIn.read
  simp only [hs]
  refine StopsIn.loop_then (I := fun _ x => Lent t pool s0 hand x ∧ x.Leafless t ∧
    ∃ pt', x.table t = some pt' ∧ pt'.root = pt.root) ⟨h, hleaf, pt, hs, rfl⟩ ?_ ?_ ?_
  · rintro j x - - ⟨hl, hleaf', pt', hs', -⟩
    exact freewalkDir_returns hl hpool hleaf' hs'
  · rintro j x x' - - ⟨hl, hleaf', pt', hs', hroot⟩ hx
    obtain ⟨hl', pt'', hs'', hroot', -⟩ := Lent.freesTables.freewalkDir hl hs' hx
    exact ⟨hl', freewalkDir_leafless.of_ok hleaf' hx, pt'', hs'', hroot'.trans hroot⟩
  · rintro x ⟨hl, -, pt', hs', hroot⟩
    have hheld : x.held t .root = some pt.root := by simp [Kernel.held, hs', PageTable.holds, hroot]
    exact (hl.kfree_held hpool hheld).bind fun _ _ _ => stopsIn_modify

theorem uvmfree_returns (hs : s.table t = some pt) (hleaf : s.Leaves t) (hsz : sz ≤ Xv6.trapframe)
    (hall : ∀ v pte, s.trans t v = some pte → v * pgSize < pgRoundUp sz) :
    Returns (uvmfree t sz) s := by
  have htf := trapframe_mul
  have hmax : trapVpn * pgSize ≤ maxVa := by decide
  have hround : pgRoundUp sz = pgRoundUp sz / pgSize * pgSize :=
    (Nat.div_mul_cancel (Nat.dvd_of_mod_eq_zero (pgRoundUp_mod sz))).symm
  have hend := pgRoundUp_div_le_trapVpn hsz
  have hlow : ∀ v pte, s.trans t v = some pte → v < pgRoundUp sz / pgSize := by
    intro v pte ht
    have hlt := hall v pte ht
    rw [hround] at hlt
    exact Nat.lt_of_mul_lt_mul_right hlt
  have hfree : ∀ v pte, 0 / pgSize ≤ v → v < 0 / pgSize + pgRoundUp sz / pgSize →
      v < maxVa / pgSize → s.trans t v = some pte → (true = true ↔ v < trapVpn) := by
    intro v pte _ _ _ ht
    have hlt := hlow v pte ht
    simp only [true_iff]
    omega
  unfold uvmfree
  refine .ite (fun _ => ?_) fun hzero => ?_
  · have hfit : 0 + pgRoundUp sz / pgSize * pgSize ≤ maxVa := by
      rw [Nat.zero_add]
      exact (Nat.mul_le_mul_right _ hend).trans hmax
    apply (uvmunmap_returns h hpool rfl hfit hleaf hfree).bind
    intro _ s1 hx
    have h1 := uvmunmap_lent h hfree hx
    obtain ⟨-, htrans⟩ := uvmunmap_spec hx
    have hempty : s1.Leafless t := by
      intro v
      rw [htrans]
      split_ifs with hv
      · rfl
      · cases ht : s.trans t v with
        | none => rfl
        | some pte =>
          have hlt := hlow v pte ht
          rw [Nat.zero_div] at hv
          omega
    have hhas : s1.Has t := uvmunmap_preserves.of_ok (by simp [Kernel.Has, hs]) hx
    obtain ⟨pt1, hs1⟩ := isSome_iff_exists.mp hhas
    exact freewalk_returns h1 hpool hempty hs1
  · have hempty : s.Leafless t := by
      intro v
      cases ht : s.trans t v with
      | none => rfl
      | some pte =>
        have hlt := hlow v pte ht
        obtain rfl : sz = 0 := by omega
        simp [pgRoundUp, pgSize] at hlt
    exact freewalk_returns h hpool hempty hs

/-- All leaves lie where `walk` can reach them. -/
def Kernel.Reachable (s : Kernel) (t : ℕ) : Prop :=
  ∀ v pte, s.trans t v = some pte → v < maxVa / pgSize

/-- A page table that maps an image, the trampoline and the trapframe. -/
theorem procFreepagetable_returns
    (hs : s.Has t) (hleaf : s.Leaves t) (hin : s.Reachable t) (hsz : sz ≤ Xv6.trapframe)
    (hconf : s.Confined t sz) : Returns (procFreepagetable t sz) s := by
  have hkeep : ∀ {x x' : Kernel} {a n : ℕ} {d : Bool} {u : PUnit}, uvmunmap t a n d x = .ok u x' →
      ∀ v pte, x'.trans t v = some pte → x.trans t v = some pte := by
    intro x x' a n d u hx v pte ht
    rw [(uvmunmap_spec hx).2] at ht
    split_ifs at ht
    exact ht
  have hone : ∀ {a w : ℕ} {pte : Pte} {x : Kernel}, trapVpn ≤ a / pgSize → a / pgSize ≤ w →
      w < a / pgSize + 1 → w < maxVa / pgSize → x.trans t w = some pte →
      (false = true ↔ w < trapVpn) := by
    intro a w pte x ha hw _ _ _
    simp only [Bool.false_eq_true, false_iff]
    omega
  have htop : maxVa / pgSize = trapVpn + 2 := by decide
  unfold procFreepagetable
  have h1 := uvmunmap_returns h hpool (by decide) (by decide) hleaf fun v pte =>
    hone (a := trampoline) (by rw [trampoline_div]; omega)
  apply h1.bind
  intro _ s1 hx1
  have hl1 := uvmunmap_lent h (fun v pte => hone (by rw [trampoline_div]; omega)) hx1
  have hleaf1 : s1.Leaves t := fun v pte ht => hleaf v pte (hkeep hx1 v pte ht)
  have h2 := uvmunmap_returns hl1 hpool (by decide) (by decide) hleaf1 fun v pte =>
    hone (a := Xv6.trapframe) (by rw [trapframe_div])
  apply h2.bind
  intro _ s2 hx2
  have hl2 := uvmunmap_lent hl1 (fun v pte => hone (by rw [trapframe_div])) hx2
  have hleaf2 : s2.Leaves t := fun v pte ht => hleaf1 v pte (hkeep hx2 v pte ht)
  have hhas : s2.Has t := uvmunmap_preserves.of_ok (uvmunmap_preserves.of_ok hs hx1) hx2
  obtain ⟨pt2, hs2⟩ := isSome_iff_exists.mp hhas
  refine uvmfree_returns hl2 hpool hs2 hleaf2 hsz fun v pte ht => ?_
  have hold := hkeep hx1 v pte (hkeep hx2 v pte ht)
  apply hconf v pte hold
  have hlt := hin v pte hold
  rw [(uvmunmap_spec hx2).2, (uvmunmap_spec hx1).2, trampoline_div, trapframe_div] at ht
  split_ifs at ht
  omega

theorem procPagetableIn_returns (hn : s.table t = none) : Returns (procPagetableIn t p) s := by
  have hundo : ∀ {x : Kernel}, Lent t pool s0 hand x → x.Has t → x.Leafless t → Returns (do
      uvmfree t 0
      return false : KernelM Bool) x := by
    intro x hl hhas hempty
    obtain ⟨pt, hs⟩ := Option.isSome_iff_exists.mp hhas
    refine StopsIn.bind (uvmfree_returns hl hpool hs ?_ (by decide) ?_) fun _ _ _ => .pure _
    · intro v pte ht
      simp [hempty v] at ht
    · intro v pte ht
      simp [hempty v] at ht
  unfold procPagetableIn
  apply uvmcreate_returns.bind
  intro b1 s1 hx1
  refine StopsIn.ite (fun hb1 => ?_) fun _ => .pure _
  have h1 := uvmcreate_lent h hn hx1
  obtain ⟨-, -, hok⟩ := uvmcreate_spec hn hx1
  obtain ⟨hhas1, hempty1⟩ := hok hb1
  obtain ⟨pt1, hs1⟩ := Option.isSome_iff_exists.mp hhas1
  apply StopsIn.read
  apply (mappages_returns hs1 (by decide) (hempty1 _)).bind
  intro b2 s2 hx2
  have h2 := mappages_lent_of_ge h1 (by rw [trampoline_div]; omega) hx2
  have hhas2 : s2.Has t := mappages_preserves.of_ok hhas1 hx2
  obtain ⟨-, -, -, htrans2⟩ := mappages_spec hx2
  refine StopsIn.ite (fun hb2 => ?_) fun hb2 => hundo h2 hhas2 fun v => ?_
  · obtain ⟨pt2, hs2⟩ := Option.isSome_iff_exists.mp hhas2
    have hfree : s2.trans t (Xv6.trapframe / pgSize) = none := by
      rw [htrans2, if_neg, hempty1]
      rw [trampoline_div, trapframe_div]
      omega
    apply (mappages_returns hs2 (by decide) hfree).bind
    intro b3 s3 hx3
    refine StopsIn.ite (fun _ => .pure _) fun hb3 => ?_
    have h3 := mappages_lent_of_ge h2 (by rw [trapframe_div]) hx3
    have hhas3 : s3.Has t := mappages_preserves.of_ok hhas2 hx3
    obtain ⟨-, -, -, htrans3⟩ := mappages_spec hx3
    have hleaf3 : ∀ v, s3.trans t v =
        if v = trampoline / pgSize then some ⟨true, ⟨true, false, true, false⟩, s1.trampolinePage⟩
        else none := by
      intro v
      rw [htrans3, if_neg fun hc => hb3 hc.1, htrans2]
      simp [hb2, hempty1 v]
    have honly : ∀ v pte, trampoline / pgSize ≤ v → v < trampoline / pgSize + 1 →
        v < maxVa / pgSize → s3.trans t v = some pte → (false = true ↔ v < trapVpn) := by
      intro v pte hv _ _ _
      rw [trampoline_div] at hv
      simp only [Bool.false_eq_true, false_iff]
      omega
    have hleaves : s3.Leaves t := by
      intro v pte ht
      rw [hleaf3] at ht
      split_ifs at ht
      cases ht
      simp
    apply (uvmunmap_returns h3 hpool (by decide) (by decide) hleaves honly).bind
    intro _ s4 hx4
    apply hundo (uvmunmap_lent h3 honly hx4) (uvmunmap_preserves.of_ok hhas3 hx4)
    intro v
    rw [(uvmunmap_spec hx4).2, hleaf3]
    split_ifs with hin hv
    · rfl
    · omega
    · rfl
  · rw [htrans2, if_neg fun hc => hb2 hc.1]
    exact hempty1 v

theorem uvmdealloc_returns {oldsz newsz : ℕ}
    (hleaf : s.Leaves t) (hold : oldsz ≤ newsz ∨ oldsz ≤ Xv6.trapframe) :
    Returns (uvmdealloc t oldsz newsz) s := by
  unfold uvmdealloc
  refine .ite (fun _ => .pure _) fun hlt => ?_
  have hmax : oldsz ≤ maxVa := by
    have := trapframe_le
    omega
  have hle : newsz ≤ oldsz := Nat.le_of_not_le hlt
  rw [pgRoundUp64_eq hmax, pgRoundUp64_eq (hle.trans hmax)]
  by_cases hpos : pgRoundUp newsz < pgRoundUp oldsz
  · rw [if_pos hpos, pages_int hmax]
    have hend : pgRoundUp oldsz / pgSize ≤ trapVpn := pgRoundUp_div_le_trapVpn (by omega)
    have hmono := pgRoundUp_div_mono hle
    refine .bind (uvmunmap_returns h hpool (pgRoundUp_mod newsz) ?_ hleaf ?_)
      fun _ _ _ => .pure _
    · have hround : pgRoundUp newsz = pgRoundUp newsz / pgSize * pgSize :=
        (Nat.div_mul_cancel (Nat.dvd_of_mod_eq_zero (pgRoundUp_mod newsz))).symm
      have htop : trapVpn * pgSize ≤ maxVa := by decide
      rw [hround, ← Nat.add_mul, Nat.mul_div_cancel _ (by decide : 0 < pgSize),
        Nat.add_sub_cancel' hmono]
      exact (Nat.mul_le_mul_right _ hend).trans htop
    · intro v pte _ hv _ _
      simp only [true_iff]
      omega
  · rw [if_neg hpos]
    exact .pure _

/-- New pages where none are mapped, below the trapframe. -/
theorem uvmallocLoop_returns {start a : ℕ}
    (hsp : s.Special t) (hleaf : s.Leaves t) (hperm : perm ≠ ⟨false, false, false, false⟩)
    (hbound : a = start ∨ a ≤ Xv6.trapframe) (hroom : a + k * pgSize ≤ Xv6.trapframe)
    (hnew : ∀ w, a / pgSize ≤ w → w < a / pgSize + k → s.trans t w = none) :
    Returns (uvmallocLoop t start perm k a) s := by
  induction k generalizing s a with
  | zero => exact .pure _
  | succ k ih =>
    have hundo : ∀ {x : Kernel}, Lent t pool s0 hand x → x.Leaves t → Returns (do
        let _ ← uvmdealloc t a start
        return false : KernelM Bool) x := by
      intro x hl hlv
      exact (uvmdealloc_returns hl hpool hlv (hbound.imp_left fun he => he.le)).bind
        fun _ _ _ => .pure _
    unfold uvmallocLoop
    apply kalloc_returns.bind
    intro o s1 hk
    rcases kalloc_ok hk with ⟨rfl, rfl⟩ | ⟨mem, rest, rfl, hf, rfl⟩
    · exact hundo h hleaf
    · apply StopsIn.modify
      have h2 : Lent t pool s0 (mem :: hand) ((s.allocated mem rest).setPage mem fun _ => 0) :=
        (h.allocated hf).setPage (h.loan.spare mem (by simp [hf])) _
      have hlt : a < maxVa := by
        have htop := trapframe_le
        unfold pgSize at hroom
        omega
      have hnone : s.trans t (a / pgSize) = none := hnew _ le_rfl (by omega)
      obtain ⟨pte, htramp, -⟩ := hsp trapVpn le_rfl (by decide)
      obtain ⟨pt, hs, -⟩ := Option.bind_eq_some_iff.mp htramp
      apply (mappages_returns (by exact hs) hlt (by exact hnone)).bind
      intro b s3 hmap
      obtain ⟨-, hva, hwas, htrans⟩ := mappages_spec hmap
      have hlow : a / pgSize < trapVpn := hsp.lt_of_none hva hnone
      have h3 := mappages_lent h2 (fun _ => hlow) hmap
      have hold : ∀ v, ¬(b = true ∧ v = a / pgSize) → s3.trans t v = s.trans t v := by
        intro v hv
        rw [htrans, if_neg hv]
        rfl
      have hleaf3 : s3.Leaves t := by
        intro v y ht
        rw [htrans] at ht
        split_ifs at ht
        · cases ht
          exact hperm
        · exact hleaf v y ht
      refine StopsIn.ite (fun hb => ?_) fun hb => ?_
      · subst hb
        have hnext : (a + pgSize) / pgSize = a / pgSize + 1 := Nat.add_div_right a (by decide)
        apply ih h3 _ hleaf3
        · refine .inr ?_
          rw [Nat.succ_mul] at hroom
          omega
        · rw [Nat.succ_mul] at hroom
          omega
        · intro w hw hw'
          rw [hnext] at hw hw'
          rw [hold w (by omega)]
          exact hnew w (by omega) (by omega)
        · intro v hv hmax
          rw [hold v (by omega)]
          exact hsp v hv hmax
      · have hb' : b = false := by simpa using hb
        subst hb'
        have h3' : Lent t pool s0 (mem :: hand) s3 := h3
        apply (h3'.kfree_returns hpool).bind
        intro _ s4 hfree
        obtain ⟨-, rfl⟩ := kfree_ok hfree
        exact hundo h3'.freed hleaf3

end Pages

end Xv6.Vm
