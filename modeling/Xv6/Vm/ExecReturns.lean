import Xv6.Vm.TableReturns
import Xv6.Vm.Permissions

/-!
# `exec` returns

From a state in good order, `exec` of a file whose headers describe an image that fits
below the regions of the process returns, whatever the arguments are. The text, the data,
the guard page and the stack then follow each other.
-/
namespace Xv6.Vm

open Library List Option

section Files

variable {ip bn n fuel tot off k K : ℕ} {l : List ℕ} {s : Kernel} {dst : Bytes}

theorem balloc_returns : Returns balloc s := by
  unfold balloc
  apply StopsIn.read
  exact StopsIn.ite (fun _ => .pure _) fun _ => StopsIn.set (.pure _)

theorem bmapEntry_returns : Returns (bmapEntry ip bn) s := by
  unfold bmapEntry
  apply StopsIn.read
  refine StopsIn.ite (fun _ => .pure _) fun _ => ?_
  apply balloc_returns.bind
  intro b t _
  exact .ite (fun _ => .modify (.pure _)) fun _ => .pure _

theorem bmap_returns (hbn : bn < maxFile) : Returns (bmap ip bn) s := by
  unfold bmap
  refine .ite (fun _ => bmapEntry_returns) fun _ => ?_
  rw [if_pos hbn]
  apply StopsIn.read
  refine StopsIn.ite (fun _ => bmapEntry_returns) fun _ => ?_
  apply balloc_returns.bind
  intro b t _
  exact .ite (fun _ => .modify bmapEntry_returns) fun _ => .pure _

end Files

section Image

variable {t p sz : ℕ} {pool : ℕ → Prop} {s₀ s s' : Kernel} {g : Segments}

/-- Page table `t` maps an image of size `sz` and can be given up. -/
structure Freeable (t sz : ℕ) (s : Kernel) : Prop where
  has : s.Has t
  held : ∀ x pa, s.held t x = some pa → s.InRange pa ∧ s.ref pa = 1
  leaves : s.Leaves t
  reachable : s.Reachable t
  shallow : s.Shallow t
  size : sz ≤ Xv6.trapframe
  confined : s.Confined t sz

/-- A page table is moved, and the counts of its pages stay. -/
theorem Freeable.move {t' : ℕ} (h : Freeable t sz s) (htable : s'.table t' = s.table t)
    (href : ∀ x pa, s.held t x = some pa → s'.ref pa = s.ref pa) (hkend : s'.kend = s.kend) :
    Freeable t' sz s' := by
  have htrans : ∀ v, s'.trans t' v = s.trans t v := fun v => by simp [Kernel.trans, htable]
  have hheld : ∀ x, s'.held t' x = s.held t x := fun x => by simp [Kernel.held, htable]
  refine ⟨?_, fun x pa hx => ?_, ?_, ?_, ?_, h.size, ?_⟩
  · simpa [Kernel.Has, htable] using h.has
  · rw [hheld] at hx
    obtain ⟨hr, hone⟩ := h.held x pa hx
    exact ⟨by simpa [Kernel.InRange, hkend] using hr, (href x pa hx).trans hone⟩
  · intro v pte ht
    exact h.leaves v pte (htrans v ▸ ht)
  · intro v pte ht
    exact h.reachable v pte (htrans v ▸ ht)
  · simpa [Kernel.Shallow, htable] using h.shallow
  · intro v pte ht
    exact h.confined v pte (htrans v ▸ ht)

theorem Freeable.lent (h : Freeable t sz s) :
    Lent t (fun pa => pa ∈ s.freelist ∨ ∃ x, s.held t x = some pa) s [] s := by
  refine ⟨⟨fun pa hpa => .inl hpa, by simp, fun x pa hx => .inr ⟨x, hx⟩, fun pa hpa => ?_⟩,
    fun pa hpa => ?_, fun _ _ => rfl, fun _ _ => rfl, rfl, h.shallow⟩
  · exact hpa.imp_right .inr
  · rcases hpa with ⟨x, hx⟩ | hpa
    · exact (h.held x pa hx).2
    · cases hpa

theorem Freeable.returns (h : Freeable t sz s) (hstock : ∀ pa ∈ s.freelist, s.InRange pa) :
    Returns (procFreepagetable t sz) s := by
  have hpool : s.Stocks fun pa => pa ∈ s.freelist ∨ ∃ x, s.held t x = some pa := by
    rintro pa (hpa | ⟨x, hx⟩)
    · exact hstock pa hpa
    · exact (h.held x pa hx).1
  exact procFreepagetable_returns h.lent hpool h.has h.leaves h.reachable h.size h.confined

/-- The page table under construction, whose pages are on loan. -/
structure Building (t : ℕ) (pool : ℕ → Prop) (s₀ s : Kernel) : Prop where
  lent : Lent t pool s₀ [] s
  stocks : s₀.Stocks pool
  kend : 0 < s₀.kend
  leaves : s.Leaves t
  reachable : s.Reachable t
  special : s.Special t

theorem Kernel.Special.has (h : s.Special t) : s.Has t := by
  obtain ⟨pte, ht, -⟩ := h trapVpn le_rfl (by decide)
  obtain ⟨pt, hs, -⟩ := bind_eq_some_iff.mp ht
  simp [Kernel.Has, hs]

section

variable (h : Building t pool s₀ s)
include h

theorem Building.freeable (hsz : sz ≤ Xv6.trapframe) (hconf : s.Confined t sz) : Freeable t sz s :=
  ⟨h.special.has, fun x pa hx =>
    ⟨h.lent.inRange h.stocks (h.lent.loan.held x pa hx), h.lent.once pa (.inl ⟨x, hx⟩)⟩,
    h.leaves, h.reachable, h.lent.shallow, hsz, hconf⟩

theorem Building.stock : ∀ pa ∈ s.freelist, s.InRange pa :=
  fun pa hpa => h.lent.inRange h.stocks (h.lent.loan.spare pa hpa)

theorem Building.ppn_ne_zero {v : ℕ} {pte : Pte} (ht : s.trans t v = some pte)
    (hv : v < trapVpn) : pte.ppn ≠ 0 := by
  obtain ⟨pt, hs, htrans⟩ := bind_eq_some_iff.mp ht
  have hheld : s.held t (.leaf v) = some pte.ppn := by
    simp [Kernel.held, hs, PageTable.holds, hv, htrans]
  have hr := h.lent.inRange h.stocks (h.lent.loan.held _ _ hheld)
  have hk := h.lent.kend
  have hpos := h.kend
  have hle := hr.1
  omega

theorem uvmalloc_returns {size : ℕ} (hal : size % pgSize = 0)
    (hroom : size + 2 * pgSize ≤ Xv6.trapframe) (hnew : ∀ v, v < trapVpn → s.trans t v = none) :
    Returns (uvmalloc t size (size + 2 * pgSize) dataPerm) s := by
  have htop : Xv6.trapframe < 2 ^ 38 := by decide
  have htf : Xv6.trapframe = trapVpn * 4096 := by decide
  have hround : pgRoundUp64 size = size := pgRoundUp64_of_aligned hal (by omega)
  unfold uvmalloc
  rw [if_neg (by omega)]
  simp only [hround]
  have hpages : (size + 2 * pgSize - size + pgSize - 1) / pgSize = 2 := by
    rw [Nat.add_sub_cancel_left]
    rfl
  rw [hpages]
  refine .bind (uvmallocLoop_returns h.lent h.stocks h.special h.leaves (by decide)
    (.inl rfl) hroom fun w hw hw' => hnew w ?_) fun b _ _ => ?_
  · unfold pgSize at *
    omega
  · exact .ite (fun _ => .pure _) fun _ => .pure _

/-- The two pages for the stack are mapped, the upper one for user code. -/
theorem Building.stacked {s1 : Kernel} {u : PUnit} (hh : s.Hollow t)
    (hx1 : uvmalloc t g.size (u64 (g.size + 2 * pgSize)) dataPerm s = .ok sz s1) (hsz : sz ≠ 0)
    (hx2 : uvmclear t (u64 (sz - 2 * pgSize)) s1 = .ok u s') :
    Building t pool s₀ s' ∧ ∃ pa, StackPage t sz pa s' := by
  obtain ⟨-, hst⟩ := stacked_of_image hh hx1 hsz hx2
  obtain ⟨rfl, hext, hclear⟩ := extended_of_image hx1 hsz hx2
  obtain ⟨hlt, -, pa, hpa⟩ := hext.fresh (g.size / pgSize) le_rfl (by omega)
  obtain ⟨hlt', -, pa', hpa'⟩ := hext.fresh (g.size / pgSize + 1) (by omega) (by omega)
  have htrans := uvmclear_trans hpa hclear
  have hold : ∀ v pte, s'.trans t v = some pte →
      (v < maxVa / pgSize ∧ pte.perm.r = true) ∨ s.trans t v = some pte := by
    intro v pte ht
    rw [htrans] at ht
    split_ifs at ht with hv
    · cases ht
      exact .inl ⟨by rwa [hv], rfl⟩
    · by_cases hv' : v = g.size / pgSize + 1
      · rw [hv', hpa'] at ht
        cases ht
        exact .inl ⟨by rwa [hv'], rfl⟩
      · rw [hext.old v (by omega)] at ht
        exact .inr ht
  have hbuild : Building t pool s₀ s' := by
    refine ⟨uvmclear_lent (uvmalloc_lent h.lent h.special hx1) hx2, h.stocks, h.kend, ?_, ?_,
      hst.special⟩
    · intro v pte ht
      rcases hold v pte ht with ⟨-, hr⟩ | ht
      · intro he
        simp [he] at hr
      · exact h.leaves v pte ht
    · intro v pte ht
      rcases hold v pte ht with ⟨hv, -⟩ | ht
      · exact hv
      · exact h.reachable v pte ht
  exact ⟨hbuild, hst.stackPage (Nat.le_add_left ..) fun v pte => hbuild.ppn_ne_zero⟩

end

theorem uvmclear_returns {va : ℕ} (hva : va < maxVa) (hl : (s.lookup t (va / pgSize)).isSome) :
    Returns (uvmclear t va) s := by
  unfold uvmclear
  apply StopsIn.read
  rw [if_neg (by omega)]
  obtain ⟨pte, hpte⟩ := Option.isSome_iff_exists.mp hl
  simp only [hpte]
  exact stopsIn_set

/-- What `exec` needs after the headers: a new page table with room for the image, and an
old page table whose pages are not from the pool. -/
structure Ready (p : ℕ) (g : Segments) (pool : ℕ → Prop) (s₀ s : Kernel) : Prop where
  building : Building (spare p) pool s₀ s
  hollow : s.Hollow (spare p)
  room : g.size + 2 * pgSize ≤ Xv6.trapframe
  old : Freeable p (s.proc p).sz s
  apart : ∀ x pa, s.held p x = some pa → ¬ pool pa

/-- The state in which the new page table is that of process `p`, and the old one the spare one. -/
def Kernel.swapped (s : Kernel) (p sz : ℕ) : Kernel :=
  ((s.setTable p (s.table (spare p))).setTable (spare p) (s.table p)).setProc p
    fun q => { q with sz }

theorem Ready.swapped (sz : ℕ) (h : Ready p g pool s₀ s) (hl : Lent (spare p) pool s₀ [] s')
    (htable : s'.table p = s.table p) :
    Freeable (spare p) (s.proc p).sz (s'.swapped p sz) := by
  refine h.old.move ?_ ?_ ?_
  · exact (Function.update_self ..).trans htable
  · intro x pa hx
    have hout := h.apart x pa hx
    exact (hl.ref pa hout).trans (h.building.lent.ref pa hout).symm
  · exact hl.kend.trans h.building.lent.kend.symm

theorem StopsIn.onKernel {α β : Type} {E : Stop → Prop} {x : KernelM α} {f : α → WorldM β}
    {w : World} (h : StopsIn E x w.kernel)
    (hf : ∀ a s, x w.kernel = .ok a s → StopsIn E (f a) { w with kernel := s }) :
    StopsIn E (Vm.onKernel x >>= f) w := by
  apply StopsIn.bind
  · intro e w' hx
    unfold Vm.onKernel at hx
    cases hk : x w.kernel with
    | ok a s => simp [hk] at hx
    | error e' s =>
      simp only [hk, EStateM.Result.error.injEq] at hx
      exact hx.1 ▸ h e' s hk
  · intro a w' hx
    obtain ⟨s, hs, rfl⟩ := onKernel_ok.mp hx
    exact hf a s hs

theorem execImageCall_returns {w : World} {path : List UInt8} {entry : ℕ}
    {argv : List (List UInt8)} (h : Ready p g pool s₀ w.kernel)
    (hargs : ∀ a ∈ argv, a.length < pgSize ∨ a.length < 2 ^ 31 ∧ w.kernel.RegionsLow p) :
    Returns (execImageCall p path entry g argv) w := by
  have hne := spare_ne p
  have hroom := h.room
  have htop : Xv6.trapframe < 2 ^ 38 := by decide
  have hmax := trapframe_le
  have hpg : pgSize = 4096 := rfl
  have hnew : u64 ((g.size : ℤ) + 2 * pgSize) = g.size + 2 * pgSize := by
    unfold u64
    omega
  unfold execImageCall
  apply StopsIn.modify
  apply StopsIn.read
  refine StopsIn.onKernel (x := uvmalloc _ _ _ _)
    (hnew ▸ uvmalloc_returns h.building g.size_mod hroom ?_) ?_
  · intro v hv
    cases ht : w.kernel.trans (spare p) v with
    | none => rfl
    | some pte => exact absurd (h.hollow.2 v pte ht).1 (by omega)
  intro sz s1 hx1
  have hl1 := uvmalloc_lent h.building.lent h.building.special hx1
  obtain ⟨hr1, hcase⟩ := uvmalloc_spec hx1
  refine StopsIn.ite (fun hzero => ?_) fun hsz => ?_
  · have hsame : ∀ v, s1.trans (spare p) v = w.kernel.trans (spare p) v := by
      rcases hcase with ⟨hlt, -⟩ | ⟨-, hr, -⟩ | ⟨-, -, htrans⟩
      · omega
      · omega
      · exact htrans
    have hb1 : Building (spare p) pool s₀ s1 := by
      refine ⟨hl1, h.building.stocks, h.building.kend, ?_, ?_, ?_⟩
      · intro v pte ht
        exact h.building.leaves v pte (hsame v ▸ ht)
      · intro v pte ht
        exact h.building.reachable v pte (hsame v ▸ ht)
      · intro v hv hlt
        rw [hsame]
        exact h.building.special v hv hlt
    have hfree : Freeable (spare p) g.size s1 := by
      apply hb1.freeable (by omega)
      intro v pte ht
      exact h.hollow.confined v pte (hsame v ▸ ht)
    exact StopsIn.onKernel (hfree.returns hb1.stock) fun _ _ _ => .pure _
  have hclear : Returns (uvmclear (spare p) (u64 (sz - 2 * pgSize))) s1 := by
    rcases hcase with ⟨hlt, -⟩ | ⟨-, hr, hext⟩ | ⟨-, hr, -⟩
    · omega
    · have hva : u64 ((sz : ℤ) - 2 * pgSize) = g.size := by
        rw [hr, hnew]
        unfold u64
        omega
      rw [hva]
      rw [pgRoundUp64_of_aligned g.size_mod (by omega), hnew] at hext
      obtain ⟨-, -, pa, hpa⟩ := hext.fresh (g.size / pgSize) le_rfl (by
        unfold pagesTo
        rw [pgRoundUp64_of_aligned g.size_mod (by omega), Nat.add_sub_cancel_left]
        exact Nat.lt_add_of_pos_right (by decide))
      exact uvmclear_returns (by omega) (Kernel.lookup_isSome_of_trans hpa)
    · omega
  refine StopsIn.onKernel hclear fun _ s2 hx2 => ?_
  obtain ⟨hb2, pa, hstack⟩ := h.building.stacked h.hollow hx1 hsz hx2
  obtain ⟨-, hst2⟩ := stacked_of_image h.hollow hx1 hsz hx2
  have hr2 := hr1.andThen (uvmclear_lt hx2).2
  have hargs2 : ∀ a ∈ argv, a.length < pgSize ∨ a.length < 2 ^ 31 ∧ s2.RegionsLow p := by
    obtain ⟨⟨_, _, _, _, _, rfl⟩, -⟩ := hr2
    exact hargs
  refine StopsIn.onKernel (pushAll_returns hstack hargs2) fun o s3 hx3 => ?_
  have hscrib := pushStack_ok hne (pushStack_of_pushAll hx3)
  have hl3 := hb2.lent.scribbled (fun v pte => hst2.low) hscrib
  have hb3 : Building (spare p) pool s₀ s3 := by
    obtain ⟨mm, rfl, -⟩ := hscrib
    exact ⟨hl3, hb2.stocks, hb2.kend, hb2.leaves, hb2.reachable, hb2.special⟩
  cases o with
  | none =>
    have hconf : s3.Confined (spare p) sz := by
      obtain ⟨mm, rfl, -⟩ := hscrib
      exact hst2.confined
    exact StopsIn.onKernel ((hb3.freeable hst2.room hconf).returns hb3.stock) fun _ _ _ => .pure _
  | some spc =>
    obtain ⟨sp, argc⟩ := spc
    apply StopsIn.modify
    apply StopsIn.modify
    refine StopsIn.onKernel stopsIn_modify fun _ s4 hx4 => ?_
    obtain rfl := modify_ok.mp hx4
    refine StopsIn.onKernel stopsIn_modify fun _ s5 hx5 => ?_
    obtain rfl := modify_ok.mp hx5
    apply StopsIn.modify
    have hbeside := (Beside.of_reworked hr2).andThen (.of_scribbled hscrib)
    have hold : Freeable (spare p) (w.kernel.proc p).sz (s3.swapped p sz) :=
      h.swapped sz hl3 (hbeside.table p hne.symm)
    exact StopsIn.onKernel (hold.returns hb3.stock) fun _ _ _ => .pure _

end Image

end Xv6.Vm
