import Xv6.Vm.ExecEffects
import Xv6.Library.Loan

/-!
# Pages that a page table under construction borrows

While a page table is built and taken down, all pages it uses come from a pool and go back
to it, and pages outside the pool keep their contents and counts. Each function of `vm.c`
that works on one page table keeps these accounts.
-/
namespace Xv6.Vm

open Library Function Kernel PageTable List Option

def Kernel.held (s : Kernel) (t : ℕ) (x : Slot) : Option ℕ := (s.table t).bind (·.holds x)

/-- Since state `s₀`, pages of the pool were lent to page table `t`, and those in `hand` to
the running call. -/
structure Lent (t : ℕ) (pool : ℕ → Prop) (s₀ : Kernel) (hand : List ℕ) (s : Kernel) : Prop where
  loan : Loan (s.held t) s.freelist pool hand
  once : ∀ pa, (∃ x, s.held t x = some pa) ∨ pa ∈ hand → s.ref pa = 1
  mem : ∀ pa, ¬ pool pa → s.mem pa = s₀.mem pa
  ref : ∀ pa, ¬ pool pa → s.ref pa = s₀.ref pa
  kend : s.kend = s₀.kend
  shallow : s.Shallow t

namespace Lent

variable {t pa v : ℕ} {pool : ℕ → Prop} {s₀ s : Kernel} {hand rest : List ℕ}
  {pt pt' : PageTable} {x : Slot} {pte : Pte}

theorem start (h : s.table t = none) : Lent t (· ∈ s.freelist) s [] s where
  loan := Loan.start fun x => by simp [held, h]
  once pa hpa := by simp [held, h] at hpa
  mem _ _ := rfl
  ref _ _ := rfl
  kend := rfl
  shallow pt hpt := by simp [h] at hpt

theorem freed (h : Lent t pool s₀ (pa :: hand) s) : Lent t pool s₀ hand (s.freed pa) where
  loan := h.loan.give
  once a ha := by
    apply h.once
    rcases ha with ha | ha
    · exact .inl ha
    · exact .inr (mem_cons_of_mem pa ha)
  mem a ha := by
    have hne : a ≠ pa := fun he => ha (h.loan.taken a (by simp [he]))
    simp only [Kernel.freed, update_of_ne hne]
    exact h.mem a ha
  ref := h.ref
  kend := h.kend
  shallow := h.shallow

theorem held_setTable {o : Option ℕ} (hs : s.table t = some pt)
    (hholds : pt'.holds = update pt.holds x o) :
    (s.setTable t (some pt')).held t = update (s.held t) x o := by
  have h1 : (s.setTable t (some pt')).held t = pt'.holds := by
    funext y
    simp [held, setTable]
  have h2 : s.held t = pt.holds := by
    funext y
    simp [held, hs]
  rw [h1, h2, hholds]

section

variable (h : Lent t pool s₀ hand s)
include h

theorem allocated (hf : s.freelist = pa :: rest) :
    Lent t pool s₀ (pa :: hand) (s.allocated pa rest) where
  loan := (hf ▸ h.loan).take
  once a ha := by
    by_cases hne : a = pa
    · simp [Kernel.allocated, hne]
    · simp only [Kernel.allocated, update_of_ne hne]
      apply h.once
      rcases ha with ha | ha
      · exact .inl ha
      · exact .inr ((mem_cons.mp ha).resolve_left hne)
  mem a ha := by
    have hne : a ≠ pa := fun he => ha (h.loan.spare a (by simp [hf, he]))
    simp only [Kernel.allocated, update_of_ne hne]
    exact h.mem a ha
  ref a ha := by
    have hne : a ≠ pa := fun he => ha (h.loan.spare a (by simp [hf, he]))
    simp only [Kernel.allocated, update_of_ne hne]
    exact h.ref a ha
  kend := h.kend
  shallow := h.shallow

theorem setPage (hpa : pool pa) (bytes : Bytes) : Lent t pool s₀ hand (s.setPage pa bytes) :=
  { h with
    mem := fun a ha => by
      have hne : a ≠ pa := fun he => ha (he ▸ hpa)
      simp only [Kernel.setPage, update_of_ne hne]
      exact h.mem a ha }

variable (hs : s.table t = some pt)
include hs

theorem shallow_setTable (hdir : ∀ i, 512 ≤ i → pt.dir i = none → pt'.dir i = none) :
    (s.setTable t (some pt')).Shallow t := by
  intro pt1 hpt1 i hi
  obtain rfl : pt' = pt1 := by simpa [setTable] using hpt1
  exact hdir i hi (h.shallow pt hs i hi)

omit h hs in
/-- A place of the page table takes a page in hand. -/
theorem attach (h : Lent t pool s₀ (pa :: hand) s) (hs : s.table t = some pt)
    (hholds : pt'.holds = update pt.holds x (some pa)) (hx : pt.holds x = none)
    (hdir : ∀ i, 512 ≤ i → pt.dir i = none → pt'.dir i = none) :
    Lent t pool s₀ hand (s.setTable t (some pt')) where
  loan := by
    rw [held_setTable hs hholds]
    exact h.loan.attach (by simpa [held, hs] using hx)
  once a ha := by
    apply h.once a
    rw [held_setTable hs hholds] at ha
    rcases ha with ⟨y, hy⟩ | ha
    · rw [update_apply] at hy
      split_ifs at hy
      · cases hy
        exact .inr mem_cons_self
      · exact .inl ⟨y, hy⟩
    · exact .inr (mem_cons_of_mem pa ha)
  mem := h.mem
  ref := h.ref
  kend := h.kend
  shallow := h.shallow_setTable hs hdir

/-- A place of the page table gives up its page. -/
theorem detach (hholds : pt'.holds = update pt.holds x none) (hx : pt.holds x = some pa)
    (hdir : ∀ i, 512 ≤ i → pt.dir i = none → pt'.dir i = none) :
    Lent t pool s₀ (pa :: hand) (s.setTable t (some pt')) where
  loan := by
    rw [held_setTable hs hholds]
    exact h.loan.detach (by simpa [held, hs] using hx)
  once a ha := by
    apply h.once a
    rw [held_setTable hs hholds] at ha
    rcases ha with ⟨y, hy⟩ | ha
    · rw [update_apply] at hy
      split_ifs at hy
      exact .inl ⟨y, hy⟩
    · rcases mem_cons.mp ha with rfl | ha
      · exact .inl ⟨x, by simpa [held, hs] using hx⟩
      · exact .inr ha
  mem := h.mem
  ref := h.ref
  kend := h.kend
  shallow := h.shallow_setTable hs hdir

theorem keep (hholds : pt'.holds = pt.holds)
    (hdir : ∀ i, 512 ≤ i → pt.dir i = none → pt'.dir i = none) :
    Lent t pool s₀ hand (s.setTable t (some pt')) := by
  have hheld : (s.setTable t (some pt')).held t = s.held t := by
    funext y
    simp [held, setTable, hs, hholds]
  exact {
    loan := by
      rw [hheld]
      exact h.loan
    once := fun a ha => h.once a (by rwa [hheld] at ha)
    mem := h.mem
    ref := h.ref
    kend := h.kend
    shallow := h.shallow_setTable hs hdir }

/-- The root goes last. -/
theorem dropRoot
    (hdir : ∀ i, pt.dir i = none) : Lent t pool s₀ (pt.root :: hand) (s.setTable t none) := by
  have hempty : ∀ v, pt.trans v = none := fun v => by
    simp [PageTable.trans, PageTable.lookup, hdir]
  have hheld : (s.setTable t none).held t = update (s.held t) .root none := by
    funext y
    cases y <;> simp [held, setTable, hs, PageTable.holds, hdir, hempty]
  have hroot : s.held t .root = some pt.root := by simp [held, hs, PageTable.holds]
  exact {
    loan := by
      rw [hheld]
      exact h.loan.detach hroot
    once := fun a ha => by
      apply h.once a
      rw [hheld] at ha
      rcases ha with ⟨y, hy⟩ | ha
      · rw [update_apply] at hy
        split_ifs at hy
        exact .inl ⟨y, hy⟩
      · rcases mem_cons.mp ha with rfl | ha
        · exact .inl ⟨.root, hroot⟩
        · exact .inr ha
    mem := h.mem
    ref := h.ref
    kend := h.kend
    shallow := fun pt1 hpt1 => by simp [setTable] at hpt1 }

end

theorem newRoot (h : Lent t pool s₀ (pa :: hand) s) (hs : s.table t = none) :
    Lent t pool s₀ hand
      (s.setTable t (some ⟨pa, fun _ => none, fun _ => none, fun _ => .zero⟩)) := by
  set pt : PageTable := ⟨pa, fun _ => none, fun _ => none, fun _ => .zero⟩ with hpt
  have hempty : ∀ v, pt.trans v = none := fun v => by
    simp [hpt, PageTable.trans, PageTable.lookup]
  have hheld : (s.setTable t (some pt)).held t = update (s.held t) .root (some pa) := by
    funext y
    cases y <;> simp [held, setTable, hs, PageTable.holds, hempty] <;> simp [hpt]
  exact {
    loan := by
      rw [hheld]
      exact h.loan.attach (by simp [held, hs])
    once := fun a ha => by
      apply h.once a
      rw [hheld] at ha
      rcases ha with ⟨y, hy⟩ | ha
      · rw [update_apply] at hy
        split_ifs at hy
        · cases hy
          exact .inr mem_cons_self
        · exact .inl ⟨y, hy⟩
      · exact .inr (mem_cons_of_mem pa ha)
    mem := h.mem
    ref := h.ref
    kend := h.kend
    shallow := fun pt1 hpt1 i _ => by
      obtain rfl : pt = pt1 := by simpa [setTable] using hpt1
      rfl }

theorem freesTables : FreesTables t (Lent t pool s₀ hand) where
  dropTab {s pt k pa} h hs hdir hk hleaf _ :=
    (h.detach hs (holds_dropTab hleaf) (by simp [holds, hdir, hk])
      fun _ _ hi => hi).freed
  dropDir {s pt k pa} h hs hk hempty _ :=
    (h.detach hs (holds_dropDir hempty) (by simp [holds, hk]) fun i _ hi => by
      by_cases hik : i = k <;> simp [dropDir, hik, hi]).freed
  dropRoot h hs hempty _ := (h.dropRoot hs hempty).freed

end Lent

section Functions

variable {t p va pa i n sz : ℕ} {pool : ℕ → Prop} {s₀ s s' : Kernel} {hand : List ℕ}
  {perm : Perm} {b doFree : Bool} {u : PUnit}

theorem PageTable.holds_reperm {pt : PageTable} {v : ℕ} {pte : Pte} (hl : pt.lookup v = some pte) :
    (pt.withLeaf v { pte with perm }).holds = pt.holds := by
  have hsome : (pt.lookup v).isSome := by simp [hl]
  by_cases hv : v < trapVpn
  · rw [holds_withLeaf hsome hv, update_eq_self_iff]
    by_cases hval : pte.valid = true <;> simp [holds, hv, PageTable.trans, hl, hval]
  · exact holds_withLeaf_of_ge hsome (by omega)

variable (h : Lent t pool s₀ hand s)
include h

theorem walk_lent (hx : walk t va s = .ok b s') : Lent t pool s₀ hand s' := by
  obtain ⟨pt, new, -, -, hnew, -⟩ := walk_cases hx
  clear hx
  induction hnew with
  | refl s => exact h
  | attach hf hs ha _ ih =>
    obtain ⟨x, -, hx, hholds⟩ := ha.place
    exact ih ((h.allocated hf).attach hs hholds hx ha.dir)

omit h in
theorem mappages_lent (h : Lent t pool s₀ (pa :: hand) s)
    (hv : b = true → va / pgSize < trapVpn) (hx : mappages t va pa perm s = .ok b s') :
    Lent t pool s₀ (if b then hand else pa :: hand) s' := by
  obtain ⟨s1, hwalk, ⟨rfl, rfl⟩ | ⟨rfl, hl, hn, rfl⟩⟩ := mappages_walk hx
  · exact walk_lent h hwalk
  · obtain ⟨pt, hs, hl⟩ := exists_table_of_lookup hl
    have hnone : pt.trans (va / pgSize) = none := by simpa [Kernel.trans, hs] using hn
    rw [withPte_eq hs]
    apply (walk_lent h hwalk).attach hs (holds_withLeaf hl (hv rfl))
    · simp [holds, hnone]
    · exact fun _ _ hk => hk

theorem mappages_lent_of_ge (hv : trapVpn ≤ va / pgSize)
    (hx : mappages t va pa perm s = .ok b s') : Lent t pool s₀ hand s' := by
  obtain ⟨s1, hwalk, ⟨rfl, rfl⟩ | ⟨rfl, hl, -, rfl⟩⟩ := mappages_walk hx
  · exact walk_lent h hwalk
  · obtain ⟨pt, hs, hl⟩ := exists_table_of_lookup hl
    rw [withPte_eq hs]
    exact (walk_lent h hwalk).keep hs (holds_withLeaf_of_ge hl hv) fun _ _ hk => hk

theorem Lent.unmapped {v : ℕ} {pte pte' : Pte}
    (ht : s.trans t v = some pte) (hv : v < trapVpn) (hval : pte'.valid = false) :
    Lent t pool s₀ (pte.ppn :: hand) (s.withPte t v pte') := by
  obtain ⟨pt, hs, hl⟩ := exists_table_of_lookup (lookup_isSome_of_trans ht)
  have htrans : pt.trans v = some pte := by simpa [Kernel.trans, hs] using ht
  rw [withPte_eq hs]
  apply h.detach hs (x := .leaf v)
  · rw [holds_withLeaf hl hv, hval]
    rfl
  · simp [holds, hv, htrans]
  · exact fun _ _ hk => hk

theorem Lent.withPte_of_ge {v : ℕ} {pte : Pte}
    (hl : (s.lookup t v).isSome) (hv : trapVpn ≤ v) : Lent t pool s₀ hand (s.withPte t v pte) := by
  obtain ⟨pt, hs, hl⟩ := exists_table_of_lookup hl
  rw [withPte_eq hs]
  exact h.keep hs (holds_withLeaf_of_ge hl hv) fun _ _ hk => hk

theorem uvmunmapPage_lent
    (hfree : ∀ pte, s.trans t (va / pgSize) = some pte → (doFree = true ↔ va / pgSize < trapVpn))
    (hx : uvmunmapPage t va doFree s = .ok u s') : Lent t pool s₀ hand s' := by
  obtain ⟨-, ⟨-, rfl⟩ | ⟨pte, ht, ⟨rfl, -, rfl⟩ | ⟨rfl, rfl⟩⟩⟩ := uvmunmapPage_cases hx
  · exact h
  · exact (h.unmapped ht ((hfree pte ht).mp rfl) rfl).freed
  · have hge : trapVpn ≤ va / pgSize := by simpa using hfree pte ht
    exact h.withPte_of_ge (lookup_isSome_of_trans ht) hge

theorem uvmunmap_lent (hfree : ∀ v pte, va / pgSize ≤ v → v < va / pgSize + n → v < maxVa / pgSize →
      s.trans t v = some pte → (doFree = true ↔ v < trapVpn))
    (hx : uvmunmap t va n doFree s = .ok u s') : Lent t pool s₀ hand s' := by
  unfold uvmunmap at hx
  obtain ⟨-, hx⟩ := throw_ite_ok hx
  refine (loop_ok (I := fun k x => Lent t pool s₀ hand x ∧
    ∀ v pte, x.trans t v = some pte → s.trans t v = some pte) hx ⟨h, fun _ _ ht => ht⟩ ?_).1
  rintro k x x' - hk ⟨hl, hsub⟩ hpage
  have hdiv : (va + k * pgSize) / pgSize = va / pgSize + k :=
    Nat.add_mul_div_right va k (by decide)
  obtain ⟨-, hva, htrans⟩ := uvmunmapPage_spec hpage
  refine ⟨uvmunmapPage_lent hl (fun pte ht => ?_) hpage, fun v pte ht => ?_⟩
  · have hlt := div_lt_of_lt hva
    rw [hdiv] at ht hlt ⊢
    exact hfree _ pte (by omega) (by omega) hlt (hsub _ _ ht)
  · rw [htrans] at ht
    split_ifs at ht
    exact hsub v pte ht

theorem uvmfree_lent
    (hlow : ∀ v pte, v < pgRoundUp sz / pgSize → v < maxVa / pgSize → s.trans t v = some pte →
      v < trapVpn) (hx : uvmfree t sz s = .ok u s') :
    Lent t pool s₀ hand s' ∧ s'.table t = none := by
  unfold uvmfree at hx
  by_cases hsz : sz > 0
  · rw [if_pos hsz] at hx
    obtain ⟨_, s1, hunmap, hx⟩ := bind_ok.mp hx
    have h1 : Lent t pool s₀ hand s1 := by
      apply uvmunmap_lent h _ hunmap
      intro v pte _ hv hmax ht
      rw [Nat.zero_div, Nat.zero_add] at hv
      simpa using hlow v pte hv hmax ht
    exact Lent.freesTables.freewalk h1 h1.shallow hx
  · rw [if_neg hsz] at hx
    exact Lent.freesTables.freewalk h h.shallow (by simpa using hx)

theorem procFreepagetable_lent
    (hx : procFreepagetable t sz s = .ok u s') : Lent t pool s₀ hand s' ∧ s'.table t = none := by
  unfold procFreepagetable at hx
  obtain ⟨_, s1, h1, hx⟩ := bind_ok.mp hx
  obtain ⟨_, s2, h2, hx⟩ := bind_ok.mp hx
  have hone : ∀ {a w : ℕ}, trapVpn ≤ a / pgSize → a / pgSize ≤ w →
      (false = true ↔ w < trapVpn) := by
    intro a w ha hw
    simp only [Bool.false_eq_true, false_iff]
    omega
  have hl1 := uvmunmap_lent h (fun _ _ hv _ _ _ => hone (by rw [trampoline_div]; omega) hv) h1
  have hl2 := uvmunmap_lent hl1 (fun _ _ hv _ _ _ => hone (by rw [trapframe_div]) hv) h2
  apply uvmfree_lent hl2 _ hx
  intro v pte _ hmax ht
  have htop : maxVa / pgSize = trapVpn + 2 := by decide
  rw [(uvmunmap_spec h2).2, (uvmunmap_spec h1).2, trampoline_div, trapframe_div] at ht
  split_ifs at ht
  omega

theorem uvmcreate_lent (hn : s.table t = none)
    (hx : uvmcreate t s = .ok b s') : Lent t pool s₀ hand s' := by
  obtain ⟨-, rfl⟩ | ⟨-, pa, rest, hf, rfl⟩ := uvmcreate_cases hx
  · exact h
  · exact (h.allocated hf).newRoot hn

theorem procPagetableIn_lent (hn : s.table t = none)
    (hx : procPagetableIn t p s = .ok b s') : Lent t pool s₀ hand s' := by
  have hundo : ∀ {x x' : Kernel} {u : PUnit}, Lent t pool s₀ hand x →
      uvmfree t 0 x = .ok u x' → Lent t pool s₀ hand x' := fun hl hfree =>
    (uvmfree_lent hl (fun v _ hv => absurd hv (by simp [pgRoundUp, pgSize])) hfree).1
  rcases procPagetableIn_cases hx with ⟨-, hcreate⟩ | ⟨s1, hcreate, hx⟩
  · exact uvmcreate_lent h hn hcreate
  have h1 := uvmcreate_lent h hn hcreate
  have htramp : trapVpn ≤ trampoline / pgSize := by rw [trampoline_div]; omega
  rcases hx with ⟨-, s2, hx2, hfree⟩ | ⟨s2, hx2, hx⟩
  · exact hundo (mappages_lent_of_ge h1 htramp hx2) hfree
  have h2 := mappages_lent_of_ge h1 htramp hx2
  rcases hx with ⟨-, s3, s4, hx3, hunmap, hfree⟩ | ⟨-, hx3⟩
  · have h3 := mappages_lent_of_ge h2 trapframe_div.ge hx3
    refine hundo (uvmunmap_lent h3 (fun v _ hv _ _ _ => ?_) hunmap) hfree
    rw [trampoline_div] at hv
    simp only [Bool.false_eq_true, false_iff]
    omega
  · exact mappages_lent_of_ge h2 trapframe_div.ge hx3

theorem uvmdealloc_lent {oldsz newsz r : ℕ}
    (hold : oldsz ≤ newsz ∨ oldsz ≤ Xv6.trapframe) (hx : uvmdealloc t oldsz newsz s = .ok r s') :
    Lent t pool s₀ hand s' := by
  unfold uvmdealloc at hx
  rcases pure_ite_ok hx with ⟨-, -, rfl⟩ | ⟨hlt, hx⟩
  · exact h
  have hmax : oldsz ≤ maxVa := by
    have := trapframe_le
    omega
  have hle : newsz ≤ oldsz := Nat.le_of_not_le hlt
  rw [pgRoundUp64_eq hmax, pgRoundUp64_eq (hle.trans hmax)] at hx
  by_cases hpos : pgRoundUp newsz < pgRoundUp oldsz
  · rw [if_pos hpos, pages_int hmax] at hx
    obtain ⟨_, s1, hun, hx⟩ := bind_ok.mp hx
    obtain ⟨-, rfl⟩ := pure_ok.mp hx
    apply uvmunmap_lent h _ hun
    intro v pte _ hv _ _
    have hend : pgRoundUp oldsz / pgSize ≤ trapVpn := pgRoundUp_div_le_trapVpn (by omega)
    have hmono := pgRoundUp_div_mono hle
    simp only [true_iff]
    omega
  · rw [if_neg hpos] at hx
    obtain ⟨-, rfl⟩ := pure_ok.mp hx
    exact h

/-- New pages lie below the trapframe. -/
theorem uvmallocLoop_lent {start a k : ℕ} (hsp : s.Special t)
    (hmod : a % pgSize = 0) (hbound : a = start ∨ a ≤ Xv6.trapframe)
    (hx : uvmallocLoop t start perm k a s = .ok b s') : Lent t pool s₀ hand s' := by
  induction k generalizing s a with
  | zero =>
    obtain ⟨-, rfl⟩ := pure_ok.mp hx
    exact h
  | succ k ih =>
    unfold uvmallocLoop at hx
    obtain ⟨o, s1, hk, hnext⟩ := bind_ok.mp hx
    have hundo : ∀ {x x' : Kernel} {r : ℕ}, Lent t pool s₀ hand x →
        uvmdealloc t a start x = .ok r x' → Lent t pool s₀ hand x' := fun hl hd =>
      uvmdealloc_lent hl (hbound.imp_left fun he => he.le) hd
    rcases kalloc_ok hk with ⟨rfl, rfl⟩ | ⟨mem, rest, rfl, hf, rfl⟩
    · simp only [bind_ok, pure_ok] at hnext
      obtain ⟨_, _, hd, -, rfl⟩ := hnext
      exact hundo h hd
    · simp only [bind_ok, modify_ok] at hnext
      obtain ⟨_, _, rfl, b1, s3, hmap, hnext⟩ := hnext
      have h2 : Lent t pool s₀ (mem :: hand) ((s.allocated mem rest).setPage mem fun _ => 0) :=
        (h.allocated hf).setPage (h.loan.spare mem (by simp [hf])) _
      obtain ⟨-, hva, hwas, htrans⟩ := mappages_spec hmap
      have hlow : b1 = true → a / pgSize < trapVpn := fun hb =>
        hsp.lt_of_none hva (hwas hb)
      have h3 := mappages_lent h2 hlow hmap
      cases b1 with
      | true =>
        have htf := trapframe_mul
        have hlt := hlow rfl
        refine ih h3 ?_ (by rw [Nat.add_mod_right, hmod]) (.inr ?_) hnext
        · intro v hv hmax
          obtain ⟨pte, ht, hu⟩ := hsp v hv hmax
          refine ⟨pte, ?_, hu⟩
          rw [htrans, if_neg (by omega)]
          exact ht
        · unfold pgSize at *
          omega
      | false =>
        simp only [Bool.false_eq_true, if_false, bind_ok, pure_ok] at hnext
        obtain ⟨_, s4, hfree, _, s5, hd, -, rfl⟩ := hnext
        obtain ⟨-, rfl⟩ := kfree_ok hfree
        exact hundo (Lent.freed (by simpa using h3)) hd

theorem uvmalloc_lent {oldsz newsz r : ℕ} (hsp : s.Special t)
    (hx : uvmalloc t oldsz newsz perm s = .ok r s') : Lent t pool s₀ hand s' := by
  unfold uvmalloc at hx
  rcases pure_ite_ok hx with ⟨-, -, rfl⟩ | ⟨-, hx⟩
  · exact h
  obtain ⟨b, s1, hloop, hx⟩ := bind_ok.mp hx
  have h1 := uvmallocLoop_lent h hsp (pgRoundUp64_mod oldsz) (.inl rfl) hloop
  rcases pure_ite_ok hx with ⟨-, -, rfl⟩ | ⟨-, hx⟩
  · exact h1
  · obtain ⟨-, rfl⟩ := pure_ok.mp hx
    exact h1

theorem uvmclear_lent (hx : uvmclear t va s = .ok u s') : Lent t pool s₀ hand s' := by
  unfold uvmclear at hx
  rw [get_run] at hx
  obtain ⟨-, hx⟩ := throw_ite_ok hx
  cases hl : s.lookup t (va / pgSize) with
  | none => simp [hl] at hx
  | some pte =>
    simp only [hl, set_ok] at hx
    obtain ⟨pt, hs, hl'⟩ := bind_eq_some_iff.mp hl
    rw [← hx, withPte_eq hs]
    exact h.keep hs (holds_reperm hl') fun _ _ hk => hk

theorem Lent.congr (hfree : s'.freelist = s.freelist)
    (href : s'.ref = s.ref) (hmem : s'.mem = s.mem) (htable : s'.table t = s.table t)
    (hkend : s'.kend = s.kend) : Lent t pool s₀ hand s' := by
  have hheld : s'.held t = s.held t := by
    funext x
    simp [held, htable]
  constructor
  · rw [hheld, hfree]
    exact h.loan
  · rw [hheld, href]
    exact h.once
  · rw [hmem]
    exact h.mem
  · rw [href]
    exact h.ref
  · rw [hkend]
    exact h.kend
  · intro pt hpt
    exact h.shallow pt (htable ▸ hpt)

theorem Lent.scribbled (hlow : ∀ v pte, s.trans t v = some pte → pte.perm.u = true → v < trapVpn)
    (hs : Scribbled t s s') : Lent t pool s₀ hand s' := by
  obtain ⟨mm, rfl, hmm⟩ := hs
  refine ⟨h.loan, h.once, fun pa hpa => ?_, h.ref, h.kend, h.shallow⟩
  refine (hmm pa fun va hwalk => hpa ?_).trans (h.mem pa hpa)
  obtain ⟨-, pte, ht, hu, rfl⟩ := walkaddr_some hwalk
  apply h.loan.held (.leaf (va / pgSize))
  have hbind : (s.table t).bind (·.trans (va / pgSize)) = some pte := ht
  obtain ⟨pt, hs, htrans⟩ := bind_eq_some_iff.mp hbind
  simp [held, hs, holds, hlow _ _ ht hu, htrans]

end Functions

section Exec

variable {p : ℕ} {pool : ℕ → Prop} {s₀ s s' : Kernel} {ip : Option ℕ}

theorem iunlock_lent {t i : ℕ} {hand : List ℕ} {u : PUnit} (h : Lent t pool s₀ hand s)
    (hx : iunlock i s = .ok u s') : Lent t pool s₀ hand s' := by
  unfold iunlock at hx
  rw [← modify_ok.mp hx]
  exact h.congr rfl rfl rfl rfl rfl

theorem FilesOnly.lent {α : Type} {t : ℕ} {hand : List ℕ} {x : KernelM α} {a : α}
    (hf : FilesOnly x) (h : Lent t pool s₀ hand s) (hx : x s = .ok a s') :
    Lent t pool s₀ hand s' := by
  obtain ⟨_, _, rfl, -⟩ := hf s a s' hx
  exact h.congr rfl rfl rfl rfl rfl

theorem execHead_lent {o : Option (ℕ × Segments)} (h : Lent (spare p) pool s₀ [] s)
    (hn : s.table (spare p) = none) (hx : execHead p ip s = .ok o s') :
    Lent (spare p) pool s₀ [] s' := by
  unfold execHead at hx
  rcases pure_ite_ok hx with ⟨-, -, rfl⟩ | ⟨-, hx⟩
  · exact h
  obtain ⟨i, s1, hlock, hx⟩ := bind_ok.mp hx
  obtain ⟨-, -, rfl⟩ := ilock_ok hlock
  obtain ⟨⟨bytes, n⟩, s2, hread, hx⟩ := bind_ok.mp hx
  have h1 : Lent (spare p) pool s₀ [] { s with ilocked := i :: s.ilocked } :=
    h.congr rfl rfl rfl rfl rfl
  have h2 := FilesOnly.readKernel.lent h1 hread
  have hn2 : s2.table (spare p) = none := by
    obtain ⟨_, _, rfl, -⟩ := FilesOnly.readKernel _ _ _ hread
    exact hn
  rcases ite_ok hx with ⟨-, hx⟩ | ⟨-, hx⟩
  · simp only [bind_ok, pure_ok] at hx
    obtain ⟨_, _, hun, -, rfl⟩ := hx
    exact iunlock_lent h2 hun
  obtain ⟨b, s3, hcreate, hx⟩ := bind_ok.mp hx
  have h3 := procPagetableIn_lent h2 hn2 hcreate
  rcases ite_ok hx with ⟨-, hx⟩ | ⟨-, hx⟩
  swap
  · simp only [bind_ok, pure_ok] at hx
    obtain ⟨_, _, hun, -, rfl⟩ := hx
    exact iunlock_lent h3 hun
  obtain ⟨o4, s4, hload, hx⟩ := bind_ok.mp hx
  have h4 := FilesOnly.loadSegments.lent h3 hload
  cases o4 with
  | none =>
    simp only [bind_ok, pure_ok] at hx
    obtain ⟨_, s5, hfree, _, _, hun, -, rfl⟩ := hx
    exact iunlock_lent (procFreepagetable_lent h4 hfree).1 hun
  | some g =>
    obtain ⟨-, rfl⟩ := pure_ok.mp hx
    exact h4

theorem execImage_lent {g : Segments} {argv : List (List UInt8)}
    (h : Lent (spare p) pool s₀ [] s) (hh : s.Hollow (spare p))
    (hx : execImage p g argv s = .ok false s') : Lent (spare p) pool s₀ [] s' := by
  unfold execImage at hx
  rw [get_run] at hx
  obtain ⟨sz, s1, halloc, hx⟩ := bind_ok.mp hx
  have h1 := uvmalloc_lent h hh.1 halloc
  rcases ite_ok hx with ⟨-, hx⟩ | ⟨hsz, hx⟩
  · simp only [bind_ok, pure_ok] at hx
    obtain ⟨_, _, hfree, -, rfl⟩ := hx
    exact (procFreepagetable_lent h1 hfree).1
  obtain ⟨_, s2, hclear, hx⟩ := bind_ok.mp hx
  have h2 := uvmclear_lent h1 hclear
  obtain ⟨rfl, hst⟩ := stacked_of_image hh halloc hsz hclear
  obtain ⟨b3, s3, hpush, hx⟩ := bind_ok.mp hx
  have h3 : Lent (spare p) pool s₀ [] s3 := by
    apply h2.scribbled _ (pushStack_ok (spare_ne p) hpush)
    intro v pte ht hu
    exact hst.low ht hu
  rcases ite_ok hx with ⟨-, hx⟩ | ⟨-, hx⟩
  · obtain ⟨_, _, -, hx⟩ := bind_ok.mp hx
    obtain ⟨_, _, -, hx⟩ := bind_ok.mp hx
    obtain ⟨_, _, -, hx⟩ := bind_ok.mp hx
    cases (pure_ok.mp hx).1
  · simp only [bind_ok, pure_ok] at hx
    obtain ⟨_, _, hfree, -, rfl⟩ := hx
    exact (procFreepagetable_lent h3 hfree).1

/-- When `exec` fails, all pages it took are free again, and no other page was touched. -/
theorem exec_lent {argv : List (List UInt8)} (hn : s.table (spare p) = none)
    (hx : exec p ip argv s = .ok false s') : Lent (spare p) (· ∈ s.freelist) s [] s' := by
  rw [exec_eq] at hx
  obtain ⟨o, s1, hhead, hx⟩ := bind_ok.mp hx
  have h1 := execHead_lent (Lent.start hn) hn hhead
  obtain ⟨-, -, hsome⟩ := execHead_ok hn hhead
  cases o with
  | none =>
    obtain ⟨-, rfl⟩ := pure_ok.mp hx
    exact h1
  | some ig =>
    obtain ⟨-, -, hhollow, -⟩ := hsome ig.1 ig.2 rfl
    simp only [bind_ok, modify_ok] at hx
    obtain ⟨_, _, rfl, _, s2, hun, hx⟩ := hx
    have h2 : Lent (spare p) (· ∈ s.freelist) s [] (s1.setSegments p ig.2 ig.1) :=
      h1.congr rfl rfl rfl rfl rfl
    have h3 := iunlock_lent h2 hun
    unfold iunlock at hun
    obtain rfl := modify_ok.mp hun
    exact execImage_lent h3 hhollow hx

end Exec

end Xv6.Vm
