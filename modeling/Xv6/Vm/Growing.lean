import Xv6.Vm.TableReturns

/-!
# Pages added to a page table

`uvmalloc` and `_uvmcopy` take pages from the free list and enter them in a page table, and
take them out again when they run out of memory. `Grown` keeps the accounts: every page that
has left the free list is one of the new leaves or one of the tables that `walk` had to make.
-/
namespace Xv6.Vm

open Library Function List

/-- Page `pa` is a table of page table `t`, below its root. -/
def Kernel.TablePage (s : Kernel) (t pa : ℕ) : Prop := ∃ x : Slot, x.IsTable ∧ s.held t x = some pa

section Tables

variable {t va pa v i : ℕ} {s s' : Kernel} {b : Bool} {pte : Pte} {perm : Perm}

theorem kfree_eq (hr : s.InRange pa) (href : s.ref pa = 1) : kfree pa s = .ok ⟨⟩ (s.freed pa) := by
  unfold kfree
  rw [get_run]
  rw [if_pos hr, if_pos href]
  exact rfl

theorem uvmunmapPage_none {doFree : Bool} (hva : va < maxVa)
    (ht : s.trans t (va / pgSize) = none) : uvmunmapPage t va doFree s = .ok ⟨⟩ s := by
  unfold uvmunmapPage
  rw [get_run]
  rw [if_neg (by omega)]
  simp [ht]

theorem uvmunmapPage_some (hva : va < maxVa) (ht : s.trans t (va / pgSize) = some pte)
    (hperm : pte.perm ≠ ⟨false, false, false, false⟩) (hr : s.InRange pte.ppn)
    (href : s.ref pte.ppn = 1) :
    uvmunmapPage t va true s = .ok ⟨⟩ ((s.freed pte.ppn).withPte t (va / pgSize) .zero) := by
  unfold uvmunmapPage
  rw [get_run]
  rw [if_neg (by omega)]
  simp only [ht]
  rw [if_neg hperm, if_pos trivial]
  exact bind_ok.mpr ⟨⟨⟩, _, kfree_eq hr href, rfl⟩

theorem Kernel.TablePage.attach {x : Slot} {a : ℕ}
    (h : s'.held t = update (s.held t) x (some a)) (hx : s.held t x = none)
    (htab : x.IsTable) :
    s'.TablePage t a ∧ ∀ pa, s.TablePage t pa → s'.TablePage t pa := by
  refine ⟨⟨x, htab, by simp [h]⟩, ?_⟩
  rintro pa ⟨y, hy, hpa⟩
  have hne : y ≠ x := by
    rintro rfl
    simp [hx] at hpa
  exact ⟨y, hy, by rw [h, update_of_ne hne, hpa]⟩

theorem Kernel.TablePage.withPte (h : s.TablePage t pa) : (s.withPte t v pte).TablePage t pa := by
  obtain ⟨x, hx, hpa⟩ := h
  refine ⟨x, hx, ?_⟩
  obtain ⟨pt, hs, hpt⟩ := Option.bind_eq_some_iff.mp hpa
  have hs' : (s.withPte t v pte).table t = some (pt.withLeaf v pte) := by
    simp [Kernel.withPte, Kernel.setTable, hs]
  have hholds : (pt.withLeaf v pte).holds x = pt.holds x := by
    cases x with
    | dir k => rfl
    | tab k => rfl
    | root => cases hx
    | leaf w => cases hx
  simp [Kernel.held, hs', hholds, hpt]

/-- Pages that were taken from the free list became tables. -/
structure Tabled (t : ℕ) (s s' : Kernel) (new : List ℕ) : Prop where
  taken : s.freelist = new ++ s'.freelist
  made : ∀ pa ∈ new, s'.TablePage t pa
  kept : ∀ pa, s.TablePage t pa → s'.TablePage t pa

namespace Tabled

theorem refl (s : Kernel) : Tabled t s s [] := ⟨rfl, by simp, fun _ h => h⟩

theorem trans {s1 : Kernel} {new new' : List ℕ} (h : Tabled t s s1 new) (h' : Tabled t s1 s' new') :
    Tabled t s s' (new ++ new') where
  taken := by rw [h.taken, h'.taken, append_assoc]
  made pa hpa := by
    rcases mem_append.mp hpa with hpa | hpa
    · exact h'.kept pa (h.made pa hpa)
    · exact h'.made pa hpa
  kept pa hpa := h'.kept pa (h.kept pa hpa)

theorem attach {pt pt' : PageTable} {x : Slot} {rest : List ℕ} (hf : s.freelist = pa :: rest)
    (hs : s.table t = some pt) (hholds : pt'.holds = update pt.holds x (some pa))
    (hx : pt.holds x = none) (htab : x.IsTable) :
    Tabled t s ((s.allocated pa rest).setTable t (some pt')) [pa] := by
  have hs1 : (s.allocated pa rest).table t = some pt := hs
  have hheld := Lent.held_setTable hs1 hholds
  have hnone : (s.allocated pa rest).held t x = none := by simp [Kernel.held, hs1, hx]
  obtain ⟨hmade, hkept⟩ := Kernel.TablePage.attach hheld hnone htab
  refine ⟨hf, by simpa using hmade, fun a ha => hkept a ha⟩

end Tabled

theorem walk_tabled (hx : walk t va s = .ok b s') : ∃ new, Tabled t s s' new := by
  obtain ⟨pt, new, -, -, hnew, -⟩ := walk_cases hx
  refine ⟨new, ?_⟩
  clear hx
  induction hnew with
  | refl s => exact .refl s
  | attach hf hs ha _ ih =>
    obtain ⟨x, htab, hx, hholds⟩ := ha.place
    exact (Tabled.attach hf hs hholds hx htab).trans ih

theorem mappages_suffix (hx : mappages t va pa perm s = .ok b s') :
    s'.freelist <:+ s.freelist := by
  obtain ⟨s1, hwalk, hcase⟩ := mappages_walk hx
  obtain ⟨new, htab⟩ := walk_tabled hwalk
  have hsuffix : s1.freelist <:+ s.freelist := ⟨new, htab.taken.symm⟩
  rcases hcase with ⟨-, rfl⟩ | ⟨-, -, -, rfl⟩ <;> exact hsuffix

theorem procPagetableIn_suffix {p : ℕ} (hx : procPagetableIn t p s = .ok true s') :
    s'.freelist <:+ s.freelist := by
  rcases procPagetableIn_cases hx with ⟨hb, -⟩ |
    ⟨s1, hcreate, ⟨hb, -⟩ | ⟨s2, hmap, ⟨hb, -⟩ | ⟨-, hmap'⟩⟩⟩
  · cases hb
  · cases hb
  · cases hb
  obtain ⟨hb, -⟩ | ⟨-, pa, rest, hf, rfl⟩ := uvmcreate_cases hcreate
  · cases hb
  · exact (mappages_suffix hmap').trans ((mappages_suffix hmap).trans ⟨[pa], hf.symm⟩)

end Tables

/-- Since state `s₀`, page table `t` was given the pages `leaves`, by page number, with the
given permissions and contents, and the tables `tabs`; the running call has the pages `hand`. -/
structure Grown (t : ℕ) (perm : ℕ → Perm) (content : ℕ → Bytes) (s₀ : Kernel) (hand : List ℕ)
    (leaves : List (ℕ × ℕ)) (tabs : List ℕ) (s : Kernel) : Prop where
  frame : Reworked t s₀ s
  present : s.Has t
  distinct : (leaves.map Prod.fst).Nodup
  new : ∀ v pa, (v, pa) ∈ leaves → s₀.trans t v = none ∧ s.trans t v = some ⟨true, perm v, pa⟩ ∧
    s.mem pa = content v ∧ s.ref pa = 1
  old : ∀ v, v ∉ leaves.map Prod.fst → s.trans t v = s₀.trans t v
  account : (hand ++ leaves.map Prod.snd ++ tabs ++ s.freelist).Perm s₀.freelist
  tables : ∀ pa ∈ tabs, s.TablePage t pa
  mem : ∀ pa, pa ∉ s₀.freelist → s.mem pa = s₀.mem pa
  ref : ∀ pa, pa ∉ s₀.freelist → s.ref pa = s₀.ref pa

namespace Grown

variable {t va pa v : ℕ} {perm : ℕ → Perm} {content : ℕ → Bytes} {s₀ s s' : Kernel}
  {hand rest tabs : List ℕ} {leaves : List (ℕ × ℕ)}

theorem start (h : s.Has t) : Grown t perm content s [] [] [] s where
  frame := Reworked.refl s
  present := h
  distinct := nodup_nil
  new := by simp
  old _ _ := rfl
  account := List.Perm.refl _
  tables := by simp
  mem _ _ := rfl
  ref _ _ := rfl

theorem leaf_ne (h : Grown t perm content s₀ (pa :: hand) leaves tabs s)
    (hnd : s₀.freelist.Nodup) {a : ℕ} (hl : (v, a) ∈ leaves) : a ≠ pa := by
  rintro rfl
  have hn := h.account.nodup_iff.mpr hnd
  simp only [cons_append, nodup_cons, mem_append] at hn
  exact hn.1 (.inl (.inl (.inr (mem_map_of_mem hl))))

/-- A page in hand becomes a leaf. -/
theorem map (h : Grown t perm content s₀ (pa :: hand) leaves tabs s)
    (hl : (s.lookup t v).isSome) (hnone : s.trans t v = none) (hv : s₀.trans t v = none)
    (hmem : s.mem pa = content v) (href : s.ref pa = 1) :
    Grown t perm content s₀ hand ((v, pa) :: leaves) tabs
      (s.withPte t v ⟨true, perm v, pa⟩) := by
  have hnew : v ∉ leaves.map Prod.fst := by
    intro hc
    obtain ⟨⟨w, a⟩, hmem', rfl⟩ := mem_map.mp hc
    rw [(h.new w a hmem').2.1] at hnone
    cases hnone
  have htrans : ∀ w, (s.withPte t v ⟨true, perm v, pa⟩).trans t w =
      if w = v then some ⟨true, perm v, pa⟩ else s.trans t w := by
    intro w
    rw [Kernel.trans_withPte hl]
    simp
  constructor
  · exact h.frame.andThen Reworked.withPte
  · exact h.present.map
  · simpa using ⟨by simpa using hnew, h.distinct⟩
  · intro w a hmem'
    rw [htrans]
    rcases mem_cons.mp hmem' with he | hmem'
    · cases he
      exact ⟨hv, if_pos rfl, hmem, href⟩
    · have hne : w ≠ v := fun he => hnew (he ▸ mem_map_of_mem hmem')
      rw [if_neg hne]
      exact h.new w a hmem'
  · intro w hw
    obtain ⟨hne, hw⟩ := not_or.mp (fun hc => hw (mem_cons.mpr hc))
    rw [htrans, if_neg hne]
    exact h.old w hw
  · have hmid : (hand ++ pa :: leaves.map Prod.snd).Perm (pa :: (hand ++ leaves.map Prod.snd)) :=
      perm_middle
    exact ((hmid.append_right tabs).append_right _).trans h.account
  · exact fun a ha => (h.tables a ha).withPte
  · exact h.mem
  · exact h.ref

section

variable (h : Grown t perm content s₀ hand leaves tabs s)
include h

theorem of_free (hpa : pa ∈ s.freelist) : pa ∈ s₀.freelist :=
  h.account.mem_iff.mp (mem_append_right _ hpa)

theorem of_leaf (hl : (v, pa) ∈ leaves) : pa ∈ s₀.freelist := by
  rw [← h.account.mem_iff]
  simp only [mem_append]
  exact .inl (.inl (.inr (mem_map_of_mem hl)))

theorem of_hand (hpa : pa ∈ hand) : pa ∈ s₀.freelist := by
  rw [← h.account.mem_iff]
  simp only [mem_append]
  exact .inl (.inl (.inl hpa))

theorem leaf_taken (hnd : s₀.freelist.Nodup) (hl : (v, pa) ∈ leaves) : pa ∉ s.freelist := by
  intro hfree
  have hdis := (nodup_append.mp (h.account.nodup_iff.mpr hnd)).2.2
  refine hdis pa ?_ pa hfree rfl
  simp only [mem_append]
  exact .inl (.inr (mem_map_of_mem hl))

theorem inRange : s.InRange pa ↔ s₀.InRange pa := by
  obtain ⟨fl, rf, mm, fa, tb, rfl⟩ := h.frame.frame
  exact Iff.rfl

/-- Tables are made; pages in use stay as they are. -/
theorem tabled {new : List ℕ}
    (hnd : s₀.freelist.Nodup) (hq : Quiet s s') (hw : Reworked t s s') (hp : s'.Has t)
    (hnew : Tabled t s s' new) : Grown t perm content s₀ hand leaves (tabs ++ new) s' where
  frame := h.frame.andThen hw
  present := hp
  distinct := h.distinct
  new w a hl := by
    obtain ⟨h1, h2, h3, h4⟩ := h.new w a hl
    have hfree := h.leaf_taken hnd hl
    exact ⟨h1, (hq.trans t w).trans h2, (hq.mem a hfree).trans h3, (hq.ref a hfree).trans h4⟩
  old w hw' := (hq.trans t w).trans (h.old w hw')
  account := by
    have hacc := h.account
    rw [hnew.taken] at hacc
    simpa [append_assoc] using hacc
  tables a ha := by
    rcases mem_append.mp ha with ha | ha
    · exact hnew.kept a (h.tables a ha)
    · exact hnew.made a ha
  mem a ha := (hq.mem a fun hc => ha (h.of_free hc)).trans (h.mem a ha)
  ref a ha := (hq.ref a fun hc => ha (h.of_free hc)).trans (h.ref a ha)

theorem allocated (hnd : s₀.freelist.Nodup) (hf : s.freelist = pa :: rest) :
    Grown t perm content s₀ (pa :: hand) leaves tabs (s.allocated pa rest) := by
  have hpa : pa ∈ s.freelist := by simp [hf]
  constructor
  · exact h.frame.andThen (kalloc_reworked (kalloc_cons hf))
  · exact h.present
  · exact h.distinct
  · intro w a hl
    have hne : a ≠ pa := fun he => h.leaf_taken hnd hl (he ▸ hpa)
    obtain ⟨h1, h2, h3, h4⟩ := h.new w a hl
    simp only [Kernel.allocated, update_of_ne hne]
    exact ⟨h1, h2, h3, h4⟩
  · exact h.old
  · have hacc := h.account
    rw [hf] at hacc
    exact (perm_middle.symm).trans hacc
  · exact h.tables
  · intro a ha
    have hne : a ≠ pa := fun he => ha (he ▸ h.of_free hpa)
    simp only [Kernel.allocated, update_of_ne hne]
    exact h.mem a ha
  · intro a ha
    have hne : a ≠ pa := fun he => ha (he ▸ h.of_free hpa)
    simp only [Kernel.allocated, update_of_ne hne]
    exact h.ref a ha

omit h in
theorem setPage (h : Grown t perm content s₀ (pa :: hand) leaves tabs s)
    (hnd : s₀.freelist.Nodup) (bytes : Bytes) :
    Grown t perm content s₀ (pa :: hand) leaves tabs (s.setPage pa bytes) := by
  refine { h with frame := h.frame.andThen (Reworked.setPage pa bytes), new := ?_, mem := ?_ }
  · intro w a hl
    obtain ⟨h1, h2, h3, h4⟩ := h.new w a hl
    simp only [Kernel.setPage, update_of_ne (h.leaf_ne hnd hl)]
    exact ⟨h1, h2, h3, h4⟩
  · intro a ha
    have hne : a ≠ pa := fun he => ha (he ▸ h.of_hand mem_cons_self)
    simp only [Kernel.setPage, update_of_ne hne]
    exact h.mem a ha

omit h in
theorem freed (h : Grown t perm content s₀ (pa :: hand) leaves tabs s)
    (hnd : s₀.freelist.Nodup) (hr : s₀.InRange pa) (href : s.ref pa = 1) :
    Grown t perm content s₀ hand leaves tabs (s.freed pa) := by
  constructor
  · exact h.frame.andThen (kfree_reworked (kfree_eq (h.inRange.mpr hr) href))
  · exact h.present
  · exact h.distinct
  · intro w a hl
    obtain ⟨h1, h2, h3, h4⟩ := h.new w a hl
    simp only [Kernel.freed, update_of_ne (h.leaf_ne hnd hl)]
    exact ⟨h1, h2, h3, h4⟩
  · exact h.old
  · exact perm_middle.trans h.account
  · exact h.tables
  · intro a ha
    have hne : a ≠ pa := fun he => ha (he ▸ h.of_hand mem_cons_self)
    simp only [Kernel.freed, update_of_ne hne]
    exact h.mem a ha
  · exact h.ref

theorem perm_filter (hl : (v, pa) ∈ leaves) :
    ((v, pa) :: leaves.filter fun l => l.1 ≠ v).Perm leaves := by
  have hnd : leaves.Nodup := List.Nodup.of_map _ h.distinct
  have hsame : (leaves.filter fun l => l.1 ≠ v) = leaves.erase (v, pa) := by
    rw [hnd.erase_eq_filter]
    apply filter_congr
    rintro ⟨w, a⟩ hw
    have hiff : w ≠ v ↔ (w, a) ≠ (v, pa) := by
      refine ⟨fun hne he => hne (Prod.ext_iff.mp he).1, fun hne he => hne ?_⟩
      subst he
      have heq := (h.new w a hw).2.1.symm.trans (h.new w pa hl).2.1
      cases heq
      rfl
    rw [Bool.eq_iff_iff, decide_eq_true_iff, bne_iff_ne]
    exact hiff
  rw [hsame]
  exact (perm_cons_erase hl).symm

/-- A leaf is taken out, and its page is in hand. -/
theorem unmap (hl : (v, pa) ∈ leaves) :
    Grown t perm content s₀ (pa :: hand) (leaves.filter fun l => l.1 ≠ v) tabs
      (s.withPte t v .zero) := by
  obtain ⟨hwas, hnow, -, -⟩ := h.new v pa hl
  have htrans : ∀ w, (s.withPte t v .zero).trans t w = if w = v then none else s.trans t w := by
    intro w
    rw [Kernel.trans_withPte (Kernel.lookup_isSome_of_trans hnow)]
    simp [Pte.zero]
  constructor
  · exact h.frame.andThen Reworked.withPte
  · exact h.present.map
  · exact h.distinct.sublist (filter_sublist.map Prod.fst)
  · intro w a hw
    obtain ⟨hw, hne⟩ := mem_filter.mp hw
    rw [htrans, if_neg (by simpa using hne)]
    exact h.new w a hw
  · intro w hw
    rw [htrans]
    split_ifs with hwv
    · rw [hwv, hwas]
    · refine h.old w fun hc => hw ?_
      obtain ⟨l, hmem, rfl⟩ := mem_map.mp hc
      exact mem_map_of_mem (mem_filter.mpr ⟨hmem, by simpa using hwv⟩)
  · have hsplit := (h.perm_filter hl).map Prod.snd
    rw [map_cons] at hsplit
    have hmid : (pa :: (hand ++ (leaves.filter fun l => l.1 ≠ v).map Prod.snd)).Perm
        (hand ++ leaves.map Prod.snd) :=
      perm_middle.symm.trans (hsplit.append_left hand)
    exact ((hmid.append_right tabs).append_right _).trans h.account
  · exact fun a ha => (h.tables a ha).withPte
  · exact h.mem
  · exact h.ref

end

/-- One pass of `uvmunmap` over a page that was not mapped at first. -/
theorem uvmunmapPage (h : Grown t perm content s₀ [] leaves tabs s) (hnd : s₀.freelist.Nodup)
    (hstock : s₀.Stocks (· ∈ s₀.freelist)) (hva : va < maxVa)
    (hnone : s₀.trans t (va / pgSize) = none)
    (hperm : ∀ v, perm v ≠ ⟨false, false, false, false⟩) :
    ∃ s', Vm.uvmunmapPage t va true s = .ok ⟨⟩ s' ∧
      Grown t perm content s₀ [] (leaves.filter fun l => l.1 ≠ va / pgSize) tabs s' := by
  by_cases hin : va / pgSize ∈ leaves.map Prod.fst
  · obtain ⟨⟨v, pa⟩, hl, hv⟩ := mem_map.mp hin
    simp only at hv
    subst hv
    obtain ⟨-, ht, -, href⟩ := h.new _ pa hl
    have hr : s₀.InRange pa := hstock pa (h.of_leaf hl)
    refine ⟨_, uvmunmapPage_some hva ht (hperm _) (h.inRange.mpr hr) href, ?_⟩
    exact (h.unmap hl).freed hnd hr href
  · have hfilter : (leaves.filter fun l => l.1 ≠ va / pgSize) = leaves := by
      rw [filter_eq_self]
      intro l hl
      have hne : l.1 ≠ va / pgSize := fun he => hin (he ▸ mem_map_of_mem hl)
      simpa using hne
    rw [hfilter]
    refine ⟨s, ?_, h⟩
    have ht : s.trans t (va / pgSize) = none := (h.old _ hin).trans hnone
    exact uvmunmapPage_none hva ht

/-- `uvmunmap` over a range that holds all the new leaves, and held none before. -/
theorem uvmunmap (lo n : ℕ) (h : Grown t perm content s₀ [] leaves tabs s)
    (hnd : s₀.freelist.Nodup) (hstock : s₀.Stocks (· ∈ s₀.freelist))
    (hend : lo + n ≤ maxVa / pgSize) (hin : ∀ l ∈ leaves, lo ≤ l.1 ∧ l.1 < lo + n)
    (hnone : ∀ v, lo ≤ v → v < lo + n → s₀.trans t v = none)
    (hperm : ∀ v, perm v ≠ ⟨false, false, false, false⟩) :
    ∃ s', Vm.uvmunmap t (lo * pgSize) n true s = .ok ⟨⟩ s' ∧
      Grown t perm content s₀ [] [] tabs s' := by
  unfold Vm.uvmunmap
  rw [if_neg (by simp)]
  have hdiv : ∀ j, (lo * pgSize + j * pgSize) / pgSize = lo + j := by
    intro j
    rw [← Nat.add_mul]
    exact Nat.mul_div_cancel _ (by decide)
  -- after `j` passes, the leaves from page `lo + j` on are left
  have hpass : ∀ j, 0 ≤ j → j < 0 + n →
      Triple (fun x => Grown t perm content s₀ [] (leaves.filter fun l => lo + j ≤ l.1) tabs x)
        (Vm.uvmunmapPage t (lo * pgSize + j * pgSize) true)
        (fun _ x => Grown t perm content s₀ [] (leaves.filter fun l => lo + (j + 1) ≤ l.1) tabs x)
        fun _ _ => False := by
    intro j _ hj x hx
    have hva : lo * pgSize + j * pgSize < maxVa := by
      unfold pgSize maxVa at *
      omega
    have hfree : s₀.trans t ((lo * pgSize + j * pgSize) / pgSize) = none := by
      rw [hdiv]
      exact hnone _ (by omega) (by omega)
    obtain ⟨x', hrun, hx'⟩ := hx.uvmunmapPage hnd hstock hva hfree hperm
    rw [hrun]
    rw [hdiv, filter_filter] at hx'
    have hsame : (leaves.filter fun l => decide (l.1 ≠ lo + j) && decide (lo + j ≤ l.1)) =
        leaves.filter fun l => lo + (j + 1) ≤ l.1 := by
      apply filter_congr
      intro l _
      rw [Bool.eq_iff_iff, Bool.and_eq_true, decide_eq_true_iff, decide_eq_true_iff,
        decide_eq_true_iff]
      omega
    rwa [hsame] at hx'
  have hstart : Grown t perm content s₀ [] (leaves.filter fun l => lo + 0 ≤ l.1) tabs s := by
    rw [filter_eq_self.mpr]
    · exact h
    · intro l hl
      simpa using (hin l hl).1
  have hend' : (leaves.filter fun l => lo + (0 + n) ≤ l.1) = [] := by
    rw [filter_eq_nil_iff]
    intro l hl
    have := (hin l hl).2
    simp only [decide_eq_true_iff]
    omega
  obtain ⟨_, s', hrun, hs'⟩ := (Triple.loop 0 n hpass).returns hstart
  exact ⟨s', hrun, hend' ▸ hs'⟩

/-- `uvmdealloc` that removes all the new leaves. -/
theorem uvmdealloc (oldsz newsz : ℕ) (h : Grown t perm content s₀ [] leaves tabs s)
    (hnd : s₀.freelist.Nodup) (hstock : s₀.Stocks (· ∈ s₀.freelist)) (hold : oldsz ≤ maxVa)
    (hin : ∀ l ∈ leaves, pgRoundUp newsz / pgSize ≤ l.1 ∧ l.1 < pgRoundUp oldsz / pgSize)
    (hnone : ∀ v, pgRoundUp newsz / pgSize ≤ v → v < pgRoundUp oldsz / pgSize →
      s₀.trans t v = none) (hperm : ∀ v, perm v ≠ ⟨false, false, false, false⟩) :
    ∃ s', Vm.uvmdealloc t oldsz newsz s = .ok (min newsz oldsz) s' ∧
      Grown t perm content s₀ [] [] tabs s' := by
  have hempty : pgRoundUp oldsz / pgSize ≤ pgRoundUp newsz / pgSize → leaves = [] := by
    intro hle
    rw [eq_nil_iff_forall_not_mem]
    intro l hl
    have := hin l hl
    omega
  unfold Vm.uvmdealloc
  by_cases hge : newsz ≥ oldsz
  · rw [if_pos hge]
    refine ⟨s, pure_ok.mpr ⟨(Nat.min_eq_right hge).symm, rfl⟩, ?_⟩
    rw [← hempty (pgRoundUp_div_mono hge)]
    exact h
  have hle : newsz ≤ oldsz := Nat.le_of_not_le hge
  rw [if_neg hge, pgRoundUp64_eq hold, pgRoundUp64_eq (hle.trans hold), Nat.min_eq_left hle]
  by_cases hpos : pgRoundUp newsz < pgRoundUp oldsz
  · have hstart : pgRoundUp newsz = pgRoundUp newsz / pgSize * pgSize :=
      (Nat.div_mul_cancel (Nat.dvd_of_mod_eq_zero (pgRoundUp_mod newsz))).symm
    have hsum : pgRoundUp newsz / pgSize + (pgRoundUp oldsz / pgSize - pgRoundUp newsz / pgSize) =
        pgRoundUp oldsz / pgSize := Nat.add_sub_cancel' (pgRoundUp_div_mono hle)
    have hmax : pgRoundUp oldsz / pgSize ≤ maxVa / pgSize := by
      unfold pgRoundUp pgSize maxVa at *
      omega
    obtain ⟨s', hrun, hs'⟩ := h.uvmunmap (pgRoundUp newsz / pgSize)
      (pgRoundUp oldsz / pgSize - pgRoundUp newsz / pgSize) hnd hstock (by rw [hsum]; exact hmax)
      (by rw [hsum]; exact hin) (by rw [hsum]; exact hnone) hperm
    rw [← hstart] at hrun
    refine ⟨s', ?_, hs'⟩
    rw [if_pos hpos, pages_int hold]
    exact bind_ok.mpr ⟨⟨⟩, s', hrun, rfl⟩
  · refine ⟨s, ?_, ?_⟩
    · rw [if_neg hpos]
      exact rfl
    · rw [← hempty (Nat.div_le_div_right (Nat.le_of_not_lt hpos))]
      exact h

/-- A free page is filled and mapped; when there is no table for it, it goes back. -/
theorem page (va : ℕ) (h : Grown t perm content s₀ [] leaves tabs s) (hnd : s₀.freelist.Nodup)
    (hstock : s₀.Stocks (· ∈ s₀.freelist)) (hf : s.freelist = pa :: rest) (hva : va < maxVa)
    (hwas : s₀.trans t (va / pgSize) = none) (hnew : va / pgSize ∉ leaves.map Prod.fst) :
    ∃ b s' tabs', mappages t va pa (perm (va / pgSize))
        ((s.allocated pa rest).setPage pa (content (va / pgSize))) = .ok b s' ∧
      (b = true → Grown t perm content s₀ [] ((va / pgSize, pa) :: leaves) tabs' s') ∧
      (b = false → kfree pa s' = .ok ⟨⟩ (s'.freed pa) ∧
        Grown t perm content s₀ [] leaves tabs' (s'.freed pa)) := by
  have h1 := (h.allocated hnd hf).setPage hnd (content (va / pgSize))
  set s1 := (s.allocated pa rest).setPage pa (content (va / pgSize)) with hs1
  have hnone : s1.trans t (va / pgSize) = none := (h1.old _ hnew).trans hwas
  have hrest : pa ∉ s1.freelist := by
    have hn := h1.account.nodup_iff.mpr hnd
    simp only [cons_append, nodup_cons, mem_append] at hn
    exact fun hc => hn.1 (.inr hc)
  obtain ⟨pt, hpt⟩ := Option.isSome_iff_exists.mp h1.present
  have hret : Returns (mappages t va pa (perm (va / pgSize))) s1 := mappages_returns hpt hva hnone
  obtain ⟨b, s', hmap⟩ := hret.returns
  obtain ⟨s2, hwalk, hcase⟩ := mappages_walk hmap
  obtain ⟨hq, -, -, -⟩ := walk_ok hwalk
  obtain ⟨new, htab⟩ := walk_tabled hwalk
  have hhas : s'.Has t := mappages_preserves.of_ok h1.present hmap
  have hmem : s2.mem pa = content (va / pgSize) := by
    rw [hq.mem pa hrest]
    simp [hs1, Kernel.setPage]
  have href : s2.ref pa = 1 := by
    rw [hq.ref pa hrest]
    simp [hs1, Kernel.setPage, Kernel.allocated]
  refine ⟨b, s', tabs ++ new, hmap, fun hb => ?_, fun hb => ?_⟩
  · rcases hcase with ⟨hf', -⟩ | ⟨-, hl, hn, rfl⟩
    · simp [hb] at hf'
    · obtain ⟨pt', hpt', -⟩ := Kernel.exists_table_of_lookup hl
      have h2 := h1.tabled hnd hq (walk_reworked hwalk) (by simp [Kernel.Has, hpt']) htab
      exact h2.map hl hn hwas hmem href
  · rcases hcase with ⟨-, rfl⟩ | ⟨ht, -⟩
    · have h2 := h1.tabled hnd hq (walk_reworked hwalk) hhas htab
      have hr : s₀.InRange pa := hstock pa (h2.of_hand mem_cons_self)
      exact ⟨kfree_eq (h2.inRange.mpr hr) href, h2.freed hnd hr href⟩
    · simp [hb] at ht

end Grown

section Alloc

variable {t a k start n : ℕ} {perm : Perm} {s₀ s : Kernel} {tabs : List ℕ}
  {leaves : List (ℕ × ℕ)}

def CoversPages (leaves : List (ℕ × ℕ)) (lo hi : ℕ) : Prop :=
  ∀ v, v ∈ leaves.map Prod.fst ↔ lo ≤ v ∧ v < hi

theorem CoversPages.mem {lo hi : ℕ} (h : CoversPages leaves lo hi) {l : ℕ × ℕ} (hl : l ∈ leaves) :
    lo ≤ l.1 ∧ l.1 < hi :=
  (h l.1).mp (mem_map_of_mem hl)

theorem CoversPages.cons {lo v pa : ℕ} (h : CoversPages leaves lo v) (hle : lo ≤ v) :
    CoversPages ((v, pa) :: leaves) lo (v + 1) := by
  intro w
  rw [map_cons, mem_cons, h w]
  simp only
  omega

theorem pgRoundUp_of_mod {m : ℕ} (h : m % pgSize = 0) : pgRoundUp m = m := by
  unfold pgRoundUp pgSize at *
  omega

/-- The loop of `uvmalloc` adds the pages that are missing, or takes out all it has added. -/
theorem uvmallocLoop_grown (hnd : s₀.freelist.Nodup) (hstock : s₀.Stocks (· ∈ s₀.freelist))
    (hperm : perm ≠ ⟨false, false, false, false⟩) (hstart : start % pgSize = 0)
    (hmod : a % pgSize = 0) (hle : start ≤ a) (hroom : a + k * pgSize ≤ maxVa)
    (hnone : ∀ v, start / pgSize ≤ v → v < a / pgSize + k → s₀.trans t v = none)
    (h : Grown t (fun _ => perm) (fun _ _ => 0) s₀ [] leaves tabs s)
    (hcov : CoversPages leaves (start / pgSize) (a / pgSize)) :
    ∃ b s' leaves' tabs', uvmallocLoop t start perm k a s = .ok b s' ∧
      Grown t (fun _ => perm) (fun _ _ => 0) s₀ [] leaves' tabs' s' ∧
      (b = true → CoversPages leaves' (start / pgSize) (a / pgSize + k)) ∧
      (b = false → leaves' = []) := by
  induction k generalizing a s leaves tabs with
  | zero => exact ⟨true, s, leaves, tabs, rfl, h, fun _ => hcov, by simp⟩
  | succ k ih =>
    have hroom' : a + pgSize + k * pgSize ≤ maxVa := by
      rw [Nat.succ_mul] at hroom
      omega
    have hpos : 0 < pgSize := by decide
    -- both ways of running out of memory end in the same call
    have hundo : ∀ x tabs', Grown t (fun _ => perm) (fun _ _ => 0) s₀ [] leaves tabs' x →
        ∃ r x', uvmdealloc t a start x = .ok r x' ∧
          Grown t (fun _ => perm) (fun _ _ => 0) s₀ [] [] tabs' x' := by
      intro x tabs' hx
      obtain ⟨x', hrun, hx'⟩ := hx.uvmdealloc a start hnd hstock (by omega)
        (by
          rw [pgRoundUp_of_mod hstart, pgRoundUp_of_mod hmod]
          exact fun l hl => hcov.mem hl)
        (by
          rw [pgRoundUp_of_mod hstart, pgRoundUp_of_mod hmod]
          exact fun v h1 h2 => hnone v h1 (by omega))
        fun _ => hperm
      exact ⟨_, x', hrun, hx'⟩
    unfold uvmallocLoop
    cases hf : s.freelist with
    | nil =>
      obtain ⟨r, x', hrun, hx'⟩ := hundo s tabs h
      simp only [bind_run (kalloc_nil hf), bind_run hrun]
      exact ⟨false, x', [], tabs, rfl, hx', by simp, fun _ => rfl⟩
    | cons pa rest =>
      have hdiv : start / pgSize ≤ a / pgSize := Nat.div_le_div_right hle
      have hfresh : a / pgSize ∉ leaves.map Prod.fst := by
        rw [hcov]
        omega
      obtain ⟨b, s1, tabs1, hmap, htrue, hfalse⟩ := h.page a hnd hstock hf (by omega)
        (hnone _ hdiv (by omega)) hfresh
      simp only [bind_run (kalloc_cons hf), modify_run, bind_run hmap]
      cases b with
      | true =>
        have hnext : (a + pgSize) / pgSize = a / pgSize + 1 := Nat.add_div_right a hpos
        obtain ⟨b', s', leaves', tabs', hrun, hs', hok, hfail⟩ := ih (a := a + pgSize)
          (by rw [Nat.add_mod_right, hmod]) (by omega) hroom'
          (by
            rw [hnext]
            exact fun v h1 h2 => hnone v h1 (by omega))
          (htrue rfl)
          (by
            rw [hnext]
            exact hcov.cons hdiv)
        rw [hnext, Nat.add_assoc, Nat.add_comm 1 k] at hok
        exact ⟨b', s', leaves', tabs', hrun, hs', hok, hfail⟩
      | false =>
        obtain ⟨hfree, hs1⟩ := hfalse rfl
        obtain ⟨r, x', hrun, hx'⟩ := hundo _ tabs1 hs1
        refine ⟨false, x', [], tabs1, ?_, hx', by simp, fun _ => rfl⟩
        exact bind_ok.mpr ⟨⟨⟩, _, hfree, bind_ok.mpr ⟨r, x', hrun, rfl⟩⟩

/-- Growing user memory from `oldsz` to `newsz`, where no page is mapped in between, maps
fresh zeroed pages for all of it or, when memory runs out, none: then every page is free that
is not a new table. Shrinking it again frees those pages and leaves the leaves as they were. -/
theorem uvmalloc_grows (oldsz newsz : ℕ) (w x : Bool) (ht : s.Has t) (hnd : s.freelist.Nodup)
    (hstock : s.Stocks (· ∈ s.freelist)) (hle : oldsz ≤ newsz) (hmax : newsz ≤ Xv6.trapframe)
    (hnone : ∀ v, pgRoundUp oldsz / pgSize ≤ v → v < pgRoundUp newsz / pgSize →
      s.trans t v = none) :
    ∃ r s', uvmalloc t oldsz newsz ⟨true, w, x, true⟩ s = .ok r s' ∧
      ((r = newsz ∧ ∃ leaves tabs,
          CoversPages leaves (pgRoundUp oldsz / pgSize) (pgRoundUp newsz / pgSize) ∧
          Grown t (fun _ => ⟨true, w, x, true⟩) (fun _ _ => 0) s [] leaves tabs s' ∧
          ∃ s'', uvmdealloc t newsz oldsz s' = .ok oldsz s'' ∧
            Grown t (fun _ => ⟨true, w, x, true⟩) (fun _ _ => 0) s [] [] tabs s'' ∧
            s''.freelist.Perm (leaves.map Prod.snd ++ s'.freelist)) ∨
        (r = 0 ∧ ∃ tabs, Grown t (fun _ => ⟨true, w, x, true⟩)
        (fun _ _ => 0) s [] [] tabs s')) := by
  have hperm : (⟨true, w, x, true⟩ : Perm) ≠ ⟨false, false, false, false⟩ := by simp
  have hmaxVa : newsz ≤ maxVa := hmax.trans trapframe_le
  have hold : oldsz ≤ maxVa := hle.trans hmaxVa
  have hmod := pgRoundUp_mod oldsz
  have hcount : (newsz - pgRoundUp oldsz + pgSize - 1) / pgSize =
      pgRoundUp newsz / pgSize - pgRoundUp oldsz / pgSize := by
    rw [← pagesTo_eq hold, pagesTo, pgRoundUp64_eq hold]
  have hsum : pgRoundUp oldsz / pgSize + (pgRoundUp newsz / pgSize - pgRoundUp oldsz / pgSize) =
      pgRoundUp newsz / pgSize := Nat.add_sub_cancel' (pgRoundUp_div_mono hle)
  have hroom : pgRoundUp oldsz + (pgRoundUp newsz / pgSize - pgRoundUp oldsz / pgSize) * pgSize ≤
      maxVa := by
    unfold pgRoundUp pgSize maxVa at *
    omega
  obtain ⟨b, s', leaves, tabs, hrun, hs', hok, hfail⟩ := uvmallocLoop_grown hnd hstock hperm hmod
    hmod le_rfl hroom (by rw [hsum]; exact hnone) (Grown.start ht) (by intro v; simp)
  have halloc : uvmalloc t oldsz newsz ⟨true, w, x, true⟩ s = .ok (if b then newsz else 0) s' := by
    unfold uvmalloc
    rw [if_neg (by omega), pgRoundUp64_eq hold, hcount]
    refine bind_ok.mpr ⟨b, s', hrun, ?_⟩
    cases b <;> rfl
  refine ⟨_, s', halloc, ?_⟩
  cases b with
  | true =>
    have hcov := hok rfl
    rw [hsum] at hcov
    obtain ⟨s'', hback, hs''⟩ := hs'.uvmdealloc newsz oldsz hnd hstock hmaxVa
      (fun l hl => hcov.mem hl) hnone
      fun _ => hperm
    rw [Nat.min_eq_left hle] at hback
    refine .inl ⟨rfl, leaves, tabs, hcov, hs', s'', hback, hs'', ?_⟩
    have hacc := hs''.account.trans hs'.account.symm
    have hswap : (leaves.map Prod.snd ++ tabs ++ s'.freelist).Perm
        (tabs ++ (leaves.map Prod.snd ++ s'.freelist)) := by
      rw [← List.append_assoc]
      exact List.perm_append_comm.append_right _
    have hboth : (tabs ++ s''.freelist).Perm (tabs ++ (leaves.map Prod.snd ++ s'.freelist)) :=
      hacc.trans hswap
    exact (List.perm_append_left_iff tabs).mp hboth
  | false =>
    refine .inr ⟨rfl, tabs, ?_⟩
    rw [← hfail rfl]
    exact hs'

/-- The first process grows from 100 bytes to 9000 and back. -/
theorem uvmalloc_grows_boot : ∃ s' s'', uvmalloc 0 100 9000 ⟨true, true, false, true⟩ boot =
    .ok 9000 s' ∧ (∀ v, 1 ≤ v → v < 3 → ∃ pa ∈ boot.freelist,
      s'.trans 0 v = some ⟨true, ⟨true, true, false, true⟩, pa⟩ ∧ s'.mem pa = fun _ => 0) ∧
    uvmdealloc 0 9000 100 s' = .ok 100 s'' ∧ ∀ v, s''.trans 0 v = boot.trans 0 v := by
  have hhas : (boot.table 0).isSome = true := by decide +kernel
  have hstock : ∀ pa ∈ boot.freelist, boot.InRange pa := by decide +kernel
  have hnone : ∀ v, 1 ≤ v → v < 3 → boot.trans 0 v = none := by decide +kernel
  obtain ⟨r, s', hrun, hcase⟩ := uvmalloc_grows (s := boot) (t := 0) 100 9000 true false hhas
    (by decide +kernel) hstock (by decide) (by decide) hnone
  have hr : (match uvmalloc 0 100 9000 ⟨true, true, false, true⟩ boot with
    | .ok r _ => r == 9000
    | .error _ _ => false) = true := by decide +kernel
  simp only [hrun, beq_iff_eq] at hr
  subst hr
  rcases hcase with ⟨-, leaves, tabs, hcov, hg, s'', hback, hg', -⟩ | ⟨hzero, -⟩
  · refine ⟨s', s'', hrun, fun v h1 h2 => ?_, hback, fun v => hg'.old v (by simp)⟩
    obtain ⟨⟨w, pa⟩, hl, rfl⟩ := List.mem_map.mp ((hcov v).mpr ⟨h1, h2⟩)
    obtain ⟨-, ht, hmem, -⟩ := hg.new w pa hl
    exact ⟨pa, hg.of_leaf hl, ht, hmem⟩
  · cases hzero

end Alloc

end Xv6.Vm
