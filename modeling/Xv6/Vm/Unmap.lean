import Xv6.Vm.Demand

/-!
# What unmapping does

Unmapping a page of a process frees it, drops a reference to it, or only forgets
it. The write-back of `deallocvma` copies from user memory in between, so what it
does is a sequence of demand paging and of such steps.
-/
namespace Xv6.Vm

open Library Relation Kernel

section Page

variable {s s' : Kernel} {D : ℕ → ℤ} {p va pa : ℕ} {u : PUnit}

/-- The page of `va` was unmapped and freed. -/
def Freed (p va : ℕ) (s s' : Kernel) : Prop :=
  ∃ pte, va < maxVa ∧ s.trans p (va / pgSize) = some pte ∧ pte.perm.u = true ∧
    s.ref pte.ppn = 1 ∧ s' = (s.freed pte.ppn).withPte p (va / pgSize) .zero

/-- The page of `va` was unmapped and its count lowered. -/
def Dropped (p va : ℕ) (s s' : Kernel) : Prop :=
  ∃ pte, va < maxVa ∧ s.trans p (va / pgSize) = some pte ∧ pte.perm.u = true ∧
    s.ref pte.ppn ≠ 1 ∧
    s' = (s.setRef pte.ppn (u32 (s.ref pte.ppn - 1))).withPte p (va / pgSize) .zero

/-- The page of `va` was unmapped and its count left as it was. -/
def Leaked (p va : ℕ) (s s' : Kernel) : Prop :=
  ∃ pte, s.walkaddr p va = some pte.ppn ∧ va < maxVa ∧ s.trans p (va / pgSize) = some pte ∧
    pte.perm.u = true ∧ s.ref pte.ppn ≠ 1 ∧ s' = s.withPte p (va / pgSize) .zero

/-- A pass of `uvmunmap` finds no page, or clears the entry after it has freed the page or not. -/
theorem uvmunmapPage_cases {doFree : Bool} (hx : uvmunmapPage p va doFree s = .ok u s') :
    va < maxVa ∧ ((s.trans p (va / pgSize) = none ∧ s' = s) ∨ ∃ pte,
      s.trans p (va / pgSize) = some pte ∧
      ((doFree = true ∧ s.ref pte.ppn = 1 ∧
        s' = (s.freed pte.ppn).withPte p (va / pgSize) .zero) ∨
      (doFree = false ∧ s' = s.withPte p (va / pgSize) .zero))) := by
  unfold uvmunmapPage at hx
  rw [get_run] at hx
  obtain ⟨hva, hx⟩ := throw_ite_ok hx
  refine ⟨by omega, ?_⟩
  cases ht : s.trans p (va / pgSize) with
  | none =>
    simp only [ht, pure_ok] at hx
    exact .inl ⟨rfl, hx.2.symm⟩
  | some pte =>
    simp only [ht] at hx
    obtain ⟨-, hx⟩ := throw_ite_ok hx
    refine .inr ⟨pte, rfl, ?_⟩
    cases doFree with
    | true =>
      simp only [if_true, bind_ok, modify_ok] at hx
      obtain ⟨_, s1, hfree, rfl⟩ := hx
      obtain ⟨href, rfl⟩ := kfree_ok hfree
      exact .inl ⟨rfl, href, rfl⟩
    | false =>
      simp only [Bool.false_eq_true, if_false, modify_ok] at hx
      exact .inr ⟨rfl, hx.symm⟩

theorem uvmunmapPage_mapped {doFree : Bool} {pte : Pte}
    (ht : s.trans p (va / pgSize) = some pte) (hx : uvmunmapPage p va doFree s = .ok u s') :
    if doFree then
      s.ref pte.ppn = 1 ∧ s' = (s.freed pte.ppn).withPte p (va / pgSize) .zero
    else s' = s.withPte p (va / pgSize) .zero := by
  obtain ⟨-, ⟨hn, -⟩ | ⟨pte', ht', ⟨rfl, href, rfl⟩ | ⟨rfl, rfl⟩⟩⟩ := uvmunmapPage_cases hx
  · simp [ht] at hn
  · obtain rfl := Option.some.inj (ht.symm.trans ht')
    exact ⟨href, rfl⟩
  · rfl

theorem uvmunmap_one {doFree : Bool} (hx : uvmunmap p va 1 doFree s = .ok u s') :
    uvmunmapPage p va doFree s = .ok ⟨⟩ s' := by
  unfold uvmunmap at hx
  obtain ⟨-, hx⟩ := throw_ite_ok hx
  simpa [loop] using hx

theorem unmapPrivate_ok (hx : unmapPrivate p va s = .ok u s') :
    (s' = s ∧ s.walkaddr p va = none) ∨ Freed p va s s' ∨ Leaked p va s s' := by
  unfold unmapPrivate at hx
  rw [get_run] at hx
  cases hw : s.walkaddr p va with
  | none =>
    simp only [hw, pure_ok] at hx
    exact .inl ⟨hx.2.symm, rfl⟩
  | some pa =>
    simp only [hw] at hx
    obtain ⟨hva, pte, ht, hu, rfl⟩ := walkaddr_some hw
    rcases ite_ok hx with ⟨h1, hx⟩ | ⟨h1, hx⟩
    · have h := uvmunmapPage_mapped ht (uvmunmap_one hx)
      exact .inr (Or.inl ⟨pte, hva, ht, hu, h1, h.2⟩)
    · have h := uvmunmapPage_mapped ht (uvmunmap_one hx)
      exact .inr (Or.inr ⟨pte, hw, hva, ht, hu, h1, h⟩)

theorem unmapShared_ok (hw : s.walkaddr p va = some pa) (hx : unmapShared p va s = .ok u s') :
    Freed p va s s' ∨ Dropped p va s s' := by
  obtain ⟨hva, pte, ht, hu, rfl⟩ := walkaddr_some hw
  unfold unmapShared at hx
  rw [get_run] at hx
  simp only [hw, Option.getD_some] at hx
  rcases ite_ok hx with ⟨h1, hx⟩ | ⟨h1, hx⟩
  · have h := uvmunmapPage_mapped ht (uvmunmap_one hx)
    exact .inl ⟨pte, hva, ht, hu, h1, h.2⟩
  · obtain ⟨_, s1, hdec, hx⟩ := bind_ok.mp hx
    have hs1 := decref_ok hdec
    subst hs1
    have h := uvmunmapPage_mapped (by exact ht) (uvmunmap_one hx)
    exact .inr ⟨pte, hva, ht, hu, h1, h⟩

/-- Freeing a page before it is unmapped comes to the same as after. -/
theorem Kernel.Owned.unmapFree {pte : Pte} {v : ℕ} (h : s.Owned D) (hD : 0 ≤ D pte.ppn)
    (hv : v < trapVpn) (ht : s.trans p v = some pte) (href : s.ref pte.ppn = 1) :
    ((s.freed pte.ppn).withPte p v .zero).Owned D := by
  have hown := Kernel.Owned.own_leaf_of_trans ht hv
  have hpos : 0 < (holders s.own pte.ppn).ncard :=
    (Set.ncard_pos (h.balanced.finite pte.ppn)).mpr ⟨_, hown⟩
  have hcount := h.balanced.count pte.ppn fun hf => h.balanced.unheld _ hf _ hown
  have hd : (D + Pi.single pte.ppn 1 : ℕ → ℤ) pte.ppn = 1 := by
    simp only [Pi.add_apply, Pi.single_eq_same]
    omega
  have h1 : (s.withPte p v .zero).Owned _ := h.unmap hv ht rfl
  have h2 := h1.freed hd href
  rwa [add_sub_cancel_right] at h2

theorem Kernel.Owned.ref_pos {pte : Pte} {v : ℕ} (h : s.Owned D) (hD : 0 ≤ D pte.ppn)
    (hv : v < trapVpn) (ht : s.trans p v = some pte) : 0 < s.ref pte.ppn := by
  have hown := Kernel.Owned.own_leaf_of_trans ht hv
  have hpos : 0 < (holders s.own pte.ppn).ncard :=
    (Set.ncard_pos (h.balanced.finite pte.ppn)).mpr ⟨_, hown⟩
  have hcount := h.balanced.count pte.ppn fun hf => h.balanced.unheld _ hf _ hown
  omega

theorem Kernel.Owned.not_free_of_trans {pte : Pte} {v : ℕ} (h : s.Owned D) (hv : v < trapVpn)
    (ht : s.trans p v = some pte) : pte.ppn ∉ s.freelist :=
  fun hf => h.balanced.unheld _ hf _ (Kernel.Owned.own_leaf_of_trans ht hv)

theorem u32_pred {n : ℕ} (h : 0 < n) (hn : n < 2 ^ 32) : u32 ((n : ℤ) - 1) = n - 1 := by
  unfold u32
  omega

theorem Kernel.Owned.unmapDrop {pte : Pte} {v : ℕ} (h : s.Owned D) (hD : 0 ≤ D pte.ppn)
    (hv : v < trapVpn) (ht : s.trans p v = some pte) :
    ((s.setRef pte.ppn (u32 (s.ref pte.ppn - 1))).withPte p v .zero).Owned D := by
  have hpos := h.ref_pos hD hv ht
  rw [u32_pred hpos (h.small _)]
  have h1 : (s.withPte p v .zero).Owned _ := h.unmap hv ht rfl
  have hfree : pte.ppn ∉ (s.withPte p v .zero).freelist := h.not_free_of_trans hv ht
  have hlt : s.ref pte.ppn - 1 < 2 ^ 32 := by
    have := h.small pte.ppn
    omega
  have h2 := h1.setRef hfree hlt
  have hcast : ((s.ref pte.ppn - 1 : ℕ) : ℤ) - ((s.withPte p v .zero).ref pte.ppn : ℤ) = -1 := by
    have : (s.withPte p v .zero).ref pte.ppn = s.ref pte.ppn := rfl
    omega
  rw [hcast, Pi.single_neg, add_neg_cancel_right] at h2
  exact h2

end Page

section Run

variable {s s' : Kernel} {p : ℕ}

/-- What moving bytes between files and the memory of process `p` may do. -/
inductive Transfer (p : ℕ) (s : Kernel) : Kernel → Prop
  | demand {s' : Kernel} (h : Demand p s s') : Transfer p s s'
  | files (ino : ℕ → Inode) (fb : ℕ) : Transfer p s (s.withFiles ino fb)
  | locked (l : List ℕ) : Transfer p s { s with ilocked := l }

abbrev Transfers (p : ℕ) : Kernel → Kernel → Prop := ReflTransGen (Transfer p)

theorem Demands.transfers (h : Demands p s s') : Transfers p s s' :=
  ReflTransGen.mono (fun _ _ hd => Transfer.demand hd) _ _ h

theorem Transfer.steady (h : Transfer p s s') : Steady p s s' := by
  cases h with
  | demand h => exact h.steady
  | files ino fb =>
    exact ⟨⟨fun _ _ _ => rfl, fun q => ⟨(s.proc q).killed, rfl⟩, rfl, rfl, id, fun _ h => h⟩,
      fun _ _ _ h => h⟩
  | locked l =>
    exact ⟨⟨fun _ _ _ => rfl, fun q => ⟨(s.proc q).killed, rfl⟩, rfl, rfl, id, fun _ h => h⟩,
      fun _ _ _ h => h⟩

theorem Transfers.steady (h : Transfers p s s') : Steady p s s' := by
  induction h with
  | refl => exact Steady.refl s
  | tail _ hd ih => exact ih.andThen hd.steady

/-- What unmapping shared pages of process `p` may do, one page at a time. -/
inductive Change (p : ℕ) (s : Kernel) : Kernel → Prop
  | transfer {s' : Kernel} (h : Transfer p s s') : Change p s s'
  | freed {s' : Kernel} {va : ℕ} (h : Freed p va s s') : Change p s s'
  | dropped {s' : Kernel} {va : ℕ} (h : Dropped p va s s') : Change p s s'

abbrev Changes (p : ℕ) : Kernel → Kernel → Prop := ReflTransGen (Change p)

theorem Transfers.changes (h : Transfers p s s') : Changes p s s' :=
  ReflTransGen.mono (fun _ _ hd => Change.transfer hd) _ _ h

variable {ip off n va : ℕ} {u : PUnit}

theorem bmap_transfer {bn : ℕ} {b : Bool} (hx : bmap ip bn s = .ok b s') : Transfer p s s' := by
  obtain ⟨ino, fb, rfl, -⟩ := bmap_ok hx
  exact .files ino fb

theorem setInode_transfer (k : ℕ) (i : Inode) : Transfer p s (s.setInode k i) :=
  .files (Function.update s.inode k i) s.freeBlocks

theorem writeiLoop_ok {fuel tot : ℕ} {r : ℕ × ℕ} (hsp : s.Special p)
    (hx : writeiLoop p ip n fuel va tot off s = .ok r s') : Transfers p s s' := by
  induction fuel generalizing s va tot off with
  | zero =>
    obtain ⟨-, rfl⟩ := pure_ok.mp hx
    exact .refl
  | succ fuel ih =>
    unfold writeiLoop at hx
    rcases ite_ok hx with ⟨-, hx⟩ | ⟨-, hx⟩
    · obtain ⟨b, s1, hb, hx⟩ := bind_ok.mp hx
      have hd1 : Transfer p s s1 := bmap_transfer hb
      have hsp1 := hd1.steady.special hsp
      rcases ite_ok hx with ⟨-, hx⟩ | ⟨-, hx⟩
      · obtain ⟨⟨ok, bytes, got⟩, s2, hcopy, hx⟩ := bind_ok.mp hx
        have hd2 := (copyin_ok hsp1 hcopy).transfers
        simp only [bind_ok, modify_ok] at hx
        obtain ⟨_, _, rfl, hx⟩ := hx
        have hd3 : ∀ i, Transfers p s (s2.setInode ip i) := fun i =>
          (ReflTransGen.head hd1 hd2).tail (setInode_transfer ip i)
        rcases ite_ok hx with ⟨-, hx⟩ | ⟨-, hx⟩
        · exact (hd3 _).trans (ih ((hd3 _).steady.special hsp) hx)
        · obtain ⟨-, rfl⟩ := pure_ok.mp hx
          exact hd3 _
      · obtain ⟨-, rfl⟩ := pure_ok.mp hx
        exact .single hd1
    · obtain ⟨-, rfl⟩ := pure_ok.mp hx
      exact .refl

theorem writei_ok {r : ℤ} (hsp : s.Special p) (hx : writei p ip va off n s = .ok r s') :
    Transfers p s s' := by
  unfold writei at hx
  rw [get_run] at hx
  rcases pure_ite_ok hx with ⟨-, -, rfl⟩ | ⟨-, hx⟩
  · exact .refl
  rcases pure_ite_ok hx with ⟨-, -, rfl⟩ | ⟨-, hx⟩
  · exact .refl
  · obtain ⟨⟨tot, off'⟩, s1, hloop, hx⟩ := bind_ok.mp hx
    have hd := writeiLoop_ok hsp hloop
    simp only [bind_ok, modify_ok, pure_ok] at hx
    obtain ⟨_, _, rfl, -, rfl⟩ := hx
    split_ifs
    · exact hd.tail (setInode_transfer ip _)
    · exact hd

theorem writePage_ok {addr fuel : ℕ} {offset w n1 r : ℤ} (hsp : s.Special p)
    (hx : writePage p ip addr offset fuel w n1 s = .ok r s') : Transfers p s s' := by
  induction fuel generalizing s w n1 with
  | zero =>
    unfold writePage at hx
    obtain ⟨-, hx⟩ := throw_ite_ok hx
    obtain ⟨-, rfl⟩ := pure_ok.mp hx
    exact .refl
  | succ fuel ih =>
    unfold writePage at hx
    rcases ite_ok hx with ⟨-, hx⟩ | ⟨-, hx⟩
    · obtain ⟨r1, s1, hw, hx⟩ := bind_ok.mp hx
      have hd := writei_ok hsp hw
      exact hd.trans (ih (hd.steady.special hsp) hx)
    · obtain ⟨-, rfl⟩ := pure_ok.mp hx
      exact .refl

end Run

section Unmapped

variable {s s' : Kernel} {p va : ℕ} {u : PUnit}

/-- The page of `va` is no longer mapped, and nothing else was. -/
structure Unmapped (p va : ℕ) (s s' : Kernel) : Prop where
  user : ∃ pte, va < maxVa ∧ s.trans p (va / pgSize) = some pte ∧ pte.perm.u = true
  trans : ∀ t v, s'.trans t v = if t = p ∧ v = va / pgSize then none else s.trans t v
  proc : s'.proc = s.proc
  vmas : s'.vmas = s.vmas
  file : s'.file = s.file
  bounded : s.Bounded → s'.Bounded
  absent : ∀ t, s.table t = none → s'.table t = none

theorem Freed.unmapped (h : Freed p va s s') : Unmapped p va s s' := by
  obtain ⟨pte, hva, ht, hu, -, rfl⟩ := h
  refine ⟨⟨pte, hva, ht, hu⟩, fun t v => ?_, rfl, rfl, rfl,
    fun hb => Kernel.Owned.bounded_withPte hb, fun _ hn => table_withPte_none hn⟩
  have hl : ((s.freed pte.ppn).lookup p (va / pgSize)).isSome := lookup_isSome_of_trans ht
  rw [trans_withPte hl]
  rfl

theorem Dropped.unmapped (h : Dropped p va s s') : Unmapped p va s s' := by
  obtain ⟨pte, hva, ht, hu, -, rfl⟩ := h
  refine ⟨⟨pte, hva, ht, hu⟩, fun t v => ?_, rfl, rfl, rfl,
    fun hb => Kernel.Owned.bounded_withPte hb, fun _ hn => table_withPte_none hn⟩
  have hl : ((s.setRef pte.ppn (u32 (s.ref pte.ppn - 1))).lookup p (va / pgSize)).isSome :=
    lookup_isSome_of_trans ht
  rw [trans_withPte hl]
  rfl

theorem Leaked.unmapped (h : Leaked p va s s') : Unmapped p va s s' := by
  obtain ⟨pte, -, hva, ht, hu, -, rfl⟩ := h
  refine ⟨⟨pte, hva, ht, hu⟩, fun t v => ?_, rfl, rfl, rfl,
    fun hb => Kernel.Owned.bounded_withPte hb, fun _ hn => table_withPte_none hn⟩
  rw [trans_withPte (lookup_isSome_of_trans ht)]
  rfl

theorem Unmapped.toLocal (h : Unmapped p va s s') : Local p s s' where
  tables t v ht := by rw [h.trans, if_neg fun hc => ht hc.1]
  procs q := ⟨(s.proc q).killed, by rw [h.proc]⟩
  vmas := h.vmas
  file := h.file
  bounded := h.bounded
  absent := h.absent

theorem Unmapped.special (h : Unmapped p va s s') (hsp : s.Special p) {q : ℕ}
    (hq : s.Special q) : s'.Special q := by
  obtain ⟨pte, hva, ht, hu⟩ := h.user
  have hlow := hsp.lt_of_user hva ht hu
  intro v hv hlt
  rw [h.trans, if_neg (by omega)]
  exact hq v hv hlt

theorem Change.toLocal (h : Change p s s') : Local p s s' := by
  cases h with
  | transfer h => exact h.steady.toLocal
  | freed h => exact h.unmapped.toLocal
  | dropped h => exact h.unmapped.toLocal

theorem Change.special (h : Change p s s') (hsp : s.Special p) : s'.Special p := by
  cases h with
  | transfer h => exact h.steady.special hsp
  | freed h => exact h.unmapped.special hsp hsp
  | dropped h => exact h.unmapped.special hsp hsp

theorem Changes.toLocal (h : Changes p s s') : Local p s s' := by
  induction h with
  | refl => exact Local.refl s
  | tail _ hc ih => exact ih.andThen hc.toLocal

theorem Changes.special (h : Changes p s s') (hsp : s.Special p) : s'.Special p := by
  induction h with
  | refl => exact hsp
  | tail _ hc ih => exact hc.special ih

theorem writeBack_ok {bound addr fuel : ℕ} {ip : Option ℕ} {size offset j : ℤ}
    (hsp : s.Special p) (hx : writeBack bound p ip addr size offset fuel j s = .ok u s') :
    Changes p s s' := by
  induction fuel generalizing s j with
  | zero =>
    unfold writeBack at hx
    obtain ⟨-, hx⟩ := throw_ite_ok hx
    obtain ⟨-, rfl⟩ := pure_ok.mp hx
    exact .refl
  | succ fuel ih =>
    unfold writeBack at hx
    rcases ite_ok hx with ⟨-, hx⟩ | ⟨-, hx⟩
    · replace hx := get_bind_ok hx
      cases hw : s.walkaddr p (u64 (addr + j)) with
      | none =>
        simp only [hw] at hx
        exact ih hsp hx
      | some pa =>
        simp only [hw] at hx
        obtain ⟨i, s1, hlock, hx⟩ := bind_ok.mp hx
        obtain ⟨-, -, rfl⟩ := ilock_ok hlock
        obtain ⟨w, s2, hpage, hx⟩ := bind_ok.mp hx
        obtain ⟨_, s3, hunmap, hx⟩ := bind_ok.mp hx
        obtain ⟨_, s4, hunlock, hx⟩ := bind_ok.mp hx
        have hs4 := modify_ok.mp hunlock
        subst hs4
        have hl : Transfer p s { s with ilocked := i :: s.ilocked } := .locked _
        have hd : Transfers p s s2 := .head hl (writePage_ok (hl.steady.special hsp) hpage)
        have hc : Changes p s s3 := by
          refine hd.changes.tail ?_
          rcases unmapShared_ok (hd.steady.walkaddr hw) hunmap with h | h
          · exact .freed h
          · exact .dropped h
        have hc' : Changes p s { s3 with ilocked := s3.ilocked.erase i } :=
          hc.tail (.transfer (.locked _))
        exact hc'.trans (ih (hc'.special hsp) hx)
    · obtain ⟨-, rfl⟩ := pure_ok.mp hx
      exact .refl

/-- Some pages are no longer mapped, files may have grown, and all else is as before. -/
structure Pruned (s s' : Kernel) : Prop where
  only : ∀ t v pte, s'.trans t v = some pte → s.trans t v = some pte
  proc : s'.proc = s.proc
  vmas : s'.vmas = s.vmas
  file : s'.file = s.file
  grown : ∀ k, (s.inode k).size ≤ (s'.inode k).size

theorem Pruned.refl (s : Kernel) : Pruned s s :=
  ⟨fun _ _ _ h => h, rfl, rfl, rfl, fun _ => le_rfl⟩

theorem Pruned.andThen {s1 : Kernel} (h : Pruned s s1) (h' : Pruned s1 s') : Pruned s s' :=
  ⟨fun t v pte ht => h.only t v pte (h'.only t v pte ht), h'.proc.trans h.proc,
    h'.vmas.trans h.vmas, h'.file.trans h.file, fun k => (h.grown k).trans (h'.grown k)⟩

theorem Unmapped.pruned (h : Unmapped p va s s') (hi : s'.inode = s.inode) : Pruned s s' := by
  refine ⟨fun t v pte ht => ?_, h.proc, h.vmas, h.file, fun k => by rw [hi]⟩
  rw [h.trans] at ht
  split_ifs at ht
  exact ht

theorem Freed.inode (h : Freed p va s s') : s'.inode = s.inode := by
  obtain ⟨_, -, -, -, -, rfl⟩ := h
  rfl

theorem Dropped.inode (h : Dropped p va s s') : s'.inode = s.inode := by
  obtain ⟨_, -, -, -, -, rfl⟩ := h
  rfl

theorem Leaked.inode (h : Leaked p va s s') : s'.inode = s.inode := by
  obtain ⟨_, -, -, -, -, -, rfl⟩ := h
  rfl

theorem deallocSegment_ok {r : Region} (hx : deallocSegment p r s = .ok u s') :
    Changes p s s' ∧ Pruned s s' := by
  unfold deallocSegment at hx
  refine loop_ok (I := fun _ t => Changes p s t ∧ Pruned s t) hx ⟨.refl, .refl s⟩
    fun k t t' _ _ ih hx => ?_
  rw [get_run] at hx
  cases hw : t.walkaddr p (u64 (r.addr + (k * pgSize : ℕ))) with
  | none =>
    simp only [hw, pure_ok] at hx
    obtain ⟨-, rfl⟩ := hx
    exact ih
  | some pa =>
    simp only [hw] at hx
    obtain ⟨hva, pte, ht, hu, rfl⟩ := walkaddr_some hw
    have h := uvmunmapPage_mapped ht (uvmunmap_one hx)
    have hf : Freed p _ t t' := ⟨pte, hva, ht, hu, h.1, h.2⟩
    exact ⟨ih.1.tail (.freed hf), ih.2.andThen (hf.unmapped.pruned hf.inode)⟩

end Unmapped

end Xv6.Vm
