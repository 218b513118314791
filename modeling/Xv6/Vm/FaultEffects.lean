import Xv6.Vm.Effects

/-!
# What page faults do

A fault either maps a fresh page with the contents the region prescribes, or gives
the process a copy of a page or the right to write to it, or kills the process. The
user copies of the kernel fault pages in the same way.
-/
namespace Xv6.Vm

open Library Kernel Option

def Kernel.Special (s : Kernel) (p : ℕ) : Prop :=
  ∀ v, trapVpn ≤ v → v < maxVa / pgSize → ∃ pte, s.trans p v = some pte ∧ pte.perm.u = false

/-- What the page of address `va` holds when it is faulted in. -/
def Region.content (r : Region) (i : Inode) (va : ℕ) : Bytes :=
  match r.readSize va with
  | some n => i.read (fun _ => 0) (r.readOff va) n
  | none => fun _ => 0

def Kernel.mark (s : Kernel) (pa : ℕ) : Kernel :=
  { s with faulted := insert pa s.faulted }

section Arithmetic

variable {va : ℕ}

theorem pgRoundDown_div : pgRoundDown va / pgSize = va / pgSize := by
  unfold pgRoundDown
  exact Nat.mul_div_cancel _ (by decide)

theorem pgRoundDown_lt (h : pgRoundDown va < maxVa) : va < maxVa := by
  unfold pgRoundDown pgSize maxVa at *
  omega

theorem div_lt_of_lt (h : va < maxVa) : va / pgSize < maxVa / pgSize := by
  unfold pgSize maxVa at *
  omega

theorem readSize_lt {r : Region} {n : ℕ} (h : r.readSize va = some n) : n < 2 ^ 32 := by
  unfold Region.readSize at h
  simp only at h
  split_ifs at h
  · cases h
    decide
  · cases h
    exact u32_lt _

end Arithmetic

section Special

variable {s s' : Kernel} {p va pa : ℕ} {pte : Pte}

theorem Kernel.Special.quiet (h : s.Special p) (hq : Quiet s s') : s'.Special p := by
  intro v hv hlt
  rw [hq.trans]
  exact h v hv hlt

theorem Kernel.Special.lt_of_none (h : s.Special p) (hva : va < maxVa)
    (hn : s.trans p (va / pgSize) = none) : va / pgSize < trapVpn := by
  by_contra hc
  obtain ⟨pte, hpte, -⟩ := h _ (Nat.le_of_not_lt hc) (div_lt_of_lt hva)
  simp [hn] at hpte

theorem walkaddr_some (h : s.walkaddr p va = some pa) :
    va < maxVa ∧ ∃ pte, s.trans p (va / pgSize) = some pte ∧ pte.perm.u = true ∧ pte.ppn = pa := by
  unfold walkaddr at h
  split_ifs at h with hva
  refine ⟨by omega, ?_⟩
  cases ht : s.trans p (va / pgSize) with
  | none => simp [ht] at h
  | some pte =>
    simp only [ht] at h
    split_ifs at h with hu
    exact ⟨pte, rfl, hu.1, some.inj h⟩

theorem walkaddr_ne_zero (h : s.walkaddr p va = some pa) : pa ≠ 0 := by
  unfold walkaddr at h
  split_ifs at h with hva
  cases ht : s.trans p (va / pgSize) with
  | none => simp [ht] at h
  | some pte =>
    simp only [ht] at h
    split_ifs at h with hu
    exact some.inj h ▸ hu.2

theorem Kernel.Special.lt_of_user (h : s.Special p) (hva : va < maxVa)
    (ht : s.trans p (va / pgSize) = some pte) (hu : pte.perm.u = true) :
    va / pgSize < trapVpn := by
  by_contra hc
  obtain ⟨pte', hpte, hu'⟩ := h _ (Nat.le_of_not_lt hc) (div_lt_of_lt hva)
  rw [ht] at hpte
  cases hpte
  simp [hu] at hu'

end Special

section Alloc

variable {s s' : Kernel} {D : ℕ → ℤ} {r : Region} {p va pa : ℕ} {perm : Perm}
  {u : PUnit}

theorem ilock_ok {ip : Option ℕ} {i : ℕ} (hx : ilock ip s = .ok i s') :
    ip = some i ∧ i ∉ s.ilocked ∧ s' = { s with ilocked := i :: s.ilocked } := by
  unfold ilock at hx
  cases ip with
  | none => simp at hx
  | some ip =>
    replace hx := get_bind_ok hx
    split_ifs at hx with hmem
    · simp at hx
    · simp only [bind_ok, set_ok, pure_ok] at hx
      obtain ⟨_, _, rfl, rfl, rfl⟩ := hx
      exact ⟨rfl, hmem, rfl⟩

theorem Aside.withFiles {np : Option ℕ} (h : Aside np s s') {ino : ℕ → Inode} {fb : ℕ}
    (hino : ∀ k, (s'.inode k).Full → ino k = s'.inode k) : Aside np s (s'.withFiles ino fb) :=
  { h with
    inode := fun k hk => by
      have hs := h.inode k hk
      exact (hino k (hs ▸ hk)).trans hs }

/-- The page of `va` was mapped to a fresh page with the contents of the region. -/
def FaultedIn (r : Region) (p va : ℕ) (perm : Perm) (s s' : Kernel) : Prop :=
  ∃ s₁ pa, Quiet s s₁ ∧ Fresh s s₁ pa ∧ va < maxVa ∧ va / pgSize < trapVpn ∧
    (s₁.lookup p (va / pgSize)).isSome ∧ s.trans p (va / pgSize) = none ∧
    (s.freelist.Nodup → ∀ ip, r.ip = some ip → (s.inode ip).Full →
      s₁.mem pa = r.content (s.inode ip) va) ∧
    s' = (s₁.withPte p (va / pgSize) ⟨true, perm, pa⟩).mark pa

/-- The process was killed, for want of a page or for its access. -/
def KilledBy (p : ℕ) (s s' : Kernel) : Prop :=
  ∃ s₁, Quiet s s₁ ∧ Keeps s s₁ ∧ s' = s₁.setProc p fun q => { q with killed := true }

theorem readRegion_ok {ip : ℕ} (hx : readRegion r ip pa va s = .ok u s')
    (hzero : s.mem pa = fun _ => 0) :
    ∃ bytes ino fb, s' = (s.withFiles ino fb).setPage pa bytes ∧
      (∀ k, (s.inode k).Full → ino k = s.inode k) ∧
      ((s.inode ip).Full → bytes = r.content (s.inode ip) va) := by
  unfold readRegion at hx
  cases hr : r.readSize va with
  | none =>
    simp only [hr, pure_ok] at hx
    obtain ⟨-, rfl⟩ := hx
    refine ⟨s.mem pa, s.inode, s.freeBlocks, ?_, fun _ _ => rfl, fun _ => ?_⟩
    · simp [setPage, withFiles]
    · simp [Region.content, hr, hzero]
  | some n =>
    simp only [hr] at hx
    have hoff : r.readOff va < 2 ^ 32 := u32_lt _
    obtain ⟨bytes, ino, fb, hs', hino, hbytes⟩ := readi_ok hoff (readSize_lt hr) hx
    refine ⟨bytes, ino, fb, hs', hino, fun hF => ?_⟩
    rw [hbytes hF, hzero]
    simp [Region.content, hr]

/-- The course of a fault that returns: a page is taken and filled, and then mapped or given
back. -/
theorem allocPhysicalVMA_run (hx : allocPhysicalVMA r p va perm s = .ok u s') :
    ∃ pa rest ip bytes ino fb b s1, s.freelist = pa :: rest ∧ r.ip = some ip ∧
      (∀ k, (s.inode k).Full → ino k = s.inode k) ∧
      ((s.inode ip).Full → bytes = r.content (s.inode ip) va) ∧
      mappages p (pgRoundDown va) pa perm
        (((s.allocated pa rest).withFiles ino fb).setPage pa bytes) = .ok b s1 ∧
      ((b = true ∧ s' = s1.mark pa) ∨
        (b = false ∧ s' = (s1.freed pa).setProc p fun q => { q with killed := true })) := by
  unfold allocPhysicalVMA at hx
  obtain ⟨o, s1, hk, hrest⟩ := bind_ok.mp hx
  rcases kalloc_ok hk with ⟨rfl, rfl⟩ | ⟨pa, rest, rfl, hf, rfl⟩
  · simp [setkilled] at hrest
  · simp only [bind_ok, modify_ok] at hrest
    obtain ⟨_, s2, rfl, i, s3, hlock, _, s4, hread, _, s5, hunlock, b, s6, hmap, hend⟩ := hrest
    obtain ⟨hip, -, rfl⟩ := ilock_ok hlock
    obtain ⟨bytes, ino, fb, rfl, hino, hbytes⟩ := readRegion_ok hread
      (by simp [setPage])
    have hs5 : s5 = ((s.allocated pa rest).withFiles ino fb).setPage pa bytes := by
      rw [← modify_ok.mp hunlock]
      simp [setPage, withFiles]
    subst hs5
    refine ⟨pa, rest, i, bytes, ino, fb, b, s6, hf, hip, hino, hbytes, hmap, ?_⟩
    rcases ite_ok hend with ⟨hb, hmark⟩ | ⟨hb, hgive⟩
    · exact .inl ⟨hb, (modify_ok.mp hmark).symm⟩
    · obtain ⟨_, s7, hfree, hkill⟩ := bind_ok.mp hgive
      obtain ⟨-, rfl⟩ := kfree_ok hfree
      exact .inr ⟨by simpa using hb, (modify_ok.mp hkill).symm⟩

theorem allocPhysicalVMA_ok (hsp : s.Special p)
    (hx : allocPhysicalVMA r p va perm s = .ok u s') :
    Keeps s s' ∧ (FaultedIn r p va perm s s' ∨ KilledBy p s s') := by
  obtain ⟨pa, rest, i, bytes, ino, fb, b, s6, hl, hip, hino, hbytes, hmap, hcase'⟩ :=
    allocPhysicalVMA_run hx
  obtain ⟨hq1, hf1, -⟩ := kalloc_some (kalloc_cons hl)
  have hq5 : Quiet s (((s.allocated pa rest).withFiles ino fb).setPage pa bytes) :=
    (hq1.withFiles hino).setPage hf1.was bytes
  obtain ⟨s7, hq7, hk7, hlt, hcase⟩ := mappages_ok hmap
  have howned : ∀ D, s.Owned D → s7.Owned (D + Pi.single pa 1) ∧ D pa = 0 := by
    intro D h
    obtain ⟨h1, hd1⟩ := kalloc_owned h (kalloc_cons hl)
    exact ⟨hk7 _ ⟨h1.balanced, h1.bounded, h1.small⟩, hd1⟩
  have hq : Quiet s s7 := hq5.andThen hq7
  have hf : Fresh s s7 pa := hq7.fresh ⟨hf1.was, hf1.taken, hf1.faulted⟩
  rw [pgRoundDown_div] at hcase
  rcases hcase with ⟨rfl, rfl⟩ | ⟨rfl, hlook, hn, rfl⟩
  · obtain rfl : s' = _ := by simpa using hcase'
    have hkeep : Keeps s (s6.freed pa) := by
      intro D h
      obtain ⟨h7, hd⟩ := howned D h
      have h8 := h7.freed (by simp [hd]) (hf.taken h.balanced.nodup).2
      rwa [add_sub_cancel_right] at h8
    exact ⟨fun D h => (hkeep D h).setProc rfl, .inr ⟨_, hq.freed hf.was, hkeep, rfl⟩⟩
  · have hva : va < maxVa := pgRoundDown_lt hlt
    have hv : va / pgSize < trapVpn := (hsp.quiet hq).lt_of_none hva hn
    have hs' : s' = (s7.withPte p (va / pgSize) ⟨true, perm, pa⟩).mark pa := by
      simpa using hcase'
    refine ⟨fun D h => ?_, .inl ⟨s7, pa, hq, hf, hva, hv, hlook, by rw [← hq.trans]; exact hn,
      fun hnd ip hr hF => ?_, hs'⟩⟩
    · obtain ⟨h7, hd⟩ := howned D h
      have h8 : (s7.withPte p (va / pgSize) ⟨true, perm, pa⟩).Owned _ :=
        h7.map hlook hv hn (by simp [hd]) (hf.taken h.balanced.nodup).2
      rw [add_sub_cancel_right] at h8
      rw [hs']
      exact ⟨h8.balanced, h8.bounded, h8.small⟩
    · obtain rfl : ip = i := some.inj (hr.symm.trans hip)
      rw [hq7.mem pa (hf1.taken hnd).1, ← hbytes hF]
      simp [setPage]

end Alloc

section Cow

variable {s s' : Kernel} {p va phy : ℕ} {pte pte' : Pte} {u : PUnit}

theorem Kernel.withPte_withPte (t v : ℕ) :
    (s.withPte t v pte).withPte t v pte' = s.withPte t v pte' := by
  unfold withPte setTable
  cases h : s.table t <;> simp [PageTable.withLeaf]

def Split (p va : ℕ) (s s' : Kernel) : Prop :=
  ∃ s₁ new pte, Quiet s s₁ ∧ Fresh s s₁ new ∧
    (∀ D, s.Owned D → s₁.Owned (D + Pi.single new 1)) ∧ va < maxVa ∧
    s.trans p (va / pgSize) = some pte ∧ pte.perm.u = true ∧ 1 < s.ref pte.ppn ∧
    (pte.ppn ∉ s.freelist → s₁.mem new = s.mem pte.ppn) ∧
    s' = ((s₁.withPte p (va / pgSize) ⟨true, { pte.perm with w := true }, new⟩).mark
      new).setRef pte.ppn (u32 (s₁.ref pte.ppn - 1))

def Granted (p va : ℕ) (s s' : Kernel) : Prop :=
  ∃ pte, va < maxVa ∧ s.trans p (va / pgSize) = some pte ∧ pte.perm.u = true ∧
    s.ref pte.ppn = 1 ∧
    s' = s.withPte p (va / pgSize) ⟨true, { pte.perm with w := true }, pte.ppn⟩

theorem Kernel.valid_of_trans {t v : ℕ} (h : s.trans t v = some pte) : pte.valid = true := by
  unfold Kernel.trans PageTable.trans at h
  cases hs : s.table t with
  | none => simp [hs] at h
  | some pt =>
    simp only [hs, bind_some, filter_eq_some_iff] at h
    exact h.2

variable (hw : s.walkaddr p va = some phy)
include hw

theorem cowCopy_ok (href : 1 < s.ref phy)
    (hx : cowCopy p va phy s = .ok u s') : Split p va s s' := by
  obtain ⟨hva, pte, ht, hu, rfl⟩ := walkaddr_some hw
  unfold cowCopy at hx
  obtain ⟨o, s1, hk, hx⟩ := bind_ok.mp hx
  cases o with
  | none => simp [setkilled] at hx
  | some new =>
    obtain ⟨hq, hf, -⟩ := kalloc_some hk
    set s2 := s1.setPage new (s1.mem pte.ppn) with hs2
    have hq2 : Quiet s s2 := hq.setPage hf.was _
    have ht2 : s2.trans p (va / pgSize) = some pte := (hq2.trans p _).trans ht
    have hl2 := lookup_isSome_of_trans ht2
    simp only [bind_ok, modify_ok, get_ok] at hx
    obtain ⟨_, _, rfl, _, _, ⟨rfl, rfl⟩, _, _, rfl, b, s5, hmap, hx⟩ := hx
    rw [ht2, getD_some] at hmap
    have hl4 : ((s2.withPte p (va / pgSize) { pte with valid := false }).lookup p
        (pgRoundDown va / pgSize)).isSome := by
      rw [pgRoundDown_div]
      obtain ⟨pt, hs, hlp⟩ := exists_table_of_lookup hl2
      simp [withPte_eq hs, lookup, setTable,
        PageTable.lookup_withLeaf_isSome, hlp]
    obtain ⟨rfl, rfl⟩ := mappages_of_lookup hl4 hmap
    rw [pgRoundDown_div, withPte_withPte] at hx
    simp only [if_true, bind_ok, modify_ok] at hx
    obtain ⟨_, _, rfl, hdec⟩ := hx
    have hs' := decref_ok hdec
    refine ⟨s2, new, pte, hq2, ⟨hf.was, hf.taken, hf.faulted⟩, fun D hD => ?_, hva, ht, hu, href,
      fun hmem => ?_, hs'⟩
    · obtain ⟨h1, -⟩ := kalloc_owned hD hk
      exact ⟨h1.balanced, h1.bounded, h1.small⟩
    simp only [hs2, setPage, Function.update_self]
    exact hq.mem pte.ppn hmem

theorem cowGrant_ok (href : s.ref phy = 1)
    (hx : cowGrant p va s = .ok u s') : Granted p va s s' := by
  obtain ⟨hva, pte, ht, hu, rfl⟩ := walkaddr_some hw
  have hs' := modify_ok.mp hx
  subst hs'
  have hvalid := valid_of_trans ht
  refine ⟨pte, hva, ht, hu, href, ?_⟩
  simp only [ht, getD_some]
  rw [hvalid]

theorem cow_ok (hx : cow p va phy s = .ok u s') : s' = s ∨ Split p va s s' ∨ Granted p va s s' := by
  unfold cow at hx
  rw [get_run] at hx
  simp only at hx
  split_ifs at hx with h1 h2 h2
  · omega
  · simp only [bind_ok, pure_ok] at hx
    obtain ⟨_, s1, hcopy, -, rfl⟩ := hx
    exact .inr (.inl (cowCopy_ok hw h1 hcopy))
  · exact .inr (.inr (cowGrant_ok hw h2 hx))
  · obtain ⟨-, rfl⟩ := pure_ok.mp hx
    exact .inl rfl

end Cow

end Xv6.Vm
