import Xv6.Vm.Boot

/-!
# Where `mmap` puts regions

In every run in which each accepted `mmap` has room below `nmp`, the regions of a process start at
page boundaries, take disjoint intervals of pages that end at the trapframe or below, and `nmp` is
the start of the lowest one. `sys_mmap` does not check for room.
-/
namespace Xv6.Vm

open Library

/-- The regions of process `p` and `nmp` are as the allocation of addresses needs them. -/
structure Kernel.LaidOut (s : Kernel) (p : ℕ) : Prop where
  aligned : ∀ i v, s.slot p i = some v → v.addr % pgSize = 0
  below : ∀ i v, s.slot p i = some v → v.stop ≤ Xv6.trapframe
  disjoint : ∀ i i' v v', i ≠ i' → s.slot p i = some v → s.slot p i' = some v' →
    v.stop ≤ v'.addr ∨ v'.stop ≤ v.addr
  lowest : ∀ i v, s.slot p i = some v → (s.proc p).nmp ≤ v.addr
  attained : (∃ i v, s.slot p i = some v ∧ v.addr = (s.proc p).nmp) ∨
    ((∀ i, s.slot p i = none) ∧ (s.proc p).nmp = Xv6.trapframe)

section Layout

variable {s s₀ : Kernel} {p : ℕ}

theorem Kernel.Layout.laidOut (h : s.Layout) (hp : (s.proc p).state ≠ .unused) : s.LaidOut p where
  aligned i v hv := (h.placed p i v hv).aligned
  below i v hv := (h.placed p i v hv).below
  disjoint i i' v v' hi hv hv' := h.disjoint p i i' v v' hi hv hv'
  lowest i v hv := by
    rw [h.next p hp]
    exact h.minVma_le hv
  attained := by
    rw [h.next p hp]
    rcases s.minVma_mem p with he | hlow
    · by_cases hnone : ∀ i, s.slot p i = none
      · exact .inr ⟨hnone, he⟩
      · left
        push Not at hnone
        obtain ⟨i, hi⟩ := hnone
        obtain ⟨v, hv⟩ := Option.ne_none_iff_exists'.mp hi
        refine ⟨i, v, hv, le_antisymm ?_ (h.minVma_le hv)⟩
        rw [he]
        exact (Nat.le_add_right _ _).trans (h.placed p i v hv).below
    · exact .inl hlow

theorem Kernel.Layout.of_no_regions (hnone : ∀ q k, (s.proc q).vmas k = none)
    (hn : ∀ q, (s.proc q).state ≠ .unused → (s.proc q).nmp = Xv6.trapframe) : s.Layout := by
  have hslot : ∀ q k, s.slot q k = none := fun q k => by simp [Kernel.slot, hnone q k]
  refine ⟨⟨fun q k _ => hnone q k, fun q _ k => hnone q k, ?_, ?_, ?_⟩, ?_, ?_⟩
  · intro q i q' i' j hj
    simp [hnone q i] at hj
  · intro q i v hv
    simp [hslot q i] at hv
  · intro q i i' v v' _ hv
    simp [hslot q i] at hv
  · intro q i j hj
    simp [hnone q i] at hj
  · intro q hq
    rw [hn q hq]
    rcases s.minVma_mem q with he | ⟨i, v, hv, -⟩
    · exact he.symm
    · simp [hslot q i] at hv

/-- In every run in which `mmap` finds room, regions are laid out well. -/
theorem vma_layout (hs : s₀.Sane) (hnone : ∀ q k, (s₀.proc q).vmas k = none)
    (hn : ∀ q, (s₀.proc q).state ≠ .unused → (s₀.proc q).nmp = Xv6.trapframe)
    (hr : Reach Step (MapsAbove fun _ _ => 0) s₀ s) (hp : (s.proc p).state ≠ .unused) :
    s.LaidOut p := by
  have h0 : s₀.Sane ∧ s₀.Layout := ⟨hs, Kernel.Layout.of_no_regions hnone hn⟩
  have h : s.Sane ∧ s.Layout := by
    apply hr.invariant (I := fun a => a.Sane ∧ a.Layout) h0
    intro a e b ha hok hstep
    exact ⟨ha.1.step hstep, ha.2.step ha.1 hok hstep⟩
  exact h.2.laidOut hp

end Layout

theorem boot_vmas (q k : ℕ) : (boot.proc q).vmas k = none := by
  have hslot := boot_layout.2.2 q k
  simpa [Kernel.slot] using hslot

theorem boot_nmp (q : ℕ) (hq : (boot.proc q).state ≠ .unused) :
    (boot.proc q).nmp = Xv6.trapframe := by
  rw [boot_layout.1.next q hq]
  rcases boot.minVma_mem q with he | ⟨i, v, hv, -⟩
  · exact he
  · simp [boot_layout.2.2 q i] at hv

def holeMapped : Kernel := next (next privateMapped (.mmap 0 5000 1 5 3 0)) (.munmap 0 mapBase 4096)

theorem vma_layout_hole : (holeMapped.slot 0 1).map (·.addr) = some (mapBase - 8192) ∧
    holeMapped.slot 0 0 = none ∧ holeMapped.LaidOut 0 := by
  have h1 : Step boot _ privateMapped := step_next (by decide +kernel)
  have h2 : Step privateMapped _ (next privateMapped (.mmap 0 5000 1 5 3 0)) :=
    step_next (by decide +kernel)
  have h3 : Step _ (.munmap 0 mapBase 4096) holeMapped := step_next (by decide +kernel)
  have hroom1 : MapsAbove (fun _ _ => 0) boot (.mmap 0 4096 3 5 3 0) := fun _ _ _ => by
    have h : (4096 : ℤ) ≤ 2 ^ 31 - pgSize ∧ 0 + pgRoundUp 4096 ≤ (boot.proc 0).nmp := by
      decide +kernel
    exact h
  have hroom2 : MapsAbove (fun _ _ => 0) privateMapped (.mmap 0 5000 1 5 3 0) := fun _ _ _ => by
    have h : (5000 : ℤ) ≤ 2 ^ 31 - pgSize ∧ 0 + pgRoundUp 5000 ≤ (privateMapped.proc 0).nmp := by
      decide +kernel
    exact h
  have hroom3 : MapsAbove (fun _ _ => 0) (next privateMapped (.mmap 0 5000 1 5 3 0))
      (.munmap 0 mapBase 4096) := trivial
  have hr : Reach Step (MapsAbove fun _ _ => 0) boot holeMapped :=
    ((Reach.refl.tail hroom1 h1).tail hroom2 h2).tail hroom3 h3
  refine ⟨by decide +kernel, by decide +kernel, ?_⟩
  exact vma_layout boot_start.sane boot_vmas boot_nmp hr (by decide +kernel)

def hugeMapped : Kernel := next boot (.mmap 0 2147483647 1 4 3 0)

/-- Rounding the length up overflows, and the region ends above the trapframe. -/
theorem huge_mmap_above_trapframe : Reach Step (fun _ _ => True) boot hugeMapped ∧
    (∃ v, hugeMapped.slot 0 0 = some v ∧ v.addr = Xv6.trapframe + 2 ^ 31) ∧
    ¬ hugeMapped.LaidOut 0 := by
  have h1 : Step boot _ hugeMapped := step_next (by decide +kernel)
  have hv : hugeMapped.slot 0 0 = some ⟨⟨some 1, Xv6.trapframe + 2 ^ 31, 2147483647, 2147483647, 0⟩,
      true, 0, 3, .read, .mapShared⟩ := by decide +kernel
  refine ⟨Reach.refl.tail trivial h1, ⟨_, hv, rfl⟩, fun h => ?_⟩
  have hbelow := h.below 0 _ hv
  exact absurd hbelow (by decide)

end Xv6.Vm
