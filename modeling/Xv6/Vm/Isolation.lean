import Xv6.Vm.Sbrk

/-!
# What user code cannot reach

In runs in which no call takes a user page for a page table, the memory of a process is never
that of the kernel, with any arguments and any executable files.
-/
namespace Xv6.Vm

open Library

/-- In every run of careful calls, the pages that user code can access and those that the kernel
copies from and to for it are above the kernel. They are mapped below the trapframe and the
trampoline, which stay mapped and out of reach. -/
theorem user_memory_above_kernel {σ τ : System} {K : ℕ} (hK : 0 < K) (h : σ.kernel.Ordered K)
    (hr : Reach SysStep Careful σ τ) :
    (∀ q v pte, τ.kernel.trans q v = some pte → pte.perm.u = true →
      τ.kernel.kend ≤ pte.ppn ∧ v < trapVpn) ∧
    (∀ q va pa, τ.kernel.walkaddr q va = some pa → τ.kernel.kend ≤ pa) ∧
    ∀ q v, (τ.kernel.proc q).state ≠ .unused → trapVpn ≤ v → v < maxVa / pgSize →
      ∃ pte, τ.kernel.trans q v = some pte ∧ pte.perm.u = false := by
  have ho := h.reach hK hr
  rw [ho.tidy.kend]
  refine ⟨?_, ?_, fun q v hq => ho.sane.special q hq v⟩
  · intro q v pte hv hu
    exact ⟨ho.tidy.mapped q v pte hv (.inr hu), ho.sane.low q v pte hv hu⟩
  · intro q va pa hw
    obtain ⟨-, pte, hv, hu, rfl⟩ := walkaddr_some hw
    exact ho.tidy.mapped q _ pte hv (.inr hu)

theorem user_memory_above_kernel_programRead : (programRead.kernel.walkaddr 0 0).isSome = true ∧
    ∀ pa, programRead.kernel.walkaddr 0 0 = some pa → programRead.kernel.kend ≤ pa :=
  ⟨by decide +kernel, (user_memory_above_kernel (by decide) programSystem_ordered
    programRead_reach).2.1 0 0⟩

end Xv6.Vm
