import Xv6.Vm.Coverage

/-!
# Growing the image

`uvmalloc` maps pages that must not be mapped yet. When every mapped page belongs to the image or
to a region, and the new size lies below the regions, they are not, so a growing `sbrk` never ends
in the panic of `mappages`. A shrinking `sbrk` below the text segment breaks this.
-/
namespace Xv6.Vm

open Library

section Alloc

variable {t va pa n a k oldsz newsz : ℕ} {perm : Perm} {doFree : Bool} {P : Kernel → Prop}

end Alloc

section Runs

variable {σ σ₀ : System} {K p : ℕ} {n : ℤ}

end Runs

section Boot

theorem bare_tidy : bare.Tidy 0x80022 [] where
  kend := rfl
  stock := by decide
  mapped t v pte ht := by cases ht
  inside t v pte ht := by cases ht
  sizes ip := by simp [bare, maxFile, nDirect, nIndirect, bSize]
  segments q := by simp [bare, Region.Sourced, Region.empty, Region.Contains, u64]
  locks := rfl

theorem boot_tidy : boot.Tidy 0x80022 [] := by
  obtain ⟨s, hx, hboot⟩ := boot_allocproc
  have hs : s.Tidy 0x80022 [] := allocproc_restores.of_ok bare_tidy hx
  rw [hboot]
  exact (hs.setFields rfl rfl).setFields rfl rfl

theorem boot_covered : boot.Covered := by
  obtain ⟨s, ⟨-, -, hn, -, -, hnone, -⟩, hboot⟩ := boot_allocated
  intro q w pte ht hw
  exfalso
  have hs : s.trans q w = some pte := by
    rw [hboot] at ht
    exact ht
  by_cases hq : q = 0
  · rw [hq, hnone w hw] at hs
    cases hs
  · rw [hn.aside.apart q w hq] at hs
    cases hs

theorem boot_ordered : boot.Ordered 0x80022 := by
  refine ⟨boot_start.sane, ⟨boot_layout.1, fun q i v hv => ?_, fun q _ i => boot_vmas q i,
    fun j hj => ?_⟩, boot_layout.2.1, boot_tidy, boot_covered⟩
  · simp [Kernel.slot, boot_vmas] at hv
  · simp [boot_free] at hj

theorem Kernel.Ordered.setInode {s : Kernel} {K ip : ℕ} {inode : Inode} (h : s.Ordered K)
    (hsize : inode.size ≤ maxFile * bSize) : (s.setInode ip inode).Ordered K where
  sane := { h.sane with }
  accounted := ⟨⟨{ h.accounted.layout.toArranged with }, h.accounted.layout.used,
    h.accounted.layout.next⟩, h.accounted.positive, h.accounted.emptied, h.accounted.owned⟩
  above := ⟨h.above.image, h.above.above⟩
  tidy := h.tidy.setInode hsize
  covered := h.covered

/-- An executable file with one program header, for a page of text at address `0`. -/
def program : Inode where
  size := 8192
  data := fun a =>
    if a = 0 then 0x7F else if a = 1 then 0x45 else if a = 2 then 0x4C else if a = 3 then 0x46
    else if a = 32 then 64 else if a = 56 then 1 else if a = 64 then 1 else if a = 68 then 5
    else if a = 97 then 0x10 else if a = 105 then 0x10 else 0
  blocks := fun bn => bn < 8
  indirect := false

def programSystem : System := ⟨boot.setInode 2 program, fun _ => none⟩

theorem programSystem_ordered : programSystem.kernel.Ordered 0x80022 :=
  boot_ordered.setInode (by decide)

def launched : System := sysNext programSystem (.exec 0 (some 2) [])

theorem program_headers : programSystem.kernel.headers 2 =
    some ⟨4096, 4096, 0, 0, 0, 0, -1⟩ := by decide +kernel

theorem launched_step : SysStep programSystem (.exec 0 (some 2) []) launched :=
  sysStep_next (by decide +kernel)

/-- Text and data of the program, and the new size, keep their bounds. -/
theorem launched_careful : Careful programSystem (.exec 0 (some 2) []) := by
  refine ⟨⟨trivial, ?_⟩, (fun e he => by cases he), fun i v w pte hv => ?_⟩
  swap
  · have hnone : programSystem.kernel.slot 0 i = none := boot_layout.2.2 0 i
    simp [hnone] at hv
  intro i g hi hg
  cases hi
  rw [program_headers] at hg
  cases hg
  have hsize : Segments.size ⟨4096, 4096, 0, 0, 0, 0, -1⟩ = 4096 := by decide
  refine ⟨?_, ?_, .inl (by decide +kernel)⟩
  · intro va hva
    rw [hsize]
    simp only [Region.Contains, Segments.text, Segments.data] at hva
    simp [i32, u64, pgRoundUp64, pgRoundUp, pgSize] at hva ⊢
    omega
  · rw [hsize]
    decide +kernel

def programRead : System := sysNext launched (.event (.load 0 0))

theorem programRead_reach : Reach SysStep Careful programSystem programRead := by
  have hload : SysStep launched (.event (.load 0 0)) programRead := sysStep_next (by decide +kernel)
  have hok : Careful launched (.event (.load 0 0)) := by
    refine ⟨⟨trivial, trivial⟩, ?_, trivial⟩
    rintro _ ⟨⟩
    trivial
  exact (Reach.refl.tail launched_careful launched_step).tail hok hload

end Boot

end Xv6.Vm
