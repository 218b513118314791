import Xv6.Library.Stops
import Xv6.Vm.Sbrk

/-!
# Giving up page tables

`freewalk` frees the pages of a page table and panics when it meets a leaf, so
`proc_freepagetable` must only be given page tables that map nothing besides the image. That is so
where `fork` and `exec` fail and where `wait` frees a child that has exited; it is so for the old
image in `exec` unless a page of a region is still mapped.
-/
namespace Xv6.Vm

open Library List Option

def Kernel.Leafless (t : ℕ) (s : Kernel) : Prop := ∀ v, s.trans t v = none

/-- Below the trapframe, only pages of an image of size `sz` are mapped. -/
def Kernel.Confined (t sz : ℕ) (s : Kernel) : Prop :=
  ∀ v pte, s.trans t v = some pte → v < trapVpn → v * pgSize < pgRoundUp sz

section Free

variable {K t p va n sz : ℕ} {l l' : List ℕ} {s s' : Kernel} {u : PUnit}

theorem Tends.clean {α : Type} {x : KernelM α} {m : List ℕ} (h : Tends K l m x)
    (hs : s.Tidy K l) : StopsIn Stop.Clean x s :=
  .of_triple h hs

theorem Kernel.Leafless.map {f : PageTable → PageTable} (h : s.Leafless t)
    (hf : ∀ pt v pte, (f pt).trans v = some pte → pt.trans v = some pte) :
    (s.setTable t ((s.table t).map f)).Leafless t := by
  intro v
  rw [Kernel.trans_setTable, if_pos rfl]
  cases hs : s.table t with
  | none => rfl
  | some pt =>
    cases ht : (f pt).trans v with
    | none => simpa using ht
    | some pte =>
      have hold := h v
      simp [Kernel.trans, hs, hf pt v pte ht] at hold

theorem kfree_leafless {pa : ℕ} :
    Triple (Kernel.Leafless t) (kfree pa) (fun _ => Kernel.Leafless t) fun e _ => e.Clean := by
  unfold kfree
  apply Triple.read
  intro s hs
  refine Triple.ite (fun _ => ?_) fun _ => Triple.throw fun _ _ => by decide
  refine Triple.ite (fun _ => Triple.set fun _ _ => hs) fun _ => ?_
  exact Triple.seq (M := Kernel.Leafless t) (Triple.set fun _ _ => hs)
    (Triple.throw fun _ _ => by decide)

theorem freewalkTab_leafless {k : ℕ} : Triple (Kernel.Leafless t) (freewalkTab t k)
    (fun _ => Kernel.Leafless t) fun e _ => e.Clean := by
  have hentry : ∀ i, Triple (Kernel.Leafless t) (freewalkEntry t (k * 512 + i))
      (fun _ => Kernel.Leafless t) fun e _ => e.Clean := by
    intro i
    unfold freewalkEntry
    apply Triple.read
    intro s hs
    rw [hs (k * 512 + i)]
    exact Triple.pure fun _ h => h
  unfold freewalkTab
  apply Triple.read
  intro s hs
  cases (s.table t).bind (·.tab k) with
  | none => exact Triple.pure fun _ h => h
  | some pa =>
    refine (Triple.loop_const hentry 0 512).seq (kfree_leafless.seq (Triple.modify fun s hs => ?_))
    exact hs.map fun _ _ _ ht => PageTable.trans_of_dropTab ht

theorem freewalkDir_leafless {k : ℕ} : Triple (Kernel.Leafless t) (freewalkDir t k)
    (fun _ => Kernel.Leafless t) fun e _ => e.Clean := by
  unfold freewalkDir
  apply Triple.read
  intro s hs
  cases (s.table t).bind (·.dir k) with
  | none => exact Triple.pure fun _ h => h
  | some pa =>
    refine (Triple.loop_const (fun i => freewalkTab_leafless) 0 512).seq
      (kfree_leafless.seq (Triple.modify fun s hs => ?_))
    exact hs.map fun _ _ _ ht => PageTable.trans_of_dropDir ht

end Free

section Spawn

variable {K t p np va k i old new : ℕ} {l : List ℕ} {s s' : Kernel}

end Spawn

section Exec

variable {K p sz : ℕ} {l : List ℕ} {s s' : Kernel}

theorem Kernel.Hollow.confined {t : ℕ} (h : s.Hollow t) : s.Confined t sz := by
  intro v pte ht hv
  have hge := (h.2 v pte ht).1
  omega

theorem Stacked.confined {t : ℕ} (h : Stacked t sz s) : s.Confined t sz := by
  intro v pte ht hv
  rw [pgRoundUp_of_aligned h.aligned]
  have hal := h.aligned
  have hpage : v + 1 ≤ sz / pgSize := by
    rcases h.pages v pte ht with ⟨hge, -⟩ | ⟨he, -⟩ | ⟨he, -⟩
    · omega
    · omega
    · omega
  unfold pgSize at *
  omega

theorem Kernel.Confined.beside {t : ℕ} (h : s.Confined t sz) (hb : Beside p s s')
    (ht : t ≠ spare p) : s'.Confined t sz := by
  intro v pte hv
  apply h v pte
  simpa [Kernel.trans, hb.table t ht] using hv

end Exec

section Runs

variable {σ σ₀ : System} {c : Call} {K p q bound : ℕ} {s : Kernel}

theorem Kernel.Covered.confined (h : s.Covered) (hbare : ∀ i v w pte, s.slot q i = some v →
    v.Covers w → s.trans q w ≠ some pte) : s.Confined q (s.proc q).sz := by
  intro v pte ht hv
  rcases (h q v pte ht hv).1 with himage | ⟨i, x, hx, hcov⟩
  · exact himage
  · exact absurd ht (hbare i x v pte hx hcov)

theorem Kernel.Accounted.confined (ha : s.Accounted) (h : s.Covered)
    (hz : (s.proc q).state = .zombie) : s.Confined q (s.proc q).sz := by
  apply h.confined
  intro i v w pte hv
  simp [Kernel.slot, ha.emptied q hz i] at hv

end Runs

section Boot

/-- The running program maps a page of a file, reads it and its own text, and forks. -/
def parentMapped : System := sysNext programRead (.event (.mmap 0 4096 3 5 3 0))

def parentRead : System := sysNext parentMapped (.event (.load 0 mapBase))

def childForked : System := sysNext parentRead (.event (.fork 0))

def childExited : System := sysNext childForked (.event (.exit 1))

theorem childExited_reach : Reach SysStep Careful programSystem childExited := by
  have hmap : SysStep programRead (.event (.mmap 0 4096 3 5 3 0)) parentMapped :=
    sysStep_next (by decide +kernel)
  have hload : SysStep parentMapped (.event (.load 0 mapBase)) parentRead :=
    sysStep_next (by decide +kernel)
  have hfork : SysStep parentRead (.event (.fork 0)) childForked := sysStep_next (by decide +kernel)
  have hexit : SysStep childForked (.event (.exit 1)) childExited :=
    sysStep_next (by decide +kernel)
  have hok1 : Careful programRead (.event (.mmap 0 4096 3 5 3 0)) := by
    have hroom : programRead.kernel.Roomy 0 (pgRoundUp (programRead.kernel.proc 0).sz)
      (i32 4096) := by
      unfold Kernel.Roomy
      decide +kernel
    refine ⟨⟨fun _ _ _ => ⟨⟨hroom.1, ?_⟩, by decide⟩, fun _ _ _ => hroom⟩, ?_, trivial⟩
    · exact (Nat.add_le_add_right (Nat.zero_le _) _).trans hroom.2
    · rintro _ ⟨⟩
      trivial
  have hok2 : ∀ σ : System, Careful σ (.event (.load 0 mapBase)) ∧
    Careful σ (.event (.fork 0)) := by
    intro σ
    constructor <;> refine ⟨⟨trivial, trivial⟩, ?_, trivial⟩ <;> rintro _ ⟨⟩ <;> trivial
  have hr3 : Reach SysStep Careful programSystem childForked :=
    ((programRead_reach.tail hok1 hmap).tail (hok2 _).1 hload).tail (hok2 _).2 hfork
  have hok3 : Careful childForked (.event (.exit 1)) := by
    refine ⟨⟨trivial, trivial⟩, ?_, trivial⟩
    rintro _ ⟨⟩ i v hv hshared
    have hord := programSystem_ordered.reach (by decide) hr3
    have hprivate : ∀ i < perProcessVmas,
        (childForked.kernel.slot 1 i).all (·.flags == .mapPrivate) = true := by decide +kernel
    by_cases hi : i < perProcessVmas
    · have hflags := hprivate i hi
      simp [hv, hshared] at hflags
    · simp [Kernel.slot, hord.accounted.layout.slots 1 i (by omega)] at hv
  exact hr3.tail hok3 hexit

end Boot

end Xv6.Vm
