import Xv6.Vm.Tidy

/-!
# Every call leaves the kernel in order

The calls of processes, one after the other, keep what `Tidy` says: those that give up no
page table meet no leaf in one, and all that return have released their locks.
-/
namespace Xv6.Vm

open Library

section Processes

variable {K p np f va pa ip n fuel tot off src addr bound i j : ℕ} {l : List ℕ} {size offset : ℤ}

theorem filedup_tends : Tends K l l (filedup f) := by
  unfold filedup
  apply Triple.read
  intro s hs
  exact Triple.ite (fun _ => tends_throw (by decide)) fun _ => tends_set hs.setFile

theorem fileclose_tends : Tends K l l (fileclose f) := by
  unfold fileclose
  apply Triple.read
  intro s hs
  refine Triple.ite (fun _ => tends_throw (by decide)) fun _ => ?_
  exact Triple.ite (fun _ => tends_set hs.setFile) fun _ => tends_set hs.setFile

/-- The offset that is reached lies within the bytes to be written. -/
theorem writeiLoop_tends (htot : tot ≤ n) : Triple (Kernel.Tidy K l)
    (writeiLoop p ip n fuel src tot off)
    (fun r s => r.2 + tot ≤ off + n ∧ s.Tidy K l) fun e _ => e.Clean := by
  have hstop : ∀ tot off, tot ≤ n → Triple (Kernel.Tidy K l) (pure (tot, off) : KernelM (ℕ × ℕ))
      (fun r s => r.2 + tot ≤ off + n ∧ s.Tidy K l) fun e _ => e.Clean :=
    fun tot off h => Triple.pure fun s hs => ⟨by simp only; omega, hs⟩
  induction fuel generalizing src tot off with
  | zero => exact hstop tot off htot
  | succ fuel ih =>
    unfold writeiLoop
    refine Triple.ite (fun hlt => ?_) fun _ => hstop tot off htot
    refine bmap_tends.bind fun b => ?_
    refine Triple.ite (fun _ => ?_) fun _ => hstop tot off htot
    refine copyin_tends.bind fun ⟨ok, bytes, got⟩ => ?_
    refine Triple.seq (tends_modify fun s hs => hs.setInode (hs.sizes ip)) ?_
    refine Triple.ite (fun _ => ?_) fun _ => hstop tot off htot
    refine (ih (by omega)).post fun r s hs => ⟨?_, hs.2⟩
    have := hs.1
    omega

theorem writei_tends (hn : n < 2 ^ 32) : Tends K l l (writei p ip src off n) := by
  unfold writei
  apply Triple.read
  intro s hs
  refine Triple.ite (fun _ => tends_pure _) fun hwrap => ?_
  refine Triple.ite (fun _ => tends_pure _) fun hmax => ?_
  refine (writeiLoop_tends (Nat.zero_le n)).bind fun ⟨tot, off'⟩ => Triple.assume fun hoff => ?_
  refine Triple.seq (tends_modify fun t ht => ?_) (tends_pure _)
  have hsize := hs.sizes ip
  have hlimit : maxFile * bSize < 2 ^ 32 := by decide
  split_ifs
  · refine ht.setInode ?_
    unfold u32 at hwrap hmax
    simp only at hoff ⊢
    omega
  · exact ht

theorem filewriteLoop_tends : Tends K l l (filewriteLoop p f fuel va n) := by
  induction fuel generalizing va n with
  | zero => exact tends_pure _
  | succ fuel ih =>
    unfold filewriteLoop
    refine Triple.ite (fun _ => tends_pure _) fun _ => ?_
    apply Triple.read
    intro s hs
    refine ilock_bind (fun _ _ he => he) fun i _ => ?_
    have hlt : min n maxWrite < 2 ^ 32 := by
      have : maxWrite < 2 ^ 32 := by decide
      omega
    refine (writei_tends hlt).bind fun r => ?_
    have hrest : Tends K (i :: l) l (do
        iunlock i
        if r = (min n maxWrite : ℕ) then
          filewriteLoop p f fuel (u64 (va + r)) (n - min n maxWrite)
        else return ⟨⟩) :=
      iunlock_tends.seq (Triple.ite (fun _ => ih) fun _ => tends_pure _)
    refine Triple.ite (fun _ => ?_) fun _ => hrest
    exact Triple.seq (tends_modify fun s hs => hs.setFile) hrest

theorem filewrite_tends : Tends K l l (filewrite p f va n) := by
  unfold filewrite
  apply Triple.read
  intro s hs
  refine Triple.ite (fun _ => tends_pure _) fun _ => ?_
  exact Triple.ite (fun _ => filewriteLoop_tends) fun _ => tends_throw (by decide)

theorem Kernel.Tidy.addVma {s : Kernel} {v : Vma} (h : s.Tidy K l) : (s.addVma p i j v).Tidy K l :=
  h.setVma.setFile.setFields rfl rfl

theorem sysMmap_tends {length prot flags fd : ℤ} :
    Tends K l l (sysMmap p length prot flags fd offset) := by
  unfold sysMmap
  apply Triple.read
  intro s hs
  cases s.argfd p fd with
  | none => exact tends_pure _
  | some f =>
    cases Prot.ofInt prot with
    | none => exact tends_pure _
    | some prot =>
      cases MapFlags.ofInt flags with
      | none => exact tends_pure _
      | some flags =>
        refine Triple.ite (fun _ => tends_pure _) fun _ => ?_
        refine Triple.ite (fun _ => tends_pure _) fun _ => ?_
        refine Triple.ite (fun _ => tends_pure _) fun _ => ?_
        unfold allocvma
        apply Triple.read
        intro s hs
        cases (List.range perProcessVmas).find? fun i => (s.proc p).vmas i = none with
        | none => exact tends_pure _
        | some i =>
          cases s.freeVma with
          | none => exact tends_pure _
          | some j => exact Triple.seq (tends_set hs.addVma) (tends_pure _)

theorem writePage_tends {w n1 : ℤ} : Tends K l l (writePage p ip addr offset fuel w n1) := by
  induction fuel generalizing w n1 with
  | zero =>
    unfold writePage
    exact Triple.ite (fun _ => tends_throw (by decide)) fun _ => tends_pure _
  | succ fuel ih =>
    unfold writePage
    refine Triple.ite (fun _ => ?_) fun _ => tends_pure _
    exact (writei_tends (u32_lt _)).bind fun r => ih

theorem unmapShared_tends : Tends K l l (unmapShared p va) := by
  unfold unmapShared
  apply Triple.read
  intro s hs
  exact Triple.ite (fun _ => uvmunmap_tends) fun _ => decref_tends.seq uvmunmap_tends

theorem writeBack_tends {o : Option ℕ} {z : ℤ} :
    Tends K l l (writeBack bound p o addr size offset fuel z) := by
  induction fuel generalizing z with
  | zero =>
    unfold writeBack
    exact Triple.ite (fun _ => tends_throw (by decide)) fun _ => tends_pure _
  | succ fuel ih =>
    unfold writeBack
    refine Triple.ite (fun _ => ?_) fun _ => tends_pure _
    apply Triple.read
    intro s hs
    cases s.walkaddr p (u64 (addr + z)) with
    | none => exact ih
    | some pa =>
      refine ilock_bind (fun _ _ he => he) fun i _ => writePage_tends.bind fun w => ?_
      exact unmapShared_tends.seq (iunlock_tends.seq ih)

theorem unmapPrivate_tends : Tends K l l (unmapPrivate p va) := by
  unfold unmapPrivate
  apply Triple.read
  intro s hs
  cases s.walkaddr p va with
  | none => exact tends_pure _
  | some pa => exact Triple.ite (fun _ => uvmunmap_tends) fun _ => uvmunmap_tends

theorem unmapRange_tends {v : Vma} : Tends K l l (unmapRange bound p v addr size) := by
  unfold unmapRange
  cases v.flags with
  | mapShared => exact writeBack_tends
  | mapPrivate => exact Triple.loop_const (fun k => unmapPrivate_tends) 0 _

theorem dropSlot_tends : Tends K l l (dropSlot p i j) := by
  have hslot : Tends K l l (modify (·.setProc p fun q =>
      { q with vmas := Function.update q.vmas i none }) : KernelM PUnit) :=
    tends_modify fun s hs => hs.setFields rfl rfl
  unfold dropSlot
  apply Triple.read
  intro s hs
  refine Triple.ite (fun _ => ?_) fun _ => Triple.seq (tends_set hs.setFile) hslot
  exact fileclose_tends.seq (Triple.seq (tends_modify fun s hs => hs.setFields rfl rfl) hslot)

theorem deallocvma_tends : Tends K l l (deallocvma bound p addr size) := by
  have hend : Tends K l l (do
      modify fun s => s.setProc p fun q => { q with nmp := s.minVma p }
      return true : KernelM Bool) :=
    Triple.seq (tends_modify fun s hs => hs.setFields rfl rfl) (tends_pure _)
  unfold deallocvma
  apply Triple.read
  intro s hs
  cases s.usedSlot p addr with
  | none => exact tends_pure _
  | some i =>
    dsimp only
    cases (s.proc p).vmas i with
    | none => exact tends_pure _
    | some j =>
      dsimp only
      cases (s.vmas j).cut addr size with
      | none => exact tends_pure _
      | some c =>
        obtain ⟨v, complete, off⟩ := c
        refine Triple.seq (tends_set hs.setVma) (unmapRange_tends.seq ?_)
        refine Triple.seq (tends_modify fun s hs => hs.setVma) ?_
        exact Triple.ite (fun _ => dropSlot_tends.seq hend) fun _ => hend

theorem sysMunmap_tends : Tends K l l (sysMunmap bound p addr size) := by
  unfold sysMunmap
  refine Triple.ite (fun _ => tends_pure _) fun _ => ?_
  refine Triple.ite (fun _ => tends_pure _) fun _ => ?_
  exact Triple.ite (fun _ => tends_pure _) fun _ => deallocvma_tends

theorem deallocSegment_tends {r : Region} : Tends K l l (deallocSegment p r) := by
  unfold deallocSegment
  refine Triple.loop_const (fun k => ?_) 0 _
  apply Triple.read
  intro s hs
  cases s.walkaddr p (u64 (r.addr + (k * pgSize : ℕ))) with
  | none => exact tends_pure _
  | some pa => exact uvmunmap_tends

theorem exit_tends : Tends K l l (exit bound p) := by
  unfold exit
  refine Triple.ite (fun _ => tends_throw (by decide)) fun _ => ?_
  refine Triple.seq (M := Kernel.Tidy K l) (Triple.loop_const (fun fd => ?_) 0 _) ?_
  · apply Triple.read
    intro s hs
    cases (s.proc p).ofile fd with
    | none => exact tends_pure _
    | some f =>
      exact fileclose_tends.seq (tends_modify fun s hs => hs.setFields rfl rfl)
  apply Triple.read
  intro s hs
  refine deallocSegment_tends.seq (deallocSegment_tends.seq ?_)
  refine Triple.seq (M := Kernel.Tidy K l) (Triple.loop_const (fun i => ?_) 0 _)
    (tends_modify fun s hs => hs.setFields rfl rfl)
  apply Triple.read
  intro s hs
  cases s.slot p i with
  | none => exact tends_pure _
  | some v => exact deallocvma_tends.bind fun _ => tends_pure _

theorem uvmfree_zero_restores {t : ℕ} : Restores K l l (do
    uvmfree t 0
    return false : KernelM Bool) :=
  uvmfree_restores.seq (restores_pure _)

theorem trampoline_high (h : trampoline / pgSize < trapVpn ∨ false = true) : K ≤ pa :=
  absurd h (by decide)

theorem trapframe_high (h : Xv6.trapframe / pgSize < trapVpn ∨ false = true) : K ≤ pa :=
  absurd h (by decide)

theorem procPagetableIn_restores {t : ℕ} : Restores K l l (procPagetableIn t p) := by
  unfold procPagetableIn
  refine uvmcreate_tends.restores.bind fun b => ?_
  refine Triple.ite (fun _ => ?_) fun _ => restores_pure _
  apply Triple.read
  intro s hs
  refine (mappages_tends trampoline_high).restores.bind fun b => ?_
  refine Triple.ite (fun _ => ?_) fun _ => uvmfree_zero_restores
  refine (mappages_tends trapframe_high).restores.bind fun b => ?_
  refine Triple.ite (fun _ => restores_pure _) fun _ => ?_
  exact uvmunmap_tends.restores.seq uvmfree_zero_restores

theorem procPagetable_restores : Restores K l l (procPagetable p) :=
  procPagetableIn_restores (t := p)

theorem procFreepagetable_restores {t sz : ℕ} : Restores K l l (procFreepagetable t sz) :=
  uvmunmap_tends.restores.seq (uvmunmap_tends.restores.seq uvmfree_restores)

theorem freeTrapframe_tends : Tends K l l (freeTrapframe p) := by
  unfold freeTrapframe
  apply Triple.read
  intro s hs
  cases (s.proc p).trapframe with
  | none => exact tends_pure _
  | some pa => exact kfree_tends.seq (tends_modify fun s hs => hs.setFields rfl rfl)

theorem freeproc_restores : Restores K l l (freeproc p) := by
  have htable : Restores K l l (freeTable p) := by
    unfold freeTable
    apply Triple.read
    intro s hs
    exact Triple.ite (fun _ => procFreepagetable_restores) fun _ => restores_pure _
  exact freeTrapframe_tends.restores.seq
    (htable.seq (tends_modify fun s hs => hs.setFields rfl rfl).restores)

theorem allocproc_restores : Restores K l l allocproc := by
  have hfail : ∀ p, Restores K l l (do
      freeproc p
      return none : KernelM (Option ℕ)) := fun p => freeproc_restores.seq (restores_pure _)
  unfold allocproc
  apply Triple.read
  intro s hs
  cases (List.range nProc).find? fun p => (s.proc p).state = .unused with
  | none => exact restores_pure _
  | some p =>
    refine Triple.seq (tends_modify fun s hs => hs.setFields rfl rfl).restores ?_
    refine kalloc_bind (hfail p) fun pa hpa => ?_
    refine Triple.seq (tends_modify fun s hs => hs.setFields rfl rfl).restores ?_
    refine procPagetable_restores.bind fun b => ?_
    exact Triple.ite (fun _ => restores_pure _) fun _ => hfail p

theorem Kernel.Tidy.walkaddr {s : Kernel} {t phy : ℕ} (h : s.Tidy K l)
    (hw : s.walkaddr t va = some phy) : K ≤ phy := by
  obtain ⟨-, pte, ht, hu, rfl⟩ := walkaddr_some hw
  exact h.mapped t _ pte ht (Or.inr hu)

theorem Kernel.Tidy.inside_of_walkaddr {s : Kernel} {t phy : ℕ} (h : s.Tidy K l)
    (hw : s.walkaddr t va = some phy) : va / pgSize < maxVa / pgSize := by
  obtain ⟨-, pte, ht, -, -⟩ := walkaddr_some hw
  exact h.inside t _ pte ht

theorem sharePage_tends {k : ℕ} : Tends K l l (sharePage p np i j k) := by
  unfold sharePage
  apply Triple.read
  intro s hs
  dsimp only
  cases hw : s.walkaddr p (u64 ((s.vmas i).addr + (k * pgSize : ℕ))) with
  | none => exact tends_pure _
  | some phy =>
    have hphy := hs.walkaddr hw
    refine (mappages_tends fun _ => hphy).bind fun b => ?_
    refine Triple.ite (fun _ => ?_) fun _ => tends_throw (by decide)
    refine Triple.ite (fun _ => ?_) fun _ => incref_tends
    have hlt := hs.inside_of_walkaddr hw
    exact Triple.seq (tends_modify fun s hs => hs.withPte fun _ => ⟨hlt, fun _ => hphy⟩)
      incref_tends

theorem inheritVma_tends : Tends K l l (inheritVma p np i) := by
  unfold inheritVma
  apply Triple.read
  intro s hs
  cases (s.proc p).vmas i with
  | none => exact tends_pure _
  | some j0 =>
    cases s.freeVma with
    | none => exact tends_pure _
    | some j =>
      exact Triple.seq (tends_set hs.addVma) (Triple.loop_const (fun k => sharePage_tends) 0 _)

theorem fork_restores : Restores K l l (fork p) := by
  unfold fork
  refine allocproc_restores.bind fun o => ?_
  cases o with
  | none => exact restores_pure _
  | some np =>
    apply Triple.read
    intro s hs
    refine Triple.seq (tends_modify fun t ht =>
      ht.setProc (hs.segments p).1 (hs.segments p).2).restores ?_
    refine uvmcopy_tends.restores.bind fun b => ?_
    refine Triple.ite (fun _ => ?_) fun _ => freeproc_restores.seq (restores_pure _)
    refine Triple.seq (tends_modify fun s hs => hs.setFields rfl rfl).restores ?_
    refine Triple.seq (M := Kernel.Tidy K l) (Triple.loop_const (fun fd => ?_) 0 _) ?_
    · cases (s.proc p).ofile fd with
      | none => exact restores_pure _
      | some f =>
        exact filedup_tends.restores.seq (tends_modify fun s hs => hs.setFields rfl rfl).restores
    refine Triple.seq (Tends.restores (Triple.loop_const (fun i => inheritVma_tends) 0 _)) ?_
    exact Triple.seq (tends_modify fun s hs => hs.setFields rfl rfl).restores (restores_pure _)

theorem access_tends {cause : Cause} {allowed : Perm → Bool} {k : ℕ → KernelM PUnit}
    (hk : ∀ pa, Tends K l l (k pa)) : Tends K l l (access p va cause allowed k) := by
  unfold access
  apply Triple.read
  intro s hs
  cases (if va < maxVa then s.trans p (va / pgSize) else none) with
  | none => exact usertrap_tends
  | some pte => exact Triple.ite (fun _ => hk _) fun _ => usertrap_tends

theorem perform_restores {e : Event} : Restores K l l (perform bound e) := by
  cases e with
  | fetch p va => exact (access_tends fun _ => tends_pure _).restores
  | load p va => exact (access_tends fun _ => tends_pure _).restores
  | store p va b =>
    unfold perform
    exact Tends.restores (access_tends fun _ => tends_modify fun s hs => hs.setPage)
  | copyout p va src len => exact copyout_tends.restores.bind fun _ => restores_pure _
  | write p fd va n =>
    apply Triple.read
    intro s hs
    cases s.argfd p fd with
    | none => exact restores_pure _
    | some f => exact filewrite_tends.restores
  | mmap p length prot flags fd offset => exact sysMmap_tends.restores.bind fun _ => restores_pure _
  | munmap p addr size => exact sysMunmap_tends.restores.bind fun _ => restores_pure _
  | fork p => exact fork_restores.bind fun _ => restores_pure _
  | exit p => exact exit_tends.restores

end Processes

section Calls

variable {K t p va ip k n fuel tot off oldsz newsz sz bound : ℕ} {l : List ℕ} {perm : Perm}

theorem uvmdealloc_tends : Tends K l l (uvmdealloc t oldsz newsz) := by
  unfold uvmdealloc
  refine Triple.ite (fun _ => tends_pure _) fun _ => ?_
  exact Triple.ite (fun _ => uvmunmap_tends.seq (tends_pure _)) fun _ => tends_pure _

theorem uvmallocLoop_tends {a : ℕ} : Tends K l l (uvmallocLoop t oldsz perm k a) := by
  induction k generalizing a with
  | zero => exact tends_pure _
  | succ k ih =>
    have hundo : Tends K l l (do
        let _ ← uvmdealloc t a oldsz
        return false : KernelM Bool) := uvmdealloc_tends.bind fun _ => tends_pure _
    unfold uvmallocLoop
    refine kalloc_bind hundo fun mem hmem => ?_
    refine (tends_modify fun s hs => hs.setPage).seq ?_
    refine (mappages_tends fun _ => hmem).bind fun b => ?_
    exact Triple.ite (fun _ => ih) fun _ => kfree_tends.seq hundo

theorem uvmalloc_tends : Tends K l l (uvmalloc t oldsz newsz perm) := by
  unfold uvmalloc
  refine Triple.ite (fun _ => tends_pure _) fun _ => ?_
  refine uvmallocLoop_tends.bind fun b => ?_
  exact Triple.ite (fun _ => tends_pure _) fun _ => tends_pure _

theorem growproc_tends {n : ℤ} : Tends K l l (growproc p n) := by
  unfold growproc
  apply Triple.read
  intro s hs
  refine Triple.ite (fun _ => ?_) fun _ => Triple.ite (fun _ => ?_) fun _ => tends_pure _
  · refine uvmalloc_tends.bind fun sz => ?_
    refine Triple.ite (fun _ => tends_pure _) fun _ => ?_
    exact Triple.seq (tends_modify fun s hs => hs.setFields rfl rfl) (tends_pure _)
  · refine uvmdealloc_tends.bind fun sz => ?_
    exact Triple.seq (tends_modify fun s hs => hs.setFields rfl rfl) (tends_pure _)

theorem readLoop_tends {dst : Bytes} : Tends K l l (readLoop ip n fuel dst tot off) := by
  induction fuel generalizing dst tot off with
  | zero => exact tends_pure _
  | succ fuel ih =>
    unfold readLoop
    refine Triple.ite (fun _ => ?_) fun _ => tends_pure _
    refine bmap_tends.bind fun b => ?_
    refine Triple.ite (fun _ => ?_) fun _ => tends_pure _
    exact Triple.read fun s hs => ih

theorem readKernel_tends : Tends K l l (readKernel ip off n) := by
  unfold readKernel
  apply Triple.read
  intro s hs
  exact Triple.ite (fun _ => tends_pure _) fun _ => readLoop_tends

theorem loadSegments_tends {z : ℤ} {g : Segments} : Tends K l l (loadSegments ip k z g) := by
  induction k generalizing z g with
  | zero => exact tends_pure _
  | succ k ih =>
    unfold loadSegments
    refine readKernel_tends.bind fun ⟨b, n⟩ => ?_
    refine Triple.ite (fun _ => tends_pure _) fun _ => ?_
    refine Triple.ite (fun _ => ih) fun _ => ?_
    exact Triple.ite (fun _ => ih) fun _ => tends_pure _

theorem uvmclear_tends : Tends K l l (uvmclear t va) := by
  unfold uvmclear
  apply Triple.read
  intro s hs
  refine Triple.ite (fun _ => tends_throw (by decide)) fun _ => ?_
  cases hl : s.lookup t (va / pgSize) with
  | none => exact tends_throw (by decide)
  | some pte =>
    refine tends_set (hs.withPte fun hval => ?_)
    have ht : s.trans t (va / pgSize) = some pte := by
      obtain ⟨pt, hpt, hlook⟩ := Option.bind_eq_some_iff.mp hl
      simp [Kernel.trans, hpt, PageTable.trans, hlook, show pte.valid = true from hval]
    refine ⟨hs.inside t _ pte ht, fun hv => hs.mapped t _ pte ht (Or.inl ?_)⟩
    simpa using hv

theorem copyoutIn_tends {src : Bytes} {len : ℕ} : Tends K l l (copyoutIn t p va src len) := by
  have hpage : ∀ va, Tends K l l (userPageIn t p va) := by
    intro va
    unfold userPageIn
    apply Triple.read
    intro s hs
    cases s.walkaddr t va with
    | some pa => exact tends_pure _
    | none =>
      refine checkVmas_tends.bind fun b => ?_
      refine Triple.ite (fun _ => ?_) fun _ => tends_pure _
      apply Triple.read
      intro s hs
      cases s.walkaddr t va with
      | some pa => exact tends_pure _
      | none => exact tends_throw (by decide)
  have hloop : ∀ fuel va done len, Tends K l l (copyoutInLoop t p src fuel va done len) := by
    intro fuel
    induction fuel with
    | zero => exact fun _ _ _ => tends_pure _
    | succ fuel ih =>
      intro va done len
      unfold copyoutInLoop
      refine Triple.ite (fun _ => tends_pure _) fun _ => ?_
      refine (hpage _).bind fun o => ?_
      cases o with
      | none => exact tends_pure _
      | some pa => exact (tends_modify fun s hs => hs.setPage).seq (ih _ _ _)
  exact hloop _ _ _ _

theorem push_tends {stackbase sp len : ℕ} {src : Bytes} :
    Tends K l l (push t p stackbase sp src len) := by
  unfold push
  refine Triple.ite (fun _ => tends_pure _) fun _ => ?_
  refine copyoutIn_tends.bind fun b => ?_
  exact Triple.ite (fun _ => tends_pure _) fun _ => tends_pure _

theorem pushArgs_tends {stackbase sp : ℕ} {argv : List (List UInt8)} {ustack : List ℕ} :
    Tends K l l (pushArgs t p stackbase argv sp ustack) := by
  induction argv generalizing sp ustack with
  | nil => exact tends_pure _
  | cons arg argv ih =>
    unfold pushArgs
    refine Triple.ite (fun _ => tends_pure _) fun _ => ?_
    refine push_tends.bind fun o => ?_
    cases o with
    | none => exact tends_pure _
    | some sp => exact ih

theorem pushStack_tends {argv : List (List UInt8)} : Tends K l l (pushStack t p sz argv) := by
  unfold pushStack
  refine pushArgs_tends.bind fun o => ?_
  cases o with
  | none => exact tends_pure _
  | some r =>
    refine push_tends.bind fun o => ?_
    cases o with
    | none => exact tends_pure _
    | some _ => exact tends_pure _

theorem Kernel.Tidy.swapTables {s : Kernel} {q r : ℕ} (h : s.Tidy K l) :
    ((s.setTable q (s.table r)).setTable r (s.table q)).Tidy K l := by
  have hold : ∀ q v pte, (s.table q).bind (·.trans v) = some pte → v < maxVa / pgSize ∧
      (v < trapVpn ∨ pte.perm.u = true → K ≤ pte.ppn) :=
    fun q v pte ht => ⟨h.inside q v pte ht, h.mapped q v pte ht⟩
  exact (h.setTable (hold _)).setTable (hold _)

theorem execImage_restores {g : Segments} {argv : List (List UInt8)} :
    Restores K l l (execImage p g argv) := by
  unfold execImage
  apply Triple.read
  intro s hs
  refine uvmalloc_tends.restores.bind fun sz => ?_
  refine Triple.ite (fun _ => procFreepagetable_restores.seq (restores_pure _)) fun _ => ?_
  refine uvmclear_tends.restores.seq (pushStack_tends.restores.bind fun b => ?_)
  refine Triple.ite (fun _ => ?_) fun _ => procFreepagetable_restores.seq (restores_pure _)
  refine Triple.seq (tends_modify fun s hs => ?_).restores ?_
  · exact hs.swapTables
  refine Triple.seq (tends_modify fun s hs => hs.setFields rfl rfl).restores ?_
  exact procFreepagetable_restores.seq (restores_pure _)

theorem exec_restores {o : Option ℕ} {argv : List (List UInt8)} :
    Restores K l l (exec p o argv) := by
  unfold exec
  refine Triple.ite (fun _ => restores_pure _) fun _ => ?_
  refine ilock_bind (fun _ _ _ => trivial) fun i _ => ?_
  have hstop : Restores K (i :: l) l (do
      iunlock i
      return false : KernelM Bool) := iunlock_tends.restores.seq (restores_pure _)
  refine readKernel_tends.restores.bind fun ⟨b, n⟩ => ?_
  refine Triple.ite (fun _ => hstop) fun _ => ?_
  refine procPagetableIn_restores.bind fun b => ?_
  refine Triple.ite (fun _ => ?_) fun _ => hstop
  refine loadSegments_tends.restores.bind fun o => ?_
  cases o with
  | none => exact procFreepagetable_restores.seq hstop
  | some g =>
    refine Triple.seq (tends_modify fun s hs => ?_).restores
      (iunlock_tends.restores.seq execImage_restores)
    exact hs.setProc (fun _ _ => rfl) fun _ _ => rfl

theorem setOfile_tends {fd : ℕ} {o : Option ℕ} : Tends K l l (setOfile p fd o) :=
  tends_modify fun _ hs => hs.setFields rfl rfl

theorem filealloc_tends : Tends K l l filealloc := by
  unfold filealloc
  apply Triple.read
  intro s hs
  cases s.freeFile with
  | none => exact tends_pure _
  | some f => exact Triple.seq (tends_set hs.setFile) (tends_pure _)

theorem fdalloc_tends {f : ℕ} : Tends K l l (fdalloc p f) := by
  unfold fdalloc
  apply Triple.read
  intro s hs
  cases s.freeFd p with
  | none => exact tends_pure _
  | some fd => exact setOfile_tends.seq (tends_pure _)

theorem sysDup_tends {fd : ℤ} : Tends K l l (sysDup p fd) := by
  unfold sysDup
  apply Triple.read
  intro s hs
  cases s.argfd p fd with
  | none => exact tends_pure _
  | some f =>
    refine fdalloc_tends.bind fun o => ?_
    cases o with
    | none => exact tends_pure _
    | some _ => exact filedup_tends

theorem sysClose_tends {fd : ℤ} : Tends K l l (sysClose p fd) := by
  unfold sysClose
  apply Triple.read
  intro s hs
  cases s.argfd p fd with
  | none => exact tends_pure _
  | some f => exact setOfile_tends.seq fileclose_tends

theorem sysOpen_tends {found : Option (ℕ × InodeType)} {omode : ℕ} :
    Tends K l l (sysOpen p found omode) := by
  unfold sysOpen
  match found with
  | none => exact tends_pure _
  | some (ip, type) =>
    dsimp only
    unfold openInode
    refine filealloc_tends.bind fun o => ?_
    cases o with
    | none => exact tends_pure _
    | some f =>
      refine fdalloc_tends.bind fun o => ?_
      cases o with
      | none => exact fileclose_tends
      | some _ =>
        refine Triple.seq (tends_modify fun s hs => hs.setFile) ?_
        refine Triple.ite (fun _ => tends_modify fun s hs => ?_) fun _ => tends_pure _
        exact { hs.setInode (Nat.zero_le _) with }

theorem pipealloc_tends {page : Bool} : Tends K l l (pipealloc page) := by
  unfold pipealloc
  refine filealloc_tends.bind fun o => ?_
  cases o with
  | none => exact tends_pure _
  | some rf =>
    refine filealloc_tends.bind fun o => ?_
    cases o with
    | none => exact fileclose_tends.seq (tends_pure _)
    | some wf =>
      refine Triple.ite (fun _ => ?_) fun _ => fileclose_tends.seq
        (fileclose_tends.seq (tends_pure _))
      refine Triple.seq (tends_modify fun s hs => hs.setFile) ?_
      exact Triple.seq (tends_modify fun s hs => hs.setFile) (tends_pure _)

theorem sysPipe_tends {fdarray : ℕ} {page : Bool} : Tends K l l (sysPipe p fdarray page) := by
  have hcopy : ∀ fd0 fd1, Tends K l l (copyoutFds p fdarray fd0 fd1) := fun fd0 fd1 =>
    copyout_tends.bind fun b => Triple.ite (fun _ => copyout_tends) fun _ => tends_pure _
  unfold sysPipe
  refine pipealloc_tends.bind fun o => ?_
  match o with
  | none => exact tends_pure _
  | some (rf, wf) =>
    refine fdalloc_tends.bind fun o => ?_
    cases o with
    | none => exact fileclose_tends.seq fileclose_tends
    | some fd0 =>
      refine fdalloc_tends.bind fun o => ?_
      cases o with
      | none => exact setOfile_tends.seq (fileclose_tends.seq fileclose_tends)
      | some fd1 =>
        refine (hcopy fd0 fd1).bind fun b => ?_
        refine Triple.ite (fun _ => tends_pure _) fun _ => ?_
        exact setOfile_tends.seq (setOfile_tends.seq (fileclose_tends.seq fileclose_tends))

theorem wait_restores {σ : System} {addr : ℕ} {status : Bytes} :
    Restores K l l (wait σ p addr status) := by
  unfold wait
  cases σ.zombie p with
  | none => exact Triple.ite (fun _ => Triple.throw fun _ _ => trivial) fun _ => restores_pure _
  | some pp =>
    refine Triple.ite (fun _ => ?_) fun _ => freeproc_restores
    refine copyout_tends.restores.bind fun b => ?_
    exact Triple.ite (fun _ => freeproc_restores) fun _ => restores_pure _

theorem call_restores {σ : System} {c : Call} : Restores K l l (call bound σ c) := by
  cases c with
  | event e => exact perform_restores
  | wait p addr status => exact wait_restores
  | sbrk p n => exact growproc_tends.restores.bind fun _ => restores_pure _
  | exec p o argv => exact exec_restores.bind fun _ => restores_pure _
  | openFile p found omode => exact sysOpen_tends.restores
  | pipe p fdarray page => exact sysPipe_tends.restores
  | dup p fd => exact sysDup_tends.restores
  | close p fd => exact sysClose_tends.restores

end Calls

theorem Kernel.Tidy.sysStep {K : ℕ} {σ τ : System} {c : Call} (h : σ.kernel.Tidy K [])
    (hstep : SysStep σ c τ) : τ.kernel.Tidy K [] := by
  obtain ⟨bound, hs⟩ := hstep
  unfold System.step at hs
  split_ifs at hs with hmay
  cases hx : call bound σ c σ.kernel with
  | error e t => simp [hx] at hs
  | ok u t =>
    simp only [hx, Except.ok.injEq] at hs
    subst hs
    exact call_restores.of_ok h hx

end Xv6.Vm
