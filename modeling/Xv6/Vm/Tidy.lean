import Xv6.Vm.Ownership
import Xv6.Vm.System
import Xv6.Vm.FaultEffects

/-!
# What every call leaves in order

Pages that are free or mapped below the trapframe lie above the kernel, no file exceeds the
largest size, text and data regions have a file behind them, and a call that returns has unlocked
the inodes it locked. Only functions that give up a page table can find a leaf in it. This module
covers page tables, page faults and user copies.
-/
namespace Xv6.Vm

open Library PageTable

def Region.Sourced (r : Region) : Prop := ∀ va, r.Contains va → r.ip.isSome

/-- The kernel ends below page `K`, and the inodes in `l` are locked. -/
structure Kernel.Tidy (K : ℕ) (l : List ℕ) (s : Kernel) : Prop where
  kend : s.kend = K
  stock : ∀ pa ∈ s.freelist, K ≤ pa
  mapped : ∀ t v pte, s.trans t v = some pte → v < trapVpn ∨ pte.perm.u = true → K ≤ pte.ppn
  inside : ∀ t v pte, s.trans t v = some pte → v < maxVa / pgSize
  sizes : ∀ ip, (s.inode ip).size ≤ maxFile * bSize
  segments : ∀ q, (s.proc q).text.Sourced ∧ (s.proc q).data.Sourced
  locks : s.ilocked = l

def Stop.Clean (e : Stop) : Prop := e ≠ .panic .freewalkLeaf ∧ e ≠ .corrupt

instance (e : Stop) : Decidable e.Clean := by
  unfold Stop.Clean
  infer_instance

/-- The program takes a tidy state with locks `l` to one with locks `l'`, and does not meet a
leaf in a page table that is given up. -/
abbrev Tends {α : Type} (K : ℕ) (l l' : List ℕ) (x : KernelM α) : Prop :=
  Triple (Kernel.Tidy K l) x (fun _ => Kernel.Tidy K l') fun e _ => e.Clean

/-- The same of a program that may give up a page table. -/
abbrev Restores {α : Type} (K : ℕ) (l l' : List ℕ) (x : KernelM α) : Prop :=
  Triple (Kernel.Tidy K l) x (fun _ => Kernel.Tidy K l') fun _ _ => True

section Drop

variable {pt : PageTable} {i v : ℕ} {pte : Pte}

theorem PageTable.trans_of_dropTab (ht : (pt.dropTab i).trans v = some pte) :
    pt.trans v = some pte := by
  by_cases hv : parent v = i
  · simp [PageTable.trans, lookup, dropTab, hv] at ht
  · simpa [PageTable.trans, lookup, dropTab, hv] using ht

theorem PageTable.trans_of_dropDir (ht : (pt.dropDir i).trans v = some pte) :
    pt.trans v = some pte := by
  by_cases hv : parent (parent v) = i
  · simp [PageTable.trans, lookup, dropDir, hv] at ht
  · simpa [PageTable.trans, lookup, dropDir, hv] using ht

end Drop

namespace Kernel.Tidy

variable {K t v i p pa ip : ℕ} {l : List ℕ} {s : Kernel} {pte : Pte}

variable (h : s.Tidy K l)
include h

theorem setTable {o : Option PageTable}
    (ho : ∀ v pte, o.bind (·.trans v) = some pte → v < maxVa / pgSize ∧
      (v < trapVpn ∨ pte.perm.u = true → K ≤ pte.ppn)) : (s.setTable t o).Tidy K l := by
  refine { h with mapped := fun t' v pte ht => ?_, inside := fun t' v pte ht => ?_ }
  · rw [Kernel.trans_setTable] at ht
    split_ifs at ht
    · exact (ho v pte ht).2
    · exact h.mapped t' v pte ht
  · rw [Kernel.trans_setTable] at ht
    split_ifs at ht
    · exact (ho v pte ht).1
    · exact h.inside t' v pte ht

theorem map {f : PageTable → PageTable}
    (hf : ∀ pt v pte, (f pt).trans v = some pte → pt.trans v = some pte) :
    (s.setTable t ((s.table t).map f)).Tidy K l := by
  apply h.setTable
  intro v pte ht
  cases hs : s.table t with
  | none => simp [hs] at ht
  | some pt =>
    rw [hs] at ht
    have hold : s.trans t v = some pte := by simpa [Kernel.trans, hs] using hf pt v pte ht
    exact ⟨h.inside t v pte hold, h.mapped t v pte hold⟩

theorem dropTab : (s.setTable t ((s.table t).map (·.dropTab i))).Tidy K l :=
  h.map fun _ _ _ ht => trans_of_dropTab ht

theorem dropDir : (s.setTable t ((s.table t).map (·.dropDir i))).Tidy K l :=
  h.map fun _ _ _ ht => trans_of_dropDir ht

theorem withPte (hpte : pte.valid = true → v < maxVa / pgSize ∧
    (v < trapVpn ∨ pte.perm.u = true → K ≤ pte.ppn)) : (s.withPte t v pte).Tidy K l := by
  apply h.setTable
  intro w y ht
  cases hs : s.table t with
  | none => simp [hs] at ht
  | some pt =>
    simp only [hs, Option.map_some, Option.bind_some] at ht
    by_cases hwv : w = v
    · simp only [PageTable.trans, PageTable.lookup, PageTable.withLeaf, hwv, Function.update_self,
        Option.filter_eq_some_iff, Option.ite_none_right_eq_some, Option.some.injEq] at ht
      obtain ⟨⟨-, rfl⟩, hval⟩ := ht
      rw [hwv]
      exact hpte hval
    · have hold : s.trans t w = some y := by
        simpa [Kernel.trans, hs, PageTable.trans, PageTable.lookup, PageTable.withLeaf,
          hwv] using ht
      exact ⟨h.inside t w y hold, h.mapped t w y hold⟩

theorem allocated {rest : List ℕ} (hf : s.freelist = pa :: rest) : (s.allocated pa rest).Tidy K l :=
  { h with stock := fun a ha => h.stock a (hf ▸ List.mem_cons_of_mem pa ha) }

theorem freed (hpa : K ≤ pa) : (s.freed pa).Tidy K l := by
  refine { h with stock := fun a ha => ?_ }
  rcases List.mem_cons.mp ha with rfl | ha
  · exact hpa
  · exact h.stock a ha

theorem setRef {n : ℕ} : (s.setRef pa n).Tidy K l := { h with }

theorem setPage {bytes : Bytes} : (s.setPage pa bytes).Tidy K l := { h with }

theorem setVma {j : ℕ} {v : Vma} : (s.setVma j v).Tidy K l := { h with }

theorem setFile {f : ℕ} {file : File} : (s.setFile f file).Tidy K l := { h with }

theorem setInode {inode : Inode} (hsize : inode.size ≤ maxFile * bSize) :
    (s.setInode ip inode).Tidy K l := by
  refine { h with sizes := fun k => ?_ }
  by_cases hk : k = ip
  · simpa [Kernel.setInode, hk] using hsize
  · simpa [Kernel.setInode, hk] using h.sizes k

theorem setProc {f : Proc → Proc} (ht : (f (s.proc p)).text.Sourced)
    (hd : (f (s.proc p)).data.Sourced) : (s.setProc p f).Tidy K l := by
  refine { h with segments := fun q => ?_ }
  by_cases hq : q = p
  · subst hq
    simpa [Kernel.setProc] using ⟨ht, hd⟩
  · simpa [Kernel.setProc, hq] using h.segments q

theorem setFields {f : Proc → Proc} (ht : (f (s.proc p)).text = (s.proc p).text)
    (hd : (f (s.proc p)).data = (s.proc p).data) : (s.setProc p f).Tidy K l :=
  h.setProc (ht ▸ (h.segments p).1) (hd ▸ (h.segments p).2)

end Kernel.Tidy

section Rules

variable {α β : Type} {K : ℕ} {l l' : List ℕ} {x y : KernelM α} {f : α → KernelM β}

theorem Tends.restores (h : Tends K l l' x) : Restores K l l' x :=
  h.conseq (fun _ hs => hs) (fun _ _ hs => hs) fun _ _ _ => trivial

theorem restores_pure (a : α) : Restores K l l (pure a) := Triple.pure fun _ hs => hs

theorem tends_pure (a : α) : Tends K l l (pure a) := Triple.pure fun _ hs => hs

theorem tends_throw {e : Stop} (he : e.Clean) : Tends K l l' (throw e : KernelM α) :=
  Triple.throw fun _ _ => he

theorem tends_modify {g : Kernel → Kernel} (h : ∀ s, s.Tidy K l → (g s).Tidy K l) :
    Tends K l l (modify g : KernelM PUnit) :=
  Triple.modify h

theorem tends_set {s : Kernel} (h : s.Tidy K l) : Tends K l l (set s : KernelM PUnit) :=
  Triple.set fun _ _ => h

/-- A page from `kalloc` lies above the kernel. -/
theorem kalloc_bind {g : Option ℕ → KernelM β} {Q : β → Kernel → Prop} {E : Stop → Kernel → Prop}
    (hnone : Triple (Kernel.Tidy K l) (g none) Q E)
    (hsome : ∀ pa, K ≤ pa → Triple (Kernel.Tidy K l) (g (some pa)) Q E) :
    Triple (Kernel.Tidy K l) (kalloc >>= g) Q E := by
  have hk : Triple (Kernel.Tidy K l) kalloc
      (fun r s => s.Tidy K l ∧ ∀ pa, r = some pa → K ≤ pa) E := by
    unfold kalloc
    apply Triple.read
    intro s hs
    cases hf : s.freelist with
    | nil => exact Triple.pure fun t ht => ⟨ht, by simp⟩
    | cons pa rest =>
      refine (Triple.set (Q := fun _ t => t.Tidy K l) fun _ _ => hs.allocated hf).bind fun _ => ?_
      apply Triple.pure
      intro t ht
      refine ⟨ht, ?_⟩
      rintro _ ⟨⟩
      exact hs.stock pa (by simp [hf])
  refine hk.bind fun r => ?_
  cases r with
  | none => exact hnone.pre fun s hs => hs.1
  | some pa => exact fun s hs => hsome pa (hs.2 pa rfl) s hs.1

end Rules

section Pages

variable {K t i k v va pa n sz old new start : ℕ} {l : List ℕ} {perm : Perm} {doFree : Bool}

theorem kfree_tends : Tends K l l (kfree pa) := by
  unfold kfree
  apply Triple.read
  intro s hs
  refine Triple.ite (fun hin => ?_) fun _ => tends_throw (by decide)
  have hpa : K ≤ pa := hs.kend ▸ hin.1
  refine Triple.ite (fun _ => tends_set (hs.freed hpa)) fun _ => ?_
  exact (tends_set hs.setPage).seq (tends_throw (by decide))

theorem incref_tends : Tends K l l (incref pa) := by
  unfold incref
  apply Triple.read
  intro s hs
  exact Triple.ite (fun _ => tends_set hs.setRef) fun _ => tends_throw (by decide)

theorem decref_tends : Tends K l l (decref pa) := by
  unfold decref
  apply Triple.read
  intro s hs
  exact Triple.ite (fun _ => tends_set hs.setRef) fun _ => tends_throw (by decide)

theorem walk_tends : Tends K l l (walk t va) := by
  refine walk_triple (fun s b s' new h hnew => ?_) (by decide) (by decide)
  induction hnew with
  | refl s => exact h
  | @attach _ _ s _ _ _ _ hf hs ha _ ih =>
    refine ih ((h.allocated hf).setTable fun v pte ht => ?_)
    have hold : s.trans t v = some pte := by simpa [Kernel.trans, hs, ha.trans] using ht
    exact ⟨h.inside t v pte hold, h.mapped t v pte hold⟩

theorem mappages_tends (hpa : va / pgSize < trapVpn ∨ perm.u = true → K ≤ pa) :
    Tends K l l (mappages t va pa perm) := by
  unfold mappages
  refine (walk_tends.runs (Q := fun _ s => va < maxVa ∧ s.Tidy K l) ?_).bind fun b => ?_
  · intro s b s' hs hx
    exact ⟨(walk_ok hx).2.2.1, walk_tends.of_ok hs hx⟩
  refine Triple.assume fun hva => Triple.ite (fun _ => ?_) fun _ => tends_pure _
  apply Triple.read
  intro s hs
  refine Triple.ite (fun _ => tends_throw (by decide)) fun _ => ?_
  have hlt : va / pgSize < maxVa / pgSize := Nat.div_lt_div_of_lt_of_dvd (by decide) hva
  exact (tends_set (hs.withPte fun _ => ⟨hlt, hpa⟩)).seq (tends_pure _)

theorem uvmunmapPage_tends : Tends K l l (uvmunmapPage t va doFree) := by
  have hzero : Tends K l l (modify (·.withPte t (va / pgSize) .zero) : KernelM PUnit) :=
    tends_modify fun s hs => hs.withPte (by simp [Pte.zero])
  unfold uvmunmapPage
  apply Triple.read
  intro s hs
  refine Triple.ite (fun _ => tends_throw (by decide)) fun _ => ?_
  cases s.trans t (va / pgSize) with
  | none => exact tends_pure _
  | some pte =>
    refine Triple.ite (fun _ => tends_throw (by decide)) fun _ => ?_
    exact Triple.ite (fun _ => kfree_tends.seq hzero) fun _ => hzero

theorem uvmunmap_tends : Tends K l l (uvmunmap t va n doFree) := by
  unfold uvmunmap
  refine Triple.ite (fun _ => tends_throw (by decide)) fun _ => ?_
  exact Triple.loop_const (fun i => uvmunmapPage_tends) 0 n

theorem freewalkTab_restores : Restores K l l (freewalkTab t k) := by
  have hentry : ∀ i, Restores K l l (freewalkEntry t (k * 512 + i)) := by
    intro i
    unfold freewalkEntry
    apply Triple.read
    intro s hs
    cases s.trans t (k * 512 + i) with
    | none => exact restores_pure _
    | some pte =>
      exact Triple.ite (fun _ => Triple.throw fun _ _ => trivial) fun _ =>
        Triple.throw fun _ _ => trivial
  unfold freewalkTab
  apply Triple.read
  intro s hs
  cases (s.table t).bind (·.tab k) with
  | none => exact restores_pure _
  | some pa =>
    refine (Triple.loop_const hentry 0 512).seq (kfree_tends.restores.seq ?_)
    exact (tends_modify fun s hs => hs.dropTab).restores

theorem freewalkDir_restores : Restores K l l (freewalkDir t k) := by
  unfold freewalkDir
  apply Triple.read
  intro s hs
  cases (s.table t).bind (·.dir k) with
  | none => exact restores_pure _
  | some pa =>
    refine (Triple.loop_const (fun i => freewalkTab_restores) 0 512).seq
      (kfree_tends.restores.seq ?_)
    exact (tends_modify fun s hs => hs.dropDir).restores

theorem freewalk_restores : Restores K l l (freewalk t) := by
  unfold freewalk
  apply Triple.read
  intro s hs
  cases s.table t with
  | none => exact Triple.throw fun _ _ => trivial
  | some pt =>
    refine (Triple.loop_const (fun i => freewalkDir_restores) 0 512).seq
      (kfree_tends.restores.seq ?_)
    exact (tends_modify fun s hs => hs.setTable (by simp)).restores

theorem uvmfree_restores : Restores K l l (uvmfree t sz) := by
  unfold uvmfree
  exact Triple.ite (fun _ => uvmunmap_tends.restores.seq freewalk_restores) fun _ =>
    freewalk_restores

theorem uvmcreate_tends : Tends K l l (uvmcreate t) := by
  unfold uvmcreate
  refine kalloc_bind (tends_pure _) fun pa hpa => ?_
  refine (tends_modify fun s hs => hs.setTable ?_).seq (tends_pure _)
  simp [PageTable.trans, lookup]

theorem uvmcopyLoop_tends : Tends K l l (uvmcopyLoop old new k i) := by
  induction k generalizing i with
  | zero => exact tends_pure _
  | succ k ih =>
    unfold uvmcopyLoop
    apply Triple.read
    intro s hs
    refine Triple.ite (fun _ => tends_throw (by decide)) fun _ => ?_
    cases s.trans old (i / pgSize) with
    | none => exact ih
    | some pte =>
      refine kalloc_bind (uvmunmap_tends.seq (tends_pure _)) fun mem hmem => ?_
      refine (tends_modify fun s hs => hs.setPage).seq ?_
      refine (mappages_tends fun _ => hmem).bind fun b => ?_
      refine Triple.ite (fun _ => ih) fun _ => ?_
      exact kfree_tends.seq (uvmunmap_tends.seq (tends_pure _))

theorem uvmcopy_tends : Tends K l l (uvmcopy old new sz start) := uvmcopyLoop_tends

end Pages

section Faults

variable {K p va pa ip bn n fuel tot off old phy : ℕ} {l : List ℕ} {r : Region} {perm : Perm}

theorem setkilled_tends : Tends K l l (setkilled p) :=
  tends_modify fun _ hs => hs.setFields rfl rfl

theorem ilock_locks {o : Option ℕ} : Triple (Kernel.Tidy K l) (ilock o)
    (fun i s => o = some i ∧ s.Tidy K (i :: l)) fun e _ => e.Clean := by
  unfold ilock
  cases o with
  | none => exact Triple.throw fun _ _ => by decide
  | some i =>
    apply Triple.read
    intro s hs
    refine Triple.ite (fun _ => Triple.throw fun _ _ => by decide) fun _ => ?_
    refine (Triple.set (Q := fun _ t => t.Tidy K (i :: l)) fun _ _ => ?_).bind fun _ =>
      Triple.pure fun t ht => ⟨rfl, ht⟩
    exact { hs with locks := by rw [← hs.locks] }

/-- What runs between `ilock` and the end of the call starts with one more lock. -/
theorem ilock_bind {β : Type} {o : Option ℕ} {l' : List ℕ} {f : ℕ → KernelM β}
    {E : Stop → Kernel → Prop} (hE : ∀ e s, e.Clean → E e s)
    (h : ∀ i, o = some i → Triple (Kernel.Tidy K (i :: l)) (f i) (fun _ => Kernel.Tidy K l') E) :
    Triple (Kernel.Tidy K l) (ilock o >>= f) (fun _ => Kernel.Tidy K l') E :=
  (ilock_locks.conseq (fun _ hs => hs) (fun _ _ hs => hs) hE).bind fun i => Triple.assume (h i)

theorem iunlock_tends {i : ℕ} : Tends K (i :: l) l (iunlock i) := by
  apply Triple.modify
  intro s hs
  exact { hs with locks := by simp [hs.locks] }

theorem balloc_tends : Tends K l l balloc := by
  unfold balloc
  apply Triple.read
  intro s hs
  refine Triple.ite (fun _ => tends_pure _) fun _ => ?_
  exact Triple.seq (tends_set { hs with }) (tends_pure _)

theorem bmapEntry_tends : Tends K l l (bmapEntry ip bn) := by
  unfold bmapEntry
  apply Triple.read
  intro s hs
  refine Triple.ite (fun _ => tends_pure _) fun _ => ?_
  refine balloc_tends.bind fun b => ?_
  refine Triple.ite (fun _ => ?_) fun _ => tends_pure _
  exact Triple.seq (tends_modify fun s hs => hs.setInode (hs.sizes ip)) (tends_pure _)

theorem bmap_tends : Tends K l l (bmap ip bn) := by
  unfold bmap
  refine Triple.ite (fun _ => bmapEntry_tends) fun _ => ?_
  refine Triple.ite (fun _ => ?_) fun _ => tends_throw (by decide)
  apply Triple.read
  intro s hs
  refine Triple.ite (fun _ => bmapEntry_tends) fun _ => ?_
  refine balloc_tends.bind fun b => ?_
  refine Triple.ite (fun _ => ?_) fun _ => tends_pure _
  exact Triple.seq (tends_modify fun s hs => hs.setInode (hs.sizes ip)) bmapEntry_tends

theorem readiLoop_tends : Tends K l l (readiLoop ip pa n fuel tot off) := by
  induction fuel generalizing tot off with
  | zero => exact tends_pure _
  | succ fuel ih =>
    unfold readiLoop
    refine Triple.ite (fun _ => ?_) fun _ => tends_pure _
    refine bmap_tends.bind fun b => ?_
    refine Triple.ite (fun _ => ?_) fun _ => tends_pure _
    exact (tends_modify fun s hs => hs.setPage).seq ih

theorem readi_tends : Tends K l l (readi ip pa off n) := by
  unfold readi
  apply Triple.read
  intro s hs
  exact Triple.ite (fun _ => tends_pure _) fun _ => readiLoop_tends

theorem readRegion_tends : Tends K l l (readRegion r ip pa va) := by
  unfold readRegion
  cases r.readSize va with
  | none => exact tends_pure _
  | some n => exact readi_tends

theorem allocPhysicalVMA_tends : Tends K l l (allocPhysicalVMA r p va perm) := by
  unfold allocPhysicalVMA
  refine kalloc_bind (setkilled_tends.seq (tends_throw (by decide))) fun pa hpa => ?_
  refine (tends_modify fun s hs => hs.setPage).seq (ilock_bind (fun _ _ he => he) fun i _ => ?_)
  refine readRegion_tends.seq (iunlock_tends.seq ?_)
  refine (mappages_tends fun _ => hpa).bind fun b => ?_
  refine Triple.ite (fun _ => tends_modify fun s hs => { hs with }) fun _ => ?_
  exact kfree_tends.seq setkilled_tends

theorem cowCopy_tends : Tends K l l (cowCopy p va old) := by
  unfold cowCopy
  refine kalloc_bind (setkilled_tends.seq (tends_throw (by decide))) fun pa hpa => ?_
  refine (tends_modify fun s hs => hs.setPage).seq (Triple.read fun s hs => ?_)
  refine (tends_modify fun s hs => hs.withPte (by simp)).seq ?_
  refine (mappages_tends fun _ => hpa).bind fun b => ?_
  refine Triple.ite (fun _ => ?_) fun _ => ?_
  · exact Triple.seq (tends_modify fun s hs => { hs with }) decref_tends
  · exact kfree_tends.seq (setkilled_tends.seq decref_tends)

theorem cowGrant_tends : Tends K l l (cowGrant p va) := by
  apply tends_modify
  intro s hs
  apply hs.withPte
  intro hval
  cases ht : s.trans p (va / pgSize) with
  | none => simp [ht, Pte.zero] at hval
  | some pte =>
    exact ⟨hs.inside p _ pte ht, fun hv => hs.mapped p _ pte ht (by simpa [ht] using hv)⟩

theorem cow_tends : Tends K l l (cow p va phy) := by
  unfold cow
  apply Triple.read
  intro s hs
  refine Triple.ite (fun _ => cowCopy_tends.seq ?_) fun _ => ?_
  · exact Triple.ite (fun _ => cowGrant_tends) fun _ => tends_pure _
  · exact Triple.ite (fun _ => cowGrant_tends) fun _ => tends_pure _

theorem usertrap_tends {cause : Cause} : Tends K l l (usertrap p cause va) := by
  unfold usertrap
  apply Triple.read
  intro s hs
  have hfault : ∀ {rest : KernelM Unit}, Tends K l l rest → Tends K l l
      (if (s.proc p).text.Contains va then
        allocPhysicalVMA (s.proc p).text p va textPerm
      else if (s.proc p).data.Contains va then
        allocPhysicalVMA (s.proc p).data p va dataPerm
      else rest) := fun hrest =>
    Triple.ite (fun _ => allocPhysicalVMA_tends) fun _ =>
      Triple.ite (fun _ => allocPhysicalVMA_tends) fun _ => hrest
  cases cause with
  | fetch => exact Triple.ite (fun _ => allocPhysicalVMA_tends) fun _ => tends_pure _
  | load =>
    cases s.findVma p va with
    | none => cases s.walkaddr p va <;> exact hfault setkilled_tends
    | some v => cases s.walkaddr p va <;> exact hfault allocPhysicalVMA_tends
  | store =>
    cases s.walkaddr p va with
    | none =>
      cases s.findVma p va with
      | none => exact hfault setkilled_tends
      | some v => exact hfault allocPhysicalVMA_tends
    | some phy => exact Triple.ite (fun _ => cow_tends) fun _ => setkilled_tends

theorem checkVmas_tends : Tends K l l (checkVmas p va) := by
  unfold checkVmas
  apply Triple.read
  intro s hs
  refine Triple.ite (fun _ => allocPhysicalVMA_tends.seq (tends_pure _)) fun _ => ?_
  refine Triple.ite (fun _ => allocPhysicalVMA_tends.seq (tends_pure _)) fun _ => ?_
  cases s.findVma p va with
  | none => exact tends_pure _
  | some v =>
    cases s.walkaddr p va with
    | none => exact allocPhysicalVMA_tends.seq (tends_pure _)
    | some phy => exact cow_tends.seq (tends_pure _)

theorem userPage_tends : Tends K l l (userPage p va) := by
  unfold userPage
  apply Triple.read
  intro s hs
  cases s.walkaddr p va with
  | some pa => exact tends_pure _
  | none =>
    refine checkVmas_tends.bind fun b => ?_
    refine Triple.ite (fun _ => ?_) fun _ => tends_pure _
    apply Triple.read
    intro s hs
    cases s.walkaddr p va with
    | some pa => exact tends_pure _
    | none => exact tends_throw (by decide)

theorem copyoutLoop_tends {src : Bytes} {done len : ℕ} :
    Tends K l l (copyoutLoop p src fuel va done len) := by
  induction fuel generalizing va done len with
  | zero => exact tends_pure _
  | succ fuel ih =>
    unfold copyoutLoop
    refine Triple.ite (fun _ => tends_pure _) fun _ => ?_
    refine userPage_tends.bind fun o => ?_
    cases o with
    | none => exact tends_pure _
    | some pa => exact (tends_modify fun s hs => hs.setPage).seq ih

theorem copyout_tends {src : Bytes} {len : ℕ} : Tends K l l (copyout p va src len) :=
  copyoutLoop_tends

theorem copyinLoop_tends {dst : Bytes} {got len : ℕ} :
    Tends K l l (copyinLoop p fuel dst got va len) := by
  induction fuel generalizing va dst got len with
  | zero => exact tends_pure _
  | succ fuel ih =>
    unfold copyinLoop
    refine Triple.ite (fun _ => tends_pure _) fun _ => ?_
    refine userPage_tends.bind fun o => ?_
    cases o with
    | none => exact tends_pure _
    | some pa => exact Triple.read fun s hs => ih

theorem copyin_tends {len : ℕ} : Tends K l l (copyin p va len) := copyinLoop_tends

end Faults

end Xv6.Vm
