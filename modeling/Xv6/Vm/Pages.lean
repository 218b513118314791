import Xv6.Vm.Kernel

/-!
# Physical pages and page tables

`kalloc.c` and the page-table functions of `vm.c`. The entries of a table page that
does not exist are never looked at, and a new table page starts with zeroed entries.
All calls of `mappages` here map one page at an aligned address.
-/
namespace Xv6.Vm

open Library Function

/-- The addresses `kfree`, `incref` and `decref` accept. -/
def Kernel.InRange (s : Kernel) (pa : ℕ) : Prop := s.kend ≤ pa ∧ pa < physStop

instance (s : Kernel) (pa : ℕ) : Decidable (s.InRange pa) := by
  unfold Kernel.InRange
  infer_instance

/-- A page leaves the free list with count one and is filled with junk. -/
def Kernel.allocated (s : Kernel) (pa : ℕ) (rest : List ℕ) : Kernel :=
  { s with
    freelist := rest
    ref := update s.ref pa 1
    mem := update s.mem pa fun _ => 5
    faulted := s.faulted.erase pa }

def Kernel.freed (s : Kernel) (pa : ℕ) : Kernel :=
  { s with
    freelist := pa :: s.freelist
    mem := update s.mem pa fun _ => 1 }

def kalloc : KernelM (Option ℕ) := do
  let s ← get
  match s.freelist with
  | [] => return none
  | pa :: rest =>
    set (s.allocated pa rest)
    return some pa

/-- With any count but one, `kfree` calls `exit(-1)`. -/
def kfree (pa : ℕ) : KernelM PUnit := do
  let s ← get
  if s.InRange pa then
    if s.ref pa = 1 then set (s.freed pa)
    else
      set (s.setPage pa fun _ => 1)
      throw .exits
  else throw (.panic .kfree)

def incref (pa : ℕ) : KernelM PUnit := do
  let s ← get
  if s.InRange pa then set (s.setRef pa (u32 (s.ref pa + 1))) else throw (.panic .incref)

def decref (pa : ℕ) : KernelM PUnit := do
  let s ← get
  if s.InRange pa then set (s.setRef pa (u32 (s.ref pa - 1))) else throw (.panic .decref)

/-- A table page has 512 entries: the table one level up in which entry `k` of a level lies. -/
def parent (k : ℕ) : ℕ := k / 512

/-- The entry of page number `v`, if the tables above it exist. -/
def PageTable.lookup (pt : PageTable) (v : ℕ) : Option Pte :=
  if (pt.dir (parent (parent v))).isSome ∧ (pt.tab (parent v)).isSome then some (pt.leaf v)
  else none

/-- The entry of page number `v`, if it is valid. -/
def PageTable.trans (pt : PageTable) (v : ℕ) : Option Pte := (pt.lookup v).filter (·.valid)

/-- A page becomes the level-1 table at index `i`, all its entries zero. -/
def PageTable.withDir (pt : PageTable) (i pa : ℕ) : PageTable :=
  { pt with
    dir := update pt.dir i (some pa)
    tab := fun k => if parent k = i then none else pt.tab k }

def PageTable.withTab (pt : PageTable) (i pa : ℕ) : PageTable :=
  { pt with
    tab := update pt.tab i (some pa)
    leaf := fun v => if parent v = i then .zero else pt.leaf v }

/-- The level-1 table at index `i` is given up. -/
def PageTable.dropDir (pt : PageTable) (i : ℕ) : PageTable :=
  { pt with dir := update pt.dir i none }

def PageTable.dropTab (pt : PageTable) (i : ℕ) : PageTable :=
  { pt with tab := update pt.tab i none }

def PageTable.withLeaf (pt : PageTable) (v : ℕ) (pte : Pte) : PageTable :=
  { pt with leaf := update pt.leaf v pte }

namespace Kernel

variable (s : Kernel)

/-- `walk` with `alloc == 0`. -/
def lookup (t v : ℕ) : Option Pte := (s.table t).bind (·.lookup v)

def trans (t v : ℕ) : Option Pte := (s.table t).bind (·.trans v)

/-- The physical page a user address is mapped to; page `0` counts as none. -/
def walkaddr (t va : ℕ) : Option ℕ :=
  if va ≥ maxVa then none
  else
    match s.trans t (va / pgSize) with
    | none => none
    | some pte => if pte.perm.u ∧ pte.ppn ≠ 0 then some pte.ppn else none

def withPte (t v : ℕ) (pte : Pte) : Kernel :=
  s.setTable t ((s.table t).map (·.withLeaf v pte))

def withDir (t i pa : ℕ) : Kernel := s.setTable t ((s.table t).map (·.withDir i pa))

def withTab (t i pa : ℕ) : Kernel := s.setTable t ((s.table t).map (·.withTab i pa))

end Kernel

/-- One level of `walk` with `alloc`: go down, or make the missing table. -/
def walkDir (t i : ℕ) : KernelM Bool := do
  match (← get).table t with
  | none => throw .fault
  | some pt =>
    if (pt.dir i).isSome then return true
    else
      match ← kalloc with
      | none => return false
      | some pa =>
        modify (·.withDir t i pa)
        return true

def walkTab (t i : ℕ) : KernelM Bool := do
  match (← get).table t with
  | none => throw .fault
  | some pt =>
    if (pt.tab i).isSome then return true
    else
      match ← kalloc with
      | none => return false
      | some pa =>
        modify (·.withTab t i pa)
        return true

/-- `walk` with `alloc`: `false` stands for the null pointer. -/
def walk (t va : ℕ) : KernelM Bool := do
  if va ≥ maxVa then throw (.panic .walk)
  else if ← walkDir t (parent (parent (va / pgSize))) then
    walkTab t (parent (va / pgSize))
  else return false

/-- `mappages` of one page. -/
def mappages (t va pa : ℕ) (perm : Perm) : KernelM Bool := do
  if ← walk t va then
    let s ← get
    if (s.trans t (va / pgSize)).isSome then throw (.panic .remap)
    else
      set (s.withPte t (va / pgSize) ⟨true, perm, pa⟩)
      return true
  else return false

/-- One pass of the loop in `uvmunmap`. -/
def uvmunmapPage (t va : ℕ) (doFree : Bool) : KernelM PUnit := do
  let s ← get
  if va ≥ maxVa then throw (.panic .walk)
  else
    match s.trans t (va / pgSize) with
    | none => return
    | some pte =>
      if pte.perm = ⟨false, false, false, false⟩ then throw (.panic .notLeaf)
      else
        if doFree then kfree pte.ppn
        modify (·.withPte t (va / pgSize) .zero)

def uvmunmap (t va npages : ℕ) (doFree : Bool) : KernelM PUnit := do
  if va % pgSize ≠ 0 then throw (.panic .notAligned)
  else loop (fun i => uvmunmapPage t (va + i * pgSize) doFree) 0 npages

/-- `freewalk` on an entry of a level-0 table: an entry left valid is taken for a table
when it has no permission to read, write or execute. -/
def freewalkEntry (t v : ℕ) : KernelM PUnit := do
  match (← get).trans t v with
  | none => return
  | some pte =>
    if pte.perm.r ∨ pte.perm.w ∨ pte.perm.x then throw (.panic .freewalkLeaf)
    else throw .corrupt

def freewalkTab (t k : ℕ) : KernelM PUnit := do
  let s ← get
  match (s.table t).bind (·.tab k) with
  | none => return
  | some pa =>
    loop (fun i => freewalkEntry t (k * 512 + i)) 0 512
    kfree pa
    modify fun s => s.setTable t ((s.table t).map (·.dropTab k))

def freewalkDir (t k : ℕ) : KernelM PUnit := do
  let s ← get
  match (s.table t).bind (·.dir k) with
  | none => return
  | some pa =>
    loop (fun i => freewalkTab t (k * 512 + i)) 0 512
    kfree pa
    modify fun s => s.setTable t ((s.table t).map (·.dropDir k))

/-- `freewalk` on the root. -/
def freewalk (t : ℕ) : KernelM PUnit := do
  match (← get).table t with
  | none => throw .fault
  | some pt =>
    loop (fun i => freewalkDir t i) 0 512
    kfree pt.root
    modify (·.setTable t none)

def uvmfree (t sz : ℕ) : KernelM PUnit := do
  if sz > 0 then uvmunmap t 0 (pgRoundUp sz / pgSize) true
  freewalk t

def uvmcreate (t : ℕ) : KernelM Bool := do
  match ← kalloc with
  | none => return false
  | some pa =>
    modify (·.setTable t (some ⟨pa, fun _ => none, fun _ => none, fun _ => .zero⟩))
    return true

/-- The loop of `_uvmcopy`, with `k` pages left from address `i` on. -/
def uvmcopyLoop (old new : ℕ) : ℕ → ℕ → KernelM Bool
  | 0, _ => return true
  | k + 1, i => do
    let s ← get
    if i ≥ maxVa then throw (.panic .walk)
    else
      match s.trans old (i / pgSize) with
      | none => uvmcopyLoop old new k (i + pgSize)
      | some pte =>
        match ← kalloc with
        | none =>
          uvmunmap new 0 (i / pgSize) true
          return false
        | some mem =>
          modify (·.setPage mem (s.mem pte.ppn))
          if ← mappages new i mem pte.perm then uvmcopyLoop old new k (i + pgSize)
          else
            kfree mem
            uvmunmap new 0 (i / pgSize) true
            return false

/-- `_uvmcopy`: copy the pages of `old` from `start` up to `sz`. -/
def uvmcopy (old new sz start : ℕ) : KernelM Bool :=
  uvmcopyLoop old new ((sz - start + pgSize - 1) / pgSize) start

end Xv6.Vm
