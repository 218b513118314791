import Xv6.Kalloc.Allocator
import Xv6.Library.Run

/-!
# Page tables in memory

`walk`, `mappages` and `uvmunmap` of `vm.c` with the macros of `riscv.h`. A page-table page
holds 512 entries of eight bytes in the allocator's memory, and pointers are addresses. Where
the code does not return, the model stops.
-/
namespace Xv6.Sv39

open Library Kalloc
open Vm (u64 pgRoundDown)

def pteV : ℕ := 1

def px (level va : ℕ) : ℕ := (va >>> (12 + 9 * level)) &&& 0x1FF

def pa2pte (pa : ℕ) : ℕ := (pa >>> 12) <<< 10

def pte2pa (pte : ℕ) : ℕ := ((pte >>> 10) <<< 12) % 2 ^ 64

def pteFlags (pte : ℕ) : ℕ := pte &&& 0x3FF

/-- The panics, and `exit` in `kfree`. -/
inductive Stop
  | walk
  | size
  | remap
  | notAligned
  | notLeaf
  | kfree
  | exit
  deriving DecidableEq, Repr

abbrev TableM := EStateM Stop Kmem

/-- `pagetable[i]`. -/
def pte (s : Kmem) (pagetable i : ℕ) : ℕ := s.mem.getLE (pagetable + 8 * i) 8

def store (s : Kmem) (a e : ℕ) : Kmem := { s with mem := s.mem.setLE a 8 e }

/-- The loop of `walk` from a level down; the result is the address of the entry or null. -/
def walkFrom (alloc : Bool) (va : ℕ) : ℕ → ℕ → TableM (Option ℕ)
  | 0, pagetable => pure (some (pagetable + 8 * px 0 va))
  | level + 1, pagetable => do
    let s ← get
    let e := pte s pagetable (px (level + 1) va)
    if e &&& pteV ≠ 0 then walkFrom alloc va level (pte2pa e)
    else if alloc = false then pure none
    else do
      let (page, s) := kalloc s
      if page = 0 then do
        set s
        pure none
      else do
        set (store (s.fillPage page 0) (pagetable + 8 * px (level + 1) va) (pa2pte page ||| pteV))
        walkFrom alloc va level page

def walk (pagetable va : ℕ) (alloc : Bool) : TableM (Option ℕ) :=
  if va ≥ maxVa then throw .walk else walkFrom alloc va 2 pagetable

/-- The loop of `mappages`, which ends in `walk` when it passes `MAXVA`: it goes round at most
once for each page below, and once more. -/
def mappagesLoop (pagetable last perm : ℕ) : ℕ → ℕ → ℕ → TableM Bool
  | 0, _, _ => throw .walk
  | fuel + 1, a, pa => do
    match ← walk pagetable a true with
    | none => pure false
    | some p => do
      let s ← get
      if s.mem.getLE p 8 &&& pteV ≠ 0 then throw .remap
      else do
        set (store s p (pa2pte pa ||| perm ||| pteV))
        if a = last then pure true
        else mappagesLoop pagetable last perm fuel (a + pgSize) ((pa + pgSize) % 2 ^ 64)

/-- `mappages`; whether it returns 0. -/
def mappages (pagetable va size pa perm : ℕ) : TableM Bool :=
  if size = 0 then throw .size
  else mappagesLoop pagetable (pgRoundDown (u64 (va + size - 1))) perm (maxVa / pgSize + 1)
    (pgRoundDown va) pa

/-- `if(do_free) kfree(pa)`. -/
def freeFrame (kend : ℕ) (doFree : Bool) (pa : ℕ) : TableM PUnit := do
  let s ← get
  if doFree = false then pure ⟨⟩
  else
    match kfree kend pa s with
    | .error _ => throw .kfree
    | .ok (false, _) => throw .exit
    | .ok (true, s) => set s

def unmapPage (kend pagetable : ℕ) (doFree : Bool) (a : ℕ) : TableM PUnit := do
  match ← walk pagetable a false with
  | none => pure ⟨⟩
  | some p => do
    let s ← get
    let e := s.mem.getLE p 8
    if e &&& pteV = 0 then pure ⟨⟩
    else if pteFlags e = pteV then throw .notLeaf
    else do
      freeFrame kend doFree (pte2pa e)
      modify fun s => store s p 0

/-- `uvmunmap`; the end of the range is taken modulo `2 ^ 64`. -/
def uvmunmap (kend pagetable va npages : ℕ) (doFree : Bool) : TableM PUnit :=
  if va % pgSize ≠ 0 then throw .notAligned
  else loop (fun k => unmapPage kend pagetable doFree (va + k * pgSize)) 0
    ((u64 (va + npages * pgSize) - va) / pgSize)

/-- `uvmcreate`; `0` is the null pointer. -/
def uvmcreate (s : Kmem) : ℕ × Kmem :=
  let (page, s) := kalloc s
  (page, if page = 0 then s else s.fillPage page 0)

end Xv6.Sv39
