import Xv6.Vm.Kernel
import Xv6.Library.Reach

/-!
# The physical page allocator

`kalloc.c` with its pointers. The descriptors of all physical pages are in the array `kmem.runs`;
a pointer to one of them is its index. The free pages are linked through the descriptors. Memory
is one array of bytes. Every function runs under `kmem.lock`, or works on one descriptor without
it.
-/
namespace Xv6.Kalloc

open Library
open Vm (pgRoundUp u32)

def phystop : ℕ := physStop * pgSize

structure Run where
  next : Option ℕ
  ref : ℕ
  deriving DecidableEq, Repr

/-- `kmem` without its lock, and the memory. -/
structure Kmem where
  freelist : Option ℕ
  runs : ℕ → Run
  mem : Bytes

inductive Panic
  | kfreeInit
  | kfree
  | incref
  | decref
  deriving DecidableEq, Repr

/-- The addresses that the functions accept; `kend` is the address `end`. -/
def Accepts (kend pa : ℕ) : Prop := pa % pgSize = 0 ∧ kend ≤ pa ∧ pa < phystop

instance (kend pa : ℕ) : Decidable (Accepts kend pa) := by
  unfold Accepts
  infer_instance

namespace Kmem

def fillPage (s : Kmem) (pa : ℕ) (c : UInt8) : Kmem := { s with mem := s.mem.fill pa c pgSize }

/-- `r->next = kmem.freelist; kmem.freelist = r`. -/
def push (s : Kmem) (i : ℕ) : Kmem :=
  { s with
    freelist := some i
    runs := Function.update s.runs i { s.runs i with next := s.freelist } }

def setRef (s : Kmem) (i n : ℕ) : Kmem :=
  { s with runs := Function.update s.runs i { s.runs i with ref := n } }

def next (s : Kmem) (i : ℕ) : Option ℕ := (s.runs i).next

/-- `r->ref = 1; kmem.freelist = r->next`. -/
def pop (s : Kmem) (r : ℕ) : Kmem := { s.setRef r 1 with freelist := s.next r }

def getref (s : Kmem) (pa : ℕ) : ℕ := (s.runs (pa / pgSize)).ref

end Kmem

/-- `_kfree`. -/
def kfreeInit (kend pa : ℕ) (s : Kmem) : Except Panic Kmem :=
  if Accepts kend pa then .ok ((s.fillPage pa 1).push (pa / pgSize)) else .error .kfreeInit

/-- The loop of `_freerange`, which goes round at most once for each page. -/
def freerangeLoop (kend : ℕ) : ℕ → ℕ → Kmem → Except Panic Kmem
  | 0, _, s => .ok s
  | fuel + 1, p, s =>
    if p + pgSize ≤ phystop then
      match kfreeInit kend p s with
      | .ok s => freerangeLoop kend fuel (p + pgSize) s
      | .error e => .error e
    else .ok s

/-- `kinit`: `_freerange(end, PHYSTOP)`. -/
def kinit (kend : ℕ) (s : Kmem) : Except Panic Kmem :=
  freerangeLoop kend physStop (pgRoundUp kend) s

/-- Whether `kfree` returns; with any count but one it calls `exit(-1)` instead, with the page
filled already. -/
def kfree (kend pa : ℕ) (s : Kmem) : Except Panic (Bool × Kmem) :=
  if Accepts kend pa then
    let s := s.fillPage pa 1
    if s.getref pa ≠ 1 then .ok (false, s) else .ok (true, s.push (pa / pgSize))
  else .error .kfree

/-- `kalloc`; the address `0` is the null pointer. -/
def kalloc (s : Kmem) : ℕ × Kmem :=
  match s.freelist with
  | none => (0, s)
  | some r => (r * pgSize, (s.pop r).fillPage (r * pgSize) 5)

def incref (kend pa : ℕ) (s : Kmem) : Except Panic Kmem :=
  if Accepts kend pa then .ok (s.setRef (pa / pgSize) (u32 (s.getref pa + 1)))
  else .error .incref

def decref (kend pa : ℕ) (s : Kmem) : Except Panic Kmem :=
  if Accepts kend pa then .ok (s.setRef (pa / pgSize) (u32 (s.getref pa - 1)))
  else .error .decref

inductive Event
  | kalloc
  | kfree (pa : ℕ)
  | incref (pa : ℕ)
  | decref (pa : ℕ)

def step (kend : ℕ) (s : Kmem) : Event → Except Panic Kmem
  | .kalloc => .ok (kalloc s).2
  | .kfree pa => (kfree kend pa s).map Prod.snd
  | .incref pa => incref kend pa s
  | .decref pa => decref kend pa s

/-- The pages that `kalloc` has returned and `kfree` has not taken back. -/
def note (kend : ℕ) (s : Kmem) (e : Event) (_ : Kmem) (allocated : Finset ℕ) : Finset ℕ :=
  match e with
  | .kalloc => if (kalloc s).1 = 0 then allocated else insert (kalloc s).1 allocated
  | .kfree pa =>
    match kfree kend pa s with
    | .ok (true, _) => allocated.erase pa
    | _ => allocated
  | _ => allocated

end Xv6.Kalloc
