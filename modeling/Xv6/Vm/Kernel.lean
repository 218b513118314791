import Xv6.Param
import Xv6.Library.Bytes
import Xv6.Library.Run

/-!
# The kernel's memory state

Processes, their page tables and mmap regions, the physical pages with their
reference counts, and the files behind the mappings. A physical page is named by
its number, a page table is the tree `walk` goes down. Functions of the kernel are
programs over this state that stop when the kernel panics, faults or hangs.
-/
namespace Xv6.Vm

open Library Function

def u64 (z : ℤ) : ℕ := (z % 2 ^ 64).toNat

def u32 (z : ℤ) : ℕ := (z % 2 ^ 32).toNat

def i32 (z : ℤ) : ℤ := (z + 2 ^ 31) % 2 ^ 32 - 2 ^ 31

def pgRoundDown (a : ℕ) : ℕ := a / pgSize * pgSize

def pgRoundUp (a : ℕ) : ℕ := (a + pgSize - 1) / pgSize * pgSize

/-- `PGROUNDUP` of a `uint64`, whose sum may wrap around. -/
def pgRoundUp64 (n : ℕ) : ℕ := u64 (n + pgSize - 1 : ℕ) / pgSize * pgSize

theorem pgRoundUp_mod (n : ℕ) : pgRoundUp n % pgSize = 0 := Nat.mul_mod_left _ _

theorem pgRoundUp64_mod (n : ℕ) : pgRoundUp64 n % pgSize = 0 := Nat.mul_mod_left _ _

/-- `PGROUNDUP` of an `int`, whose sum may wrap around. -/
def pgRoundUpInt (n : ℤ) : ℤ := i32 (n + pgSize - 1) / pgSize * pgSize

structure Perm where
  r : Bool
  w : Bool
  x : Bool
  u : Bool
  deriving DecidableEq, Repr

structure Pte where
  valid : Bool
  perm : Perm
  ppn : ℕ
  deriving DecidableEq, Repr

def Pte.zero : Pte := ⟨false, ⟨false, false, false, false⟩, 0⟩

/-- A three-level page table. `dir` gives the page of the level-1 table for each entry
of the root, `tab` the page of the level-0 table for each entry of a level-1 table
(by the upper 18 bits of the page number), `leaf` the entries of the level-0 tables. -/
structure PageTable where
  root : ℕ
  dir : ℕ → Option ℕ
  tab : ℕ → Option ℕ
  leaf : ℕ → Pte

/-- The fields of `struct vma` that the fault handler reads. -/
structure Region where
  ip : Option ℕ
  addr : ℕ
  size : ℤ
  filesize : ℤ
  offset : ℤ
  deriving DecidableEq, Repr

/-- `PROT_READ`, `PROT_WRITE` and `PROT_RW`, the values `sys_mmap` accepts. -/
inductive Prot
  | read
  | write
  | rw
  deriving DecidableEq, Repr

inductive MapFlags
  | mapShared
  | mapPrivate
  deriving DecidableEq, Repr

structure Vma extends Region where
  used : Bool
  mfile : ℕ
  fd : ℕ
  prot : Prot
  flags : MapFlags
  deriving DecidableEq, Repr

/-- `enum procstate`; a process that may run is `runnable`, asleep or not. -/
inductive ProcState
  | unused
  | used
  | runnable
  | zombie
  deriving DecidableEq, Repr

/-- The part of `struct proc` that concerns memory and files. -/
structure Proc where
  state : ProcState
  killed : Bool
  nmp : ℕ
  vmas : ℕ → Option ℕ
  text : Region
  data : Region
  sz : ℕ
  trapframe : Option ℕ
  ofile : ℕ → Option ℕ

inductive FileType
  | none
  | pipe
  | inode
  | device
  deriving DecidableEq, Repr

structure File where
  type : FileType
  ref : ℕ
  readable : Bool
  writable : Bool
  ip : Option ℕ
  off : ℕ
  deriving DecidableEq, Repr

/-- An inode as a byte array; `blocks` and `indirect` say which of its block numbers
are nonzero. -/
structure Inode where
  size : ℕ
  data : Bytes
  blocks : ℕ → Bool
  indirect : Bool

/-- The state. `table p` is the user page table of process `p`; `kend` is the first page after
the kernel. The pages that pipes and other parts of the kernel hold are left out.
`ilocked` lists the inodes locked by the call in progress. `faulted` records the pages
faulted in for regions since they were last handed out; no function looks at it. -/
structure Kernel where
  kend : ℕ
  trampolinePage : ℕ
  freelist : List ℕ
  ref : ℕ → ℕ
  mem : ℕ → Bytes
  table : ℕ → Option PageTable
  proc : ℕ → Proc
  vmas : ℕ → Vma
  file : ℕ → File
  inode : ℕ → Inode
  freeBlocks : ℕ
  ilocked : List ℕ
  faulted : Finset ℕ

inductive Panic
  | kfree
  | incref
  | decref
  | walk
  | remap
  | notAligned
  | notLeaf
  | freewalkLeaf
  | acquire
  | ilock
  | bmap
  | filedup
  | fileclose
  | initExiting
  | uvmclear
  deriving DecidableEq, Repr

/-- Where a call is not followed further. Most of these never return: a panic, a page fault in
the kernel, which `kerneltrap` answers with a panic, a lock the process already holds, the
`exit` that `kfree` calls when the count is not one, or a loop that goes on beyond the given
bound. At `corrupt` a user page is taken for a page table; the kernel goes on there, frees the
pages that its bytes name, and may return. `disabled` marks a call the process cannot make. -/
inductive Stop
  | panic (msg : Panic)
  | fault
  | corrupt
  | deadlock
  | exits
  | noFuel
  | disabled
  deriving DecidableEq, Repr

abbrev KernelM := EStateM Stop Kernel

namespace Kernel

variable (s : Kernel)

def setTable (t : ℕ) (pt : Option PageTable) : Kernel :=
  { s with table := update s.table t pt }

def setProc (p : ℕ) (f : Proc → Proc) : Kernel :=
  { s with proc := update s.proc p (f (s.proc p)) }

def setVma (j : ℕ) (v : Vma) : Kernel :=
  { s with vmas := update s.vmas j v }

def setFile (f : ℕ) (file : File) : Kernel :=
  { s with file := update s.file f file }

def setInode (ip : ℕ) (inode : Inode) : Kernel :=
  { s with inode := update s.inode ip inode }

def setPage (pa : ℕ) (bytes : Bytes) : Kernel :=
  { s with mem := update s.mem pa bytes }

def setRef (pa n : ℕ) : Kernel :=
  { s with ref := update s.ref pa n }

end Kernel

end Xv6.Vm
