import Xv6.Vm.Process

/-!
# Growing a process and replacing its image

`sbrk` with the functions of `vm.c` behind it, and `exec`, which only records where in the file
text and data are, and maps two pages for the stack. The page table under construction is that of
index `spare p`. Strings are given without their final zero byte.
-/
namespace Xv6

def maxArg : ℕ := 32

namespace Vm

open Library

def uvmdealloc (t oldsz newsz : ℕ) : KernelM ℕ := do
  if newsz ≥ oldsz then return oldsz
  else
    if pgRoundUp64 newsz < pgRoundUp64 oldsz then
      uvmunmap t (pgRoundUp64 newsz)
        (u64 (i32 (((pgRoundUp64 oldsz - pgRoundUp64 newsz) / pgSize : ℕ) : ℤ))) true
    return newsz

/-- The loop of `uvmalloc`, with `k` pages left from address `a` on. -/
def uvmallocLoop (t oldsz : ℕ) (perm : Perm) : ℕ → ℕ → KernelM Bool
  | 0, _ => return true
  | k + 1, a => do
    match ← kalloc with
    | none =>
      let _ ← uvmdealloc t a oldsz
      return false
    | some mem =>
      modify (·.setPage mem fun _ => 0)
      if ← mappages t a mem perm then uvmallocLoop t oldsz perm k (a + pgSize)
      else
        kfree mem
        let _ ← uvmdealloc t a oldsz
        return false

/-- Returns the new size, or `0`. -/
def uvmalloc (t oldsz newsz : ℕ) (perm : Perm) : KernelM ℕ := do
  if newsz < oldsz then return oldsz
  else
    let start := pgRoundUp64 oldsz
    if ← uvmallocLoop t start perm ((newsz - start + pgSize - 1) / pgSize) start then return newsz
    else return 0

/-- `false` stands for `-1`. -/
def growproc (p : ℕ) (n : ℤ) : KernelM Bool := do
  let sz := ((← get).proc p).sz
  if n > 0 then
    let sz ← uvmalloc p sz (u64 (sz + n)) dataPerm
    if sz = 0 then return false
    else
      modify (·.setProc p fun q => { q with sz })
      return true
  else if n < 0 then
    let sz ← uvmdealloc p sz (u64 (sz + n))
    modify (·.setProc p fun q => { q with sz })
    return true
  else return true

/-- The loop of `readi` to a kernel buffer: `tot` bytes are in `dst`. -/
def readLoop (ip n : ℕ) : ℕ → Bytes → ℕ → ℕ → KernelM (Bytes × ℕ)
  | 0, dst, tot, _ => return (dst, tot)
  | fuel + 1, dst, tot, off => do
    if tot < n then
      if ← bmap ip (off / bSize) then
        let m := min (n - tot) (bSize - off % bSize)
        let data := ((← get).inode ip).data
        readLoop ip n fuel (dst.blit tot (fun i => data (off + i)) m) (tot + m) (off + m)
      else return (dst, tot)
    else return (dst, tot)

/-- `readi` to a kernel buffer: the bytes and their number. -/
def readKernel (ip off n : ℕ) : KernelM (Bytes × ℕ) := do
  let size := ((← get).inode ip).size
  if off > size ∨ u32 (off + n) < off then return (fun _ => 0, 0)
  else
    let n := if u32 (off + n) > size then size - off else n
    readLoop ip n n (fun _ => 0) 0 off

def elfMagic : ℕ := 0x464C457F

/-- `sizeof(struct elfhdr)` and `sizeof(struct proghdr)`. -/
def elfhdrSize : ℕ := 64

def proghdrSize : ℕ := 56

/-- The fields of `struct elfhdr` that `exec` uses. -/
structure ElfHdr where
  magic : ℕ
  phoff : ℕ
  phnum : ℕ
  deriving DecidableEq, Repr

def ElfHdr.ofBytes (b : Bytes) : ElfHdr := ⟨b.getLE 0 4, b.getLE 32 8, b.getLE 56 2⟩

/-- The fields of `struct proghdr` that `exec` uses. -/
structure ProgHdr where
  type : ℕ
  flags : ℕ
  off : ℕ
  vaddr : ℕ
  filesz : ℕ
  memsz : ℕ
  deriving DecidableEq, Repr

def ProgHdr.ofBytes (b : Bytes) : ProgHdr :=
  ⟨b.getLE 0 4, b.getLE 4 4, b.getLE 8 8, b.getLE 16 8, b.getLE 32 8, b.getLE 40 8⟩

structure Segments where
  textsz : ℕ
  textfilesz : ℕ
  datasz : ℕ
  datafilesz : ℕ
  textinit : ℤ
  textoff : ℤ
  dataoff : ℤ
  deriving DecidableEq, Repr

def Segments.start : Segments := ⟨0, 0, 0, 0, 0, -1, -1⟩

/-- Executable segments that are not writable are text, writable ones that are not
executable are data; others are ignored. -/
def Segments.add (g : Segments) (ph : ProgHdr) : Segments :=
  if ph.flags % 4 = 1 then
    let g := { g with
      textsz := u64 (g.textsz + ph.memsz)
      textfilesz := u64 (g.textfilesz + ph.filesz) }
    if g.textoff = -1 then { g with textinit := i32 ph.vaddr, textoff := i32 ph.off } else g
  else if ph.flags % 4 = 2 then
    let g := { g with
      datasz := u64 (g.datasz + ph.memsz)
      datafilesz := u64 (g.datafilesz + ph.filesz) }
    if g.dataoff = -1 then { g with dataoff := i32 ph.off } else g
  else g

def ProgHdr.Loadable (ph : ProgHdr) : Prop :=
  ph.filesz ≤ ph.memsz ∧ ph.vaddr ≤ u64 (ph.vaddr + ph.memsz) ∧ ph.vaddr % pgSize = 0

instance (ph : ProgHdr) : Decidable ph.Loadable := by
  unfold ProgHdr.Loadable
  infer_instance

/-- The loop over the program headers, `k` of them left from offset `off` on; `none`
stands for `goto bad`. -/
def loadSegments (ip : ℕ) : ℕ → ℤ → Segments → KernelM (Option Segments)
  | 0, _, g => return some g
  | k + 1, off, g => do
    let (b, n) ← readKernel ip (u32 off) proghdrSize
    if n ≠ proghdrSize then return none
    else
      let ph := ProgHdr.ofBytes b
      if ph.type ≠ 1 then loadSegments ip k (i32 (off + proghdrSize)) g
      else if ph.Loadable then loadSegments ip k (i32 (off + proghdrSize)) (g.add ph)
      else return none

def Segments.text (g : Segments) (ip : ℕ) : Region where
  ip := some ip
  addr := u64 g.textinit
  size := i32 g.textsz
  filesize := i32 g.textfilesz
  offset := g.textoff

def Segments.data (g : Segments) (ip : ℕ) : Region where
  ip := some ip
  addr := pgRoundUp64 (u64 (g.textinit + g.textsz))
  size := i32 g.datasz
  filesize := i32 g.datafilesz
  offset := g.dataoff

def Segments.size (g : Segments) : ℕ :=
  pgRoundUp64 (u64 (pgRoundUp64 g.textsz + pgRoundUp64 g.datasz : ℕ))

/-- The index of the page table that `exec` builds. -/
def spare (p : ℕ) : ℕ := nProc + p

/-- `proc_pagetable(p)`, stored at index `t`. -/
def procPagetableIn (t p : ℕ) : KernelM Bool := do
  if ← uvmcreate t then
    let s ← get
    if ← mappages t trampoline s.trampolinePage ⟨true, false, true, false⟩ then
      if ← mappages t Xv6.trapframe ((s.proc p).trapframe.getD 0) ⟨true, true, false, false⟩ then
        return true
      else
        uvmunmap t trampoline 1 false
        uvmfree t 0
        return false
    else
      uvmfree t 0
      return false
  else return false

/-- Take the right to access a page from user code. -/
def uvmclear (t va : ℕ) : KernelM PUnit := do
  let s ← get
  if va ≥ maxVa then throw (.panic .walk)
  else
    match s.lookup t (va / pgSize) with
    | none => throw (.panic .uvmclear)
    | some pte => set (s.withPte t (va / pgSize) { pte with perm := { pte.perm with u := false } })

/-- The page that `copyout` accesses in page table `t`. It faults pages in for the
running process, whose page table may be another one. -/
def userPageIn (t p va0 : ℕ) : KernelM (Option ℕ) := do
  match (← get).walkaddr t va0 with
  | some pa => return some pa
  | none =>
    if ← checkVmas p va0 then
      match (← get).walkaddr t va0 with
      | some pa => return some pa
      | none => throw .fault
    else return none

/-- The loop of `copyout` to page table `t`. -/
def copyoutInLoop (t p : ℕ) (src : Bytes) : ℕ → ℕ → ℕ → ℕ → KernelM Bool
  | 0, _, _, _ => return true
  | fuel + 1, dstva, done, len => do
    if len = 0 then return true
    else
      let va0 := pgRoundDown dstva
      match ← userPageIn t p va0 with
      | none => return false
      | some pa0 =>
        let n := min (pgSize - (dstva - va0)) len
        modify fun s =>
          s.setPage pa0 ((s.mem pa0).blit (dstva - va0) (fun i => src (done + i)) n)
        copyoutInLoop t p src fuel (u64 (va0 + pgSize)) (done + n) (len - n)

def copyoutIn (t p dstva : ℕ) (src : Bytes) (len : ℕ) : KernelM Bool :=
  copyoutInLoop t p src (len + 1) dstva 0 len

def bytesOf (l : List UInt8) : Bytes := fun i => l.getD i 0

/-- Copy `len` bytes to the stack below `sp`; the new stack pointer, or `none` if there is
no room. -/
def push (t p stackbase sp : ℕ) (src : Bytes) (len : ℕ) : KernelM (Option ℕ) := do
  let sp := u64 (sp - len)
  let sp := sp - sp % 16
  if sp < stackbase then return none
  else if ← copyoutIn t p sp src len then return some sp
  else return none

/-- The loop over `argv`; returns the stack pointer and the addresses of the strings. -/
def pushArgs (t p stackbase : ℕ) : List (List UInt8) → ℕ → List ℕ → KernelM (Option (ℕ × List ℕ))
  | [], sp, ustack => return some (sp, ustack)
  | arg :: argv, sp, ustack => do
    if ustack.length ≥ maxArg then return none
    else
      match ← push t p stackbase sp (bytesOf arg) (arg.length + 1) with
      | none => return none
      | some sp => pushArgs t p stackbase argv sp (ustack ++ [sp])

def ustackBytes (ustack : List ℕ) : Bytes :=
  (List.range ustack.length).foldl (fun b i => b.setLE (8 * i) 8 (ustack.getD i 0)) fun _ => 0

/-- The stack of the new image, of which `sz` is the end; `false` stands for `goto bad`. -/
def pushStack (t p sz : ℕ) (argv : List (List UInt8)) : KernelM Bool := do
  let stackbase := u64 (sz - pgSize)
  match ← pushArgs t p stackbase argv sz [] with
  | none => return false
  | some (sp, ustack) =>
    match ← push t p stackbase sp (ustackBytes ustack) ((ustack.length + 1) * 8) with
    | none => return false
    | some _ => return true

/-- The part of `exec` after the program headers: the stack, and the new image in place of
the old one. -/
def execImage (p : ℕ) (g : Segments) (argv : List (List UInt8)) : KernelM Bool := do
  let t := spare p
  let oldsz := ((← get).proc p).sz
  let sz ← uvmalloc t g.size (u64 (g.size + 2 * pgSize)) dataPerm
  if sz = 0 then
    procFreepagetable t g.size
    return false
  else
    uvmclear t (u64 (sz - 2 * pgSize))
    if ← pushStack t p sz argv then
      modify fun s => (s.setTable p (s.table t)).setTable t (s.table p)
      modify (·.setProc p fun q => { q with sz })
      procFreepagetable t oldsz
      return true
    else
      procFreepagetable t sz
      return false

/-- `exec` of the file `ip`, if the path names one; `false` stands for `-1`. Text and data
of the process are set before anything that may still fail. -/
def exec (p : ℕ) (ip : Option ℕ) (argv : List (List UInt8)) : KernelM Bool := do
  if ip = none then return false
  else
    let i ← ilock ip
    let (b, n) ← readKernel i 0 elfhdrSize
    let elf := ElfHdr.ofBytes b
    if n ≠ elfhdrSize ∨ elf.magic ≠ elfMagic then
      iunlock i
      return false
    else if ← procPagetableIn (spare p) p then
      match ← loadSegments i elf.phnum (i32 elf.phoff) .start with
      | none =>
        procFreepagetable (spare p) 0
        iunlock i
        return false
      | some g =>
        modify (·.setProc p fun q => { q with text := g.text i, data := g.data i })
        iunlock i
        execImage p g argv
    else
      iunlock i
      return false

end Vm

end Xv6
