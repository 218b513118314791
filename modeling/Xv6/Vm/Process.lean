import Xv6.Vm.Fault
import Xv6.Library.Reach

/-!
# Process and mapping system calls

`fork`, `exit`, `mmap`, `munmap` and `write` of `proc.c`, `sysproc.c` and `file.c`, and the
machine whose steps they are. The write-back loop of `deallocvma` may go on forever, so a step is
a call that returns for some bound on its iterations.
-/
namespace Xv6.Vm

open Library Function List

def filedup (f : ℕ) : KernelM PUnit := do
  let s ← get
  if (s.file f).ref < 1 then throw (.panic .filedup)
  else set (s.setFile f { s.file f with ref := (s.file f).ref + 1 })

/-- The inode of a closed file stays allocated: nothing here unlinks files. -/
def fileclose (f : ℕ) : KernelM PUnit := do
  let s ← get
  let file := s.file f
  if file.ref < 1 then throw (.panic .fileclose)
  else if file.ref > 1 then set (s.setFile f { file with ref := file.ref - 1 })
  else set (s.setFile f { file with ref := 0, type := .none })

/-- The loop of `writei` from user memory of `p`; returns `tot` and the offset reached.
A block that `copyin` filled in part stays in the buffer cache. -/
def writeiLoop (p ip n : ℕ) : ℕ → ℕ → ℕ → ℕ → KernelM (ℕ × ℕ)
  | 0, _, tot, off => return (tot, off)
  | fuel + 1, src, tot, off => do
    if tot < n then
      if ← bmap ip (off / bSize) then
        let m := min (n - tot) (bSize - off % bSize)
        let (ok, bytes, got) ← copyin p src m
        modify fun s =>
          s.setInode ip { s.inode ip with data := (s.inode ip).data.blit off bytes got }
        if ok then writeiLoop p ip n fuel (u64 (src + m)) (tot + m) (off + m)
        else return (tot, off)
      else return (tot, off)
    else return (tot, off)

/-- `writei` from a user address. -/
def writei (p ip src off n : ℕ) : KernelM ℤ := do
  let size := ((← get).inode ip).size
  if off > size ∨ u32 (off + n) < off then return -1
  else if u32 (off + n) > maxFile * bSize then return -1
  else
    let (tot, off) ← writeiLoop p ip n n src 0 off
    modify fun s =>
      if off > (s.inode ip).size then s.setInode ip { s.inode ip with size := off } else s
    return tot

/-- `((MAXOPBLOCKS - 1 - 1 - 2) / 2) * BSIZE`: bytes written in one transaction. -/
def maxWrite : ℕ := (maxOpBlocks - 1 - 1 - 2) / 2 * bSize

/-- The loop of `filewrite`, `n` bytes being left. -/
def filewriteLoop (p f : ℕ) : ℕ → ℕ → ℕ → KernelM PUnit
  | 0, _, _ => return
  | fuel + 1, va, n => do
    if n = 0 then return
    else
      let n1 := min n maxWrite
      let s ← get
      let ip ← ilock (s.file f).ip
      let r ← writei p ip va (s.file f).off n1
      if r > 0 then
        modify fun s => s.setFile f { s.file f with off := u32 ((s.file f).off + r) }
      iunlock ip
      if r = n1 then filewriteLoop p f fuel (u64 (va + r)) (n - n1) else return

/-- `filewrite` to a file with an inode. -/
def filewrite (p f va n : ℕ) : KernelM PUnit := do
  let file := (← get).file f
  if file.writable = false then return
  else if file.type = .inode then filewriteLoop p f n va n
  else throw .disabled

def Kernel.freeVma (s : Kernel) : Option ℕ :=
  (range nVmas).find? fun j => (s.vmas j).used = false

/-- `p->nmp -= PGROUNDUP(size)`. -/
def lowerNmp (nmp : ℕ) (size : ℤ) : ℕ := u64 (nmp - pgRoundUpInt size)

/-- Process `p` gets region `v`, in entry `j` of the global table, as its slot `i`. -/
def Kernel.addVma (s : Kernel) (p i j : ℕ) (v : Vma) : Kernel :=
  ((s.setVma j v).setFile v.mfile { s.file v.mfile with ref := (s.file v.mfile).ref + 1 }).setProc p
    fun q => { q with vmas := update q.vmas i (some j), nmp := v.addr }

/-- `none` stands for `MAP_FAILED`. -/
def allocvma (p : ℕ) (length : ℤ) (prot : Prot) (flags : MapFlags) (f fd : ℕ) (offset : ℤ) :
    KernelM (Option ℕ) := do
  let s ← get
  match (range perProcessVmas).find? fun i => (s.proc p).vmas i = none with
  | none => return none
  | some i =>
    match s.freeVma with
    | none => return none
    | some j =>
      let addr := lowerNmp (s.proc p).nmp length
      set (s.addVma p i j { ip := (s.file f).ip, addr, size := length, filesize := length, offset,
                            used := true, mfile := f, fd, prot, flags })
      return some addr

/-- The values of `fcntl.h`; anything else is rejected. -/
def Prot.ofInt (n : ℤ) : Option Prot :=
  if n = 1 then some .read else if n = 2 then some .write else if n = 3 then some .rw else none

def MapFlags.ofInt (n : ℤ) : Option MapFlags :=
  if n = 4 then some .mapShared else if n = 5 then some .mapPrivate else none

def Kernel.argfd (s : Kernel) (p : ℕ) (fd : ℤ) : Option ℕ :=
  if 0 ≤ fd ∧ fd < nOFile then (s.proc p).ofile fd.toNat else none

def sysMmap (p : ℕ) (length prot flags fd offset : ℤ) : KernelM (Option ℕ) := do
  let s ← get
  match s.argfd p fd, Prot.ofInt prot, MapFlags.ofInt flags with
  | some f, some prot, some flags =>
    if (s.file f).readable = false then return none
    else if flags = .mapShared ∧ prot ≠ .read ∧ (s.file f).writable = false then return none
    else if length < 0 then return none
    else allocvma p length prot flags f fd.toNat offset
  | _, _, _ => return none

/-- The inner loop of the write-back: write the page at `addr` to the file, `w` bytes
being done, in pieces of at most `maxWrite` bytes. `r` may be negative. -/
def writePage (p ip addr : ℕ) (offset : ℤ) : ℕ → ℤ → ℤ → KernelM ℤ
  | fuel, w, n1 => do
    if w < pgSize then
      match fuel with
      | 0 => throw .noFuel
      | fuel + 1 =>
        let r ← writei p ip (u64 (addr + w)) (u32 (offset + w)) (u32 n1)
        let w := i32 (w + r)
        writePage p ip addr offset fuel w (min (i32 (pgSize - w)) maxWrite)
    else return w

/-- Unmap a page of a shared region: the last user frees it, others drop a reference. -/
def unmapShared (p va : ℕ) : KernelM PUnit := do
  let s ← get
  let pa := (s.walkaddr p va).getD 0
  if s.ref pa = 1 then uvmunmap p va 1 true
  else
    decref pa
    uvmunmap p va 1 false

/-- The outer loop of the write-back, from offset `j` of the range on. -/
def writeBack (bound p : ℕ) (ip : Option ℕ) (addr : ℕ) (size offset : ℤ) :
    ℕ → ℤ → KernelM PUnit
  | fuel, j => do
    if j < size then
      match fuel with
      | 0 => throw .noFuel
      | fuel + 1 =>
        match (← get).walkaddr p (u64 (addr + j)) with
        | none => writeBack bound p ip addr size offset fuel (i32 (j + pgSize))
        | some _ =>
          let i ← ilock ip
          let w ← writePage p i (u64 (addr + j)) (offset + j) bound 0 (min (size - j) maxWrite)
          unmapShared p (u64 (addr + j))
          iunlock i
          writeBack bound p ip addr size offset fuel (i32 (j + w))
    else return

/-- Unmap a page of a private region: the last user frees it, others only unmap it. -/
def unmapPrivate (p va : ℕ) : KernelM PUnit := do
  let s ← get
  match s.walkaddr p va with
  | none => return
  | some pa => if s.ref pa = 1 then uvmunmap p va 1 true else uvmunmap p va 1 false

/-- The number of pages that `for (j = 0; j < PGROUNDUP(size); j += PGSIZE)` visits. -/
def pageCount (size : ℤ) : ℕ := (pgRoundUpInt size / pgSize).toNat

/-- What remains of a region when `size` bytes from `addr` on are unmapped, and the
offset it is given afterwards; `none` when the range is neither all of it nor one end. -/
def Vma.cut (v : Vma) (addr : ℕ) (size : ℤ) : Option (Vma × Bool × ℤ) :=
  if addr = v.addr ∧ size = v.size then some ({ v with used := false }, true, v.offset)
  else if addr = v.addr ∧ size < v.size then
    some ({ v with addr := u64 (v.addr + size), size := v.size - size }, false,
      i32 (v.offset + size))
  else if addr > v.addr ∧ u64 (addr + size) = u64 (v.addr + v.size) then
    some ({ v with size := v.size - size }, false, v.offset)
  else none

/-- The lowest region of the process, or `TRAPFRAME`. -/
def Kernel.minVma (s : Kernel) (p : ℕ) : ℕ :=
  (range perProcessVmas).foldl (fun m i =>
    match s.slot p i with
    | some v => min m v.addr
    | none => m) trapframe

/-- Forget a region that is unmapped completely, and its reference to the file. -/
def dropSlot (p i j : ℕ) : KernelM PUnit := do
  let s ← get
  let f := (s.vmas j).mfile
  if (s.file f).ref = 1 then
    fileclose f
    modify (·.setProc p fun q => { q with ofile := update q.ofile (s.vmas j).fd none })
  else set (s.setFile f { s.file f with ref := (s.file f).ref - 1 })
  modify (·.setProc p fun q => { q with vmas := update q.vmas i none })

/-- The slot that `deallocvma` works on. -/
def Kernel.usedSlot (s : Kernel) (p addr : ℕ) : Option ℕ :=
  (range perProcessVmas).find? fun i =>
    (s.slot p i).any fun v => v.used ∧ v.Contains addr

def unmapRange (bound p : ℕ) (v : Vma) (addr : ℕ) (size : ℤ) : KernelM PUnit :=
  match v.flags with
  | .mapShared => writeBack bound p v.ip addr size v.offset (size / pgSize + 1).toNat 0
  | .mapPrivate => loop (fun k => unmapPrivate p (u64 (addr + (k * pgSize : ℕ)))) 0 (pageCount size)

/-- `false` stands for `-1`. -/
def deallocvma (bound p addr : ℕ) (size : ℤ) : KernelM Bool := do
  let s ← get
  match s.usedSlot p addr with
  | none => return false
  | some i =>
    match (s.proc p).vmas i with
    | none => return false
    | some j =>
      match (s.vmas j).cut addr size with
      | none => return false
      | some (v, complete, offset) =>
        set (s.setVma j v)
        unmapRange bound p v addr size
        modify fun s => s.setVma j { s.vmas j with offset }
        if complete then dropSlot p i j
        modify fun s => s.setProc p fun q => { q with nmp := s.minVma p }
        return true

def sysMunmap (bound p addr : ℕ) (size : ℤ) : KernelM Bool := do
  if addr = 0 ∨ addr % pgSize ≠ 0 then return false
  else if size < 0 ∨ size % pgSize ≠ 0 then return false
  else if size = 0 then return true
  else deallocvma bound p addr size

/-- `_deallocvma`: unmap and free the pages of the text or data region. -/
def deallocSegment (p : ℕ) (r : Region) : KernelM PUnit :=
  loop (fun k => do
    let va := u64 (r.addr + (k * pgSize : ℕ))
    match (← get).walkaddr p va with
    | none => return
    | some _ => uvmunmap p va 1 true) 0 (pageCount r.size)

/-- Process `0` is `initproc`. -/
def exit (bound p : ℕ) : KernelM PUnit := do
  if p = 0 then throw (.panic .initExiting)
  else
    loop (fun fd => do
      match ((← get).proc p).ofile fd with
      | none => return
      | some f =>
        fileclose f
        modify (·.setProc p fun q => { q with ofile := update q.ofile fd none })) 0 nOFile
    let q := (← get).proc p
    deallocSegment p q.text
    deallocSegment p q.data
    loop (fun i => do
      match (← get).slot p i with
      | none => return
      | some v =>
        let _ ← deallocvma bound p v.addr v.size
        return) 0 perProcessVmas
    modify (·.setProc p fun q => { q with state := .zombie })

/-- The page table of a new process: trampoline and trapframe pages. -/
def procPagetable (p : ℕ) : KernelM Bool := do
  if ← uvmcreate p then
    let s ← get
    if ← mappages p trampoline s.trampolinePage ⟨true, false, true, false⟩ then
      if ← mappages p Xv6.trapframe ((s.proc p).trapframe.getD 0) ⟨true, true, false, false⟩ then
        return true
      else
        uvmunmap p trampoline 1 false
        uvmfree p 0
        return false
    else
      uvmfree p 0
      return false
  else return false

def procFreepagetable (p sz : ℕ) : KernelM PUnit := do
  uvmunmap p trampoline 1 false
  uvmunmap p Xv6.trapframe 1 false
  uvmfree p sz

def freeTrapframe (p : ℕ) : KernelM PUnit := do
  match ((← get).proc p).trapframe with
  | none => return
  | some pa =>
    kfree pa
    modify (·.setProc p fun q => { q with trapframe := none })

def freeTable (p : ℕ) : KernelM PUnit := do
  let s ← get
  if (s.table p).isSome then procFreepagetable p (s.proc p).sz

def freeproc (p : ℕ) : KernelM PUnit := do
  freeTrapframe p
  freeTable p
  modify (·.setProc p fun q => { q with sz := 0, killed := false, state := .unused })

/-- `none` stands for the null pointer. -/
def allocproc : KernelM (Option ℕ) := do
  let s ← get
  match (range nProc).find? fun p => (s.proc p).state = .unused with
  | none => return none
  | some p =>
    modify (·.setProc p fun q => { q with state := .used, nmp := Xv6.trapframe })
    match ← kalloc with
    | none =>
      freeproc p
      return none
    | some pa =>
      modify (·.setProc p fun q => { q with trapframe := some pa })
      if ← procPagetable p then return some p
      else
        freeproc p
        return none

/-- The permissions of an inherited page; a private page loses the right to write. -/
def forkPerm : Prot → MapFlags → Perm
  | .read, _ => ⟨true, false, false, true⟩
  | .write, .mapShared => ⟨false, true, false, true⟩
  | .write, .mapPrivate => ⟨false, false, false, true⟩
  | .rw, .mapShared => ⟨true, true, false, true⟩
  | .rw, .mapPrivate => ⟨true, false, false, true⟩

/-- Share one page of the parent's region `j₀` with the child's region `j`. When the page
cannot be mapped, `setkilled` acquires a lock that is held. -/
def sharePage (p np j₀ j k : ℕ) : KernelM PUnit := do
  let s ← get
  let v := s.vmas j₀
  let va := u64 (v.addr + (k * pgSize : ℕ))
  match s.walkaddr p va with
  | none => return
  | some phy =>
    let perm := forkPerm v.prot v.flags
    if ← mappages np (pgRoundDown (u64 ((s.vmas j).addr + (k * pgSize : ℕ)))) phy perm then
      if v.flags = .mapPrivate then modify (·.withPte p (va / pgSize) ⟨true, perm, phy⟩)
      incref phy
    else throw (.panic .acquire)

/-- The child inherits the region in slot `i`, unless the global table is full. -/
def inheritVma (p np i : ℕ) : KernelM PUnit := do
  let s ← get
  match (s.proc p).vmas i with
  | none => return
  | some j₀ =>
    match s.freeVma with
    | none => return
    | some j =>
      let v := s.vmas j₀
      set (s.addVma np i j { v with used := true, addr := lowerNmp (s.proc np).nmp v.size })
      loop (sharePage p np j₀ j) 0 (pageCount v.size)

/-- `none` stands for `-1`. -/
def fork (p : ℕ) : KernelM (Option ℕ) := do
  match ← allocproc with
  | none => return none
  | some np =>
    let q := (← get).proc p
    modify (·.setProc np fun c => { c with text := q.text, data := q.data })
    if ← uvmcopy p np q.sz (pgRoundUp64 (u64 (q.text.addr + q.text.size))) then
      modify (·.setProc np fun c => { c with sz := q.sz })
      loop (fun fd => do
        match q.ofile fd with
        | none => return
        | some f =>
          filedup f
          modify (·.setProc np fun c => { c with ofile := update c.ofile fd (some f) }))
        0 nOFile
      loop (inheritVma p np) 0 perProcessVmas
      modify (·.setProc np fun c => { c with state := .runnable })
      return some np
    else
      freeproc np
      return none

/-- What processes do. A fetch, load or store that the page table does not allow enters
the fault handler and is tried again later. `copyout` stands for the system calls that
write to user memory through it. -/
inductive Event
  | fetch (p va : ℕ)
  | load (p va : ℕ)
  | store (p va : ℕ) (b : UInt8)
  | copyout (p va : ℕ) (src : Bytes) (len : ℕ)
  | write (p : ℕ) (fd : ℤ) (va n : ℕ)
  | mmap (p : ℕ) (length prot flags fd offset : ℤ)
  | munmap (p addr : ℕ) (size : ℤ)
  | fork (p : ℕ)
  | exit (p : ℕ)

def Event.proc : Event → ℕ
  | .fetch p _ | .load p _ | .store p _ _ | .copyout p _ _ _ | .write p _ _ _
  | .mmap p _ _ _ _ _ | .munmap p _ _ | .fork p | .exit p => p

/-- The process may run; once killed, all it does is exit. -/
def Kernel.Enabled (s : Kernel) (e : Event) : Prop :=
  e.proc < nProc ∧ (s.proc e.proc).state = .runnable ∧
    match e with
    | .exit _ => True
    | _ => (s.proc e.proc).killed = false

instance (s : Kernel) (e : Event) : Decidable (s.Enabled e) := by
  unfold Kernel.Enabled
  cases e <;> infer_instance

/-- A memory access by user code. Entries that allow writing but not reading are
reserved and fault. -/
def access (p va : ℕ) (cause : Cause) (allowed : Perm → Bool) (k : ℕ → KernelM PUnit) :
    KernelM PUnit := do
  let s ← get
  match (if va < maxVa then s.trans p (va / pgSize) else none) with
  | some pte =>
    if pte.perm.u ∧ allowed pte.perm then k pte.ppn else usertrap p cause va
  | none => usertrap p cause va

def perform (bound : ℕ) : Event → KernelM PUnit
  | .fetch p va => access p va .fetch (·.x) fun _ => return
  | .load p va => access p va .load (·.r) fun _ => return
  | .store p va b => access p va .store (fun q => q.r && q.w) fun pa =>
      modify fun s => s.setPage pa (update (s.mem pa) (va % pgSize) b)
  | .copyout p va src len => do
      let _ ← copyout p va src len
  | .write p fd va n => do
      match (← get).argfd p fd with
      | none => return
      | some f => filewrite p f va n
  | .mmap p length prot flags fd offset => do
      let _ ← sysMmap p (i32 length) (i32 prot) (i32 flags) (i32 fd) (i32 offset)
  | .munmap p addr size => do
      let _ ← sysMunmap bound p addr (i32 size)
  | .fork p => do
      let _ ← fork p
  | .exit p => exit bound p

def step (bound : ℕ) (s : Kernel) (e : Event) : Except Stop Kernel :=
  if s.Enabled e then
    match perform bound e s with
    | .ok _ t => .ok t
    | .error err _ => .error err
  else .error .disabled

def Step (s : Kernel) (e : Event) (t : Kernel) : Prop := ∃ bound, step bound s e = .ok t

end Xv6.Vm
