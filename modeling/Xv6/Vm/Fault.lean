import Xv6.Vm.Pages

/-!
# Page faults and user copies

The fault handler of `trap.c`, the copy functions of `vm.c` that call it, and the
inode functions of `fs.c` at the level of file bytes: a block of a file exists or
has to be allocated from the free blocks. A process that is killed here exits
before it does anything else, which is a step of its own.
-/
namespace Xv6.Vm

open Library

def setkilled (p : ℕ) : KernelM PUnit :=
  modify (·.setProc p fun q => { q with killed := true })

/-- A process that already holds the lock waits for itself. -/
def ilock (ip : Option ℕ) : KernelM ℕ := do
  match ip with
  | none => throw (.panic .ilock)
  | some ip =>
    let s ← get
    if ip ∈ s.ilocked then throw .deadlock
    else
      set { s with ilocked := ip :: s.ilocked }
      return ip

def iunlock (ip : ℕ) : KernelM PUnit :=
  modify fun s => { s with ilocked := s.ilocked.erase ip }

def balloc : KernelM Bool := do
  let s ← get
  if s.freeBlocks = 0 then return false
  else
    set { s with freeBlocks := s.freeBlocks - 1 }
    return true

/-- Give the inode block `bn` if it has none; a new block is zeroed. -/
def bmapEntry (ip bn : ℕ) : KernelM Bool := do
  if ((← get).inode ip).blocks bn then return true
  else if ← balloc then
    modify fun s =>
      let i := s.inode ip
      s.setInode ip { i with
        blocks := Function.update i.blocks bn true
        data := i.data.fill (bn * bSize) 0 bSize }
    return true
  else return false

/-- `false` stands for block number `0`: the disk is full. -/
def bmap (ip bn : ℕ) : KernelM Bool := do
  if bn < nDirect then bmapEntry ip bn
  else if bn < maxFile then
    if ((← get).inode ip).indirect then bmapEntry ip bn
    else if ← balloc then
      modify fun s => s.setInode ip { s.inode ip with indirect := true }
      bmapEntry ip bn
    else return false
  else throw (.panic .bmap)

def readiLoop (ip pa n : ℕ) : ℕ → ℕ → ℕ → KernelM PUnit
  | 0, _, _ => return
  | fuel + 1, tot, off => do
    if tot < n then
      if ← bmap ip (off / bSize) then
        let m := min (n - tot) (bSize - off % bSize)
        modify fun s =>
          s.setPage pa ((s.mem pa).blit tot (fun i => (s.inode ip).data (off + i)) m)
        readiLoop ip pa n fuel (tot + m) (off + m)

/-- `readi` to a kernel address, the start of page `pa`. -/
def readi (ip pa off n : ℕ) : KernelM PUnit := do
  let size := ((← get).inode ip).size
  if off > size ∨ u32 (off + n) < off then return
  else
    let n := if u32 (off + n) > size then size - off else n
    readiLoop ip pa n n 0 off

namespace Region

def Contains (r : Region) (va : ℕ) : Prop := r.addr ≤ va ∧ va < u64 (r.addr + r.size)

instance (r : Region) (va : ℕ) : Decidable (r.Contains va) := by
  unfold Contains
  infer_instance

/-- How much of the faulting page is read from the file, if the file reaches it. -/
def readSize (r : Region) (va : ℕ) : Option ℕ :=
  let fend := pgRoundDown (u64 (r.addr + r.filesize))
  if fend > pgRoundDown va then some pgSize
  else if fend = pgRoundDown va then
    some (u32 (r.filesize - pgRoundDown (u64 ((va : ℤ) - r.addr))))
  else none

def readOff (r : Region) (va : ℕ) : ℕ :=
  u32 (pgRoundDown (u64 ((va : ℤ) - r.addr)) + r.offset)

end Region

/-- Read the file's part of the page of `va` into physical page `pa`. -/
def readRegion (r : Region) (ip pa va : ℕ) : KernelM PUnit :=
  match r.readSize va with
  | some n => readi ip pa (r.readOff va) n
  | none => return

/-- Fault a page in: a fresh zeroed page, the file's bytes, a mapping. Without a free
page, `memset` writes to address `0`. -/
def allocPhysicalVMA (r : Region) (p va : ℕ) (perm : Perm) : KernelM PUnit := do
  match ← kalloc with
  | none =>
    setkilled p
    throw .fault
  | some pa =>
    modify (·.setPage pa fun _ => 0)
    let ip ← ilock r.ip
    readRegion r ip pa va
    iunlock ip
    if ← mappages p (pgRoundDown va) pa perm then
      modify fun s => { s with faulted := insert pa s.faulted }
    else
      kfree pa
      setkilled p

def Prot.perm : Prot → Perm
  | .read => ⟨true, false, false, true⟩
  | .write => ⟨false, true, false, true⟩
  | .rw => ⟨true, true, false, true⟩

def Kernel.slot (s : Kernel) (p i : ℕ) : Option Vma := ((s.proc p).vmas i).map s.vmas

def Kernel.findSlot (s : Kernel) (p va : ℕ) : Option ℕ :=
  (List.range perProcessVmas).find? fun i => (s.slot p i).any fun v => v.Contains va

def Kernel.findVma (s : Kernel) (p va : ℕ) : Option Vma :=
  (s.findSlot p va).bind (s.slot p)

def textPerm : Perm := ⟨true, false, true, true⟩

def dataPerm : Perm := ⟨true, true, false, true⟩

/-- Give the process its own copy of a page that others map too. -/
def cowCopy (p va old : ℕ) : KernelM PUnit := do
  match ← kalloc with
  | none =>
    setkilled p
    throw .fault
  | some new =>
    modify fun s => s.setPage new (s.mem old)
    let pte := ((← get).trans p (va / pgSize)).getD .zero
    modify (·.withPte p (va / pgSize) { pte with valid := false })
    if ← mappages p (pgRoundDown va) new { pte.perm with w := true } then
      modify fun s => { s with faulted := insert new s.faulted }
    else
      kfree new
      setkilled p
    decref old

/-- The only process that maps the page may write to it. -/
def cowGrant (p va : ℕ) : KernelM PUnit :=
  modify fun s =>
    let pte := (s.trans p (va / pgSize)).getD .zero
    s.withPte p (va / pgSize) { pte with perm := { pte.perm with w := true } }

/-- A store to a page that is resident. -/
def cow (p va phy : ℕ) : KernelM PUnit := do
  let ref := (← get).ref phy
  if ref > 1 then cowCopy p va phy
  if ref = 1 then cowGrant p va

inductive Cause
  | fetch
  | load
  | store
  deriving DecidableEq, Repr

def usertrap (p : ℕ) (cause : Cause) (va : ℕ) : KernelM PUnit := do
  let s ← get
  let q := s.proc p
  match cause with
  | .fetch => if q.text.Contains va then allocPhysicalVMA q.text p va textPerm
  | _ =>
    match s.walkaddr p va, cause with
    | some phy, .store => if (s.findVma p va).isSome then cow p va phy else setkilled p
    | _, _ =>
      if q.text.Contains va then allocPhysicalVMA q.text p va textPerm
      else if q.data.Contains va then allocPhysicalVMA q.data p va dataPerm
      else
        match s.findVma p va with
        | some v => allocPhysicalVMA v.toRegion p va v.prot.perm
        | none => setkilled p

/-- `false` stands for `-1`. -/
def checkVmas (p va : ℕ) : KernelM Bool := do
  let s ← get
  let q := s.proc p
  if q.text.Contains va then
    allocPhysicalVMA q.text p va textPerm
    return true
  else if q.data.Contains va then
    allocPhysicalVMA q.data p va dataPerm
    return true
  else
    match s.findVma p va with
    | none => return false
    | some v =>
      match s.walkaddr p va with
      | some phy => cow p va phy
      | none => allocPhysicalVMA v.toRegion p va v.prot.perm
      return true

/-- The page that `copyout`, `copyin` and `copyinstr` access for address `va0`,
faulted in if necessary. Where it still is missing, they access address `0`. -/
def userPage (p va0 : ℕ) : KernelM (Option ℕ) := do
  match (← get).walkaddr p va0 with
  | some pa => return some pa
  | none =>
    if ← checkVmas p va0 then
      match (← get).walkaddr p va0 with
      | some pa => return some pa
      | none => throw .fault
    else return none

/-- The loop of `copyout`: `done` bytes of `src` have been copied, `len` are left. -/
def copyoutLoop (p : ℕ) (src : Bytes) : ℕ → ℕ → ℕ → ℕ → KernelM Bool
  | 0, _, _, _ => return true
  | fuel + 1, dstva, done, len => do
    if len = 0 then return true
    else
      let va0 := pgRoundDown dstva
      match ← userPage p va0 with
      | none => return false
      | some pa0 =>
        let n := min (pgSize - (dstva - va0)) len
        modify fun s =>
          s.setPage pa0 ((s.mem pa0).blit (dstva - va0) (fun i => src (done + i)) n)
        copyoutLoop p src fuel (u64 (va0 + pgSize)) (done + n) (len - n)

/-- `false` stands for `-1`. -/
def copyout (p dstva : ℕ) (src : Bytes) (len : ℕ) : KernelM Bool :=
  copyoutLoop p src (len + 1) dstva 0 len

/-- The loop of `copyin`: `got` bytes are in `dst`, `len` are left. -/
def copyinLoop (p : ℕ) : ℕ → Bytes → ℕ → ℕ → ℕ → KernelM (Bool × Bytes × ℕ)
  | 0, dst, got, _, _ => return (true, dst, got)
  | fuel + 1, dst, got, srcva, len => do
    if len = 0 then return (true, dst, got)
    else
      let va0 := pgRoundDown srcva
      match ← userPage p va0 with
      | none => return (false, dst, got)
      | some pa0 =>
        let n := min (pgSize - (srcva - va0)) len
        let page := (← get).mem pa0
        copyinLoop p fuel (dst.blit got (fun i => page (srcva - va0 + i)) n) (got + n)
          (u64 (va0 + pgSize)) (len - n)

/-- The bytes that `copyin` has copied, also when it returns `-1`. -/
def copyin (p srcva len : ℕ) : KernelM (Bool × Bytes × ℕ) :=
  copyinLoop p (len + 1) (fun _ => 0) 0 srcva len

/-- The inner loop of `copyinstr`: `n` bytes of the page from `off` on, up to a NUL. -/
def copyinstrPage (page : Bytes) : ℕ → ℕ → Bytes → ℕ → Bool × Bytes × ℕ
  | 0, _, dst, got => (false, dst, got)
  | n + 1, off, dst, got =>
    if page off = 0 then (true, Function.update dst got 0, got + 1)
    else copyinstrPage page n (off + 1) (Function.update dst got (page off)) (got + 1)

/-- The loop of `copyinstr`: `got` bytes without a NUL are in `dst`, `max` may follow. -/
def copyinstrLoop (p : ℕ) : ℕ → Bytes → ℕ → ℕ → ℕ → KernelM (Bool × Bytes × ℕ)
  | 0, dst, got, _, _ => return (false, dst, got)
  | fuel + 1, dst, got, srcva, max => do
    if max = 0 then return (false, dst, got)
    else
      let va0 := pgRoundDown srcva
      match ← userPage p va0 with
      | none => return (false, dst, got)
      | some pa0 =>
        let n := min (pgSize - (srcva - va0)) max
        let page := (← get).mem pa0
        match copyinstrPage page n (srcva - va0) dst got with
        | (true, dst, got) => return (true, dst, got)
        | (false, dst, got) => copyinstrLoop p fuel dst got (u64 (va0 + pgSize)) (max - n)

/-- The bytes that `copyinstr` has written over `dst`, also when it returns `-1`. -/
def copyinstr (p : ℕ) (dst : Bytes) (srcva max : ℕ) : KernelM (Bool × Bytes × ℕ) :=
  copyinstrLoop p (max + 1) dst 0 srcva max

end Xv6.Vm
