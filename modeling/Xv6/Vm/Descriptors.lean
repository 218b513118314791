import Xv6.Vm.Process

/-!
# File descriptors

`open`, `pipe`, `dup` and `close` of `sysfile.c`, with the table of open files of
`file.c`. What a path names is given with the call, and so is whether the page of a pipe
can be allocated: directories and the contents of pipes are not part of this state.
-/
namespace Xv6

def nFile : ℕ := 100

namespace Vm

open Library

/-- `T_DIR`, `T_FILE` and `T_DEVICE`. -/
inductive InodeType
  | dir
  | file
  | device
  deriving DecidableEq, Repr

/-- The values of `fcntl.h`: `O_RDONLY`, `O_WRONLY`, `O_RDWR` and `O_TRUNC`. -/
def oRdonly : ℕ := 0x000

def oWronly : ℕ := 0x001

def oRdwr : ℕ := 0x002

def oTrunc : ℕ := 0x400

/-- `omode & flag`, for a flag of one bit. -/
def hasFlag (omode flag : ℕ) : Bool := omode / flag % 2 = 1

def Kernel.freeFile (s : Kernel) : Option ℕ :=
  (List.range nFile).find? fun f => (s.file f).ref = 0

/-- `none` stands for the null pointer. -/
def filealloc : KernelM (Option ℕ) := do
  let s ← get
  match s.freeFile with
  | none => return none
  | some f =>
    set (s.setFile f { s.file f with ref := 1 })
    return some f

def setOfile (p fd : ℕ) (o : Option ℕ) : KernelM PUnit :=
  modify (·.setProc p fun q => { q with ofile := Function.update q.ofile fd o })

def Kernel.freeFd (s : Kernel) (p : ℕ) : Option ℕ :=
  (List.range nOFile).find? fun fd => (s.proc p).ofile fd = none

/-- `none` stands for `-1`. -/
def fdalloc (p f : ℕ) : KernelM (Option ℕ) := do
  match (← get).freeFd p with
  | none => return none
  | some fd =>
    setOfile p fd (some f)
    return some fd

def sysDup (p : ℕ) (fd : ℤ) : KernelM PUnit := do
  match (← get).argfd p fd with
  | none => return
  | some f =>
    match ← fdalloc p f with
    | none => return
    | some _ => filedup f

def sysClose (p : ℕ) (fd : ℤ) : KernelM PUnit := do
  match (← get).argfd p fd with
  | none => return
  | some f =>
    setOfile p fd.toNat none
    fileclose f

def Inode.blockCount (i : Inode) : ℕ :=
  ((List.range maxFile).filter fun bn => i.blocks bn).length + if i.indirect then 1 else 0

def itrunc (ip : ℕ) : KernelM PUnit :=
  modify fun s =>
    let i := s.inode ip
    { s.setInode ip { i with size := 0, blocks := fun _ => false, indirect := false } with
      freeBlocks := s.freeBlocks + i.blockCount }

/-- The part of `sys_open` after the path has been resolved to an inode of the given type
that may be opened. -/
def openInode (p ip : ℕ) (type : InodeType) (omode : ℕ) : KernelM PUnit := do
  match ← filealloc with
  | none => return
  | some f =>
    match ← fdalloc p f with
    | none => fileclose f
    | some _ =>
      modify fun s =>
        let file := s.file f
        s.setFile f { file with
          type := if type = .device then .device else .inode
          off := if type = .device then file.off else 0
          ip := some ip
          readable := !hasFlag omode oWronly
          writable := hasFlag omode oWronly || hasFlag omode oRdwr }
      if hasFlag omode oTrunc ∧ type = .file then itrunc ip

/-- `found` is the inode that the path names or that is created, `none` if there is none
or it may not be opened so. -/
def sysOpen (p : ℕ) (found : Option (ℕ × InodeType)) (omode : ℕ) : KernelM PUnit := do
  match found with
  | none => return
  | some (ip, type) => openInode p ip type omode

/-- The two files of a pipe; `page` tells whether its buffer can be allocated. -/
def pipealloc (page : Bool) : KernelM (Option (ℕ × ℕ)) := do
  match ← filealloc with
  | none => return none
  | some rf =>
    match ← filealloc with
    | none =>
      fileclose rf
      return none
    | some wf =>
      if page then
        modify fun s => s.setFile rf { s.file rf with
          type := .pipe, readable := true, writable := false }
        modify fun s => s.setFile wf { s.file wf with
          type := .pipe, readable := false, writable := true }
        return some (rf, wf)
      else
        fileclose rf
        fileclose wf
        return none

/-- A descriptor as the four bytes of an `int`. -/
def fdBytes (fd : ℕ) : Bytes := Bytes.setLE (fun _ => 0) 0 4 fd

def copyoutFds (p fdarray fd0 fd1 : ℕ) : KernelM Bool := do
  if ← copyout p fdarray (fdBytes fd0) 4 then copyout p (u64 (fdarray + 4)) (fdBytes fd1) 4
  else return false

def sysPipe (p fdarray : ℕ) (page : Bool) : KernelM PUnit := do
  match ← pipealloc page with
  | none => return
  | some (rf, wf) =>
    match ← fdalloc p rf with
    | none =>
      fileclose rf
      fileclose wf
    | some fd0 =>
      match ← fdalloc p wf with
      | none =>
        setOfile p fd0 none
        fileclose rf
        fileclose wf
      | some fd1 =>
        if ← copyoutFds p fdarray fd0 fd1 then return
        else
          setOfile p fd0 none
          setOfile p fd1 none
          fileclose rf
          fileclose wf

end Vm

end Xv6
