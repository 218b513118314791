import Xv6.Vm.Exec
import Xv6.Vm.Descriptors

/-!
# The system calls of processes

The machine of `Process` with the calls that create, replace and reap processes and
those that work on file descriptors. A process knows its parent, so that `wait` finds
the children that have exited.
-/
namespace Xv6.Vm

open Library

/-- The kernel with the parents of processes. -/
structure System where
  kernel : Kernel
  parent : ℕ → Option ℕ

/-- What processes do. `wait` copies the four bytes `status` of the child it reaps. -/
inductive Call
  | event (e : Event)
  | wait (p addr : ℕ) (status : Bytes)
  | sbrk (p : ℕ) (n : ℤ)
  | exec (p : ℕ) (ip : Option ℕ) (argv : List (List UInt8))
  | openFile (p : ℕ) (found : Option (ℕ × InodeType)) (omode : ℕ)
  | pipe (p fdarray : ℕ) (page : Bool)
  | dup (p : ℕ) (fd : ℤ)
  | close (p : ℕ) (fd : ℤ)

def Call.proc : Call → ℕ
  | .event e => e.proc
  | .wait p _ _ | .sbrk p _ | .exec p _ _ | .openFile p _ _ | .pipe p _ _ | .dup p _
  | .close p _ => p

def Kernel.MayCall (s : Kernel) : Call → Prop
  | .event e => s.Enabled e
  | c => c.proc < nProc ∧ (s.proc c.proc).state = .runnable ∧ (s.proc c.proc).killed = false

instance (s : Kernel) (c : Call) : Decidable (s.MayCall c) := by
  unfold Kernel.MayCall
  cases c <;> infer_instance

def System.zombie (σ : System) (p : ℕ) : Option ℕ :=
  (List.range nProc).find? fun pp => σ.parent pp = some p ∧ (σ.kernel.proc pp).state = .zombie

def System.hasKids (σ : System) (p : ℕ) : Bool :=
  (List.range nProc).any fun pp => σ.parent pp = some p

/-- Reap child `pp`, unless its status cannot be copied. -/
def reap (p pp addr : ℕ) (status : Bytes) : KernelM PUnit := do
  if addr ≠ 0 then
    if ← copyout p addr status 4 then freeproc pp
  else freeproc pp

/-- A process with children none of which has exited sleeps in `wait`. -/
def wait (σ : System) (p addr : ℕ) (status : Bytes) : KernelM PUnit :=
  match σ.zombie p with
  | some pp => reap p pp addr status
  | none => if σ.hasKids p then throw .disabled else return

def call (bound : ℕ) (σ : System) : Call → KernelM PUnit
  | .event e => perform bound e
  | .wait p addr status => wait σ p addr status
  | .sbrk p n => do
      let _ ← growproc p (i32 n)
  | .exec p ip argv => do
      let _ ← exec p ip argv
  | .openFile p found omode => sysOpen p found omode
  | .pipe p fdarray page => sysPipe p fdarray page
  | .dup p fd => sysDup p (i32 fd)
  | .close p fd => sysClose p (i32 fd)

/-- The parents after a call that led to the kernel state `t`: the child of `fork` gets its
parent, `exit` gives the children to `initproc`, and a reaped child has none. -/
def System.parents (σ : System) (t : Kernel) : Call → ℕ → Option ℕ
  | .event (.fork p) => fun q =>
      if (σ.kernel.proc q).state = .unused ∧ (t.proc q).state ≠ .unused then some p
      else σ.parent q
  | .event (.exit p) => fun q => if σ.parent q = some p then some 0 else σ.parent q
  | .wait _ _ _ => fun q => if (t.proc q).state = .unused then none else σ.parent q
  | _ => σ.parent

def System.step (bound : ℕ) (σ : System) (c : Call) : Except Stop System :=
  if σ.kernel.MayCall c then
    match call bound σ c σ.kernel with
    | .ok _ t => .ok ⟨t, σ.parents t c⟩
    | .error err _ => .error err
  else .error .disabled

def SysStep (σ : System) (c : Call) (τ : System) : Prop := ∃ bound, σ.step bound c = .ok τ

end Xv6.Vm
