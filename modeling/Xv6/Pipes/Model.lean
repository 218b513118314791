import Xv6.Library.RingBuffer
import Xv6.Library.Reach

/-!
# Pipes

`pipewrite` and `piperead` of `pipe.c` as threads that take one step at a time, in any order.
A thread takes and gives back the lock of the pipe, and gives it back while it sleeps. User
memory is given with the step: the byte that `copyin` finds, or whether `copyout` succeeds.
-/
namespace Xv6.Pipes

open Library

def pipeSize : ℕ := 512

/-- The counters of a pipe are of type `uint`. -/
def uintMod : ℕ := 2 ^ 32

/-- `struct pipe` without its lock. -/
structure Pipe extends RingBuffer UInt8 where
  readopen : Bool
  writeopen : Bool

def pipealloc (page : ℕ → UInt8) : Pipe where
  data := page
  nread := 0
  nwrite := 0
  readopen := true
  writeopen := true

/-- Where a call of `pipewrite` is: at the lock, at the head of its loop, before `copyin`, with
a byte to store, asleep, or after the loop. -/
inductive WritePc
  | acquire
  | loop
  | copyin
  | store (ch : UInt8)
  | sleep
  | finish
  deriving DecidableEq, Repr

/-- Where a call of `piperead` is: at the lock, at the head of the loop that waits, asleep, at
the head of the loop that copies, before it takes a byte, with a byte to copy out, or after
the loop. -/
inductive ReadPc
  | acquire
  | wait
  | sleep
  | loop
  | take
  | copyout (ch : UInt8)
  | finish
  deriving DecidableEq, Repr

inductive Thread
  | idle
  | pipewrite (i n : ℤ) (pc : WritePc)
  | piperead (i n : ℤ) (pc : ReadPc)
  | returned (r : ℤ)
  deriving DecidableEq, Repr

structure State where
  pipe : Pipe
  lock : Option ℕ
  thread : ℕ → Thread
  killed : ℕ → Bool

namespace State

def setThread (s : State) (p : ℕ) (t : Thread) : State :=
  { s with thread := Function.update s.thread p t }

def wakeupWriters (s : State) : State :=
  { s with thread := fun p =>
      match s.thread p with
      | .pipewrite i n .sleep => .pipewrite i n .acquire
      | t => t }

def wakeupReaders (s : State) : State :=
  { s with thread := fun p =>
      match s.thread p with
      | .piperead i n .sleep => .piperead i n .acquire
      | t => t }

def release (s : State) : State := { s with lock := none }

end State

def Pipe.Full (pi : Pipe) : Prop := pi.nwrite = (pi.nread + pipeSize) % uintMod

instance (pi : Pipe) : Decidable pi.Full := by
  unfold Pipe.Full
  infer_instance

/-- `pi->data[pi->nwrite++ % PIPESIZE] = ch`. -/
def Pipe.store (pi : Pipe) (ch : UInt8) : Pipe :=
  { pi with toRingBuffer := pi.toRingBuffer.put pipeSize uintMod ch }

/-- `pi->data[pi->nread++ % PIPESIZE]`: the byte, and the counter that moves on. -/
def Pipe.next (pi : Pipe) : UInt8 := pi.toRingBuffer.front pipeSize

def Pipe.advance (pi : Pipe) : Pipe := { pi with toRingBuffer := pi.toRingBuffer.drop uintMod }

/-- One step of `pipewrite`; `none` while the thread waits. -/
def pipewrite (s : State) (p : ℕ) (i n : ℤ) (input : Option UInt8) : WritePc → Option State
  | .acquire =>
    if s.lock = none then some { s.setThread p (.pipewrite i n .loop) with lock := some p }
    else none
  | .loop =>
    if i < n then
      if s.pipe.readopen = false ∨ s.killed p = true then
        some (s.setThread p (.returned (-1))).release
      else if s.pipe.Full then some (s.wakeupReaders.setThread p (.pipewrite i n .sleep)).release
      else some (s.setThread p (.pipewrite i n .copyin))
    else some (s.setThread p (.pipewrite i n .finish))
  | .copyin =>
    match input with
    | none => some (s.setThread p (.pipewrite i n .finish))
    | some ch => some (s.setThread p (.pipewrite i n (.store ch)))
  | .store ch => some { s.setThread p (.pipewrite (i + 1) n .loop) with pipe := s.pipe.store ch }
  | .sleep => none
  | .finish => some (s.wakeupReaders.setThread p (.returned i)).release

def piperead (s : State) (p : ℕ) (i n : ℤ) (input : Option UInt8) : ReadPc → Option State
  | .acquire =>
    if s.lock = none then some { s.setThread p (.piperead i n .wait) with lock := some p }
    else none
  | .wait =>
    if s.pipe.nread = s.pipe.nwrite ∧ s.pipe.writeopen = true then
      if s.killed p = true then some (s.setThread p (.returned (-1))).release
      else some (s.setThread p (.piperead i n .sleep)).release
    else some (s.setThread p (.piperead i n .loop))
  | .sleep => none
  | .loop =>
    if i < n ∧ s.pipe.nread ≠ s.pipe.nwrite then some (s.setThread p (.piperead i n .take))
    else some (s.setThread p (.piperead i n .finish))
  | .take =>
    some { s.setThread p (.piperead i n (.copyout s.pipe.next)) with pipe := s.pipe.advance }
  | .copyout _ =>
    match input with
    | none => some (s.setThread p (.piperead i n .finish))
    | some _ => some (s.setThread p (.piperead (i + 1) n .loop))
  | .finish => some (s.wakeupWriters.setThread p (.returned i)).release

/-- A call begins, a thread takes a step, a process is killed, or one end of the pipe is closed.
A step may be given what `copyin` finds, or that `copyout` succeeds. -/
inductive Event
  | write (p : ℕ) (n : ℤ)
  | read (p : ℕ) (n : ℤ)
  | run (p : ℕ) (input : Option UInt8)
  | kill (p : ℕ)
  | close (writable : Bool)
  deriving DecidableEq, Repr

def Thread.Ready : Thread → Prop
  | .idle | .returned _ => True
  | _ => False

instance (t : Thread) : Decidable t.Ready := by
  unfold Thread.Ready
  cases t <;> infer_instance

def Thread.kill : Thread → Thread
  | .pipewrite i n .sleep => .pipewrite i n .acquire
  | .piperead i n .sleep => .piperead i n .acquire
  | t => t

/-- `pipeclose`, of the last descriptor of an end. When both are closed no call can begin, and
the page of the pipe is freed. -/
def pipeclose (s : State) (writable : Bool) : State :=
  if writable then { s.wakeupReaders with pipe := { s.pipe with writeopen := false } }
  else { s.wakeupWriters with pipe := { s.pipe with readopen := false } }

/-- Calls are made through open descriptors. -/
def step (s : State) : Event → Option State
  | .write p n =>
    if s.pipe.writeopen = true ∧ (s.thread p).Ready then
      some (s.setThread p (.pipewrite 0 n .acquire))
    else none
  | .read p n =>
    if s.pipe.readopen = true ∧ (s.thread p).Ready then
      some (s.setThread p (.piperead 0 n .acquire))
    else none
  | .run p input =>
    match s.thread p with
    | .pipewrite i n pc => pipewrite s p i n input pc
    | .piperead i n pc => piperead s p i n input pc
    | _ => none
  | .kill p =>
    some { s.setThread p (s.thread p).kill with killed := Function.update s.killed p true }
  | .close writable => if s.lock = none then some (pipeclose s writable) else none

def putBy (s : State) : Event → List UInt8
  | .run p _ =>
    match s.thread p with
    | .pipewrite _ _ (.store ch) => [ch]
    | _ => []
  | _ => []

def takenBy (s : State) : Event → List UInt8
  | .run p _ =>
    match s.thread p with
    | .piperead _ _ .take => [s.pipe.next]
    | _ => []
  | _ => []

/-- A state with the bytes put in and taken out so far, which no function looks at. -/
structure History where
  state : State
  put : List UInt8
  taken : List UInt8

/-- An event happens, if it can, and is recorded. -/
def History.step (h : History) (e : Event) : Except Unit History :=
  match Pipes.step h.state e with
  | none => .error ()
  | some t => .ok ⟨t, h.put ++ putBy h.state e, h.taken ++ takenBy h.state e⟩

def start (page : ℕ → UInt8) (killed : ℕ → Bool) : History where
  state := ⟨pipealloc page, none, fun _ => .idle, killed⟩
  put := []
  taken := []

end Xv6.Pipes
