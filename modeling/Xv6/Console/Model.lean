import Xv6.Library.RingBuffer
import Xv6.Library.Reach

/-!
# The console

`consoleintr` and `consoleread` of `console.c`. The buffer with its indices `cons.r` and `cons.e`
is a ring buffer; what is before `cons.w` is committed and can be read, what is after it can still
be edited. A reader gives `cons.lock` back while it sleeps. Whether `either_copyout` succeeds is
given with the step. The echo is left out.
-/
namespace Xv6.Console

open Library

def inputBufSize : ℕ := 128

/-- The indices are of type `uint`. -/
def uintMod : ℕ := 2 ^ 32

/-- `C(x)`. -/
def ctrl (x : Char) : UInt8 := (x.toNat - '@'.toNat).toUInt8

def newline : UInt8 := 10

def carriageReturn : UInt8 := 13

def delete : UInt8 := 0x7f

/-- `cons` without its lock; `r` is `nread`, and `e` is `nwrite`. -/
structure Cons extends RingBuffer UInt8 where
  w : ℕ

namespace Cons

def setRing (s : Cons) (r : RingBuffer UInt8) : Cons := { s with toRingBuffer := r }

@[simp] theorem setRing_w (s : Cons) (r : RingBuffer UInt8) : (s.setRing r).w = s.w := rfl

def erase (s : Cons) : Cons := s.setRing (s.unput uintMod)

@[simp] theorem erase_nread (s : Cons) : s.erase.nread = s.nread := RingBuffer.unput_nread

@[simp] theorem erase_w (s : Cons) : s.erase.w = s.w := setRing_w s _

/-- `cons.buf[(cons.e-1) % INPUT_BUF_SIZE]`. -/
def last (s : Cons) : UInt8 := s.back inputBufSize uintMod

/-- The loop of `C('U')`; it goes round at most once for each byte of the buffer. -/
def killLine : ℕ → Cons → Cons
  | 0, s => s
  | fuel + 1, s =>
    if s.nwrite ≠ s.w ∧ s.last ≠ newline then killLine fuel s.erase else s

/-- `cons.buf[cons.e++ % INPUT_BUF_SIZE] = c`. -/
def store (s : Cons) (c : UInt8) : Cons :=
  s.setRing (s.put inputBufSize uintMod c)

def commit (s : Cons) : Cons := { s with w := s.nwrite }

/-- `cons.buf[cons.r++ % INPUT_BUF_SIZE]`: the byte, and the index that moves on. -/
def next (s : Cons) : UInt8 := s.front inputBufSize

def advance (s : Cons) : Cons := s.setRing (s.drop uintMod)

def retreat (s : Cons) : Cons := s.setRing (s.undrop uintMod)

/-- `consoleintr` between `acquire` and `release`, and whether it calls `wakeup`. -/
def consoleintr (s : Cons) (c : UInt8) : Cons × Bool :=
  if c = ctrl 'P' then (s, false)
  else if c = ctrl 'U' then (s.killLine inputBufSize, false)
  else if c = ctrl 'H' ∨ c = delete then
    if s.nwrite ≠ s.w then (s.erase, false) else (s, false)
  else if c ≠ 0 ∧ s.count uintMod < inputBufSize then
    let c := if c = carriageReturn then newline else c
    let s := s.store c
    if c = newline ∨ c = ctrl 'D' ∨ s.count uintMod = inputBufSize then (s.commit, true)
    else (s, false)
  else (s, false)

end Cons

/-- Where a call of `consoleread` is: at the lock, at the head of its loop with the lock held,
asleep on `&cons.r`, or done. -/
inductive Thread
  | idle
  | acquire (target n : ℤ)
  | loop (target n : ℤ)
  | sleep (target n : ℤ)
  | returned (r : ℤ)
  deriving DecidableEq, Repr

structure State where
  cons : Cons
  lock : Option ℕ
  thread : ℕ → Thread
  killed : ℕ → Bool

namespace State

def setThread (s : State) (p : ℕ) (t : Thread) : State :=
  { s with thread := Function.update s.thread p t }

def release (s : State) : State := { s with lock := none }

end State

/-- What a sleeping reader does when it is woken. -/
def Thread.wakeup : Thread → Thread
  | .sleep target n => .acquire target n
  | t => t

def Thread.Ready : Thread → Prop
  | .idle | .returned _ => True
  | _ => False

instance (t : Thread) : Decidable t.Ready := by
  unfold Thread.Ready
  cases t <;> infer_instance

/-- What `consoleread` does with the byte it has taken, from the test for end-of-file to the
end of the round. -/
def deliver (s : State) (p : ℕ) (target n : ℤ) (copied : Bool) (c : UInt8) : State :=
  if c = ctrl 'D' then
    let cons := if n < target then s.cons.retreat else s.cons
    ({ s with cons := cons }.setThread p (.returned (target - n))).release
  else if copied = false then (s.setThread p (.returned (target - n))).release
  else if c = newline then (s.setThread p (.returned (target - (n - 1)))).release
  else s.setThread p (.loop target (n - 1))

/-- One round of the loop of `consoleread`. -/
def round (s : State) (p : ℕ) (target n : ℤ) (copied : Bool) : State :=
  if 0 < n then
    if s.cons.nread = s.cons.w then
      if s.killed p = true then (s.setThread p (.returned (-1))).release
      else (s.setThread p (.sleep target n)).release
    else deliver { s with cons := s.cons.advance } p target n copied s.cons.next
  else (s.setThread p (.returned (target - n))).release

/-- A character comes in, a call begins, a reader takes a step, or a process is killed. -/
inductive Event
  | input (c : UInt8)
  | read (p : ℕ) (n : ℤ)
  | run (p : ℕ) (copied : Bool)
  | kill (p : ℕ)
  deriving DecidableEq, Repr

def step (s : State) : Event → Except Unit State
  | .input c =>
    if s.lock = none then
      let (cons, woken) := s.cons.consoleintr c
      .ok { s with
        cons := cons, thread := fun p => if woken then (s.thread p).wakeup else s.thread p }
    else .error ()
  | .read p n =>
    if (s.thread p).Ready then .ok (s.setThread p (.acquire n n)) else .error ()
  | .run p copied =>
    match s.thread p with
    | .acquire target n =>
      if s.lock = none then .ok { s.setThread p (.loop target n) with lock := some p }
      else .error ()
    | .loop target n => .ok (round s p target n copied)
    | _ => .error ()
  | .kill p =>
    .ok { s.setThread p (s.thread p).wakeup with killed := Function.update s.killed p true }

/-- The buffers of the readers are valid: every copy succeeds. -/
def Event.Valid : Event → Prop
  | .run _ copied => copied = true
  | _ => True

instance (e : Event) : Decidable e.Valid := by
  unfold Event.Valid
  cases e <;> infer_instance

end Xv6.Console
