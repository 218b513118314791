import Xv6.Procs.Table

/-!
# Sleep and wakeup, lock by lock

`sleep`, `wakeup` and the switches of the scheduler with every lock that they take, on any number
of CPUs. A lock is held by a CPU: a process that goes to sleep takes its own `p->lock`, gives back
the lock of its condition, and leaves it to the scheduler to give back `p->lock`. A process waits
for a channel in the usual loop, with the lock of the channel's condition in hand. A CPU that
makes a condition true holds that lock and calls `wakeup` before it gives it back. Anybody may
make a condition false.
-/
namespace Xv6.Procs.Sleep

open Library Function

/-- Where the kernel thread of a process is: outside, before it takes the lock of the condition,
before it tests the condition, in `sleep` before it takes `p->lock`, before it gives back the lock of
the condition, before it marks itself as sleeping, before the switch, after a switch back into
`sleep`, and after one into `yield`. -/
inductive Pc
  | idle
  | acquireLk (ch : ℕ)
  | test (ch : ℕ)
  | acquireProc (ch : ℕ)
  | releaseLk (ch : ℕ)
  | fallAsleep (ch : ℕ)
  | switch (ch : ℕ)
  | resumed (ch : ℕ)
  | yielded (ch : Option ℕ)
  deriving DecidableEq, Repr

/-- Where a CPU is that makes a condition true: before it takes the lock of the condition, with the
lock, and in `wakeup` at entry `i` of the process table. -/
inductive WakerPc
  | acquire
  | holding (made woken : Bool)
  | waking (made : Bool) (i : ℕ)
  deriving DecidableEq, Repr

/-- What a CPU does: look for a process, run one, come back from one, or wake up those who wait for
a channel, in process `self` or in an interrupt of the scheduler. -/
inductive Cpu
  | scheduler
  | running (p : ℕ)
  | back (p : ℕ)
  | waker (self : Option ℕ) (ch : ℕ) (pc : WakerPc)
  deriving DecidableEq, Repr

/-- Locks are held by CPUs. -/
structure State where
  state : ℕ → ProcState
  chan : ℕ → Option ℕ
  pc : ℕ → Pc
  procLock : ℕ → Option ℕ
  lk : ℕ → Option ℕ
  cond : ℕ → Bool
  cpu : ℕ → Cpu

namespace State

def setState (s : State) (p : ℕ) (x : ProcState) : State :=
  { s with state := update s.state p x }

def setChan (s : State) (p : ℕ) (x : Option ℕ) : State :=
  { s with chan := update s.chan p x }

def setPc (s : State) (p : ℕ) (x : Pc) : State := { s with pc := update s.pc p x }

def setProcLock (s : State) (p : ℕ) (x : Option ℕ) : State :=
  { s with procLock := update s.procLock p x }

def setLk (s : State) (l : ℕ) (x : Option ℕ) : State := { s with lk := update s.lk l x }

def setCond (s : State) (ch : ℕ) (x : Bool) : State :=
  { s with cond := update s.cond ch x }

def setCpu (s : State) (c : ℕ) (x : Cpu) : State := { s with cpu := update s.cpu c x }

section

variable (s : State) (i : ℕ) (a : ProcState) (b : Option ℕ) (d : Pc) (e : Bool) (f : Cpu)

@[simp] theorem setState_eq : s.setState i a = { s with state := update s.state i a } := rfl
@[simp] theorem setChan_eq : s.setChan i b = { s with chan := update s.chan i b } := rfl
@[simp] theorem setPc_eq : s.setPc i d = { s with pc := update s.pc i d } := rfl
@[simp] theorem setProcLock_eq :
    s.setProcLock i b = { s with procLock := update s.procLock i b } := rfl
@[simp] theorem setLk_eq : s.setLk i b = { s with lk := update s.lk i b } := rfl
@[simp] theorem setCond_eq : s.setCond i e = { s with cond := update s.cond i e } := rfl
@[simp] theorem setCpu_eq : s.setCpu i f = { s with cpu := update s.cpu i f } := rfl

end

end State

/-- The process can be interrupted: it holds no lock. -/
def Pc.Calm : Pc → Prop
  | .idle | .acquireLk _ => True
  | _ => False

instance (pc : Pc) : Decidable pc.Calm := by
  unfold Pc.Calm
  split <;> infer_instance

def Pc.afterYield : Option ℕ → Pc
  | none => .idle
  | some ch => .acquireLk ch

/-- What a process that can be interrupted keeps while it yields. -/
def Pc.yielding : Pc → Pc
  | .acquireLk ch => .yielded (some ch)
  | _ => .yielded none

def Cpu.home : Option ℕ → Cpu
  | none => .scheduler
  | some p => .running p

inductive Event
  | dispatch (c p : ℕ)
  | resume (c : ℕ)
  | wait (c ch : ℕ)
  | run (c : ℕ)
  | yield (c : ℕ)
  | interrupt (c ch : ℕ)
  | make (c : ℕ)
  | wake (c : ℕ)
  | leave (c : ℕ)
  | falsify (ch : ℕ)
  | kill (p : ℕ)
  deriving DecidableEq, Repr

variable (lockOf : ℕ → ℕ)

/-- A step of process `p`, which runs on CPU `c`. The lock of the condition for which processes
sleep on channel `ch` is `lockOf ch`. -/
def runProc (s : State) (c p : ℕ) : Pc → Except Unit State
  | .idle => .error ()
  | .acquireLk ch =>
    if s.lk (lockOf ch) = none then .ok ((s.setLk (lockOf ch) (some c)).setPc p (.test ch))
    else .error ()
  | .test ch =>
    if s.cond ch = true then .ok ((s.setLk (lockOf ch) none).setPc p .idle)
    else .ok (s.setPc p (.acquireProc ch))
  | .acquireProc ch =>
    if s.procLock p = none then .ok ((s.setProcLock p (some c)).setPc p (.releaseLk ch))
    else .error ()
  | .releaseLk ch => .ok ((s.setLk (lockOf ch) none).setPc p (.fallAsleep ch))
  | .fallAsleep ch =>
    .ok (((s.setChan p (some ch)).setState p .sleeping).setPc p (.switch ch))
  | .switch ch => .ok ((s.setPc p (.resumed ch)).setCpu c (.back p))
  | .resumed ch => .ok (((s.setChan p none).setProcLock p none).setPc p (.acquireLk ch))
  | .yielded ch => .ok ((s.setProcLock p none).setPc p (Pc.afterYield ch))

/-- One iteration of `wakeup` on channel `ch`. -/
def wakeupAt (s : State) (ch j : ℕ) : State :=
  if s.state j = .sleeping ∧ s.chan j = some ch then s.setState j .runnable else s

/-- A step of a waker on CPU `c` towards the end of its `wakeup`. -/
def runWaker (s : State) (c : ℕ) (self : Option ℕ) (ch : ℕ) : WakerPc → Except Unit State
  | .acquire =>
    if s.lk (lockOf ch) = none then
      .ok ((s.setLk (lockOf ch) (some c)).setCpu c (.waker self ch (.holding false false)))
    else .error ()
  | .holding made _ => .ok (s.setCpu c (.waker self ch (.waking made 0)))
  | .waking made i =>
    if i < nProc then
      if self = some i then .ok (s.setCpu c (.waker self ch (.waking made (i + 1))))
      else if s.procLock i = none then
        .ok ((wakeupAt s ch i).setCpu c (.waker self ch (.waking made (i + 1))))
      else .error ()
    else .ok (s.setCpu c (.waker self ch (.holding made true)))

def step (s : State) : Event → Except Unit State
  | .dispatch c p =>
    if s.cpu c = .scheduler ∧ p < nProc ∧ s.procLock p = none ∧ s.state p = .runnable then
      .ok (((s.setProcLock p (some c)).setState p .running).setCpu c (.running p))
    else .error ()
  | .resume c =>
    match s.cpu c with
    | .back p => .ok ((s.setProcLock p none).setCpu c .scheduler)
    | _ => .error ()
  | .wait c ch =>
    match s.cpu c with
    | .running p => if s.pc p = .idle then .ok (s.setPc p (.acquireLk ch)) else .error ()
    | _ => .error ()
  | .run c =>
    match s.cpu c with
    | .running p => runProc lockOf s c p (s.pc p)
    | _ => .error ()
  | .yield c =>
    match s.cpu c with
    | .running p =>
      if (s.pc p).Calm ∧ s.procLock p = none then
        .ok ((((s.setProcLock p (some c)).setState p .runnable).setPc p (s.pc p).yielding).setCpu c
          (.back p))
      else .error ()
    | _ => .error ()
  | .interrupt c ch =>
    match s.cpu c with
    | .scheduler => .ok (s.setCpu c (.waker none ch .acquire))
    | .running p =>
      if (s.pc p).Calm then .ok (s.setCpu c (.waker (some p) ch .acquire)) else .error ()
    | _ => .error ()
  | .make c =>
    match s.cpu c with
    | .waker self ch (.holding _ woken) =>
      .ok ((s.setCond ch true).setCpu c (.waker self ch (.holding true woken)))
    | _ => .error ()
  | .wake c =>
    match s.cpu c with
    | .waker self ch pc => runWaker lockOf s c self ch pc
    | _ => .error ()
  | .leave c =>
    match s.cpu c with
    | .waker self ch (.holding made woken) =>
      if made = true → woken = true then
        .ok ((s.setLk (lockOf ch) none).setCpu c (Cpu.home self))
      else .error ()
    | _ => .error ()
  | .falsify ch => .ok (s.setCond ch false)
  | .kill p =>
    if s.procLock p = none then
      if s.state p = .sleeping then .ok (s.setState p .runnable) else .ok s
    else .error ()

/-- The channels for which a waker has completed its `wakeup` and the condition has stayed true
since. -/
def note (s : State) (e : Event) (_ : State) (since : ℕ → Bool) : ℕ → Bool :=
  match e with
  | .falsify ch => update since ch false
  | .wake c =>
    match s.cpu c with
    | .waker _ ch (.waking _ i) => if i < nProc then since else update since ch (s.cond ch)
    | _ => since
  | _ => since

/-- Every process is runnable, and every CPU looks for one. -/
def start (cond : ℕ → Bool) : Traced State (ℕ → Bool) where
  state :=
    { state := fun _ => .runnable
      chan := fun _ => none
      pc := fun _ => .yielded none
      procLock := fun _ => none
      lk := fun _ => none
      cond := cond
      cpu := fun _ => .scheduler }
  trace := fun _ => false

end Xv6.Procs.Sleep
