import Xv6.Param
import Xv6.Library.Reach
import Xv6.Vm.Kernel

/-!
# The process table

`fork`, `exit`, `wait` and `kill` of `proc.c` as threads that take one step at a time, in any
order and on any number of CPUs. A step is what a thread does between taking `p->lock` of one
process and giving it back. `wait_lock` is held across such steps and is part of the state. The
memory that `fork` needs and the copy of the status that `wait` makes are given with the step. The
other system calls are single steps, and so is a `sleep` or a `wakeup` in some other part of the
kernel.
-/
namespace Xv6.Procs

open Function

open Vm (i32)

inductive ProcState
  | unused
  | used
  | sleeping
  | runnable
  | running
  | zombie
  deriving DecidableEq, Repr

/-- `struct proc`, without what belongs to memory and files. A channel is an address; that of
entry `i` of the process table is `i`. -/
structure Proc where
  state : ProcState
  chan : Option ℕ
  killed : Bool
  xstate : ℤ
  pid : ℤ
  parent : Option ℕ
  tickets : ℤ
  ticks : ℤ
  deriving DecidableEq, Repr

def Proc.zero : Proc := ⟨.unused, none, false, 0, 0, none, 0, 0⟩

/-- `allocproc`, after it has found an entry. -/
def allocproc (pid : ℤ) (p : Proc) : Proc := { p with pid := pid, state := .used }

/-- `freeproc`. The counts of the scheduler stay in the entry. -/
def freeproc (p : Proc) : Proc :=
  { p with pid := 0, parent := none, chan := none, killed := false, xstate := 0, state := .unused }

def Proc.wakeup (chan : Option ℕ) (p : Proc) : Proc :=
  if p.state = .sleeping ∧ p.chan = chan then { p with state := .runnable } else p

def Proc.kill (p : Proc) : Proc :=
  if p.state = .sleeping then { p with killed := true, state := .runnable }
  else { p with killed := true }

/-- Where a process is inside a system call.

`alloc i` to `start np` are `fork`: at entry `i` in the loop of `allocproc`, before the new process
gets its parent, and before it becomes runnable. `exit` to `dead` are `exit`: before `wait_lock` is
taken, in the loop of `reparent`, in a loop of `wakeup`, before the process becomes a zombie, and
after. `wait` to `waitWoken` are `wait`: before `wait_lock` is taken, in the loop over the process
table, before `sleep`, and after it. `slept` is after any other `sleep`. -/
inductive Pc
  | user
  | alloc (i : ℕ)
  | link (np : ℕ)
  | start (np : ℕ)
  | exit (status : ℤ)
  | reparent (status : ℤ) (i : ℕ)
  | wakeInit (status : ℤ) (i j : ℕ)
  | wakeParent (status : ℤ) (chan : Option ℕ) (j : ℕ)
  | zombie (status : ℤ)
  | dead
  | wait
  | scan (i : ℕ) (havekids : Bool)
  | waitSleep
  | waitWoken
  | slept
  | kill (pid : ℤ) (i : ℕ)
  deriving DecidableEq, Repr

/-- The process table with its threads, and the holder of `wait_lock`. -/
structure System where
  proc : ℕ → Proc
  pc : ℕ → Pc
  waitLock : Option ℕ
  nextpid : ℤ
  initproc : ℕ

/-- Why a step does not happen: the thread is not at that point, or has to wait, or the kernel
panics. -/
inductive Stop
  | blocked
  | initExiting
  deriving DecidableEq, Repr

namespace System

def setProc (s : System) (i : ℕ) (p : Proc) : System :=
  { s with proc := update s.proc i p }

def setPc (s : System) (i : ℕ) (pc : Pc) : System := { s with pc := update s.pc i pc }

def setWaitLock (s : System) (holder : Option ℕ) : System := { s with waitLock := holder }

/-- `sleep(chan, lk)`, up to the switch to another process. -/
def sleep (s : System) (p chan : ℕ) : System :=
  s.setProc p { s.proc p with chan := some chan, state := .sleeping }

/-- The end of `sleep`, when the process runs again. -/
def tidyUp (s : System) (p : ℕ) : System := s.setProc p { s.proc p with chan := none }

end System

/-- One iteration of the loop of `wakeup`, for the process that calls it. -/
def wakeupAt (s : System) (p : ℕ) (chan : Option ℕ) (j : ℕ) : System :=
  if j = p then s else s.setProc j ((s.proc j).wakeup chan)

/-- One step of `fork` of process `p`; `enough` says whether there is memory for the new
process. -/
def forkAlloc (s : System) (p i : ℕ) (enough : Bool) : System :=
  if i < nProc then
    if (s.proc i).state = .unused then
      let np := allocproc s.nextpid (s.proc i)
      let s := { s with nextpid := i32 (s.nextpid + 1) }
      if enough then
        ((s.setProc i { np with tickets := (s.proc p).tickets }).setPc i .user).setPc p (.link i)
      else (s.setProc i (freeproc np)).setPc p .user
    else s.setPc p (.alloc (i + 1))
  else s.setPc p .user

/-- One step of `wait` of process `p` with `wait_lock` held, at entry `i`; `copied` says whether
the exit status can be copied out. -/
def waitScan (s : System) (p i : ℕ) (havekids copied : Bool) : System :=
  if i < nProc then
    if (s.proc i).parent = some p then
      if (s.proc i).state = .zombie then
        if copied then ((s.setProc i (freeproc (s.proc i))).setPc p .user).setWaitLock none
        else (s.setPc p .user).setWaitLock none
      else s.setPc p (.scan (i + 1) true)
    else s.setPc p (.scan (i + 1) havekids)
  else if havekids = false ∨ (s.proc p).killed = true then (s.setPc p .user).setWaitLock none
  else s.setPc p .waitSleep

def reparentAt (s : System) (p : ℕ) (status : ℤ) (i : ℕ) : System :=
  if i < nProc then
    if (s.proc i).parent = some p then
      (s.setProc i { s.proc i with parent := some s.initproc }).setPc p (.wakeInit status i 0)
    else s.setPc p (.reparent status (i + 1))
  else s.setPc p (.wakeParent status (s.proc p).parent 0)

def killAt (s : System) (p : ℕ) (pid : ℤ) (i : ℕ) : System :=
  if i < nProc then
    if (s.proc i).pid = pid then (s.setProc i (s.proc i).kill).setPc p .user
    else s.setPc p (.kill pid (i + 1))
  else s.setPc p .user

def run (s : System) (p : ℕ) (given : Bool) : Pc → Except Stop System
  | .user => .error .blocked
  | .alloc i => .ok (forkAlloc s p i given)
  | .link np =>
    if s.waitLock = none then
      .ok ((s.setProc np { s.proc np with parent := some p }).setPc p (.start np))
    else .error .blocked
  | .start np => .ok ((s.setProc np { s.proc np with state := .runnable }).setPc p .user)
  | .exit status =>
    if s.waitLock = none then .ok ((s.setPc p (.reparent status 0)).setWaitLock (some p))
    else .error .blocked
  | .reparent status i => .ok (reparentAt s p status i)
  | .wakeInit status i j =>
    if j < nProc then .ok ((wakeupAt s p (some s.initproc) j).setPc p (.wakeInit status i (j + 1)))
    else .ok (s.setPc p (.reparent status (i + 1)))
  | .wakeParent status chan j =>
    if j < nProc then .ok ((wakeupAt s p chan j).setPc p (.wakeParent status chan (j + 1)))
    else .ok (s.setPc p (.zombie status))
  | .zombie status =>
    .ok (((s.setProc p { s.proc p with xstate := status, state := .zombie }).setPc p .dead).setWaitLock
      none)
  | .dead => .error .blocked
  | .wait =>
    if s.waitLock = none then .ok ((s.setPc p (.scan 0 false)).setWaitLock (some p))
    else .error .blocked
  | .scan i havekids => .ok (waitScan s p i havekids given)
  | .waitSleep => .ok (((s.sleep p p).setPc p .waitWoken).setWaitLock none)
  | .waitWoken => .ok ((s.tidyUp p).setPc p .wait)
  | .slept => .ok ((s.tidyUp p).setPc p .user)
  | .kill pid i => .ok (killAt s p pid i)

/-- How `exec` ends: it fails before it has read the program, after that, or not at all. -/
inductive ExecEnd
  | unread
  | failed
  | done
  deriving DecidableEq, Repr

inductive Call
  | fork
  | exit (status : ℤ)
  | wait
  | kill (pid : ℤ)
  | settickets (n : ℤ)
  | exec (outcome : ExecEnd)
  | sleep (chan : ℕ)
  deriving DecidableEq, Repr

def call (s : System) (p : ℕ) : Call → Except Stop System
  | .fork => .ok (s.setPc p (.alloc 0))
  | .exit status => if p = s.initproc then .error .initExiting else .ok (s.setPc p (.exit status))
  | .wait => .ok (s.setPc p .wait)
  | .kill pid => .ok (s.setPc p (.kill pid 0))
  | .settickets n => .ok (if n < 1 then s else s.setProc p { s.proc p with tickets := n })
  | .exec .unread => .ok s
  | .exec .failed | .exec .done => .ok (s.setProc p { s.proc p with ticks := 0 })
  | .sleep chan => .ok ((s.sleep p chan).setPc p .slept)

/-- A scheduler selects a process, a process gives up its CPU, makes a system call or takes a step
in one, or some other part of the kernel wakes up a process. -/
inductive Event
  | dispatch (p : ℕ)
  | yield (p : ℕ)
  | call (p : ℕ) (c : Call)
  | run (p : ℕ) (given : Bool)
  | wakeup (chan j : ℕ)
  deriving DecidableEq, Repr

def dispatch (s : System) (p : ℕ) : System :=
  s.setProc p { s.proc p with state := .running, ticks := i32 ((s.proc p).ticks + 1) }

def step (s : System) : Event → Except Stop System
  | .dispatch p => if (s.proc p).state = .runnable then .ok (dispatch s p) else .error .blocked
  | .yield p =>
    if (s.proc p).state = .running ∧ s.waitLock ≠ some p then
      .ok (s.setProc p { s.proc p with state := .runnable })
    else .error .blocked
  | .call p c =>
    if (s.proc p).state = .running ∧ s.pc p = .user then call s p c else .error .blocked
  | .run p given => if (s.proc p).state = .running then run s p given (s.pc p) else .error .blocked
  | .wakeup chan j => .ok (s.setProc j ((s.proc j).wakeup (some chan)))

/-- The system after `userinit`: the first process is in the first entry of the process table. -/
def boot : System where
  proc := update (fun _ => Proc.zero) 0
    { allocproc 1 Proc.zero with tickets := 1, state := .runnable }
  pc := fun _ => .user
  waitLock := none
  nextpid := 2
  initproc := 0

/-- The part of `struct pstat` for one entry of the process table. -/
structure Pstat where
  inuse : Bool
  tickets : ℤ
  pid : ℤ
  ticks : ℤ
  deriving DecidableEq, Repr

def pinfo (s : System) (i : ℕ) : Pstat where
  inuse := (s.proc i).state ≠ .unused
  tickets := (s.proc i).tickets
  pid := (s.proc i).pid
  ticks := (s.proc i).ticks

section Updates

variable (s : System) (i : ℕ) (x : Proc) (c : Pc) (holder : Option ℕ)

@[simp] theorem setProc_proc : (s.setProc i x).proc = update s.proc i x := rfl
@[simp] theorem setProc_pc : (s.setProc i x).pc = s.pc := rfl
@[simp] theorem setProc_waitLock : (s.setProc i x).waitLock = s.waitLock := rfl
@[simp] theorem setProc_initproc : (s.setProc i x).initproc = s.initproc := rfl
@[simp] theorem setPc_proc : (s.setPc i c).proc = s.proc := rfl
@[simp] theorem setPc_pc : (s.setPc i c).pc = update s.pc i c := rfl
@[simp] theorem setPc_waitLock : (s.setPc i c).waitLock = s.waitLock := rfl
@[simp] theorem setPc_initproc : (s.setPc i c).initproc = s.initproc := rfl
@[simp] theorem setWaitLock_proc : (s.setWaitLock holder).proc = s.proc := rfl
@[simp] theorem setWaitLock_pc : (s.setWaitLock holder).pc = s.pc := rfl
@[simp] theorem setWaitLock_waitLock : (s.setWaitLock holder).waitLock = holder := rfl
@[simp] theorem setWaitLock_initproc : (s.setWaitLock holder).initproc = s.initproc := rfl

end Updates

/-- What a step of process `p` inside a system call makes of entry `j` of the process table. -/
inductive Change (s : System) (p : ℕ) (given : Bool) : Pc → ℕ → Proc → Prop
  | same (pc : Pc) (j : ℕ) : Change s p given pc j (s.proc j)
  | alloc (j : ℕ) : given = true → j < nProc → (s.proc j).state = .unused →
      Change s p given (.alloc j) j
        { allocproc s.nextpid (s.proc j) with tickets := (s.proc p).tickets }
  | spoil (j : ℕ) : given = false → (s.proc j).state = .unused →
      Change s p given (.alloc j) j (freeproc (allocproc s.nextpid (s.proc j)))
  | link (j : ℕ) : s.waitLock = none →
      Change s p given (.link j) j { s.proc j with parent := some p }
  | start (j : ℕ) : Change s p given (.start j) j { s.proc j with state := .runnable }
  | adopt (status : ℤ) (j : ℕ) : (s.proc j).parent = some p →
      Change s p given (.reparent status j) j { s.proc j with parent := some s.initproc }
  | wakeup (pc : Pc) (chan : Option ℕ) (j : ℕ) : Change s p given pc j ((s.proc j).wakeup chan)
  | exit (status : ℤ) :
      Change s p given (.zombie status) p { s.proc p with xstate := status, state := .zombie }
  | reap (j : ℕ) (havekids : Bool) : (s.proc j).parent = some p → (s.proc j).state = .zombie →
      given = true → Change s p given (.scan j havekids) j (freeproc (s.proc j))
  | sleep (chan : ℕ) :
      Change s p given .waitSleep p { s.proc p with chan := some chan, state := .sleeping }
  | tidy (pc : Pc) : Change s p given pc p { s.proc p with chan := none }
  | kill (pid : ℤ) (j : ℕ) : Change s p given (.kill pid j) j (s.proc j).kill

section Changes

variable {s t : System} {p : ℕ} {given : Bool} {pc : Pc}

theorem Change.none (h : t.proc = s.proc) :
    ∃ j x, t.proc = update s.proc j x ∧ Change s p given pc j x :=
  ⟨p, s.proc p, by rw [h, update_eq_self], .same pc p⟩

theorem wakeupAt_change (chan : Option ℕ) (j : ℕ) (h : t.proc = (wakeupAt s p chan j).proc) :
    ∃ j x, t.proc = update s.proc j x ∧ Change s p given pc j x := by
  unfold wakeupAt at h
  split_ifs at h with hj
  · exact Change.none h
  · exact ⟨j, _, h, .wakeup pc chan j⟩

theorem forkAlloc_change {i : ℕ} :
    ∃ j x, (forkAlloc s p i given).proc = update s.proc j x ∧
      Change s p given (.alloc i) j x := by
  unfold forkAlloc
  split_ifs with hi hunused hgiven
  · exact ⟨i, _, rfl, .alloc i hgiven hi hunused⟩
  · exact ⟨i, _, rfl, .spoil i (by simpa using hgiven) hunused⟩
  · exact Change.none rfl
  · exact Change.none rfl

theorem waitScan_change {i : ℕ} {havekids : Bool} :
    ∃ j x, (waitScan s p i havekids given).proc = update s.proc j x ∧
      Change s p given (.scan i havekids) j x := by
  unfold waitScan
  split_ifs with hi hparent hzombie hgiven
  · exact ⟨i, _, rfl, .reap i havekids hparent hzombie hgiven⟩
  all_goals exact Change.none rfl

/-- Every step inside a system call changes at most one entry of the process table. -/
theorem run_change (hx : run s p given pc = .ok t) :
    ∃ j x, t.proc = update s.proc j x ∧ Change s p given pc j x := by
  cases pc with
  | user => cases hx
  | alloc i =>
    cases hx
    exact forkAlloc_change
  | link np =>
    simp only [run] at hx
    split_ifs at hx with hfree
    cases hx
    exact ⟨np, _, rfl, .link np hfree⟩
  | start np =>
    cases hx
    exact ⟨np, _, rfl, .start np⟩
  | exit status =>
    simp only [run] at hx
    split_ifs at hx
    cases hx
    exact Change.none rfl
  | reparent status i =>
    cases hx
    unfold reparentAt
    split_ifs with hi hparent
    · exact ⟨i, _, rfl, .adopt status i hparent⟩
    · exact Change.none rfl
    · exact Change.none rfl
  | wakeInit status i j =>
    simp only [run] at hx
    split_ifs at hx
    · cases hx
      exact wakeupAt_change (some s.initproc) j rfl
    · cases hx
      exact Change.none rfl
  | wakeParent status chan j =>
    simp only [run] at hx
    split_ifs at hx
    · cases hx
      exact wakeupAt_change chan j rfl
    · cases hx
      exact Change.none rfl
  | zombie status =>
    cases hx
    exact ⟨p, _, rfl, .exit status⟩
  | dead => cases hx
  | wait =>
    simp only [run] at hx
    split_ifs at hx
    cases hx
    exact Change.none rfl
  | scan i havekids =>
    cases hx
    exact waitScan_change
  | waitSleep =>
    cases hx
    exact ⟨p, _, rfl, .sleep p⟩
  | waitWoken =>
    cases hx
    exact ⟨p, _, rfl, .tidy _⟩
  | slept =>
    cases hx
    exact ⟨p, _, rfl, .tidy _⟩
  | kill pid i =>
    cases hx
    unfold killAt
    split_ifs with hi hpid
    · exact ⟨i, _, rfl, .kill pid i⟩
    · exact Change.none rfl
    · exact Change.none rfl

/-- A call itself changes at most the entry of its process, which stays in use. -/
theorem call_change {c : Call} (hp : (s.proc p).state = .running) (hx : call s p c = .ok t) :
    ∃ x, t.proc = update s.proc p x ∧ (x.state = .running ∨ x.state = .sleeping) := by
  have hsame : t.proc = s.proc →
      ∃ x, t.proc = update s.proc p x ∧ (x.state = .running ∨ x.state = .sleeping) :=
    fun ht => ⟨s.proc p, by rw [ht, update_eq_self], .inl hp⟩
  cases c with
  | exit status =>
    simp only [call] at hx
    split_ifs at hx
    cases hx
    exact hsame rfl
  | settickets n =>
    simp only [call, Except.ok.injEq] at hx
    split_ifs at hx
    · exact hsame (by rw [← hx])
    · subst hx
      exact ⟨_, rfl, .inl hp⟩
  | exec outcome =>
    cases outcome <;> cases hx
    · exact hsame rfl
    · exact ⟨_, rfl, .inl hp⟩
    · exact ⟨_, rfl, .inl hp⟩
  | sleep chan =>
    cases hx
    exact ⟨_, rfl, .inr rfl⟩
  | _ =>
    cases hx
    exact hsame rfl

end Changes

/-- The process whose `fork` makes entry `i` the new process in this step. -/
def bornBy (s : System) (e : Event) (i : ℕ) : Option ℕ :=
  match e with
  | .run p true =>
    if s.pc p = .alloc i ∧ i < nProc ∧ (s.proc i).state = .unused ∧ (s.proc p).state = .running then
      some p
    else none
  | _ => none

section Births

variable {s : System} {p : ℕ} {given : Bool}

theorem bornBy_some {e : Event} {i : ℕ} (h : bornBy s e i = some p) :
    (s.proc i).state = .unused ∧ (s.proc p).state = .running := by
  unfold bornBy at h
  split at h
  · split_ifs at h with hnew
    cases h
    exact ⟨hnew.2.2.1, hnew.2.2.2⟩
  · cases h

theorem bornBy_event {e : Event} {i : ℕ} (h : bornBy s e i = some p) :
    e = .run p true ∧ s.pc p = .alloc i := by
  unfold bornBy at h
  split at h
  · split_ifs at h with hnew
    cases h
    exact ⟨rfl, hnew.1⟩
  · cases h

theorem bornBy_run {i : ℕ} (h : s.pc p ≠ .alloc i) : bornBy s (.run p given) i = none := by
  cases given with
  | false => rfl
  | true => simp [bornBy, h]

/-- A step of `allocproc` creates a process, or leaves the used entries as they are. -/
theorem forkAlloc_cases {i : ℕ} (given : Bool) (hp : (s.proc p).state = .running)
    (hc : s.pc p = .alloc i) :
    (bornBy s (.run p given) i = some p ∧ (s.proc i).state = .unused ∧
    (forkAlloc s p i given).proc =
      update s.proc i
        { allocproc s.nextpid (s.proc i) with tickets := (s.proc p).tickets }) ∨
    (bornBy s (.run p given) i = none ∧ ((forkAlloc s p i given).proc = s.proc ∨
      (s.proc i).state = .unused ∧ (forkAlloc s p i given).proc =
        update s.proc i (freeproc (allocproc s.nextpid (s.proc i))))) := by
  by_cases hi : i < nProc
  · by_cases hunused : (s.proc i).state = .unused
    · cases given with
      | true => exact .inl (by simp [bornBy, forkAlloc, hc, hi, hunused, hp])
      | false => exact .inr ⟨rfl, .inr (by simp [forkAlloc, hi, hunused])⟩
    · refine .inr ⟨?_, .inl (by simp [forkAlloc, hi, hunused])⟩
      cases given <;> simp [bornBy, hunused]
  · refine .inr ⟨?_, .inl (by simp [forkAlloc, hi])⟩
    cases given <;> simp [bornBy, hi]

end Births

end Xv6.Procs
