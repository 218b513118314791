import Xv6.Param
import Xv6.Library.Reach

/-!
# The table of in-memory inodes

`iget`, `idup`, `ilock`, `iunlock`, `iput` and `ialloc` of `fs.c`, cut at the points where a lock
is taken or given back. A reference is what `iget` and `idup` hand out; several processes may lock
an inode through the same one (they share an open file), and it is put only when none of them is
using it. References and calls of `ilock` are numbered as they come.
-/
namespace Xv6

open Function

def nInode : ℕ := 50

namespace Fs

structure Dinode where
  type : ℕ
  major : ℕ
  minor : ℕ
  nlink : ℕ
  size : ℕ
  addrs : ℕ → ℕ

/-- What `itrunc` makes of the copy. -/
def Dinode.truncated (d : Dinode) : Dinode := { d with size := 0, addrs := fun _ => 0 }

/-- Who has a sleep lock: a call of `ilock` that has not been followed by `iunlock`, or the `iput`
of a reference. -/
inductive Owner
  | call (a : ℕ)
  | put (t : ℕ)
  deriving DecidableEq, Repr

/-- `struct inode`. `ref` is an `int`: there are less than `2 ^ 31` references. `freed` records that
`iput` has begun to free the inode and no `ilock` has read it since; no function looks at it. -/
structure Entry where
  dev : ℕ
  inum : ℕ
  ref : ℕ
  valid : Bool
  copy : Dinode
  lock : Option Owner
  freed : Bool

/-- How far `ilock` is: it waits for the sleep lock, has it and reads the inode, or has
returned. -/
inductive Stage
  | waiting
  | loading
  | locked
  deriving DecidableEq, Repr

/-- How far `iput` is, once it has decided to free the inode: it truncates it, clears its type,
marks the copy invalid, unlocks it, and drops the count. -/
inductive PutStage
  | truncating
  | clearing
  | invalidating
  | unlocking
  | dropping
  deriving DecidableEq, Repr

/-- A reference to an entry, and how far `iput` is with it. -/
structure Ref where
  entry : ℕ
  put : Option PutStage
  deriving DecidableEq, Repr

structure Call where
  ref : ℕ
  stage : Stage
  deriving DecidableEq, Repr

/-- The inode table, the inodes on disk, the references and the calls. -/
structure Table where
  entry : ℕ → Entry
  disk : ℕ → ℕ → Dinode
  ref : ℕ → Option Ref
  refs : ℕ
  call : ℕ → Option Call
  calls : ℕ

/-- Why a piece of a call does not happen: it waits, it is not the next one, or it panics. -/
inductive Refused
  | blocked
  | disabled
  | panic
  deriving DecidableEq, Repr

/-- The pieces of the calls; `t` is a reference, `a` a call of `ilock`. -/
inductive Piece
  | iget (dev inum : ℕ)
  | idup (t : ℕ)
  | ilock (t : ℕ)
  | acquire (a : ℕ)
  | load (a : ℕ)
  | write (a : ℕ) (d : Dinode)
  | iupdate (a : ℕ)
  | iunlock (a : ℕ)
  | iput (t : ℕ)
  | free (t : ℕ)
  | ialloc (dev inum type : ℕ)

namespace Table

def setEntry (s : Table) (e : ℕ) (x : Entry) : Table :=
  { s with entry := update s.entry e x }

def setDisk (s : Table) (dev inum : ℕ) (d : Dinode) : Table :=
  { s with disk := update s.disk dev (update (s.disk dev) inum d) }

def setRef (s : Table) (t : ℕ) (o : Option Ref) : Table :=
  { s with ref := update s.ref t o }

def setCall (s : Table) (a : ℕ) (o : Option Call) : Table :=
  { s with call := update s.call a o }

def handOut (s : Table) (e : ℕ) : Table :=
  { s with ref := update s.ref s.refs (some ⟨e, none⟩), refs := s.refs + 1 }

def find (s : Table) (dev inum : ℕ) : Option ℕ :=
  (List.range nInode).find? fun e =>
    0 < (s.entry e).ref ∧ (s.entry e).dev = dev ∧ (s.entry e).inum = inum

def empty (s : Table) : Option ℕ := (List.range nInode).find? fun e => (s.entry e).ref = 0

def iget (s : Table) (dev inum : ℕ) : Except Refused Table :=
  match s.find dev inum with
  | some e => .ok ((s.setEntry e { s.entry e with ref := (s.entry e).ref + 1 }).handOut e)
  | none =>
    match s.empty with
    | none => .error .panic
    | some e =>
      .ok ((s.setEntry e { s.entry e with dev, inum, ref := 1, valid := false }).handOut e)

def idup (s : Table) (e : ℕ) : Table :=
  (s.setEntry e { s.entry e with ref := (s.entry e).ref + 1 }).handOut e

/-- `ilock` up to the sleep lock. -/
def ilock (s : Table) (t e : ℕ) : Except Refused Table :=
  if (s.entry e).ref < 1 then .error .panic
  else .ok { s with call := update s.call s.calls (some ⟨t, .waiting⟩), calls := s.calls + 1 }

/-- `ilock` takes the sleep lock when it is free, and looks whether the copy is valid. -/
def acquire (s : Table) (a t e : ℕ) : Except Refused Table :=
  if (s.entry e).lock = none then
    .ok ((s.setEntry e { s.entry e with lock := some (.call a) }).setCall a
      (some ⟨t, if (s.entry e).valid then .locked else .loading⟩))
  else .error .blocked

def load (s : Table) (a t e : ℕ) : Except Refused Table :=
  let d := s.disk (s.entry e).dev (s.entry e).inum
  if d.type = 0 then .error .panic
  else
    .ok ((s.setEntry e { s.entry e with copy := d, valid := true, freed := false }).setCall a
      (some ⟨t, .locked⟩))

def write (s : Table) (e : ℕ) (d : Dinode) : Table :=
  s.setEntry e { s.entry e with copy := d }

def iupdate (s : Table) (e : ℕ) : Table :=
  s.setDisk (s.entry e).dev (s.entry e).inum (s.entry e).copy

def iunlock (s : Table) (a e : ℕ) : Except Refused Table :=
  if (s.entry e).lock ≠ some (.call a) ∨ (s.entry e).ref < 1 then .error .panic
  else .ok ((s.setEntry e { s.entry e with lock := none }).setCall a none)

/-- `iput` up to the sleep lock, which it takes with `itable.lock` held: were it not free, the
process would sleep with that lock. -/
def iput (s : Table) (t e : ℕ) : Except Refused Table :=
  if (s.entry e).ref = 1 ∧ (s.entry e).valid = true ∧ (s.entry e).copy.nlink = 0 then
    if (s.entry e).lock = none then
      .ok ((s.setEntry e { s.entry e with lock := some (.put t), freed := true }).setRef t
        (some ⟨e, some .truncating⟩))
    else .error .blocked
  else .ok ((s.setEntry e { s.entry e with ref := (s.entry e).ref - 1 }).setRef t none)

/-- The rest of `iput`, when it frees the inode. -/
def free (s : Table) (t e : ℕ) : PutStage → Except Refused Table
  | .truncating =>
    .ok (((s.write e (s.entry e).copy.truncated).iupdate e).setRef t (some ⟨e, some .clearing⟩))
  | .clearing =>
    .ok (((s.write e { (s.entry e).copy with type := 0 }).iupdate e).setRef t
      (some ⟨e, some .invalidating⟩))
  | .invalidating =>
    .ok ((s.setEntry e { s.entry e with valid := false }).setRef t (some ⟨e, some .unlocking⟩))
  | .unlocking =>
    .ok ((s.setEntry e { s.entry e with lock := none }).setRef t (some ⟨e, some .dropping⟩))
  | .dropping =>
    .ok ((s.setEntry e { s.entry e with ref := (s.entry e).ref - 1 }).setRef t none)

/-- `ialloc` finds a free inode and marks it allocated; `iget` follows. -/
def ialloc (s : Table) (dev inum type : ℕ) : Except Refused Table :=
  if (s.disk dev inum).type = 0 then .ok (s.setDisk dev inum ⟨type, 0, 0, 0, 0, fun _ => 0⟩)
  else .error .disabled

/-- What is done with a reference that is not being put. -/
def through (s : Table) (t : ℕ) (k : ℕ → Except Refused Table) : Except Refused Table :=
  match s.ref t with
  | some ⟨e, none⟩ => k e
  | _ => .error .disabled

/-- The next piece of a call of `ilock` that is at `stage`. -/
def during (s : Table) (a : ℕ) (stage : Stage) (k : ℕ → ℕ → Except Refused Table) :
    Except Refused Table :=
  match s.call a with
  | some ⟨t, g⟩ => if g = stage then s.through t (k t) else .error .disabled
  | none => .error .disabled

def Unused (s : Table) (t : ℕ) : Prop :=
  ∀ a < s.calls, (s.call a).map Call.ref ≠ some t

instance (s : Table) (t : ℕ) : Decidable (s.Unused t) :=
  inferInstanceAs (Decidable (∀ a < s.calls, (s.call a).map Call.ref ≠ some t))

def step (s : Table) : Piece → Except Refused Table
  | .iget dev inum => s.iget dev inum
  | .idup t => s.through t fun e => .ok (s.idup e)
  | .ilock t => s.through t (s.ilock t)
  | .acquire a => s.during a .waiting (s.acquire a)
  | .load a => s.during a .loading (s.load a)
  | .write a d => s.during a .locked fun _ e => .ok (s.write e d)
  | .iupdate a => s.during a .locked fun _ e => .ok (s.iupdate e)
  | .iunlock a => s.during a .locked fun _ e => s.iunlock a e
  | .iput t => if s.Unused t then s.through t (s.iput t) else .error .disabled
  | .free t =>
    match s.ref t with
    | some ⟨e, some g⟩ => s.free t e g
    | _ => .error .disabled
  | .ialloc dev inum type => s.ialloc dev inum type

/-- After `iinit`: no entry is in use. -/
def iinit (disk : ℕ → ℕ → Dinode) : Table where
  entry := fun _ => ⟨0, 0, 0, false, ⟨0, 0, 0, 0, 0, fun _ => 0⟩, none, false⟩
  disk := disk
  ref := fun _ => none
  refs := 0
  call := fun _ => none
  calls := 0

end Table

end Fs

end Xv6
