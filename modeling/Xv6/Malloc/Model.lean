import Xv6.Library.FreeList
import Xv6.Library.LinkedRing
import Xv6.Library.Reach

/-!
# The memory allocator of user programs

`malloc`, `free` and `morecore` of `umalloc.c`. Memory is a header for each address; addresses are
in bytes and the fields `size` are of type `uint` and count headers. `sbrk` is a function of the
earlier calls and of their results. Loops are given fuel.
-/
namespace Xv6.Malloc

open Library

structure Header where
  ptr : ℕ
  size : ℕ
  deriving DecidableEq, Repr

/-- `sizeof(Header)`. -/
def unit : ℕ := 16

/-- The field `size` is of type `uint`. -/
def uintMod : ℕ := 2 ^ 32

/-- Memory, the static `freep`, the calls of `sbrk` with the number of bytes and the result, and
the result of the last call of `malloc`. -/
structure State where
  mem : ℕ → Header
  freep : ℕ
  sbrks : List (ℕ × Option ℕ)
  ret : ℕ

namespace State

def setMem (s : State) (p : ℕ) (h : Header) : State :=
  { s with mem := Function.update s.mem p h }

def setPtr (s : State) (p ptr : ℕ) : State := s.setMem p { s.mem p with ptr := ptr }

def setSize (s : State) (p size : ℕ) : State := s.setMem p { s.mem p with size := size }

/-- The address of the header after the block at `p`: `p + p->s.size`. -/
def after (s : State) (p : ℕ) : ℕ := p + unit * (s.mem p).size

end State

/-- The loop of `free`: the block after which `bp` belongs. -/
def place (mem : ℕ → Header) (bp : ℕ) : ℕ → ℕ → Option ℕ
  | 0, _ => none
  | fuel + 1, p =>
    if p < bp ∧ bp < (mem p).ptr then some p
    else if (mem p).ptr ≤ p ∧ (p < bp ∨ bp < (mem p).ptr) then some p
    else place mem bp fuel (mem p).ptr

/-- `free` joins `bp` with the block after it, if they touch, or else links it to that block. -/
def joinUpper (s : State) (bp p : ℕ) : State :=
  let next := (s.mem p).ptr
  if s.after bp = next then
    let s := s.setSize bp (((s.mem bp).size + (s.mem next).size) % uintMod)
    s.setPtr bp (s.mem (s.mem p).ptr).ptr
  else s.setPtr bp next

/-- `free` joins `p` with `bp`, if they touch, or else links it to `bp`. -/
def joinLower (s : State) (bp p : ℕ) : State :=
  if s.after p = bp then
    let s := s.setSize p (((s.mem p).size + (s.mem bp).size) % uintMod)
    s.setPtr p (s.mem bp).ptr
  else s.setPtr p bp

def free (fuel : ℕ) (s : State) (ap : ℕ) : Option State :=
  let bp := ap - unit
  match place s.mem bp fuel s.freep with
  | none => none
  | some p => some { joinLower (joinUpper s bp p) bp p with freep := p }

section Calls

variable (sbrk : List (ℕ × Option ℕ) → ℕ → Option ℕ) (base : ℕ)

/-- `morecore`; the result is null when `sbrk` fails. -/
def morecore (fuel : ℕ) (s : State) (nu : ℕ) : Option (State × ℕ) :=
  let nu := if nu < 4096 then 4096 else nu
  let answer := sbrk s.sbrks (nu * unit)
  let s := { s with sbrks := s.sbrks ++ [(nu * unit, answer)] }
  match answer with
  | none => some (s, 0)
  | some hp =>
    match free fuel (s.setSize hp nu) (hp + unit) with
    | none => none
    | some s => some (s, s.freep)

/-- Take `nunits` units out of the free block `p`, which comes after `prevp`. -/
def carve (s : State) (prevp p nunits : ℕ) : State :=
  if (s.mem p).size = nunits then
    { s.setPtr prevp (s.mem p).ptr with freep := prevp, ret := p + unit }
  else
    let s := s.setSize p ((s.mem p).size - nunits)
    let p := s.after p
    { s.setSize p nunits with freep := prevp, ret := p + unit }

/-- The loop of `malloc`, at the block after `prevp`. -/
def search (nunits : ℕ) : ℕ → State → ℕ → Option State
  | 0, _, _ => none
  | fuel + 1, s, prevp =>
    let p := (s.mem prevp).ptr
    if nunits ≤ (s.mem p).size then some (carve s prevp p nunits)
    else if p = s.freep then
      match morecore sbrk fuel s nunits with
      | none => none
      | some (s, p) => if p = 0 then some { s with ret := 0 } else search nunits fuel s p
    else search nunits fuel s p

def nunits (nbytes : ℕ) : ℕ := ((nbytes + unit - 1) / unit + 1) % uintMod

/-- The first call makes a circular list of `base` alone. -/
def init (s : State) : State :=
  if s.freep = 0 then { s.setMem base ⟨base, 0⟩ with freep := base } else s

def malloc (fuel : ℕ) (s : State) (nbytes : ℕ) : Option State :=
  search sbrk (nunits nbytes) fuel (init base s) (init base s).freep

inductive Event
  | malloc (nbytes fuel : ℕ)
  | free (ap fuel : ℕ)
  | store (a : ℕ) (h : Header)
  deriving DecidableEq, Repr

def step (s : State) : Event → Except Unit State
  | .malloc nbytes fuel =>
    match malloc sbrk base fuel s nbytes with
    | none => .error ()
    | some s => .ok s
  | .free ap fuel =>
    match free fuel s ap with
    | none => .error ()
    | some s => .ok s
  | .store a h => .ok (s.setMem a h)

end Calls

/-- The live blocks: the address of the header, and the number of bytes that were asked for. -/
def note (_ : State) (e : Event) (t : State) (live : List (ℕ × ℕ)) : List (ℕ × ℕ) :=
  match e with
  | .malloc nbytes _ => if t.ret = 0 then live else (t.ret - unit, nbytes) :: live
  | .free ap _ => live.eraseP fun e => e.1 = ap - unit
  | .store _ _ => live

def start (mem : ℕ → Header) : Traced State (List (ℕ × ℕ)) where
  state := ⟨mem, 0, [], 0⟩
  trace := []

def granted (sbrks : List (ℕ × Option ℕ)) : List Block :=
  sbrks.filterMap fun c => c.2.map fun a => ⟨a, c.1 / unit⟩

def demand (nbytes : ℕ) : ℕ := max (nunits nbytes) 4096

/-- What the program may do: ask for an amount that fits the argument of `sbrk`, free a live
block, and store into the bytes it has asked for. -/
def Proper (h : Traced State (List (ℕ × ℕ))) : Event → Prop
  | .malloc nbytes _ => nbytes < uintMod ∧ demand nbytes * unit < 2 ^ 31
  | .free ap _ => ∃ e ∈ h.trace, ap = e.1 + unit
  | .store a _ => ∃ e ∈ h.trace, e.1 < a ∧ a < e.1 + unit + e.2

/-- `sbrk` grants memory above the program and above all it has granted before. -/
def Fresh (base : ℕ) (sbrk : List (ℕ × Option ℕ) → ℕ → Option ℕ) : Prop :=
  ∀ calls k a, sbrk calls k = some a →
    base + unit ≤ a ∧ ∀ g ∈ granted calls, g.stop unit ≤ a

end Xv6.Malloc
