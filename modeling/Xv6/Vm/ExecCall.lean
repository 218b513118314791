import Xv6.Vm.Exec

/-!
# `exec` with all it touches

`Exec` follows the memory of a process. Here `exec` also changes the registers, the name
and the tick count of the process, and takes and drops references to the inode of the
file. The rest of the kernel is a part of the state, on which the functions of `Exec` work.
-/
namespace Xv6.Vm

open Library Function List

/-- The registers in the trapframe that `exec` sets. -/
structure Regs where
  epc : ℕ
  sp : ℕ
  a1 : ℕ
  deriving DecidableEq, Repr

/-- The kernel, and what `exec` changes besides: ticks, names and registers of processes and
the reference counts of inodes in memory. Names are given without their final zero byte. -/
structure World where
  kernel : Kernel
  ticks : ℕ → ℤ
  name : ℕ → List UInt8
  regs : ℕ → Regs
  iref : ℕ → ℕ

abbrev WorldM := EStateM Stop World

def onKernel {α : Type} (x : KernelM α) : WorldM α := fun w =>
  match x w.kernel with
  | .ok a s => .ok a { w with kernel := s }
  | .error e s => .error e { w with kernel := s }

namespace World

variable (w : World)

def setTicks (p : ℕ) (n : ℤ) : World := { w with ticks := update w.ticks p n }

def setName (p : ℕ) (s : List UInt8) : World := { w with name := update w.name p s }

def setRegs (p : ℕ) (f : Regs → Regs) : World :=
  { w with regs := update w.regs p (f (w.regs p)) }

def setIref (i n : ℕ) : World := { w with iref := update w.iref i n }

end World

def idup (i : ℕ) : WorldM PUnit := modify fun w => w.setIref i (w.iref i + 1)

def iput (i : ℕ) : WorldM PUnit := modify fun w => w.setIref i (w.iref i - 1)

def iunlockput (i : ℕ) : WorldM PUnit := do
  onKernel (iunlock i)
  iput i

/-- The part of a path after its last slash; `last` is the part since the last one seen. -/
def lastName (last : List UInt8) : List UInt8 → List UInt8
  | [] => last
  | c :: s => if c = 0x2F then lastName s s else lastName last s

/-- `safestrcpy` to a buffer of `n` bytes. -/
def safestrcpy (s : List UInt8) (n : ℕ) : List UInt8 := (s.takeWhile (· ≠ 0)).take (n - 1)

def elfEntry (b : Bytes) : ℕ := b.getLE 24 8

/-- `pushStack` with its results: the stack pointer and `argc`. -/
def pushAll (t p sz : ℕ) (argv : List (List UInt8)) : KernelM (Option (ℕ × ℕ)) := do
  let stackbase := u64 (sz - pgSize)
  match ← pushArgs t p stackbase argv sz [] with
  | none => return none
  | some (sp, ustack) =>
    match ← push t p stackbase sp (ustackBytes ustack) ((ustack.length + 1) * 8) with
    | none => return none
    | some sp => return some (sp, ustack.length)

def execImageCall (p : ℕ) (path : List UInt8) (entry : ℕ) (g : Segments)
    (argv : List (List UInt8)) : WorldM (Option ℕ) := do
  let t := spare p
  modify (·.setTicks p 0)
  let oldsz := ((← get).kernel.proc p).sz
  let sz ← onKernel (uvmalloc t g.size (u64 (g.size + 2 * pgSize)) dataPerm)
  if sz = 0 then
    onKernel (procFreepagetable t g.size)
    return none
  else
    onKernel (uvmclear t (u64 (sz - 2 * pgSize)))
    match ← onKernel (pushAll t p sz argv) with
    | none =>
      onKernel (procFreepagetable t sz)
      return none
    | some (sp, argc) =>
      modify (·.setRegs p fun r => { r with a1 := sp })
      modify (·.setName p (safestrcpy (lastName path path) 16))
      onKernel (modify fun s => (s.setTable p (s.table t)).setTable t (s.table p))
      onKernel (modify (·.setProc p fun q => { q with sz }))
      modify (·.setRegs p fun r => { r with epc := entry, sp })
      onKernel (procFreepagetable t oldsz)
      return some argc

/-- `exec(path, argv)` of process `p`, where `ip` is what `namei` finds; `none` stands for
`-1`. `namei` returns a reference to the inode. -/
def execCall (p : ℕ) (path : List UInt8) (ip : Option ℕ) (argv : List (List UInt8)) :
    WorldM (Option ℕ) := do
  match ip with
  | none => return none
  | some i =>
    idup i
    let i ← onKernel (ilock (some i))
    let (b, n) ← onKernel (readKernel i 0 elfhdrSize)
    let elf := ElfHdr.ofBytes b
    if n ≠ elfhdrSize ∨ elf.magic ≠ elfMagic then
      iunlockput i
      return none
    else if ← onKernel (procPagetableIn (spare p) p) then
      match ← onKernel (loadSegments i elf.phnum (i32 elf.phoff) .start) with
      | none =>
        onKernel (procFreepagetable (spare p) 0)
        iunlockput i
        return none
      | some g =>
        onKernel (modify (·.setProc p fun q => { q with text := g.text i, data := g.data i }))
        idup i
        iunlockput i
        execImageCall p path (elfEntry b) g argv
    else
      iunlockput i
      return none

section Projection

variable {α : Type} {x : KernelM α} {a : α} {p : ℕ} {path : List UInt8} {ip : Option ℕ}
  {argv : List (List UInt8)} {w w' : World} {r : Option ℕ}

theorem onKernel_ok : onKernel x w = .ok a w' ↔
    ∃ s, x w.kernel = .ok a s ∧ { w with kernel := s } = w' := by
  unfold onKernel
  cases h : x w.kernel with
  | ok b s => simp [and_comm]
  | error e s => simp

theorem iunlockput_ok {i : ℕ} {u : PUnit} : iunlockput i w = .ok u w' ↔
    ∃ s, iunlock i w.kernel = .ok ⟨⟩ s ∧
      { w with kernel := s, iref := update w.iref i (w.iref i - 1) } = w' := by
  simp only [iunlockput, iput, bind_ok, modify_ok, onKernel_ok]
  constructor
  · rintro ⟨_, _, ⟨s, hs, rfl⟩, rfl⟩
    exact ⟨s, hs, rfl⟩
  · rintro ⟨s, hs, rfl⟩
    exact ⟨_, _, ⟨s, hs, rfl⟩, rfl⟩

/-- `pushAll` is `pushStack`. -/
theorem pushStack_of_pushAll {t sz : ℕ} {argv : List (List UInt8)} {s s' : Kernel}
    {o : Option (ℕ × ℕ)} (hx : pushAll t p sz argv s = .ok o s') :
    pushStack t p sz argv s = .ok o.isSome s' := by
  unfold pushAll at hx
  unfold pushStack
  obtain ⟨o1, s1, h1, hx⟩ := bind_ok.mp hx
  refine bind_ok.mpr ⟨o1, s1, h1, ?_⟩
  cases o1 with
  | none =>
    obtain ⟨rfl, rfl⟩ := pure_ok.mp hx
    rfl
  | some spu =>
    obtain ⟨o2, s2, h2, hx⟩ := bind_ok.mp hx
    refine bind_ok.mpr ⟨o2, s2, h2, ?_⟩
    cases o2 with
    | none =>
      obtain ⟨rfl, rfl⟩ := pure_ok.mp hx
      rfl
    | some sp =>
      obtain ⟨rfl, rfl⟩ := pure_ok.mp hx
      rfl

theorem pushArgs_length {t stackbase sp r : ℕ} {s s' : Kernel} {ustack us : List ℕ}
    (hx : pushArgs t p stackbase argv sp ustack s = .ok (some (r, us)) s') :
    us.length = ustack.length + argv.length := by
  induction argv generalizing s sp ustack with
  | nil =>
    obtain ⟨he, -⟩ := pure_ok.mp hx
    cases he
    rfl
  | cons arg argv ih =>
    unfold pushArgs at hx
    rcases ite_ok hx with ⟨-, hx⟩ | ⟨-, hx⟩
    · cases (pure_ok.mp hx).1
    obtain ⟨o, s1, -, hx⟩ := bind_ok.mp hx
    cases o with
    | none => cases (pure_ok.mp hx).1
    | some r' =>
      have hlen := ih hx
      simp only [length_append, length_cons, length_nil] at hlen ⊢
      omega

theorem pushAll_argc {t sz sp argc : ℕ} {s s' : Kernel}
    (hx : pushAll t p sz argv s = .ok (some (sp, argc)) s') :
    argc = argv.length := by
  unfold pushAll at hx
  obtain ⟨o, s1, hargs, hx⟩ := bind_ok.mp hx
  cases o with
  | none => cases (pure_ok.mp hx).1
  | some ru =>
    obtain ⟨o', s2, -, hx⟩ := bind_ok.mp hx
    cases o' with
    | none => cases (pure_ok.mp hx).1
    | some r' =>
      obtain ⟨he, -⟩ := pure_ok.mp hx
      cases he
      simpa using pushArgs_length hargs

/-- What `execImageCall` does to the kernel, `execImage` does, a failure leaves the rest as it is
but for the ticks, and a success is the number of arguments. -/
theorem execImageCall_ok {entry : ℕ} {g : Segments}
    (hx : execImageCall p path entry g argv w = .ok r w') :
    execImage p g argv w.kernel = .ok r.isSome w'.kernel ∧
      (r = none → w' = { w.setTicks p 0 with kernel := w'.kernel }) ∧
      ∀ argc, r = some argc → argc = argv.length := by
  unfold execImageCall at hx
  unfold execImage
  simp only [bind_ok, modify_ok, get_ok, onKernel_ok] at hx ⊢
  obtain ⟨_, _, rfl, _, _, ⟨rfl, rfl⟩, sz, _, ⟨s1, h1, rfl⟩, hx⟩ := hx
  by_cases hsz : sz = 0
  · rw [if_pos hsz] at hx
    simp only [bind_ok, pure_ok, onKernel_ok] at hx
    obtain ⟨_, _, ⟨s2, h2, rfl⟩, rfl, rfl⟩ := hx
    refine ⟨⟨_, _, ⟨rfl, rfl⟩, sz, s1, h1, ?_⟩, fun _ => rfl, by simp⟩
    rw [if_pos hsz]
    exact bind_ok.mpr ⟨_, _, h2, rfl⟩
  rw [if_neg hsz] at hx
  simp only [bind_ok, onKernel_ok] at hx
  obtain ⟨_, _, ⟨s2, h2, rfl⟩, o, _, ⟨s3, h3, rfl⟩, hx⟩ := hx
  have hpush := pushStack_of_pushAll h3
  cases o with
  | none =>
    simp only [bind_ok, pure_ok, onKernel_ok] at hx
    obtain ⟨_, _, ⟨s4, h4, rfl⟩, rfl, rfl⟩ := hx
    refine ⟨⟨_, _, ⟨rfl, rfl⟩, sz, s1, h1, ?_⟩, fun _ => rfl, by simp⟩
    rw [if_neg hsz]
    exact bind_ok.mpr ⟨_, _, h2, bind_ok.mpr ⟨_, _, hpush, bind_ok.mpr ⟨_, _, h4, rfl⟩⟩⟩
  | some spc =>
    simp only [bind_ok, modify_ok, pure_ok, onKernel_ok] at hx
    obtain ⟨_, _, rfl, _, _, rfl, _, _, ⟨_, rfl, rfl⟩, _, _, ⟨_, rfl, rfl⟩, _, _, rfl,
      _, _, ⟨s4, h4, rfl⟩, rfl, rfl⟩ := hx
    refine ⟨⟨_, _, ⟨rfl, rfl⟩, sz, s1, h1, ?_⟩, by simp, fun argc hargc => ?_⟩
    · rw [if_neg hsz]
      refine bind_ok.mpr ⟨_, _, h2, bind_ok.mpr ⟨_, _, hpush, ?_⟩⟩
      exact bind_ok.mpr ⟨_, _, rfl, bind_ok.mpr ⟨_, _, rfl, bind_ok.mpr ⟨_, _, h4, rfl⟩⟩⟩
    · cases hargc
      exact pushAll_argc h3

end Projection

end Xv6.Vm
