import Xv6.Vm.Lending
import Xv6.Vm.Sbrk

/-!
# When `exec` fails

A failing `exec` always gives back the pages it took and leaves the page table of the process
alone. It leaves the rest of the process alone just if it fails before the program headers have
been accepted.
-/
namespace Xv6.Vm

open Library

section Head

variable {p t : ℕ} {path : List UInt8} {ip : Option ℕ} {argv : List (List UInt8)} {w w' : World}
  {r : Option ℕ} {s s' : Kernel}

/-- `exec` fails before the headers have been accepted, and then changes nothing but the kernel,
or goes on with the image. -/
theorem execCall_cases (hx : execCall p path ip argv w = .ok r w') :
    (r = none ∧ execHead p ip w.kernel = .ok none w'.kernel ∧ w' = { w with kernel := w'.kernel }) ∨
      ∃ i g s1 s2 entry, execHead p ip w.kernel = .ok (some (i, g)) s1 ∧
        iunlock i (s1.setSegments p g i) = .ok ⟨⟩ s2 ∧
        execImageCall p path entry g argv { w.setIref i (w.iref i + 1) with kernel := s2 } =
          .ok r w' := by
  unfold execCall at hx
  cases ip with
  | none =>
    obtain ⟨rfl, rfl⟩ := pure_ok.mp hx
    exact .inl ⟨rfl, rfl, rfl⟩
  | some i =>
    simp only [idup, bind_ok, modify_ok, onKernel_ok] at hx
    obtain ⟨_, _, rfl, i', _, ⟨s1, hlock, rfl⟩, ⟨bytes, n⟩, _, ⟨s2, hread, rfl⟩, hx⟩ := hx
    obtain ⟨hip, -, -⟩ := ilock_ok hlock
    obtain rfl : i = i' := by simpa using hip
    have hhead : execHead p (some i) w.kernel = _ :=
      (congrFun (if_neg (by simp)) _).trans ((bind_run hlock).trans (bind_run hread))
    by_cases hbad : n ≠ elfhdrSize ∨ (ElfHdr.ofBytes bytes).magic ≠ elfMagic
    · simp only [if_pos hbad, bind_ok, pure_ok, iunlockput_ok] at hx
      obtain ⟨_, _, ⟨s3, hun, rfl⟩, rfl, rfl⟩ := hx
      refine .inl ⟨rfl, hhead.trans ?_, by simp [World.setIref]⟩
      exact (congrFun (if_pos hbad) _).trans (bind_run hun)
    simp only [if_neg hbad, bind_ok, onKernel_ok] at hx
    obtain ⟨b, _, ⟨s3, hcreate, rfl⟩, hx⟩ := hx
    have hmade := hhead.trans ((congrFun (if_neg hbad) _).trans (bind_run hcreate))
    cases b with
    | false =>
      simp only [Bool.false_eq_true, if_false, bind_ok, pure_ok, iunlockput_ok] at hx
      obtain ⟨_, _, ⟨s4, hun, rfl⟩, rfl, rfl⟩ := hx
      exact .inl ⟨rfl, hmade.trans (bind_run hun), by simp [World.setIref]⟩
    | true =>
      simp only [if_true, bind_ok, onKernel_ok] at hx
      obtain ⟨o, _, ⟨s4, hload, rfl⟩, hx⟩ := hx
      cases o with
      | none =>
        simp only [bind_ok, pure_ok, onKernel_ok, iunlockput_ok] at hx
        obtain ⟨_, _, ⟨s5, hfree, rfl⟩, _, _, ⟨s6, hun, rfl⟩, rfl, rfl⟩ := hx
        refine .inl ⟨rfl, hmade.trans ?_, by simp [World.setIref]⟩
        exact (bind_run hload).trans ((bind_run hfree).trans (bind_run hun))
      | some g =>
        simp only [bind_ok, modify_ok, onKernel_ok, iunlockput_ok] at hx
        obtain ⟨_, _, ⟨_, rfl, rfl⟩, _, _, rfl, _, _, ⟨s5, hun, rfl⟩, himage⟩ := hx
        refine .inr ⟨i, g, s4, s5, elfEntry bytes, hmade.trans (bind_run hload), hun, ?_⟩
        simpa [World.setIref] using himage

/-- `exec` changes the kernel as described by `Exec`. When it fails before the headers have
been accepted, the rest is unchanged; afterwards the ticks are zero and the inode has one
more reference. It returns the number of arguments. -/
theorem execCall_ok (hx : execCall p path ip argv w = .ok r w') :
    exec p ip argv w.kernel = .ok r.isSome w'.kernel ∧
      (r = none → (execHead p ip w.kernel = .ok none w'.kernel ∧
          w' = { w with kernel := w'.kernel }) ∨
        ∃ i g s1, execHead p ip w.kernel = .ok (some (i, g)) s1 ∧
          w' = { (w.setTicks p 0).setIref i (w.iref i + 1) with kernel := w'.kernel }) ∧
      ∀ argc, r = some argc → argc = argv.length := by
  rw [exec_eq]
  rcases execCall_cases hx with ⟨rfl, hhead, hw⟩ | ⟨i, g, s1, s2, entry, hhead, hun, himage⟩
  · exact ⟨bind_ok.mpr ⟨_, _, hhead, rfl⟩, fun _ => .inl ⟨hhead, hw⟩, by simp⟩
  · obtain ⟨hkernel, hrest, hargc⟩ := execImageCall_ok himage
    refine ⟨bind_ok.mpr ⟨_, _, hhead, ?_⟩, fun hr => .inr ⟨i, g, s1, hhead, ?_⟩, hargc⟩
    · exact bind_ok.mpr ⟨_, _, rfl, bind_ok.mpr ⟨_, _, hun, hkernel⟩⟩
    · rw [hrest hr]
      simp [World.setTicks, World.setIref]

end Head

section Failure

variable {p : ℕ} {path : List UInt8} {ip : Option ℕ} {argv : List (List UInt8)} {w w' : World}

/-- The image of process `p` is as it was: its page table, the contents of all pages in use,
its size, its trapframe and its name. Pages that were free are free again. -/
structure ImageKept (p : ℕ) (w w' : World) : Prop where
  table : w'.kernel.table p = w.kernel.table p
  contents : ∀ pa, pa ∉ w.kernel.freelist → w'.kernel.mem pa = w.kernel.mem pa
  free : ∀ pa, pa ∈ w'.kernel.freelist ↔ pa ∈ w.kernel.freelist
  sz : (w'.kernel.proc p).sz = (w.kernel.proc p).sz
  trapframe : (w'.kernel.proc p).trapframe = (w.kernel.proc p).trapframe
  regs : w'.regs p = w.regs p
  name : w'.name p = w.name p

/-- All of process `p` is as it was, and so are the references to inodes. -/
structure Restored (p : ℕ) (w w' : World) : Prop extends ImageKept p w w' where
  text : (w'.kernel.proc p).text = (w.kernel.proc p).text
  data : (w'.kernel.proc p).data = (w.kernel.proc p).data
  ticks : w'.ticks p = w.ticks p
  iref : w'.iref = w.iref

/-- A failing `exec` leaves the image alone, whatever made it fail. -/
theorem execCall_imageKept (hn : w.kernel.table (spare p) = none)
    (hx : execCall p path ip argv w = .ok none w') : ImageKept p w w' := by
  obtain ⟨hexec, hrest, -⟩ := execCall_ok hx
  have hlent := exec_lent hn hexec
  have hkept : w'.kernel.table (spare p) = none ∧ w'.kernel.table p = w.kernel.table p ∧
      (w'.kernel.proc p).sz = (w.kernel.proc p).sz ∧
      (w'.kernel.proc p).trapframe = (w.kernel.proc p).trapframe := by
    have hp := (spare_ne p).symm
    obtain ⟨hnone, hb | ⟨i, g, hb⟩⟩ := exec_failed hn hexec
    · exact ⟨hnone, hb.table p hp, by rw [hb.proc], by rw [hb.proc]⟩
    · refine ⟨hnone, hb.table p hp, ?_, ?_⟩ <;>
        rw [hb.proc] <;> simp [Kernel.setSegments, Kernel.setProc]
  obtain ⟨hnone, htable, hsz, hframe⟩ := hkept
  have hheld : ∀ x, w'.kernel.held (spare p) x = none := fun x => by simp [Kernel.held, hnone]
  have hrest' : w'.regs p = w.regs p ∧ w'.name p = w.name p := by
    rcases hrest rfl with ⟨-, h⟩ | ⟨i, g, s1, -, h⟩ <;> rw [h] <;> exact ⟨rfl, rfl⟩
  exact ⟨htable, fun pa hpa => hlent.mem pa hpa, fun pa => hlent.loan.settled hheld pa, hsz, hframe,
    hrest'.1, hrest'.2⟩

/-- A failing `exec` leaves everything as it was just if it fails before it has accepted the
headers: later it drops neither the new regions nor the reference to the inode. -/
theorem exec_failure_restores (hn : w.kernel.table (spare p) = none)
    (hx : execCall p path ip argv w = .ok none w') :
    Restored p w w' ↔ w.kernel.FailsEarly ip := by
  have himage := execCall_imageKept hn hx
  rcases (execCall_ok hx).2.1 rfl with ⟨hhead, hw⟩ | ⟨i, g, s1, hhead, hw⟩
  · obtain ⟨hb, -, -⟩ := execHead_ok hn hhead
    refine ⟨fun _ => execHead_none hn hhead,
      fun _ => ⟨himage, by rw [hb.proc], by rw [hb.proc], ?_, ?_⟩⟩
      <;> rw [hw]
  · constructor
    · intro hr
      have hiref := congrFun hr.iref i
      rw [hw] at hiref
      simp [World.setIref] at hiref
    · intro hearly
      obtain ⟨rfl, hrun, -, -⟩ := (execHead_ok hn hhead).2.2 i g rfl
      exact absurd hearly (hrun.not_failsEarly hn)

/-- The machine after boot, with a program in file 2. -/
def programWorld : World where
  kernel := programSystem.kernel
  ticks := fun _ => 3
  name := fun _ => []
  regs := fun _ => ⟨0, 0, 0⟩
  iref := fun _ => 1

theorem programWorld_spare : programWorld.kernel.table (spare 0) = none :=
  programSystem_ordered.sane.spare_none 0

/-- The program with a segment that does not start on a page. -/
def badProgram : Inode :=
  { program with data := fun a => if a = 80 then 1 else program.data a }

def badWorld : World :=
  { programWorld with kernel := programWorld.kernel.setInode 2 badProgram }

/-- Its ELF header is accepted, its program header is not. -/
theorem exec_failure_restores_bad : ∃ w', execCall 0 [] (some 2) [[0x61]] badWorld = .ok none w' ∧
    badProgram.data 0 = 0x7F ∧ 3 ≤ badWorld.kernel.freelist.length ∧ Restored 0 badWorld w' := by
  have hrun : passes (fun r _ => r == none) (execCall 0 [] (some 2) [[0x61]] badWorld) = true := by
    decide +kernel
  obtain ⟨r, w', hx, hr⟩ := of_passes hrun
  obtain rfl := beq_iff_eq.mp hr
  have hspare : badWorld.kernel.table (spare 0) = none := programWorld_spare
  refine ⟨w', hx, by decide, by decide +kernel,
    (exec_failure_restores hspare hx).mpr (.inr fun i hi => ?_)⟩
  obtain rfl := Option.some.inj hi
  decide +kernel

def longArg : List UInt8 := List.replicate 4097 0x61

/-- The program is found and accepted, its argument is too long. The process then has the
text region of the program, no ticks, and the inode one more reference. -/
theorem exec_failure_keeps_changes : ∃ w',
    execCall 0 [] (some 2) [longArg] programWorld = .ok none w' ∧
    (w'.kernel.proc 0).text ≠ (programWorld.kernel.proc 0).text ∧
    w'.ticks 0 ≠ programWorld.ticks 0 ∧ w'.iref 2 = programWorld.iref 2 + 1 := by
  have hrun : (match execCall 0 [] (some 2) [longArg] programWorld with
      | .ok r w' => decide (r = none ∧ (w'.kernel.proc 0).text ≠ (programWorld.kernel.proc 0).text ∧
          w'.ticks 0 ≠ programWorld.ticks 0 ∧ w'.iref 2 = programWorld.iref 2 + 1)
      | .error _ _ => false) = true := by decide +kernel
  cases hx : execCall 0 [] (some 2) [longArg] programWorld with
  | ok r w' =>
    rw [hx] at hrun
    obtain ⟨rfl, htext, hticks, hiref⟩ := of_decide_eq_true hrun
    exact ⟨w', rfl, htext, hticks, hiref⟩
  | error e w' => simp [hx] at hrun

end Failure

end Xv6.Vm
