import Xv6.Vm.ExecSurvives
import Xv6.Vm.Growing
import Xv6.Vm.UserMemory

/-!
# The argument stack of a new image

`exec` pushes the strings of `argv` and the array of pointers to them onto the one page of the
stack, each at an address that is a multiple of 16. Whether they fit is a matter of their
lengths only. What has been pushed is read back from user memory.
-/
namespace Xv6.Vm

open Library Function List

/-- The pieces of memory that the array at `sp` and the strings take: addresses and lengths. -/
def pieces (sp : ℕ) (argv : List (List UInt8)) (ustack : List ℕ) : List (ℕ × ℕ) :=
  (sp, (argv.length + 1) * 8) :: (ustack.zip argv).map fun x => (x.1, x.2.length + 1)

/-- In the memory of process `p`, above `base`, there is an array of pointers at `sp`, ended by
a null pointer, and copies of the strings at the addresses `ustack` that it holds. -/
structure ArgStack (s : Kernel) (p base sp : ℕ) (argv : List (List UInt8)) (ustack : List ℕ) :
    Prop where
  aligned : sp % 16 = 0
  array : ∃ b : Bytes, (∀ k < (argv.length + 1) * 8, s.userByte p (sp + k) = some (b k)) ∧
    ∀ i ≤ argv.length, b.getLE (8 * i) 8 = (ustack ++ [0]).getD i 0
  copies : List.Forall₂ (fun a addr => ∀ k ≤ a.length, s.userByte p (addr + k) = some (a.getD k 0))
    argv ustack
  apart : (pieces sp argv ustack).Pairwise fun x y => x.1 + x.2 ≤ y.1 ∨ y.1 + y.2 ≤ x.1
  inside : ∀ x ∈ pieces sp argv ustack, base ≤ x.1 ∧ x.1 + x.2 ≤ base + pgSize

section Pieces

variable {sp n : ℕ} {argv : List (List UInt8)} {a : List UInt8}

/-- The strings lie one below the other. -/
theorem argAddrs_pieces (hroom : argBytes argv ≤ sp) :
    let strings := ((argAddrs sp argv).zip argv).map fun x => (x.1, x.2.length + 1)
    (∀ x ∈ strings, sp - argBytes argv ≤ x.1 ∧ x.1 + x.2 ≤ sp) ∧
      strings.Pairwise fun x y => x.1 + x.2 ≤ y.1 ∨ y.1 + y.2 ≤ x.1 := by
  induction argv generalizing sp with
  | nil => simp [argAddrs]
  | cons a argv ih =>
    rw [argBytes_cons] at hroom ⊢
    obtain ⟨hin, hapart⟩ := ih (show argBytes argv ≤ sp - up16 (a.length + 1) by omega)
    have hle := (le_up16 (a.length + 1)).1
    simp only [argAddrs, zip_cons_cons, map_cons, mem_cons, pairwise_cons]
    refine ⟨?_, fun x hx => .inr (hin x hx).2, hapart⟩
    rintro x (rfl | hx)
    · dsimp only
      omega
    · obtain ⟨hlow, hhigh⟩ := hin x hx
      omega

theorem argAddrs_lt (hsp : sp < 2 ^ 64) : ∀ addr ∈ argAddrs sp argv, addr < 2 ^ 64 := by
  induction argv generalizing sp with
  | nil => simp [argAddrs]
  | cons a argv ih =>
    simp only [argAddrs, mem_cons]
    rintro addr (rfl | haddr)
    · omega
    · exact ih (by omega) addr haddr

end Pieces

section Array

theorem getLE_zero (off w : ℕ) : Bytes.getLE (fun _ => 0) off w = 0 := by
  induction w generalizing off with
  | zero => rfl
  | succ w ih => rw [Bytes.getLE, ih]; rfl

/-- The pointers are read back from the array. -/
theorem ustackBytes_getLE {ustack : List ℕ} (h : ∀ a ∈ ustack, a < 2 ^ 64) (i : ℕ) :
    (ustackBytes ustack).getLE (8 * i) 8 = (ustack ++ [0]).getD i 0 := by
  have hfold : ∀ n ≤ ustack.length, ((range n).foldl
      (fun b j => b.setLE (8 * j) 8 (ustack.getD j 0)) fun _ => 0 : Bytes).getLE (8 * i) 8 =
        if i < n then ustack.getD i 0 else 0 := by
    intro n hn
    induction n with
    | zero => exact getLE_zero _ _
    | succ n ih =>
      rw [range_succ, foldl_append, foldl_cons, foldl_nil]
      by_cases hi : i = n
      · subst hi
        have hlt : ustack.getD i 0 < 256 ^ 8 := by
          rw [getD_eq_getElem _ _ (by omega)]
          exact h _ (getElem_mem _)
        rw [Bytes.getLE_setLE_of_lt _ _ _ _ hlt, if_pos (by omega)]
      · rw [Bytes.getLE_setLE_of_disjoint _ _ _ _ _ _ (by omega), ih (by omega)]
        simp only [show i < n + 1 ↔ i < n by omega]
  rw [ustackBytes, hfold _ le_rfl]
  split_ifs with hi
  · rw [getD_append _ _ _ _ hi]
  · rw [getD_append_right _ _ _ _ (by omega)]
    cases i - ustack.length with
    | zero => rfl
    | succ j => rfl

end Array

section Pushing

variable {t p sz sp len pa : ℕ} {s s' : Kernel} {src b : Bytes} {argv : List (List UInt8)}

/-- The stack page of process `p` in user memory. -/
theorem Pushed.argStack (h : Pushed sz sp argv b) (hpos : pgSize ≤ sz) (hlt : sz < 2 ^ 64)
    (hsz : sz % pgSize = 0) (hfits : Fits argv)
    (hmem : ∀ o < pgSize, s.userByte p (sz - pgSize + o) = some (b o)) :
    ArgStack s p (sz - pgSize) sp argv (argAddrs sz argv) := by
  have hsp := h.sp_eq
  have harray := le_up16 ((argv.length + 1) * 8)
  have hargsmod := argBytes_mod argv
  unfold Fits at hfits
  have hbytes : arrayBytes argv = up16 ((argv.length + 1) * 8) := rfl
  obtain ⟨hin, hapart⟩ := argAddrs_pieces (show argBytes argv ≤ sz by omega)
  have hread : ∀ a, sz - pgSize ≤ a → a < sz → s.userByte p a = some (b (a - (sz - pgSize))) := by
    intro a hlow hhigh
    rw [← hmem _ (by omega), Nat.add_sub_cancel' hlow]
  constructor
  · unfold pgSize at *
    omega
  · refine ⟨ustackBytes (argAddrs sz argv), fun k hk => ?_, fun i _ => ?_⟩
    · rw [hread _ (by omega) (by omega), h.array k hk]
    · exact ustackBytes_getLE (argAddrs_lt hlt) i
  · refine h.copies.imp fun a addr hc k hk => ?_
    rw [hread _ (by omega) (by omega)]
    exact congrArg some (hc.2 k hk)
  · unfold pieces
    rw [pairwise_cons]
    refine ⟨fun x hx => .inl ?_, hapart⟩
    have := (hin x hx).1
    dsimp only
    omega
  · unfold pieces
    intro x hx
    rcases mem_cons.mp hx with rfl | hx
    · dsimp only
      omega
    · obtain ⟨hlow, hhigh⟩ := hin x hx
      omega

end Pushing

section Image

variable {p sz pa entry : ℕ} {pool : ℕ → Prop} {s₀ s s₁ s₂ : Kernel} {g : Segments} {w w' : World}
  {path : List UInt8} {argv : List (List UInt8)} {r : Option ℕ} {u : PUnit}

theorem uvmclear_freelist {t va : ℕ} (hx : uvmclear t va s = .ok u s₁) :
    s₁.freelist = s.freelist := by
  unfold uvmclear at hx
  rw [get_run] at hx
  obtain ⟨-, hx⟩ := throw_ite_ok hx
  cases hl : s.lookup t (va / pgSize) with
  | none => simp [hl] at hx
  | some pte =>
    simp only [hl, set_ok] at hx
    subst hx
    rfl

/-- The stack page is new. -/
theorem Ready.stackPage (h : Ready p g pool s₀ s) (hnd : s.freelist.Nodup)
    (hx1 : uvmalloc (spare p) g.size (u64 (g.size + 2 * pgSize)) dataPerm s = .ok sz s₁)
    (hsz : sz ≠ 0) (hx2 : uvmclear (spare p) (u64 (sz - 2 * pgSize)) s₁ = .ok u s₂) :
    Building (spare p) pool s₀ s₂ ∧
      ∃ pa, StackPage (spare p) sz pa s₂ ∧ pa ∉ s₂.freelist ∧ pool pa := by
  obtain ⟨hb2, pa, hstack⟩ := h.building.stacked h.hollow hx1 hsz hx2
  obtain ⟨rfl, hext, hclear⟩ := extended_of_image hx1 hsz hx2
  have hroom := h.room
  have hal := g.size_mod
  have htf : Xv6.trapframe = trapVpn * 4096 := by decide
  have hmax := trapframe_le
  have hpg : pgSize = 4096 := rfl
  have hmod : (g.size + 2 * pgSize) % pgSize = 0 := by rw [Nat.add_mul_mod_self_right, hal]
  have hpages : (g.size + 2 * pgSize) / pgSize = g.size / pgSize + 2 :=
    Nat.add_mul_div_right _ _ (by decide)
  have hdiv : (g.size + 2 * pgSize - pgSize) / pgSize = g.size / pgSize + 1 := by
    rw [hpg]
    omega
  have hnew : u64 ((g.size : ℤ) + 2 * pgSize) = g.size + 2 * pgSize := by
    unfold u64 maxVa at *
    omega
  obtain ⟨-, pte, htrans, -, rfl⟩ := walkaddr_some hstack.page
  refine ⟨hb2, pte.ppn, hstack, ?_, ?_⟩
  · obtain ⟨r, s', hrun, hcase⟩ := uvmalloc_grows g.size (g.size + 2 * pgSize) true false
      h.building.special.has hnd h.building.stock (Nat.le_add_right _ _) hroom (by
        intro v hlow hv
        rw [pgRoundUp_of_mod hal] at hlow
        rw [pgRoundUp_of_mod hmod, hpages] at hv
        exact (hext.fresh v hlow hv).2.1)
    rw [hnew] at hx1
    obtain ⟨rfl, rfl⟩ := EStateM.Result.ok.inj (hx1.symm.trans hrun)
    rcases hcase with ⟨-, leaves, tabs, hcov, hgrown, -⟩ | ⟨hzero, -⟩
    · obtain ⟨⟨v, pa⟩, hmem, hv⟩ := mem_map.mp ((hcov (g.size / pgSize + 1)).mpr (by
        rw [pgRoundUp_of_mod hal, pgRoundUp_of_mod hmod, hpages]
        omega))
      obtain ⟨-, -, _, hguard⟩ := hext.fresh (g.size / pgSize) le_rfl (by omega)
      have hnewest := (hgrown.new _ _ hmem).2.1
      rw [hdiv, uvmclear_trans hguard hclear, if_neg (by omega), ← hv, hnewest] at htrans
      cases htrans
      rw [uvmclear_freelist hclear]
      exact hgrown.leaf_taken hnd hmem
    · exact absurd hzero hsz
  · rw [hdiv] at htrans
    obtain ⟨pt, hs, hpt⟩ := Option.bind_eq_some_iff.mp htrans
    apply hb2.lent.loan.held (.leaf (g.size / pgSize + 1))
    have hlow : g.size / pgSize + 1 < trapVpn := by
      rw [hpg]
      omega
    simp [Kernel.held, hs, PageTable.holds, hpt, hlow]

/-- Giving the old page table up leaves the stack page alone. -/
theorem Ready.stack_kept {b : Bytes} {s4 : Kernel} (h : Ready p g pool s₀ s)
    (hb2 : Building (spare p) pool s₀ s₂) (hstack : StackPage (spare p) sz pa s₂)
    (hfree : pa ∉ s₂.freelist) (hpool : pool pa) (htable : s₂.table p = s.table p)
    (hx : procFreepagetable (spare p) (s.proc p).sz ((s₂.setPage pa b).swapped p sz) = .ok u s4) :
    (s4.proc p).sz = sz ∧ ∀ o < pgSize, s4.userByte p (sz - pgSize + o) = some (b o) := by
  have hne := spare_ne p
  have hold := h.swapped sz (hb2.lent.setPage hpool b) htable
  obtain ⟨hl4, -⟩ := procFreepagetable_lent hold.lent hx
  obtain ⟨hr4, -⟩ := procFreepagetable_spec hx
  have hnew : s4.table p = s₂.table (spare p) := by
    rw [hr4.table hne.symm]
    simp [Kernel.swapped, Kernel.setProc, Kernel.setTable, Kernel.setPage, hne.symm]
  have hmem : s4.mem pa = b := by
    refine (hl4.mem pa ?_).trans (update_self ..)
    rintro (hin | ⟨x, hheld⟩)
    · exact hfree hin
    · refine h.apart x pa ?_ hpool
      rw [← hheld]
      simp [Kernel.held, Kernel.swapped, Kernel.setProc, Kernel.setTable, Kernel.setPage, htable]
  refine ⟨?_, fun o ho => ?_⟩
  · rw [hr4.proc]
    simp [Kernel.swapped, Kernel.setProc]
  · have hal := hstack.aligned
    have hguard := hstack.guard
    have hdiv : (sz - pgSize + o) / pgSize = (sz - pgSize) / pgSize := by
      unfold pgSize at *
      omega
    have hmod : (sz - pgSize + o) % pgSize = o := by
      unfold pgSize at *
      omega
    have hwalk : s4.walkaddr p (sz - pgSize + o) = some pa := by
      rw [walkaddr_congr hdiv, ← hstack.page]
      simp [Kernel.walkaddr, Kernel.trans, hnew]
    rw [userByte_of_walkaddr hwalk, hmem, hmod]

/-- Exec from the stack on: without memory for the stack it fails. -/
theorem execImageCall_args (h : Ready p g pool s₀ w.kernel) (hnd : w.kernel.freelist.Nodup)
    (hargs : ∀ a ∈ argv, a.length < pgSize) (hcount : argv.length < maxArg)
    (hx : execImageCall p path entry g argv w = .ok r w') :
    (r = none ∧ ∃ s₁, uvmalloc (spare p) g.size (u64 (g.size + 2 * pgSize)) dataPerm w.kernel =
        .ok 0 s₁) ∨
      (r = none ∧ ¬ Fits argv) ∨
      (r = some argv.length ∧ Fits argv ∧ (w'.regs p).sp = (w'.regs p).a1 ∧ ∃ ustack,
        ArgStack w'.kernel p ((w'.kernel.proc p).sz - pgSize) (w'.regs p).a1 argv ustack) := by
  have hne := spare_ne p
  unfold execImageCall at hx
  simp only [bind_ok, modify_ok, get_ok, onKernel_ok] at hx
  obtain ⟨_, _, rfl, _, _, ⟨rfl, rfl⟩, sz, _, ⟨s₁, hx1, rfl⟩, hx⟩ := hx
  rcases ite_ok hx with ⟨hzero, hx⟩ | ⟨hsz, hx⟩
  · simp only [bind_ok, pure_ok] at hx
    obtain ⟨_, _, _, hr, _⟩ := hx
    exact .inl ⟨hr.symm, s₁, hzero ▸ hx1⟩
  simp only [bind_ok, onKernel_ok] at hx
  obtain ⟨_, _, ⟨s₂, hx2, rfl⟩, o, _, ⟨s3, hpush, rfl⟩, hx⟩ := hx
  obtain ⟨hb2, pa, hstack, hfree, hpool⟩ := h.stackPage hnd hx1 hsz hx2
  obtain ⟨hfit, hfull⟩ := pushAll_run p hstack fun a ha => .inl (hargs a ha)
  by_cases hfits : Fits argv
  · obtain ⟨sp, b, hrun, hpushed⟩ := hfit ⟨hcount.le, hfits⟩
    obtain ⟨rfl, rfl⟩ : o = some (sp, argv.length) ∧ s3 = s₂.setPage pa b := by
      simpa [hpush] using hrun
    simp only [bind_ok, modify_ok, pure_ok, onKernel_ok] at hx
    obtain ⟨_, _, rfl, _, _, rfl, _, _, ⟨_, rfl, rfl⟩, _, _, ⟨_, rfl, rfl⟩, _, _, rfl,
      _, _, ⟨s4, hfreed, rfl⟩, rfl, rfl⟩ := hx
    refine .inr (.inr ⟨rfl, hfits, by simp [World.setRegs, World.setName], argAddrs sz argv, ?_⟩)
    have hr := (uvmalloc_spec hx1).1.andThen (uvmclear_lt hx2).2
    obtain ⟨hsize, hmem⟩ := h.stack_kept hb2 hstack hfree hpool (hr.table hne.symm) hfreed
    have hguard := hstack.guard
    have hlow := hstack.low
    change ArgStack s4 p ((s4.proc p).sz - pgSize) _ _ _
    rw [hsize]
    simp only [World.setRegs, World.setName, update_self]
    exact hpushed.argStack (by omega) (by unfold maxVa at hlow; omega) hstack.aligned hfits hmem
  · obtain ⟨s', hrun⟩ := hfull fun hc => hfits hc.2
    obtain ⟨rfl, rfl⟩ : o = none ∧ s3 = s' := by simpa [hpush] using hrun
    simp only [bind_ok, pure_ok] at hx
    obtain ⟨_, _, _, hr, _⟩ := hx
    exact .inr (.inl ⟨hr.symm, hfits⟩)

/-- What `exec` has when it has accepted the headers. -/
theorem Kernel.Executes.head {K i : ℕ} {ip : Option ℕ} (h : s.Executes K p ip)
    (hnd : s.freelist.Nodup) (hhead : execHead p ip s = .ok (some (i, g)) s₁)
    (hun : iunlock i (s₁.setSegments p g i) = .ok ⟨⟩ s₂) :
    Ready p g (· ∈ s.freelist) s s₂ ∧ s₂.freelist.Nodup := by
  obtain ⟨-, -, hrun⟩ := execHead_ok h.none hhead
  obtain ⟨rfl, hrun, -, -⟩ := hrun i g rfl
  refine ⟨(h.ready hrun hun).1, ?_⟩
  obtain ⟨bytes, n, s3, s4, hread, -, hpt, hload⟩ := hrun.run
  obtain ⟨ino, fb, rfl, -⟩ := FilesOnly.loadSegments _ _ _ hload
  obtain rfl := modify_ok.mp hun
  obtain ⟨ino', fb', rfl, -⟩ := FilesOnly.readKernel _ _ _ hread
  exact hnd.sublist (procPagetableIn_suffix hpt).sublist

/-- With arguments as `sys_exec` passes them, `exec` fails when there is no memory for the stack,
or because the strings and the array of pointers do not fit in the stack page. Otherwise it
returns their number, and the stack pointer and the register `a1` hold the address of the array,
in the memory of the process. -/
theorem exec_argument_stack (w : World) (path : List UInt8) (entry : ℕ)
    (argv : List (List UInt8)) (h : Ready p g pool s₀ w.kernel) (hnd : w.kernel.freelist.Nodup)
    (hargs : ∀ a ∈ argv, a.length < pgSize) (hcount : argv.length < maxArg) :
    ∃ r w', execImageCall p path entry g argv w = .ok r w' ∧
      ((r = none ∧ ∃ s₁,
          uvmalloc (spare p) g.size (u64 (g.size + 2 * pgSize)) dataPerm w.kernel = .ok 0 s₁) ∨
        (r = none ∧ ¬ Fits argv) ∨
        (r = some argv.length ∧ Fits argv ∧ (w'.regs p).sp = (w'.regs p).a1 ∧ ∃ ustack,
          ArgStack w'.kernel p ((w'.kernel.proc p).sz - pgSize) (w'.regs p).a1 argv ustack)) := by
  have hreturns : Returns (execImageCall p path entry g argv) w :=
    execImageCall_returns h fun a ha => .inl (hargs a ha)
  cases hx : execImageCall p path entry g argv w with
  | ok r w' => exact ⟨r, w', rfl, execImageCall_args h hnd hargs hcount hx⟩
  | error e w' => exact absurd hx (by simpa using hreturns e w')

/-- The program is run with the arguments `ls` and an empty string. -/
theorem exec_argument_stack_program : ∃ w' ustack,
    execCall 0 [] (some 2) [[0x6C, 0x73], []] programWorld = .ok (some 2) w' ∧
      (w'.regs 0).sp = (w'.regs 0).a1 ∧ ArgStack w'.kernel 0 ((w'.kernel.proc 0).sz - pgSize)
        (w'.regs 0).a1 [[0x6C, 0x73], []] ustack := by
  have hrun : (match execCall 0 [] (some 2) [[0x6C, 0x73], []] programWorld with
      | .ok r _ => r == some 2
      | .error _ _ => false) = true := by decide +kernel
  have hnd : programWorld.kernel.freelist.Nodup := by decide +kernel
  have hexecutes : programWorld.kernel.Executes _ 0 (some 2) :=
    programSystem_ordered.executes (by decide) (by decide +kernel) boot_sole.setInode
      fun _ => ⟨programWorld_laidOut, programWorld_bare⟩
  cases hx : execCall 0 [] (some 2) [[0x6C, 0x73], []] programWorld with
  | error e w' => simp [hx] at hrun
  | ok r w' =>
    obtain rfl : r = some 2 := by simpa [hx] using hrun
    rcases execCall_cases hx with ⟨hr, -⟩ | ⟨i, g, s₁, s₂, entry, hhead, hun, himage⟩
    · cases hr
    obtain ⟨hready, hnd'⟩ := hexecutes.head hnd hhead hun
    obtain ⟨r, w'', himage', hcase⟩ := exec_argument_stack
      { programWorld.setIref i (programWorld.iref i + 1) with kernel := s₂ } [] entry
      [[0x6C, 0x73], []] hready hnd' (by decide) (by decide)
    obtain ⟨rfl, rfl⟩ := EStateM.Result.ok.inj (himage.symm.trans himage')
    rcases hcase with ⟨hr, -⟩ | ⟨hr, -⟩ | ⟨-, -, hsp, ustack, hstack⟩
    · cases hr
    · cases hr
    · exact ⟨w', ustack, rfl, hsp, hstack⟩

end Image

end Xv6.Vm
