import Xv6.Vm.ExecEffects
import Xv6.Vm.ForkPages

/-!
# What system calls do

Each call of the machine taken apart: `wait` frees a child that has exited, the calls on
file descriptors touch files, descriptors and user memory, and the other calls are as
described before. From this follow the invariants that every call keeps.
-/
namespace Xv6.Vm

open Library Relation Function

section Wait

variable {p pp : ℕ} {s s₁ s' : Kernel} {u : PUnit}

/-- Process `pp` is gone, with its page table and its trapframe. -/
structure Reaped (pp : ℕ) (s s' : Kernel) : Prop where
  procs : s'.proc = update s.proc pp
    { s.proc pp with sz := 0, killed := false, state := .unused, trapframe := none }
  vmas : s'.vmas = s.vmas
  file : s'.file = s.file
  table : ∀ q, q ≠ pp → s'.table q = s.table q
  cleared : s'.table pp = none

theorem freeTrapframe_frame (hx : freeTrapframe pp s = .ok u s') :
    s'.proc = update s.proc pp { s.proc pp with trapframe := none } ∧
      s'.vmas = s.vmas ∧ s'.file = s.file ∧ s'.table = s.table := by
  unfold freeTrapframe at hx
  rw [get_run] at hx
  cases hpa : (s.proc pp).trapframe with
  | none =>
    simp only [hpa, pure_ok] at hx
    obtain ⟨-, rfl⟩ := hx
    refine ⟨?_, rfl, rfl, rfl⟩
    rw [← hpa, update_eq_self]
  | some pa =>
    simp only [hpa, bind_ok, modify_ok] at hx
    obtain ⟨_, s3, hfree, rfl⟩ := hx
    obtain ⟨-, rfl⟩ := kfree_ok hfree
    exact ⟨rfl, rfl, rfl, rfl⟩

theorem freeproc_reaped (hx : freeproc pp s = .ok u s') : Reaped pp s s' := by
  unfold freeproc at hx
  simp only [bind_ok, modify_ok] at hx
  obtain ⟨_, s₁, htf, _, s2, htab, rfl⟩ := hx
  obtain ⟨hproc, hvmas, hfile, htable⟩ := freeTrapframe_frame htf
  obtain ⟨hw, hcl⟩ : Reworked pp s₁ s2 ∧ s2.table pp = none := by
    unfold freeTable at htab
    rw [get_run] at htab
    rcases ite_ok htab with ⟨-, htab⟩ | ⟨hnone, htab⟩
    · exact procFreepagetable_spec htab
    · obtain ⟨-, rfl⟩ := pure_ok.mp htab
      exact ⟨Reworked.refl _, by simpa using hnone⟩
  refine ⟨?_, hw.vmas.trans hvmas, hw.file.trans hfile, fun q hq => ?_, hcl⟩
  · simp [Kernel.setProc, hw.proc, hproc]
  · exact (hw.table hq).trans (congrFun htable q)

/-- The calling process may get the status of a child, and the child may be freed. -/
inductive Waited (σ : System) (p : ℕ) (s' : Kernel) : Prop
  | none (h : s' = σ.kernel)
  | copied (src : Bytes) (va m : ℕ) (h : CopiedOut p src va 0 m σ.kernel s')
  | reaped (pp : ℕ) (hz : σ.zombie p = some pp) (s₁ : Kernel)
      (hc : s₁ = σ.kernel ∨ ∃ src va m, CopiedOut p src va 0 m σ.kernel s₁) (h : Reaped pp s₁ s')

theorem wait_ok {σ : System} {addr : ℕ} {status : Bytes} (hsp : σ.kernel.Special p)
    (hx : wait σ p addr status σ.kernel = .ok u s') : Waited σ p s' := by
  unfold wait at hx
  cases hz : σ.zombie p with
  | none =>
    simp only [hz] at hx
    obtain ⟨-, hx⟩ := throw_ite_ok hx
    exact .none (pure_ok.mp hx).2.symm
  | some pp =>
    simp only [hz] at hx
    unfold reap at hx
    rcases ite_ok hx with ⟨-, hx⟩ | ⟨-, hx⟩
    · obtain ⟨b, s₁, hcopy, hx⟩ := bind_ok.mp hx
      obtain ⟨m, -, hc⟩ := copyout_ok hsp hcopy
      rcases ite_ok hx with ⟨-, hx⟩ | ⟨-, hx⟩
      · exact .reaped pp hz s₁ (.inr ⟨_, _, _, hc⟩) (freeproc_reaped hx)
      · obtain ⟨-, rfl⟩ := pure_ok.mp hx
        exact .copied _ _ _ hc
    · exact .reaped pp hz σ.kernel (.inl rfl) (freeproc_reaped hx)

theorem zombie_state {σ : System} (hz : σ.zombie p = some pp) :
    (σ.kernel.proc pp).state = .zombie ∧ pp < nProc ∧ σ.parent pp = some p := by
  unfold System.zombie at hz
  have hfound := List.find?_some hz
  simp only [decide_eq_true_eq] at hfound
  exact ⟨hfound.2, List.mem_range.mp (List.mem_of_find?_eq_some hz), hfound.1⟩

/-- A child that is given up had exited. -/
theorem Waited.cases {σ : System} (h : Waited σ p s') : Local p σ.kernel s' ∨
    ∃ pp s₁, (s₁.proc pp).state = .zombie ∧ Local p σ.kernel s₁ ∧ Reaped pp s₁ s' := by
  cases h with
  | none hsame => exact .inl (hsame ▸ .refl _)
  | copied src va m hc => exact .inl hc.toLocal
  | reaped pp hz s₁ hc hr =>
    have hl : Local p σ.kernel s₁ := by
      rcases hc with rfl | ⟨src, va, m, hc⟩
      · exact .refl _
      · exact hc.toLocal
    exact .inr ⟨pp, s₁, (hl.unmoved.state pp).trans (zombie_state hz).1, hl, hr⟩

end Wait

section Descriptors

/-- What the calls on file descriptors do, step by step. -/
inductive FdAct (p : ℕ) (s : Kernel) : Kernel → Prop
  | setFile (f : ℕ) (file : File) : FdAct p s (s.setFile f file)
  | setOfile (fd : ℕ) (o : Option ℕ) :
      FdAct p s (s.setProc p fun q => { q with ofile := update q.ofile fd o })
  | files (ino : ℕ → Inode) (fb : ℕ) : FdAct p s (s.withFiles ino fb)
  | copied {s' : Kernel} {src : Bytes} {va m : ℕ} (h : CopiedOut p src va 0 m s s') : FdAct p s s'

abbrev FdActs (p : ℕ) : Kernel → Kernel → Prop := ReflTransGen (FdAct p)

variable {p f : ℕ} {s s' : Kernel} {u : PUnit}

theorem FdActs.sane (h : FdActs p s s') (hs : s.Sane) (hp : (s.proc p).state ≠ .unused) :
    s'.Sane ∧ (s'.proc p).state ≠ .unused := by
  induction h with
  | refl => exact ⟨hs, hp⟩
  | tail _ ha ih =>
    obtain ⟨hsane, hstate⟩ := ih
    cases ha with
    | setFile f file => exact ⟨hsane.setFile, hstate⟩
    | setOfile fd o =>
      refine ⟨hsane.setProc rfl rfl rfl, ?_⟩
      simpa [Kernel.setProc] using hstate
    | files ino fb => exact ⟨hsane.transfer (Transfer.files (p := p) ino fb), hstate⟩
    | copied hc =>
      exact ⟨hsane.copiedOut hc, by rwa [hc.toLocal.unmoved.state]⟩

theorem FdActs.unmoved (h : FdActs p s s') : Unmoved s s' := by
  induction h with
  | refl => exact .of_eq rfl rfl
  | tail _ ha ih =>
    refine ih.andThen ?_
    cases ha with
    | setFile f file => exact .setFile f file
    | setOfile fd o => exact .setOfile fd o
    | files ino fb => exact .of_eq rfl rfl
    | copied hc => exact hc.toLocal.unmoved

/-- Every run of `x` goes by such steps. -/
abbrev FdMoves (p : ℕ) (s : Kernel) {α : Type} (x : KernelM α) : Prop :=
  Triple (FdActs p s) x (fun _ => FdActs p s) fun _ _ => True

theorem moves_pure {α : Type} {a : α} : FdMoves p s (pure a) := Triple.pure fun _ h => h

theorem moves_setFile {file : Kernel → File} :
    FdMoves p s (modify fun s => s.setFile f (file s)) :=
  Triple.modify fun t h => h.tail (.setFile f (file t))

theorem moves_fileclose : FdMoves p s (fileclose f) := by
  apply Triple.of_runs
  intro t _ t' h hx
  obtain ⟨file, rfl, -⟩ := fileclose_spec hx
  exact h.tail (.setFile f file)

theorem moves_setOfile {fd : ℕ} {o : Option ℕ} : FdMoves p s (setOfile p fd o) :=
  Triple.modify fun _ h => h.tail (.setOfile fd o)

theorem moves_filealloc : FdMoves p s filealloc := by
  refine Triple.read fun t ht => ?_
  cases t.freeFile with
  | none => exact moves_pure
  | some f => exact (Triple.set fun _ _ => ht.tail (.setFile f _)).seq moves_pure

theorem moves_fdalloc : FdMoves p s (fdalloc p f) := by
  refine Triple.read fun t _ => ?_
  cases t.freeFd p with
  | none => exact moves_pure
  | some fd => exact moves_setOfile.seq moves_pure

theorem moves_sysDup {fd : ℤ} : FdMoves p s (sysDup p fd) := by
  refine Triple.read fun t _ => ?_
  cases t.argfd p fd with
  | none => exact moves_pure
  | some f =>
    refine moves_fdalloc.bind fun o => ?_
    cases o with
    | none => exact moves_pure
    | some fd' =>
      apply Triple.of_runs
      intro t _ t' h hx
      obtain ⟨file, rfl⟩ := filedup_ok hx
      exact h.tail (.setFile f file)

theorem moves_sysClose {fd : ℤ} : FdMoves p s (sysClose p fd) := by
  refine Triple.read fun t _ => ?_
  cases t.argfd p fd with
  | none => exact moves_pure
  | some f => exact moves_setOfile.seq moves_fileclose

theorem moves_openInode {ip omode : ℕ} {type : InodeType} :
    FdMoves p s (openInode p ip type omode) := by
  refine moves_filealloc.bind fun o => ?_
  cases o with
  | none => exact moves_pure
  | some f =>
    refine moves_fdalloc.bind fun o => ?_
    cases o with
    | none => exact moves_fileclose
    | some fd =>
      refine moves_setFile.seq (Triple.ite (fun _ => ?_) fun _ => moves_pure)
      exact Triple.modify fun t h => h.tail (.files _ _)

theorem moves_pipealloc {page : Bool} : FdMoves p s (pipealloc page) := by
  refine moves_filealloc.bind fun o => ?_
  cases o with
  | none => exact moves_pure
  | some rf =>
    refine moves_filealloc.bind fun o => ?_
    cases o with
    | none => exact moves_fileclose.seq moves_pure
    | some wf =>
      apply Triple.ite
      · exact fun _ => moves_setFile.seq (moves_setFile.seq moves_pure)
      · exact fun _ => moves_fileclose.seq (moves_fileclose.seq moves_pure)

theorem moves_copyout {va len : ℕ} {src : Bytes} (hs : s.Sane) (hp : (s.proc p).state ≠ .unused) :
    FdMoves p s (copyout p va src len) := by
  apply Triple.of_runs
  intro t _ t' h hx
  obtain ⟨ht, hp'⟩ := h.sane hs hp
  obtain ⟨m, -, hc⟩ := copyout_ok (ht.special p hp') hx
  exact h.tail (.copied hc)

theorem moves_sysPipe {fdarray : ℕ} {page : Bool} (hs : s.Sane) (hp : (s.proc p).state ≠ .unused) :
    FdMoves p s (sysPipe p fdarray page) := by
  refine moves_pipealloc.bind fun o => ?_
  cases o with
  | none => exact moves_pure
  | some r =>
    have hclose : ∀ f g, FdMoves p s (fileclose f >>= fun _ => fileclose g) :=
      fun _ _ => moves_fileclose.seq moves_fileclose
    refine moves_fdalloc.bind fun o => ?_
    cases o with
    | none => exact hclose _ _
    | some fd0 =>
      refine moves_fdalloc.bind fun o => ?_
      cases o with
      | none => exact moves_setOfile.seq (hclose _ _)
      | some fd1 =>
        have hcopy : FdMoves p s (copyoutFds p fdarray fd0 fd1) :=
          (moves_copyout hs hp).bind fun _ => Triple.ite (fun _ => moves_copyout hs hp) fun _ =>
          moves_pure
        refine hcopy.bind fun _ => Triple.ite (fun _ => moves_pure) fun _ => ?_
        exact moves_setOfile.seq (moves_setOfile.seq (hclose _ _))

end Descriptors

section Calls

variable {σ τ : System} {c : Call} {p : ℕ} {s s' : Kernel}

def CallOutcome (σ : System) (t : Kernel) : Call → Prop
  | .event e => Step σ.kernel e t
  | .wait p _ _ => Waited σ p t
  | .sbrk p _ => Resized p σ.kernel t
  | .exec p ip argv => Execed p ip argv σ.kernel t
  | .openFile p _ _ | .pipe p _ _ | .dup p _ | .close p _ => FdActs p σ.kernel t

theorem SysStep.called (h : SysStep σ c τ) : σ.kernel.MayCall c ∧
    (∃ bound, call bound σ c σ.kernel = .ok ⟨⟩ τ.kernel) ∧ τ.parent = σ.parents τ.kernel c := by
  obtain ⟨bound, hstep⟩ := h
  unfold System.step at hstep
  split_ifs at hstep with hmay
  cases hx : call bound σ c σ.kernel with
  | error err s₁ => simp [hx] at hstep
  | ok u s₁ =>
    simp only [hx, Except.ok.injEq] at hstep
    subst hstep
    exact ⟨hmay, ⟨bound, hx⟩, rfl⟩

theorem Kernel.MayCall.runnable (h : s.MayCall c) :
    c.proc < nProc ∧ (s.proc c.proc).state = .runnable := by
  cases c with
  | event e => exact ⟨h.1, h.2.1⟩
  | _ => exact ⟨h.1, h.2.1⟩

theorem SysStep.runnable (h : SysStep σ c τ) :
    c.proc < nProc ∧ (σ.kernel.proc c.proc).state = .runnable :=
  Kernel.MayCall.runnable h.called.1

theorem SysStep.used (h : SysStep σ c τ) : (σ.kernel.proc c.proc).state ≠ .unused := by
  simp [h.runnable.2]

theorem i32_bounds (z : ℤ) : -2 ^ 31 ≤ i32 z ∧ i32 z < 2 ^ 31 := by
  unfold i32
  omega

theorem Kernel.Sane.spare_none (h : s.Sane) (p : ℕ) : s.table (spare p) = none := by
  cases ht : s.table (spare p) with
  | none => rfl
  | some pt =>
    have hlt := (h.bounded _ pt ht).1
    unfold spare at hlt
    omega

theorem SysStep.outcome (h : SysStep σ c τ) (hs : σ.kernel.Sane) : CallOutcome σ τ.kernel c := by
  obtain ⟨hmay, ⟨bound, hx⟩, -⟩ := h.called
  have hp := h.used
  have hsp := hs.special _ hp
  cases c with
  | event e =>
    refine ⟨bound, ?_⟩
    have hen : σ.kernel.Enabled e := hmay
    have hper : perform bound e σ.kernel = .ok ⟨⟩ τ.kernel := hx
    simp [step, hen, hper]
  | wait p addr status => exact wait_ok hsp hx
  | sbrk p n =>
    simp only [call, bind_ok, pure_ok] at hx
    obtain ⟨b, _, hg, -, rfl⟩ := hx
    exact (growproc_resized (i32_bounds n) (hs.size p hp) hsp hg).1
  | exec p ip argv =>
    simp only [call, bind_ok, pure_ok] at hx
    obtain ⟨b, _, he, -, rfl⟩ := hx
    exact exec_ok (hs.spare_none p) he
  | openFile p found omode =>
    simp only [call, sysOpen] at hx
    cases found with
    | none =>
      obtain ⟨-, hsame⟩ := pure_ok.mp hx
      rw [CallOutcome, ← hsame]
    | some r => exact moves_openInode.of_ok .refl hx
  | pipe p fdarray page => exact (moves_sysPipe hs hp).of_ok .refl hx
  | dup p fd => exact moves_sysDup.of_ok .refl hx
  | close p fd => exact moves_sysClose.of_ok .refl hx

/-- The page table and size of one process changed. -/
theorem Kernel.Sane.of_table (h : s.Sane) (hp : (s.proc p).state ≠ .unused)
    (hbounded : s'.Bounded) (ht : ∀ q, q ≠ p → s'.table q = s.table q)
    (hproc : ∀ q, (s'.proc q).state = (s.proc q).state ∧
      (s'.proc q).trapframe = (s.proc q).trapframe ∧ (q ≠ p → (s'.proc q).sz = (s.proc q).sz))
    (hlow : ∀ v pte, s'.trans p v = some pte → pte.perm.u = true → v < trapVpn)
    (hsp : s'.Special p) (hsz : (s'.proc p).sz ≤ Xv6.trapframe) (hv : s'.vmas = s.vmas) :
    s'.Sane := by
  have htrans : ∀ q v, q ≠ p → s'.trans q v = s.trans q v := by
    intro q v hq
    simp [Kernel.trans, ht q hq]
  have hne : ∀ q, (s.proc q).state = .unused → q ≠ p := by
    rintro q hq rfl
    exact hp hq
  constructor
  · exact hbounded
  · intro q v pte hv hu
    by_cases hq : q = p
    · subst hq
      exact hlow v pte hv hu
    · exact h.low q v pte ((htrans q v hq).symm.trans hv) hu
  · intro q hq
    have hq' : (s.proc q).state = .unused := (hproc q).1 ▸ hq
    obtain ⟨h1, h2, h3, h4⟩ := h.blank q hq'
    have hqp := hne q hq'
    exact ⟨hq, (ht q hqp).trans h2, (hproc q).2.1.trans h3, ((hproc q).2.2 hqp).trans h4⟩
  · intro q hq
    by_cases hqp : q = p
    · subst hqp
      exact hsp
    · intro v hv hlt
      rw [htrans q v hqp]
      exact h.special q ((hproc q).1 ▸ hq) v hv hlt
  · intro q hq
    by_cases hqp : q = p
    · subst hqp
      exact hsz
    · rw [(hproc q).2.2 hqp]
      exact h.size q ((hproc q).1 ▸ hq)
  · intro j
    rw [hv]
    exact h.fits j

theorem Kernel.Bounded.of_table (h : s.Bounded) (hp : p < nProc)
    (ht : ∀ q, q ≠ p → ∀ pt, s'.table q = some pt → s.table q = some pt) (hs : s'.Shallow p) :
    s'.Bounded := by
  intro q pt hpt
  by_cases hq : q = p
  · subst hq
    exact ⟨hp, hs pt hpt⟩
  · exact h q pt (ht q hq pt hpt)

theorem Kernel.Bounded.shallow (h : s.Bounded) (t : ℕ) : s.Shallow t :=
  fun pt hpt => (h t pt hpt).2

theorem Kernel.Sane.resized (h : s.Sane) (hp : (s.proc p).state ≠ .unused) (hlt : p < nProc)
    (hr : Resized p s s') : s'.Sane := by
  obtain ⟨s₁, sz, hw, rfl, hsz, hcase⟩ := hr
  have hold := h.size p hp
  have hsp := h.special p hp
  have htrans : ∀ v, trapVpn ≤ v → s₁.trans p v = s.trans p v := by
    intro v hv
    rcases hcase with ⟨-, hext⟩ | ⟨-, hcut⟩
    · have hend := hext.le_trapframe hsp (pgRoundUp_div_le_trapVpn hold)
      exact hext.old v (by omega)
    · rw [hcut, if_neg]
      have hend := pgRoundUp_div_le_trapVpn hold
      omega
  apply h.of_table hp
  · apply h.bounded.of_table hlt
    · intro q hq pt hpt
      exact (hw.table hq).symm.trans hpt
    · exact hw.shallow (h.bounded.shallow p)
  · intro q hq
    exact hw.table hq
  · intro q
    by_cases hq : q = p
    · subst hq
      simp [Kernel.setProc, hw.proc]
    · simp [Kernel.setProc, hq, hw.proc]
  · intro v pte hv hu
    by_contra hge
    have hv' : s₁.trans p v = some pte := hv
    rw [htrans v (by omega)] at hv'
    exact hge (h.low p v pte hv' hu)
  · intro v hv hlt'
    obtain ⟨pte, ht, hu⟩ := hsp v hv hlt'
    exact ⟨pte, (htrans v hv).trans ht, hu⟩
  · simpa [Kernel.setProc] using hsz
  · exact hw.vmas

theorem Kernel.Sane.beside (h : s.Sane) (hb : Beside p s s') (hn : s'.table (spare p) = none) :
    s'.Sane := by
  have htab : s'.table = s.table := by
    funext q
    by_cases hq : q = spare p
    · rw [hq, hn, h.spare_none]
    · exact hb.table q hq
  have htrans : s'.trans = s.trans := by
    funext q v
    simp [Kernel.trans, htab]
  constructor
  · simpa [Kernel.Bounded, htab] using h.bounded
  · simpa [htrans] using h.low
  · simpa [Kernel.Blank, hb.proc, htab] using h.blank
  · simpa [Kernel.Special, hb.proc, htrans] using h.special
  · simpa [hb.proc] using h.size
  · simpa [hb.vmas] using h.fits

theorem Kernel.Sane.execed {ip : Option ℕ} {argv : List (List UInt8)} (h : s.Sane)
    (hp : (s.proc p).state ≠ .unused) (hlt : p < nProc) (he : Execed p ip argv s s') : s'.Sane := by
  have hset : ∀ g i, (s.setSegments p g i).Sane := fun g i => h.setProc rfl rfl rfl
  cases he with
  | kept hb hn => exact h.beside hb hn
  | failed i g _ _ hb hn _ => exact (hset g i).beside hb hn
  | done i g _ _ hr =>
    have hstate : ((s.setSegments p g i).proc p).state ≠ .unused := by
      simpa [Kernel.setSegments, Kernel.setProc] using hp
    have hspare := (hset g i).spare_none p
    have htab : ∀ q, q ≠ p → s'.table q = (s.setSegments p g i).table q := by
      intro q hq
      by_cases hq' : q = spare p
      · rw [hq', hr.cleared, hspare]
      · exact hr.table q hq hq'
    apply (hset g i).of_table hstate
    · apply (hset g i).bounded.of_table hlt
      · intro q hq pt hpt
        exact (htab q hq).symm.trans hpt
      · apply hr.shallow
        intro pt hpt
        rw [hspare] at hpt
        cases hpt
    · exact htab
    · intro q
      rw [hr.procs]
      by_cases hq : q = p <;> simp [hq]
    · intro v pte hv hu
      exact hr.stacked.low hv hu
    · exact hr.stacked.special
    · rw [hr.procs]
      simpa using hr.stacked.room
    · exact hr.vmas

theorem Kernel.Sane.reaped {pp : ℕ} (h : s.Sane) (hr : Reaped pp s s') : s'.Sane := by
  have htrans : ∀ q v, q ≠ pp → s'.trans q v = s.trans q v := by
    intro q v hq
    simp [Kernel.trans, hr.table q hq]
  have hproc : ∀ q, q ≠ pp → s'.proc q = s.proc q := by
    intro q hq
    simp [hr.procs, hq]
  have hself : (s'.proc pp).state = .unused := by simp [hr.procs]
  constructor
  · intro q pt hpt
    by_cases hq : q = pp
    · rw [hq, hr.cleared] at hpt
      cases hpt
    · exact h.bounded q pt ((hr.table q hq).symm.trans hpt)
  · intro q v pte hv hu
    by_cases hq : q = pp
    · simp [Kernel.trans, hq, hr.cleared] at hv
    · exact h.low q v pte ((htrans q v hq).symm.trans hv) hu
  · intro q hq
    by_cases hqp : q = pp
    · subst hqp
      exact ⟨hq, hr.cleared, by simp [hr.procs], by simp [hr.procs]⟩
    · have hb := h.blank q (hproc q hqp ▸ hq)
      simpa [Kernel.Blank, hproc q hqp, hr.table q hqp] using hb
  · intro q hq
    have hqp : q ≠ pp := by
      rintro rfl
      exact hq hself
    intro v hv hlt
    rw [htrans q v hqp]
    exact h.special q (hproc q hqp ▸ hq) v hv hlt
  · intro q hq
    have hqp : q ≠ pp := by
      rintro rfl
      exact hq hself
    rw [hproc q hqp] at hq ⊢
    exact h.size q hq
  · intro j
    rw [hr.vmas]
    exact h.fits j

/-- Every call keeps the page tables well formed. -/
theorem Kernel.Sane.sysStep (h : σ.kernel.Sane) (hstep : SysStep σ c τ) : τ.kernel.Sane := by
  have ho := hstep.outcome h
  obtain ⟨hlt, hrun⟩ := hstep.runnable
  have hp : (σ.kernel.proc c.proc).state ≠ .unused := by simp [hrun]
  cases c with
  | event e => exact h.step ho
  | wait p addr status =>
    cases ho with
    | none hsame => exact hsame ▸ h
    | copied src va m hc => exact h.copiedOut hc
    | reaped pp _ s₁ hc hr =>
      have h1 : s₁.Sane := by
        rcases hc with rfl | ⟨src, va, m, hc⟩
        · exact h
        · exact h.copiedOut hc
      exact h1.reaped hr
  | sbrk p n => exact h.resized hp hlt ho
  | exec p ip argv => exact h.execed hp hlt ho
  | openFile p found omode => exact (FdActs.sane ho h hp).1
  | pipe p fdarray page => exact (FdActs.sane ho h hp).1
  | dup p fd => exact (FdActs.sane ho h hp).1
  | close p fd => exact (FdActs.sane ho h hp).1

end Calls

end Xv6.Vm
