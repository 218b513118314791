import Xv6.Vm.Growing

/-!
# Copying memory at `fork`

`_uvmcopy` gives the child a page of its own for every page of the parent in its range, or
takes out what it has entered when memory runs out. The pages of the child's page table and
its trapframe are on loan from the free list, so `freeproc` brings the free pages back to
what they were before `fork`.
-/
namespace Xv6.Vm

open Library Kernel List

def Kernel.copyPerm (s : Kernel) (old v : ℕ) : Perm := ((s.trans old v).map (·.perm)).getD dataPerm

def Kernel.copyBytes (s : Kernel) (old v : ℕ) : Bytes :=
  match s.trans old v with
  | some pte => s.mem pte.ppn
  | none => fun _ => 0

section Copy

variable {old new i k lo : ℕ} {s0 s : Kernel} {tabs : List ℕ} {leaves : List (ℕ × ℕ)}

theorem Kernel.Leaves.copyPerm_ne (h : s.Leaves old) (v : ℕ) :
    s.copyPerm old v ≠ ⟨false, false, false, false⟩ := by
  unfold copyPerm
  cases ht : s.trans old v with
  | none => decide
  | some pte => exact h v pte ht

/-- The new leaves are those of the pages from `lo` up to `hi` that the parent maps. -/
def CopiesPages (s : Kernel) (old : ℕ) (leaves : List (ℕ × ℕ)) (lo hi : ℕ) : Prop :=
  ∀ v, v ∈ leaves.map Prod.fst ↔ lo ≤ v ∧ v < hi ∧ (s.trans old v).isSome

theorem CopiesPages.skip {hi : ℕ} (h : CopiesPages s old leaves lo hi)
    (hnone : s.trans old hi = none) : CopiesPages s old leaves lo (hi + 1) := by
  intro v
  rw [h v]
  refine ⟨fun ⟨h1, h2, h3⟩ => ⟨h1, by omega, h3⟩, fun ⟨h1, h2, h3⟩ => ⟨h1, ?_, h3⟩⟩
  have hne : v ≠ hi := by
    rintro rfl
    simp [hnone] at h3
  omega

theorem CopiesPages.cons {hi pa : ℕ} {pte : Pte} (h : CopiesPages s old leaves lo hi)
    (hle : lo ≤ hi) (hsome : s.trans old hi = some pte) :
    CopiesPages s old ((hi, pa) :: leaves) lo (hi + 1) := by
  intro v
  rw [map_cons, mem_cons, h v]
  constructor
  · rintro (rfl | ⟨h1, h2, h3⟩)
    · exact ⟨hle, by simp, by simp [hsome]⟩
    · exact ⟨h1, by omega, h3⟩
  · rintro ⟨h1, h2, h3⟩
    by_cases hv : v = hi
    · exact .inl hv
    · exact .inr ⟨h1, by omega, h3⟩

/-- The loop of `_uvmcopy` copies the pages that are left, or takes out all it has copied. -/
theorem uvmcopyLoop_grown (hne : old ≠ new) (hnd : s0.freelist.Nodup)
    (hstock : s0.Stocks (· ∈ s0.freelist))
    (hused : ∀ v pte, s0.trans old v = some pte → pte.ppn ∉ s0.freelist) (hleaf : s0.Leaves old)
    (hmod : i % pgSize = 0) (hlo : lo ≤ i / pgSize) (hroom : i + k * pgSize < maxVa + pgSize)
    (hnone : ∀ v < i / pgSize + k, s0.trans new v = none)
    (h : Grown new (s0.copyPerm old) (s0.copyBytes old) s0 [] leaves tabs s)
    (hcov : CopiesPages s0 old leaves lo (i / pgSize)) :
    ∃ b s' leaves' tabs', uvmcopyLoop old new k i s = .ok b s' ∧
      Grown new (s0.copyPerm old) (s0.copyBytes old) s0 [] leaves' tabs' s' ∧
      (b = true → CopiesPages s0 old leaves' lo (i / pgSize + k)) ∧
      (b = false → leaves' = []) := by
  induction k generalizing i s leaves tabs with
  | zero => exact ⟨true, s, leaves, tabs, rfl, h, fun _ => hcov, by simp⟩
  | succ k ih =>
    have hpos : 0 < pgSize := by decide
    have hva : i < maxVa := by
      rw [Nat.succ_mul] at hroom
      omega
    have hroom' : i + pgSize + k * pgSize < maxVa + pgSize := by
      rw [Nat.succ_mul] at hroom
      omega
    have hnext : (i + pgSize) / pgSize = i / pgSize + 1 := Nat.add_div_right i hpos
    have hmod' : (i + pgSize) % pgSize = 0 := by rw [Nat.add_mod_right, hmod]
    have hsum : i / pgSize + 1 + k = i / pgSize + (k + 1) := by omega
    have htrans : s.trans old (i / pgSize) = s0.trans old (i / pgSize) := h.frame.trans_of_ne hne _
    -- both ways of running out of memory end in the same call
    have hundo : ∀ x tabs', Grown new (s0.copyPerm old) (s0.copyBytes old) s0 [] leaves tabs' x →
        ∃ x', uvmunmap new 0 (i / pgSize) true x = .ok ⟨⟩ x' ∧
          Grown new (s0.copyPerm old) (s0.copyBytes old) s0 [] [] tabs' x' := by
      intro x tabs' hx
      have hlt : 0 + i / pgSize ≤ maxVa / pgSize := by
        rw [Nat.zero_add]
        exact Nat.div_le_div_right hva.le
      obtain ⟨x', hrun, hx'⟩ := hx.uvmunmap 0 (i / pgSize) hnd hstock hlt
        (fun l hl => ⟨Nat.zero_le _, by
          have hl' := (hcov l.1).mp (mem_map_of_mem hl)
          omega⟩)
        (fun v _ hv => hnone v (by omega)) hleaf.copyPerm_ne
      rw [Nat.zero_mul] at hrun
      exact ⟨x', hrun, hx'⟩
    unfold uvmcopyLoop
    rw [get_run, if_neg (by omega), htrans]
    cases ht : s0.trans old (i / pgSize) with
    | none =>
      obtain ⟨b, s', leaves', tabs', hrun, hs', hok, hfail⟩ := ih hmod' (by omega) hroom'
        (by rw [hnext, hsum]; exact hnone) h (by rw [hnext]; exact hcov.skip ht)
      rw [hnext, hsum] at hok
      exact ⟨b, s', leaves', tabs', hrun, hs', hok, hfail⟩
    | some pte =>
      have hbytes : s.mem pte.ppn = s0.copyBytes old (i / pgSize) := by
        rw [h.mem _ (hused _ pte ht)]
        simp [copyBytes, ht]
      have hpte : pte.perm = s0.copyPerm old (i / pgSize) := by simp [copyPerm, ht]
      cases hf : s.freelist with
      | nil =>
        obtain ⟨x', hrun, hx'⟩ := hundo s tabs h
        simp only [bind_run (kalloc_nil hf), bind_run hrun]
        exact ⟨false, x', [], tabs, rfl, hx', by simp, fun _ => rfl⟩
      | cons pa rest =>
        have hfresh : i / pgSize ∉ leaves.map Prod.fst := by
          rw [hcov]
          omega
        obtain ⟨b, s₁, tabs1, hmap, htrue, hfalse⟩ := h.page i hnd hstock hf hva
          (hnone _ (by omega)) hfresh
        rw [← hbytes, ← hpte] at hmap
        simp only [bind_run (kalloc_cons hf), modify_run, bind_run hmap]
        cases b with
        | true =>
          obtain ⟨b', s', leaves', tabs', hrun, hs', hok, hfail⟩ := ih hmod' (by omega) hroom'
            (by rw [hnext, hsum]; exact hnone) (htrue rfl) (by rw [hnext]; exact hcov.cons hlo ht)
          rw [hnext, hsum] at hok
          exact ⟨b', s', leaves', tabs', hrun, hs', hok, hfail⟩
        | false =>
          obtain ⟨hfree, hs1⟩ := hfalse rfl
          obtain ⟨x', hrun, hx'⟩ := hundo _ tabs1 hs1
          refine ⟨false, x', [], tabs1, ?_, hx', by simp, fun _ => rfl⟩
          exact bind_ok.mpr ⟨⟨⟩, _, hfree, bind_ok.mpr ⟨⟨⟩, x', hrun, rfl⟩⟩

/-- `_uvmcopy` gives the page table a fresh copy of each page that `old` maps from `start` up
to `sz`, or no page at all. -/
theorem uvmcopy_grown {sz start : ℕ} (hne : old ≠ new) (hhas : s.Has new)
    (hnd : s.freelist.Nodup) (hstock : s.Stocks (· ∈ s.freelist))
    (hused : ∀ v pte, s.trans old v = some pte → pte.ppn ∉ s.freelist) (hleaf : s.Leaves old)
    (hsz : sz ≤ maxVa) (hstart : start % pgSize = 0)
    (hnone : ∀ v, v * pgSize < sz → s.trans new v = none) :
    ∃ b s' leaves tabs, uvmcopy old new sz start s = .ok b s' ∧
      Grown new (s.copyPerm old) (s.copyBytes old) s [] leaves tabs s' ∧
      (b = true → CopiesPages s old leaves (start / pgSize) (pgRoundUp sz / pgSize)) ∧
      (b = false → leaves = []) := by
  unfold uvmcopy
  by_cases hlt : start < sz
  · have hend : start / pgSize + (sz - start + pgSize - 1) / pgSize = pgRoundUp sz / pgSize := by
      unfold pgRoundUp pgSize at *
      omega
    rw [← hend]
    refine uvmcopyLoop_grown hne hnd hstock hused hleaf hstart le_rfl ?_ (fun v hv => hnone v ?_)
      (Grown.start hhas) (by intro v; simp; omega)
    · unfold pgSize at *
      omega
    · rw [hend] at hv
      unfold pgRoundUp pgSize at *
      omega
  · have hzero : (sz - start + pgSize - 1) / pgSize = 0 := by
      unfold pgSize
      omega
    rw [hzero]
    refine ⟨true, s, [], [], rfl, Grown.start hhas, fun _ v => ?_, by simp⟩
    have hback : pgRoundUp sz / pgSize ≤ start / pgSize := by
      unfold pgRoundUp pgSize at *
      omega
    simp
    omega

end Copy

section Loans

variable {np : ℕ} {pool : ℕ → Prop} {s0 s s' : Kernel} {hand : List ℕ} {b : Bool} {u : PUnit}

/-- What `fork` copies goes to the child's page table. -/
theorem uvmcopyLoop_lent {p k i : ℕ} (h : Lent np pool s0 hand s)
    (hroom : i + k * pgSize ≤ Xv6.trapframe + pgSize - 1)
    (hx : uvmcopyLoop p np k i s = .ok b s') : Lent np pool s0 hand s' := by
  have htf := trapframe_mul
  induction k generalizing i s with
  | zero =>
    obtain ⟨-, rfl⟩ := pure_ok.mp hx
    exact h
  | succ k ih =>
    have hlow : i / pgSize < trapVpn := by
      rw [Nat.succ_mul] at hroom
      rw [Nat.div_lt_iff_lt_mul (by decide), ← htf]
      unfold pgSize at *
      omega
    have hroom' : i + pgSize + k * pgSize ≤ Xv6.trapframe + pgSize - 1 := by
      rw [Nat.succ_mul] at hroom
      omega
    have hundo : ∀ {x x' : Kernel} {v : PUnit}, Lent np pool s0 hand x →
        uvmunmap np 0 (i / pgSize) true x = .ok v x' → Lent np pool s0 hand x' := by
      intro x x' v hl hun
      refine uvmunmap_lent hl (fun w pte _ hw _ _ => ?_) hun
      simp only [Nat.zero_div, Nat.zero_add] at hw
      exact ⟨fun _ => by omega, fun _ => rfl⟩
    unfold uvmcopyLoop at hx
    rw [get_run] at hx
    obtain ⟨-, hx⟩ := throw_ite_ok hx
    cases ht : s.trans p (i / pgSize) with
    | none =>
      simp only [ht] at hx
      exact ih h hroom' hx
    | some pte =>
      simp only [ht] at hx
      obtain ⟨o, s₁, hk, hnext⟩ := bind_ok.mp hx
      rcases kalloc_ok hk with ⟨rfl, rfl⟩ | ⟨mem, rest, rfl, hf, rfl⟩
      · simp only [bind_ok, pure_ok] at hnext
        obtain ⟨_, _, hun, -, rfl⟩ := hnext
        exact hundo h hun
      · simp only [bind_ok, modify_ok] at hnext
        obtain ⟨_, _, rfl, b1, s3, hmap, hnext⟩ := hnext
        have h2 : Lent np pool s0 (mem :: hand)
            ((s.allocated mem rest).setPage mem (s.mem pte.ppn)) :=
          (h.allocated hf).setPage (h.loan.spare mem (by simp [hf])) _
        have h3 := mappages_lent h2 (fun _ => hlow) hmap
        cases b1 with
        | true => exact ih h3 hroom' hnext
        | false =>
          simp only [Bool.false_eq_true, if_false, bind_ok, pure_ok] at hnext
          obtain ⟨_, s4, hfree, _, s5, hun, -, rfl⟩ := hnext
          obtain ⟨-, rfl⟩ := kfree_ok hfree
          exact hundo (Lent.freed (by simpa using h3)) hun

/-- The trapframe page is on loan and given back. -/
theorem freeTrapframe_returns (h : Lent np pool s0 (s.proc np).trapframe.toList s)
    (hpool : s0.Stocks pool) : ∃ s', freeTrapframe np s = .ok ⟨⟩ s' ∧ Lent np pool s0 [] s' ∧
      s'.table = s.table ∧ s'.proc = Function.update s.proc np
        { s.proc np with trapframe := none } := by
  cases htf : (s.proc np).trapframe with
  | none =>
    rw [htf] at h
    refine ⟨s, ?_, h, rfl, by rw [← htf, Function.update_eq_self]⟩
    unfold freeTrapframe
    rw [get_run]
    simp only [htf]
    rfl
  | some pa =>
    rw [htf] at h
    have hl : Lent np pool s0 [pa] s := h
    obtain ⟨u, s₁, hfree⟩ := (hl.kfree_returns hpool).returns
    obtain ⟨-, rfl⟩ := kfree_ok hfree
    refine ⟨(s.freed pa).setProc np fun q => { q with trapframe := none }, ?_, ?_, rfl, rfl⟩
    · unfold freeTrapframe
      rw [get_run]
      simp only [htf]
      exact bind_ok.mpr ⟨u, _, hfree, rfl⟩
    · exact hl.freed.congr rfl rfl rfl rfl rfl

/-- A process that was being made, with its trampoline and trapframe mapped or no page table,
is given up: all the pages on loan are free again. -/
theorem freeproc_settles (h : Lent np pool s0 (s.proc np).trapframe.toList s)
    (hpool : s0.Stocks pool) (hsz : (s.proc np).sz = 0) (hleaf : s.Leaves np)
    (hin : s.Reachable np) (hconf : s.Confined np 0) :
    ∃ s', freeproc np s = .ok ⟨⟩ s' ∧ (∀ pa, pa ∈ s'.freelist ↔ pool pa) ∧
      (s'.proc np).state = .unused ∧ ∀ q, q ≠ np → s'.proc q = s.proc q := by
  obtain ⟨s₁, htf, h1, htab, hproc⟩ := freeTrapframe_returns h hpool
  have htrans : ∀ v, s₁.trans np v = s.trans np v := fun v => by simp [Kernel.trans, htab]
  obtain ⟨s2, hfree, h2, hnone, hproc2⟩ : ∃ s2, freeTable np s₁ = .ok ⟨⟩ s2 ∧
      Lent np pool s0 [] s2 ∧ s2.table np = none ∧ s2.proc = s₁.proc := by
    have hsz1 : (s₁.proc np).sz = 0 := by simp [hproc, hsz]
    unfold freeTable
    rw [get_run]
    by_cases hsome : (s₁.table np).isSome
    · have hret : Returns (procFreepagetable np 0) s₁ :=
        procFreepagetable_returns h1 hpool hsome (fun v pte ht => hleaf v pte (htrans v ▸ ht))
          (fun v pte ht => hin v pte (htrans v ▸ ht)) (by decide)
          fun v pte ht => hconf v pte (htrans v ▸ ht)
      obtain ⟨u, s2, hrun⟩ := hret.returns
      obtain ⟨h2, hnone⟩ := procFreepagetable_lent h1 hrun
      rw [if_pos hsome, hsz1]
      exact ⟨s2, hrun, h2, hnone, (procFreepagetable_spec hrun).1.proc⟩
    · rw [if_neg hsome]
      exact ⟨s₁, rfl, h1, by simpa using hsome, rfl⟩
  refine ⟨s2.setProc np fun q => { q with sz := 0, killed := false, state := .unused }, ?_, ?_,
    by simp [setProc], fun q hq => ?_⟩
  · unfold freeproc
    exact bind_ok.mpr ⟨⟨⟩, s₁, htf, bind_ok.mpr ⟨⟨⟩, s2, hfree, rfl⟩⟩
  · intro pa
    exact h2.loan.settled (fun x => by simp [held, hnone]) pa
  · simp [setProc, hproc2, hproc, hq]

/-- A new process `np`: its pages are on loan, and it maps the trampoline and the trapframe. -/
structure Born (np : ℕ) (s s' : Kernel) : Prop where
  unused : (s.proc np).state = .unused
  lent : Lent np (· ∈ s.freelist) s (s'.proc np).trapframe.toList s'
  present : s'.Has np
  leaf : ∀ v pte, s'.trans np v = some pte →
    trapVpn ≤ v ∧ v < maxVa / pgSize ∧ pte.perm ≠ ⟨false, false, false, false⟩
  free : s'.freelist <:+ s.freelist
  tables : ∀ q v, q ≠ np → s'.trans q v = s.trans q v
  procs : ∀ q, q ≠ np → s'.proc q = s.proc q
  size : (s'.proc np).sz = 0

/-- `allocproc` makes a process or leaves the free pages and the process table as they were. -/
theorem allocproc_settles (hpool : s.Stocks (· ∈ s.freelist))
    (hblank : ∀ q, (s.proc q).state = .unused → s.Blank q) :
    ∃ r s', allocproc s = .ok r s' ∧ (∀ np, r = some np → Born np s s') ∧
      (r = none → (∀ pa, pa ∈ s'.freelist ↔ pa ∈ s.freelist) ∧
        ∀ q, (s'.proc q).state = (s.proc q).state) := by
  unfold allocproc
  rw [get_run]
  cases hf : (range nProc).find? fun p => (s.proc p).state = .unused with
  | none => exact ⟨none, s, rfl, by simp, fun _ => ⟨fun _ => Iff.rfl, fun _ => rfl⟩⟩
  | some np =>
    simp only [modify_run]
    have hun : (s.proc np).state = .unused := by simpa using find?_some hf
    obtain ⟨-, hnone, hframe, hsz⟩ := hblank np hun
    set s₁ := s.setProc np fun q => { q with state := .used, nmp := Xv6.trapframe } with hs1
    have hproc1 : ∀ q, q ≠ np → s₁.proc q = s.proc q := fun q hq => by
      simp [hs1, setProc, hq]
    have hself1 : s₁.proc np = { s.proc np with state := .used, nmp := Xv6.trapframe } := by
      simp [hs1, setProc]
    have h1 : Lent np (· ∈ s.freelist) s [] s₁ := (Lent.start hnone).congr rfl rfl rfl rfl rfl
    -- without a page table, `freeproc` gives the trapframe back, if there is one
    have hundo : ∀ x : Kernel, Lent np (· ∈ s.freelist) s (x.proc np).trapframe.toList x →
        x.table np = none → (x.proc np).sz = 0 → (∀ q, q ≠ np → x.proc q = s.proc q) →
        ∃ x', freeproc np x = .ok ⟨⟩ x' ∧ (∀ pa, pa ∈ x'.freelist ↔ pa ∈ s.freelist) ∧
          ∀ q, (x'.proc q).state = (s.proc q).state := by
      intro x hl hn hz hp
      have hempty : ∀ v pte, x.trans np v ≠ some pte := fun v pte ht => by
        simp [Kernel.trans, hn] at ht
      obtain ⟨x', hrun, hfree, hstate, hother⟩ := freeproc_settles hl hpool hz
        (fun v pte ht => absurd ht (hempty v pte)) (fun v pte ht => absurd ht (hempty v pte))
        fun v pte ht => absurd ht (hempty v pte)
      refine ⟨x', hrun, hfree, fun q => ?_⟩
      by_cases hq : q = np
      · subst hq
        rw [hstate, hun]
      · rw [hother q hq, hp q hq]
    cases hl : s₁.freelist with
    | nil =>
      obtain ⟨x', hrun, hfree, hstate⟩ := hundo s₁ (by rw [hself1]; simpa [hframe] using h1) hnone
        (by rw [hself1]; exact hsz) hproc1
      rw [bind_run (kalloc_nil hl)]
      refine ⟨none, x', ?_, by simp, fun _ => ⟨hfree, hstate⟩⟩
      exact bind_ok.mpr ⟨⟨⟩, x', hrun, rfl⟩
    | cons pa rest =>
      set s2 := (s₁.allocated pa rest).setProc np fun q => { q with trapframe := some pa } with hs2
      have h2 : Lent np (· ∈ s.freelist) s [pa] s2 := (h1.allocated hl).congr rfl rfl rfl rfl rfl
      have hn2 : s2.table np = none := hnone
      have hproc2 : ∀ q, q ≠ np → s2.proc q = s.proc q := fun q hq => by
        rw [← hproc1 q hq]
        simp [hs2, setProc, allocated, hq]
      have hself2 : s2.proc np = { s.proc np with
          state := .used, nmp := Xv6.trapframe, trapframe := some pa } := by
        simp [hs2, hs1, setProc, allocated]
      have hret : Returns (procPagetableIn np np) s2 := procPagetableIn_returns h2 hpool hn2
      obtain ⟨b, s3, hmake⟩ := hret.returns
      have hmake' : procPagetable np s2 = .ok b s3 := hmake
      simp only [bind_run (kalloc_cons hl), modify_run, ← hs2, bind_run hmake']
      have h3 := procPagetableIn_lent h2 hn2 hmake
      obtain ⟨hw, hfail, -⟩ := procPagetableIn_spec hn2 hmake
      have hself3 : s3.proc np = s2.proc np := by rw [hw.proc]
      have h3' : Lent np (· ∈ s.freelist) s (s3.proc np).trapframe.toList s3 := by
        rw [hself3, hself2]
        exact h3
      have hsz3 : (s3.proc np).sz = 0 := by
        rw [hself3, hself2]
        exact hsz
      have hproc3 : ∀ q, q ≠ np → s3.proc q = s.proc q := fun q hq => by
        rw [hw.proc]
        exact hproc2 q hq
      cases b with
      | true =>
        have htrans := procPagetableIn_trans hn2 hmake
        refine ⟨some np, s3, rfl, ?_, by simp⟩
        rintro _ ⟨rfl⟩
        refine ⟨hun, h3', ?_, fun v pte ht => ?_, ?_, fun q v hq => ?_, hproc3, hsz3⟩
        · have hsome : s3.trans np trapVpn ≠ none := by simp [htrans]
          by_contra hno
          have hno' : s3.table np = none := by simpa [Kernel.Has] using hno
          simp [Kernel.trans, hno'] at hsome
        · have hmax : trapVpn + 1 < maxVa / pgSize := by decide
          rw [htrans] at ht
          split_ifs at ht with h1 h2
          · cases ht
            exact ⟨h1.ge, by omega, by simp⟩
          · cases ht
            exact ⟨by omega, by omega, by simp⟩
        · exact (procPagetableIn_suffix hmake).trans ⟨[pa], hl.symm⟩
        · exact hw.trans_of_ne hq v
      | false =>
        obtain ⟨x', hrun, hfree, hstate⟩ := hundo s3 h3' (hfail rfl) hsz3 hproc3
        refine ⟨none, x', ?_, by simp, fun _ => ⟨hfree, hstate⟩⟩
        exact bind_ok.mpr ⟨⟨⟩, x', hrun, rfl⟩

theorem uvmcopy_lent {p sz start : ℕ} (h : Lent np pool s0 hand s) (hsz : sz ≤ Xv6.trapframe)
    (hx : uvmcopy p np sz start s = .ok b s') : Lent np pool s0 hand s' := by
  unfold uvmcopy at hx
  by_cases hlt : start < sz
  · refine uvmcopyLoop_lent h ?_ hx
    unfold pgSize at *
    omega
  · have hzero : (sz - start + pgSize - 1) / pgSize = 0 := by
      unfold pgSize
      omega
    rw [hzero] at hx
    obtain ⟨-, rfl⟩ := pure_ok.mp hx
    exact h

end Loans

section Fork

variable {p np : ℕ} {s s₁ : Kernel}

def Proc.copyStart (q : Proc) : ℕ := pgRoundUp64 (u64 (q.text.addr + q.text.size))

def Kernel.inheritSegments (s : Kernel) (np : ℕ) (q : Proc) : Kernel :=
  s.setProc np fun c => { c with text := q.text, data := q.data }

/-- Copying the parent's memory to a new process, and giving the process up when it fails. -/
theorem Born.copies (h : Born np s s₁) (hs : s.Sane) (hp : (s.proc p).state ≠ .unused)
    (hnd : s.freelist.Nodup) (hpool : s.Stocks (· ∈ s.freelist))
    (hused : ∀ v pte, s.trans p v = some pte → pte.ppn ∉ s.freelist) (hleaf : s.Leaves p) :
    ∃ b s2, uvmcopy p np (s.proc p).sz (s.proc p).copyStart
        (s₁.inheritSegments np (s.proc p)) = .ok b s2 ∧
      (b = false → ∃ s3, freeproc np s2 = .ok ⟨⟩ s3 ∧ (s3.proc np).state = .unused ∧
        ∀ pa, pa ∈ s3.freelist ↔ pa ∈ s.freelist) := by
  have hne : p ≠ np := fun he => hp (he ▸ h.unused)
  set s1' := s₁.inheritSegments np (s.proc p) with hs1'
  have htrans : ∀ v, s1'.trans p v = s.trans p v := fun v => h.tables p v hne
  have hstock : s1'.Stocks (· ∈ s1'.freelist) := by
    intro pa hpa
    have hr := hpool pa (h.free.subset hpa)
    unfold Kernel.InRange at hr ⊢
    rwa [← h.lent.kend] at hr
  obtain ⟨b, s2, leaves, tabs, hrun, hg, -, hfail⟩ := uvmcopy_grown hne
    (show s1'.Has np from h.present) (h.free.sublist.nodup hnd) hstock
    (fun v pte ht hc => hused v pte (htrans v ▸ ht) (h.free.subset hc))
    (fun v pte ht => hleaf v pte (htrans v ▸ ht)) ((hs.size p hp).trans trapframe_le)
    (pgRoundUp64_mod (u64 ((s.proc p).text.addr + (s.proc p).text.size)))
    (by
      intro v hv
      have htf := trapframe_mul
      have hlow : v < trapVpn := by
        have hsz := hs.size p hp
        rw [htf] at hsz
        exact Nat.lt_of_mul_lt_mul_right (hv.trans_le hsz)
      cases ht : s1'.trans np v with
      | none => rfl
      | some pte =>
        have := (h.leaf v pte ht).1
        omega)
  refine ⟨b, s2, hrun, fun hb => ?_⟩
  have hsame : ∀ v, s2.trans np v = s1'.trans np v := fun v => hg.old v (by simp [hfail hb])
  have hproc : s2.proc np = s1'.proc np := by rw [hg.frame.proc]
  have hself : s1'.proc np =
      { s₁.proc np with text := (s.proc p).text, data := (s.proc p).data } := by
    simp [hs1', inheritSegments, setProc]
  have hlent : Lent np (· ∈ s.freelist) s (s₁.proc np).trapframe.toList s1' :=
    h.lent.congr rfl rfl rfl rfl rfl
  have hleaf2 : ∀ v pte, s2.trans np v = some pte →
      trapVpn ≤ v ∧ v < maxVa / pgSize ∧ pte.perm ≠ ⟨false, false, false, false⟩ := fun v pte ht =>
    h.leaf v pte ((hsame v).symm.trans ht)
  obtain ⟨s3, hfree, hback, hstate, -⟩ := freeproc_settles (s := s2)
    (by
      rw [hproc, hself]
      exact uvmcopy_lent hlent (hs.size p hp) hrun)
    hpool
    (by
      rw [hproc, hself]
      exact h.size)
    (fun v pte ht => (hleaf2 v pte ht).2.2) (fun v pte ht => (hleaf2 v pte ht).2.1)
    (fun v pte ht hlow => by
      have := (hleaf2 v pte ht).1
      omega)
  exact ⟨s3, hfree, hstate, hback⟩

/-- `_uvmcopy` gives a page table without leaves below `sz` a fresh page with the bytes and
permissions of each page that `old` maps from `start` up to `sz`, and no other leaf; or it
fails. When it fails in `fork`, or a page for the new process is missing before, `fork` returns
`-1`, the slot is unused and the free pages are those from before. -/
theorem fork_copies_or_restores (hnd : s.freelist.Nodup) (hpool : s.Stocks (· ∈ s.freelist)) :
    (∀ old new sz start, old ≠ new → s.Has new → s.Leaves old →
      (∀ v pte, s.trans old v = some pte → pte.ppn ∉ s.freelist) → sz ≤ maxVa →
      start % pgSize = 0 → (∀ v, v * pgSize < sz → s.trans new v = none) →
      ∃ b s' leaves tabs, uvmcopy old new sz start s = .ok b s' ∧
        Grown new (s.copyPerm old) (s.copyBytes old) s [] leaves tabs s' ∧
        (b = true → CopiesPages s old leaves (start / pgSize) (pgRoundUp sz / pgSize)) ∧
        (b = false → leaves = [])) ∧
    ∀ p, s.Sane → (s.proc p).state ≠ .unused → s.Leaves p →
      (∀ v pte, s.trans p v = some pte → pte.ppn ∉ s.freelist) →
      ∃ r s₁, allocproc s = .ok r s₁ ∧
        (r = none → fork p s = .ok none s₁ ∧ (∀ q, (s₁.proc q).state = (s.proc q).state) ∧
          ∀ pa, pa ∈ s₁.freelist ↔ pa ∈ s.freelist) ∧
        ∀ np, r = some np → ∃ b s₂, uvmcopy p np (s.proc p).sz (s.proc p).copyStart
            (s₁.inheritSegments np (s.proc p)) = .ok b s₂ ∧
          (b = false → ∃ s₃, freeproc np s₂ = .ok ⟨⟩ s₃ ∧ fork p s = .ok none s₃ ∧
            (s₃.proc np).state = .unused ∧ ∀ pa, pa ∈ s₃.freelist ↔ pa ∈ s.freelist) := by
  constructor
  · intro old new sz start hne hhas hleaf hused hsz hstart hnone
    exact uvmcopy_grown hne hhas hnd hpool hused hleaf hsz hstart hnone
  · intro p hs hp hleaf hused
    obtain ⟨r, s₁, halloc, hborn, hfail⟩ := allocproc_settles hpool hs.blank
    refine ⟨r, s₁, halloc, fun hr => ?_, fun np hr => ?_⟩
    · subst hr
      obtain ⟨hfree, hstate⟩ := hfail rfl
      refine ⟨?_, hstate, hfree⟩
      unfold fork
      exact bind_ok.mpr ⟨none, s₁, halloc, rfl⟩
    · subst hr
      have h := hborn np rfl
      have hne : p ≠ np := fun he => hp (he ▸ h.unused)
      obtain ⟨b, s₂, hrun, hback⟩ := h.copies hs hp hnd hpool hused hleaf
      refine ⟨b, s₂, hrun, fun hb => ?_⟩
      obtain ⟨s₃, hfree, hstate, hset⟩ := hback hb
      subst hb
      refine ⟨s₃, hfree, ?_, hstate, hset⟩
      unfold fork
      rw [bind_run halloc]
      simp only [get_run, h.procs p hne, modify_run]
      refine bind_ok.mpr ⟨false, s₂, hrun, ?_⟩
      exact bind_ok.mpr ⟨⟨⟩, s₃, hfree, rfl⟩

end Fork

section Boot

def grownSystem : System := sysNext bootSystem (.sbrk 0 8192)

def childBorn : Kernel :=
  match allocproc grownSystem.kernel with
  | .ok _ s => s
  | .error _ s => s

def crowded : Kernel :=
  { grownSystem.kernel with freelist := grownSystem.kernel.freelist.take 6 }

theorem grownSystem_step : SysStep bootSystem (.sbrk 0 8192) grownSystem :=
  sysStep_next (by decide +kernel)

theorem boot_leaf {v : ℕ} {pte : Pte} (ht : boot.trans 0 v = some pte) :
    v = trapVpn ∨ v = trapVpn + 1 := by
  have hmax : maxVa / pgSize = trapVpn + 2 := by decide
  have hpool : bare.Stocks (· ∈ bare.freelist) := by
    have hall : ∀ pa ∈ bare.freelist, bare.InRange pa := by decide
    exact hall
  obtain ⟨r, s, hrun, hborn, -⟩ := allocproc_settles hpool bare_sane.blank
  obtain ⟨s', hrun', hboot⟩ := boot_allocproc
  rw [hrun'] at hrun
  cases hrun
  rw [hboot] at ht
  have hleaf := (hborn 0 rfl).leaf v pte ht
  omega

/-- The pages that the first process maps: two of its image, the trapframe and the trampoline. -/
theorem grown_leaf {v : ℕ} {pte : Pte} (ht : grownSystem.kernel.trans 0 v = some pte) :
    v ∈ [0, 1, trapVpn, trapVpn + 1] := by
  have hout : Resized 0 bootSystem.kernel grownSystem.kernel :=
    grownSystem_step.outcome boot_start.sane
  have hsz : (grownSystem.kernel.proc 0).sz = 8192 ∧ (boot.proc 0).sz = 0 := by decide +kernel
  obtain ⟨s₁, sz, -, hs, -, hcase⟩ := hout
  have hold : ∀ w pte, boot.trans 0 w = some pte → w ∈ [0, 1, trapVpn, trapVpn + 1] := by
    intro w pte hw
    rcases boot_leaf hw with rfl | rfl <;> simp
  have hnew : sz = 8192 := by
    have h1 := hsz.1
    rw [hs] at h1
    simpa [setProc] using h1
  have ht1 : s₁.trans 0 v = some pte := by
    rw [hs] at ht
    exact ht
  rcases hcase with ⟨-, hext⟩ | ⟨hle, -⟩
  · by_cases hin : v < 2
    · interval_cases v <;> simp
    · have hout' := hext.old v (by
        rw [show (bootSystem.kernel.proc 0).sz = 0 from hsz.2, hnew]
        have h2 : pgRoundUp 8192 / pgSize = 2 := by decide
        have h0 : pgRoundUp 0 / pgSize = 0 := by decide
        omega)
      exact hold v pte (hout'.symm.trans ht1)
  · rw [show (bootSystem.kernel.proc 0).sz = 0 from hsz.2, hnew] at hle
    omega

theorem grown_pages {v : ℕ} {pte : Pte} (ht : grownSystem.kernel.trans 0 v = some pte) :
    pte.perm ≠ ⟨false, false, false, false⟩ ∧ pte.ppn ∉ grownSystem.kernel.freelist := by
  have hall : ∀ w ∈ [0, 1, trapVpn, trapVpn + 1], ∀ pte ∈ grownSystem.kernel.trans 0 w,
      pte.perm ≠ ⟨false, false, false, false⟩ ∧ pte.ppn ∉ grownSystem.kernel.freelist := by
    decide +kernel
  exact hall v (grown_leaf ht) pte ht

theorem grown_sane : grownSystem.kernel.Sane := boot_start.sane.sysStep grownSystem_step

theorem childBorn_born : Born 1 grownSystem.kernel childBorn := by
  have hstock : ∀ pa ∈ grownSystem.kernel.freelist, grownSystem.kernel.InRange pa := by
    decide +kernel
  obtain ⟨r, s, hrun, hborn, -⟩ := allocproc_settles hstock grown_sane.blank
  have hr : (match allocproc grownSystem.kernel with
    | .ok r _ => r == some 1
    | .error _ _ => false) = true := by decide +kernel
  simp only [hrun, beq_iff_eq] at hr
  have hs : childBorn = s := by
    unfold childBorn
    rw [hrun]
  rw [hs]
  exact hborn 1 hr

/-- With enough memory the child gets its two pages; with six free pages there is none for the
second table of the first one, and `fork` leaves the six pages free. -/
theorem fork_copies_or_restores_crowded :
    (∃ s', uvmcopy 0 1 8192 0 childBorn = .ok true s' ∧ ∀ v < 2, ∃ pa ∈ childBorn.freelist,
      s'.trans 1 v = some ⟨true, childBorn.copyPerm 0 v, pa⟩ ∧
        s'.mem pa = childBorn.copyBytes 0 v) ∧
    ∃ s₃, fork 0 crowded = .ok none s₃ ∧ (s₃.proc 1).state = .unused ∧
      ∀ pa, pa ∈ s₃.freelist ↔ pa ∈ crowded.freelist := by
  constructor
  · have hstock : ∀ pa ∈ childBorn.freelist, childBorn.InRange pa := by decide +kernel
    have hhas : (childBorn.table 1).isSome = true := by decide +kernel
    have hnone : ∀ v < 2, childBorn.trans 1 v = none := by decide +kernel
    have hborn := childBorn_born
    have hpages : ∀ {v pte}, childBorn.trans 0 v = some pte →
        pte.perm ≠ ⟨false, false, false, false⟩ ∧ pte.ppn ∉ childBorn.freelist := by
      intro v pte ht
      rw [hborn.tables 0 v (by decide)] at ht
      obtain ⟨h1, h2⟩ := grown_pages ht
      exact ⟨h1, fun hc => h2 (hborn.free.subset hc)⟩
    obtain ⟨b, s', leaves, tabs, hrun, hg, hcov, -⟩ :=
      (fork_copies_or_restores (s := childBorn) (by decide +kernel) hstock).1 0 1 8192 0 (by decide)
        hhas (fun v pte ht => (hpages ht).1) (fun v pte ht => (hpages ht).2) (by decide) rfl
        fun v hv => hnone v (by unfold pgSize at hv; omega)
    have hb : passes (fun b _ => b) (uvmcopy 0 1 8192 0 childBorn) = true := by decide +kernel
    rw [hrun] at hb
    obtain rfl : b = true := hb
    refine ⟨s', hrun, fun v hv => ?_⟩
    have hsome : ∀ w < 2, (childBorn.trans 0 w).isSome = true := by decide +kernel
    have hend : pgRoundUp 8192 / pgSize = 2 := by decide
    have hmem : v ∈ leaves.map Prod.fst :=
      (hcov rfl v).mpr ⟨by simp, by omega, hsome v hv⟩
    obtain ⟨⟨w, pa⟩, hl, rfl⟩ := List.mem_map.mp hmem
    obtain ⟨-, ht, hbytes, -⟩ := hg.new w pa hl
    exact ⟨pa, hg.of_leaf hl, ht, hbytes⟩
  · have hstock : ∀ pa ∈ crowded.freelist, crowded.InRange pa := by decide +kernel
    have hsane : crowded.Sane := by
      have h := grown_sane
      exact ⟨h.bounded, h.low, h.blank, h.special, h.size, h.fits⟩
    have hpages : ∀ {v pte}, crowded.trans 0 v = some pte →
        pte.perm ≠ ⟨false, false, false, false⟩ ∧ pte.ppn ∉ crowded.freelist := by
      intro v pte ht
      have ht' : grownSystem.kernel.trans 0 v = some pte := ht
      obtain ⟨h1, h2⟩ := grown_pages ht'
      exact ⟨h1, fun hc => h2 (List.mem_of_mem_take hc)⟩
    obtain ⟨r, s₁, hrun, -, hcopy⟩ := (fork_copies_or_restores (s := crowded) (by decide +kernel)
      hstock).2 0 hsane (by decide +kernel) (fun v pte ht => (hpages ht).1)
        fun v pte ht => (hpages ht).2
    have hr : passes (fun r s₁ => r == some 1 && passes (fun b _ => b == false) (uvmcopy 0 1
        (crowded.proc 0).sz (crowded.proc 0).copyStart (s₁.inheritSegments 1 (crowded.proc 0))))
        (allocproc crowded) = true := by decide +kernel
    rw [hrun] at hr
    obtain ⟨hone, hfailed⟩ := Bool.and_eq_true_iff.mp hr
    obtain rfl : r = some 1 := beq_iff_eq.mp hone
    obtain ⟨b, s2, hcopied, hback⟩ := hcopy 1 rfl
    rw [hcopied] at hfailed
    obtain ⟨s₃, -, hfork, hstate, hset⟩ := hback (beq_iff_eq.mp hfailed)
    exact ⟨s₃, hfork, hstate, hset⟩

end Boot

end Xv6.Vm
