import Xv6.Vm.Acts

/-!
# What `fork` does

`fork` makes a child with a page table of its own, or leaves nothing behind. Then it
lets the child inherit the parent's files and regions, one resident page of a region
after the other.
-/
namespace Xv6.Vm

open Library Relation Kernel

/-- The child `np` of `p` has its page table and the parent's size and segments. -/
structure Spawned (p np : ℕ) (s s' : Kernel) : Prop where
  ne : p ≠ np
  lt : np < nProc
  blank : s.Blank np
  nascent : Nascent np s s'
  high : s'.High np
  special : s'.Special np
  copied : Copied p np (pgRoundUp (s.proc p).sz / pgSize) s s'
  proc : ∃ pa, s'.proc np = { s.proc np with
    state := .used
    nmp := Xv6.trapframe
    trapframe := some pa
    text := (s.proc p).text
    data := (s.proc p).data
    sz := (s.proc p).sz }

inductive Opening (np : ℕ) (s : Kernel) : Kernel → Prop
  | setFile (f : ℕ) (file : File) : Opening np s (s.setFile f file)
  | setOfile (fd : ℕ) (o : Option ℕ) :
      Opening np s (s.setProc np fun q => { q with ofile := Function.update q.ofile fd o })

abbrev Openings (np : ℕ) : Kernel → Kernel → Prop := ReflTransGen (Opening np)

/-- The loop of `fork` over the descriptors of the parent. -/
def openFiles (ofile : ℕ → Option ℕ) (np : ℕ) : KernelM PUnit :=
  loop (fun fd => do
    match ofile fd with
    | none => return
    | some f =>
      filedup f
      modify (·.setProc np fun c => { c with ofile := Function.update c.ofile fd (some f) }))
        0 nOFile

/-- What the child `np` of `p` inherits, piece by piece. -/
inductive Inherit (p np : ℕ) (s : Kernel) : Kernel → Prop
  | opening {s' : Kernel} (h : Opening np s s') : Inherit p np s s'
  | region {i j₀ j : ℕ} (hi : (s.proc p).vmas i = some j₀) (hj : s.freeVma = some j) :
      Inherit p np s (s.addVma np i j
        { s.vmas j₀ with used := true, addr := lowerNmp (s.proc np).nmp (s.vmas j₀).size })
  | page {s' : Kernel} {i j₀ j k : ℕ} (hi : (s.proc p).vmas i = some j₀)
      (hi' : (s.proc np).vmas i = some j) (hk : k < pageCount (s.vmas j₀).size)
      (h : PageShared p np (u64 ((s.vmas j₀).addr + (k * pgSize : ℕ)))
        (u64 ((s.vmas j).addr + (k * pgSize : ℕ))) (forkPerm (s.vmas j₀).prot (s.vmas j₀).flags)
        ((s.vmas j₀).flags = .mapPrivate) s s') : Inherit p np s s'

abbrev Inherits (p np : ℕ) : Kernel → Kernel → Prop := ReflTransGen (Inherit p np)

section Share

variable {p np : ℕ} {s s' : Kernel} {u : PUnit}

/-- Sharing a page leaves processes, regions and files alone, and makes no page table. -/
theorem PageShared.frame {va va' : ℕ} {perm : Perm} {priv : Bool}
    (h : PageShared p np va va' perm priv s s') :
    s'.proc = s.proc ∧ s'.vmas = s.vmas ∧ s'.file = s.file ∧ (s.Bounded → s'.Bounded) ∧
      ∀ t, s.table t = none → s'.table t = none := by
  obtain ⟨s1, s2, pte, hq, -, -, -, -, -, -, -, -, rfl, rfl⟩ := h
  have hb : s.Bounded → (s1.withPte np (va' / pgSize) ⟨true, perm, pte.ppn⟩).Bounded := fun hb =>
    Kernel.Owned.bounded_withPte (hq.bounded hb)
  have ha : ∀ t, s.table t = none →
      (s1.withPte np (va' / pgSize) ⟨true, perm, pte.ppn⟩).table t = none := fun t hn =>
    table_withPte_none (hq.absent t (by simp) hn)
  cases priv
  · exact ⟨hq.proc, hq.vmas, hq.file, hb, ha⟩
  · exact ⟨hq.proc, hq.vmas, hq.file, fun h => Kernel.Owned.bounded_withPte (hb h),
      fun t hn => table_withPte_none (ha t hn)⟩

theorem PageShared.special {np va va' : ℕ} {perm : Perm} {priv : Bool}
    (h : PageShared p np va va' perm priv s s') (hne : p ≠ np) (hp : s.Special p) {q : ℕ}
    (hq : s.Special q) : s'.Special q := by
  obtain ⟨pte', ht', htrans⟩ := h.trans_eq hne
  obtain ⟨s1, s2, pte, -, -, hva, hva', ht, hu, -, -, hn, -⟩ := h
  have hlow := hp.lt_of_user hva ht hu
  intro v hv hlt
  obtain ⟨y, hy, hyu⟩ := hq v hv hlt
  refine ⟨y, ?_, hyu⟩
  rw [htrans, if_neg, if_neg]
  · exact hy
  · rintro ⟨-, -, rfl⟩
    omega
  · rintro ⟨rfl, rfl⟩
    simp [hn] at hy

theorem filedup_ok {f : ℕ} (hx : filedup f s = .ok u s') : ∃ file, s' = s.setFile f file := by
  unfold filedup at hx
  rw [get_run] at hx
  obtain ⟨-, hx⟩ := throw_ite_ok hx
  exact ⟨_, (set_ok.mp hx).symm⟩

theorem inheritVma_ok {i : ℕ} (hne : p ≠ np) (hx : inheritVma p np i s = .ok u s') :
    Inherits p np s s' ∧ (s'.proc p) = s.proc p := by
  unfold inheritVma at hx
  rw [get_run] at hx
  cases hi : (s.proc p).vmas i with
  | none =>
    simp only [hi, pure_ok] at hx
    obtain ⟨-, rfl⟩ := hx
    exact ⟨.refl, rfl⟩
  | some j0 =>
    cases hj : s.freeVma with
    | none =>
      simp only [hi, hj, pure_ok] at hx
      obtain ⟨-, rfl⟩ := hx
      exact ⟨.refl, rfl⟩
    | some j =>
      simp only [hi, hj, bind_ok, set_ok] at hx
      obtain ⟨_, _, rfl, hloop⟩ := hx
      set v := s.vmas j0 with hv
      set s1 := s.addVma np i j
        { v with used := true, addr := lowerNmp (s.proc np).nmp v.size } with hs1
      have hp1 : s1.proc p = s.proc p := by
        simp [hs1, addVma, setProc, setFile, setVma, hne]
      have hnp1 : (s1.proc np).vmas i = some j := by
        simp [hs1, addVma, setProc, setFile, setVma]
      have hsize : (s1.vmas j0).size = v.size := by
        by_cases hjj : j0 = j
        · subst hjj
          simp [hs1, addVma, setProc, setFile, setVma]
        · simp [hs1, addVma, setProc, setFile, setVma, hjj, hv]
      have h1 : Inherits p np s s1 := .single (.region hi hj)
      have hinv : Inherits p np s s' ∧ s'.proc = s1.proc ∧ s'.vmas = s1.vmas := by
        refine loop_ok (I := fun _ t => Inherits p np s t ∧ t.proc = s1.proc ∧ t.vmas = s1.vmas)
          hloop ⟨h1, rfl, rfl⟩ ?_
        rintro k t t' - hk ⟨ih, hproc, hvmas⟩ hpage
        rcases sharePage_ok hpage with ⟨rfl, -⟩ | hsh
        · exact ⟨ih, hproc, hvmas⟩
        · obtain ⟨hp, hvm, -⟩ := hsh.frame
          refine ⟨ih.tail (.page (i := i) ?_ ?_ ?_ hsh), hp.trans hproc, hvm.trans hvmas⟩
          · rw [hproc, hp1, hi]
          · rw [hproc, hnp1]
          · rw [hvmas, hsize]
            omega
      exact ⟨hinv.1, by rw [hinv.2.1, hp1]⟩

inductive Forked (p : ℕ) (s : Kernel) : Kernel → Prop
  | failed : Forked p s s
  | discarded {s' : Kernel} {np : ℕ} (hne : p ≠ np) (h : Discarded np s s') : Forked p s s'
  | child {s₁ s₂ s₃ : Kernel} {np : ℕ} (hs : Spawned p np s s₁) (ho : Openings np s₁ s₂)
      (hl : loop (inheritVma p np) 0 perProcessVmas s₂ = .ok ⟨⟩ s₃)
      (hf : openFiles (s.proc p).ofile np s₁ = .ok ⟨⟩ s₂) :
      Forked p s (s₃.setProc np fun q => { q with state := .runnable })

theorem inherits_of_loop {s1 s2 s3 : Kernel} (hne : p ≠ np) (ho : Openings np s1 s2)
    (hl : loop (inheritVma p np) 0 perProcessVmas s2 = .ok ⟨⟩ s3) : Inherits p np s1 s3 := by
  have h2 : Inherits p np s1 s2 := ReflTransGen.mono (fun _ _ h => Inherit.opening h) _ _ ho
  refine loop_ok (I := fun _ t => Inherits p np s1 t) hl h2 fun i t t' _ _ ih hbody => ?_
  exact ih.trans (inheritVma_ok hne hbody).1

theorem fork_ok {r : Option ℕ} (hb : s.Bounded)
    (hblank : ∀ q, (s.proc q).state = .unused → s.Blank q)
    (hp : (s.proc p).state ≠ .unused) (hsz : (s.proc p).sz ≤ Xv6.trapframe)
    (hx : fork p s = .ok r s') : Forked p s s' := by
  unfold fork at hx
  obtain ⟨o, s1, halloc, hx⟩ := bind_ok.mp hx
  rcases allocproc_ok hb hblank halloc with ⟨rfl, hfail⟩ | ⟨np, rfl, hal⟩
  · obtain ⟨-, rfl⟩ := pure_ok.mp hx
    rcases hfail with rfl | ⟨np, hd⟩
    · exact .failed
    · exact .discarded (fun he => hp (he ▸ hd.1.1)) hd
  obtain ⟨hbl, hlt, h1, hhigh1, hsp1, hnone1, pa, hproc1⟩ := hal
  have hne : p ≠ np := fun he => hp (he ▸ hbl.1)
  have hq : s1.proc p = s.proc p := h1.aside.others p hne
  replace hx := get_bind_ok hx
  simp only [hq] at hx
  obtain ⟨_, s2, hmod, hx⟩ := bind_ok.mp hx
  have hs2 := modify_ok.mp hmod
  have hp2 : s2.proc np = { s.proc np with
      state := .used, nmp := Xv6.trapframe, trapframe := some pa,
      text := (s.proc p).text, data := (s.proc p).data } := by
    simp [← hs2, setProc, hproc1]
  have h2 : Nascent np s s2 := by
    rw [← hs2]
    exact ⟨h1.aside.setProc_self fun _ ha => .inl ha, fun D hD => (h1.keeps D hD).setProc rfl,
      h1.noTable, h1.noFrame⟩
  have htrans : ∀ t v, s2.trans t v = s1.trans t v := fun t v => by
    rw [← hs2]
    rfl
  have hhigh2 : s2.High np := fun v pte hv ht => hhigh1 v pte hv ((htrans np v).symm.trans ht)
  have hsp2 : s2.Special np := fun v hv hlt => by
    rw [htrans]
    exact hsp1 v hv hlt
  obtain ⟨b, s3, hcopy, hx⟩ := bind_ok.mp hx
  obtain ⟨h3, hhigh3, hproc3, hok3⟩ := uvmcopy_ok h2 hhigh2 hsp2
    (fun v hv => (htrans np v).trans (hnone1 v hv)) hne (pgRoundUp64_mod _) hsz hcopy
  have hp3 : s3.proc np = s2.proc np := by rw [hproc3]
  rcases ite_ok hx with ⟨hbt, hx⟩ | ⟨hbf, hx⟩
  · obtain ⟨hsp3, hcop3⟩ := hok3 hbt
    obtain ⟨_, s4, hmod4, hx⟩ := bind_ok.mp hx
    have hs4 := modify_ok.mp hmod4
    have hspawn : Spawned p np s s4 := by
      rw [← hs4]
      refine ⟨hne, hlt, hbl, ?_, hhigh3, hsp3, hcop3, pa, ?_⟩
      · exact ⟨h3.aside.setProc_self fun _ ha => .inl ha,
          fun D hD => (h3.keeps D hD).setProc rfl, h3.noTable, h3.noFrame⟩
      · simp [setProc, hp3, hp2]
    simp only [bind_ok, modify_ok, pure_ok] at hx
    obtain ⟨_, s5, hfiles, _, s6, hregions, _, _, rfl, -, rfl⟩ := hx
    have h5 : Openings np s4 s5 := by
      refine loop_ok (I := fun _ t => Openings np s4 t) hfiles .refl fun fd t t' _ _ ih hbody => ?_
      cases hf : (s.proc p).ofile fd with
      | none =>
        simp only [hf, pure_ok] at hbody
        obtain ⟨-, rfl⟩ := hbody
        exact ih
      | some f =>
        simp only [hf, bind_ok, modify_ok] at hbody
        obtain ⟨_, t1, hdup, rfl⟩ := hbody
        obtain ⟨file, rfl⟩ := filedup_ok hdup
        exact (ih.tail (.setFile f file)).tail (.setOfile fd (some f))
    exact .child hspawn h5 hregions hfiles
  · simp only [bind_ok, pure_ok] at hx
    obtain ⟨_, s4, hfree, -, rfl⟩ := hx
    obtain ⟨h4, hnone4, hp4⟩ := freeproc_ok h3 hb hhigh3 (by rw [hp3, hp2]; exact hbl.2.2.2) hfree
    rw [hp3, hp2] at hp4
    refine .discarded hne ⟨hbl, hlt, h4, ⟨?_, hnone4, ?_, ?_⟩, ?_, ?_⟩ <;> simp [hp4]

end Share

end Xv6.Vm
