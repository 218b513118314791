import Xv6.Vm.Spawn
import Xv6.Vm.Exec

/-!
# What `fork` gives the child

`allocproc` leaves a process with a trapframe and a page table that maps nothing
for user code, `_uvmcopy` fills it with copies of the parent's pages, and the pages
of mmap regions are shared. When something fails, `freeproc` leaves the entry of the
process table as it was.
-/
namespace Xv6.Vm

open Library Kernel List Option

def Kernel.High (s : Kernel) (np : ℕ) : Prop :=
  ∀ v pte, trapVpn ≤ v → s.trans np v = some pte → pte.perm.u = false

/-- The pages of `np` below `n` are copies of the parent's pages, with their permissions. -/
def Copied (p np n : ℕ) (s₀ s : Kernel) : Prop :=
  ∀ v pte, v < trapVpn → s.trans np v = some pte →
    v < n ∧ ∃ pte₀, s₀.trans p v = some pte₀ ∧ pte.perm = pte₀.perm

section Create

variable {np va v n : ℕ} {s₀ s s' : Kernel} {pte : Pte} {u : PUnit} {b : Bool} {perm : Perm}

theorem Kernel.High.quiet (h : s.High np) (hq : Quiet s s') : s'.High np := by
  intro v pte hv ht
  exact h v pte hv ((hq.trans np v).symm.trans ht)

theorem Kernel.High.withPte (h : s.High np) (hl : (s.lookup np v).isSome)
    (hu : trapVpn ≤ v → pte.perm.u = false) : (s.withPte np v pte).High np := by
  intro w y hw ht
  rw [trans_withPte hl] at ht
  split_ifs at ht with hc hval
  · cases ht
    exact hu (hc.2 ▸ hw)
  · exact h w y hw ht

theorem trampoline_div : trampoline / pgSize = trapVpn + 1 := by decide

theorem trapframe_div : Xv6.trapframe / pgSize = trapVpn := rfl

variable (h : Nascent np s₀ s)
include h

/-- Unmapping a page of the new process, freeing it when it is a user page. -/
theorem Nascent.uvmunmapPage (hhigh : s.High np) {doFree : Bool}
    (hv : doFree = true ↔ va / pgSize < trapVpn) (hx : uvmunmapPage np va doFree s = .ok u s') :
    Nascent np s₀ s' ∧ s'.High np ∧ s'.proc = s.proc := by
  obtain ⟨-, ⟨-, rfl⟩ | ⟨pte, ht, hcase⟩⟩ := uvmunmapPage_cases hx
  · exact ⟨h, hhigh, rfl⟩
  have hl := lookup_isSome_of_trans ht
  rcases hcase with ⟨rfl, href, rfl⟩ | ⟨rfl, rfl⟩
  · have hlf : ((s.freed pte.ppn).lookup np (va / pgSize)).isSome := hl
    have hf : (s.freed pte.ppn).High np := hhigh
    exact ⟨h.unmapFree (hv.mp rfl) ht href, hf.withPte hlf fun _ => rfl, rfl⟩
  · have hge : trapVpn ≤ va / pgSize := by simpa using hv
    exact ⟨h.withPte_of_ge hl hge (fun y hy => hhigh _ y hge hy) rfl,
      hhigh.withPte hl fun _ => rfl, rfl⟩

theorem Nascent.uvmunmap (hhigh : s.High np) (hn : n ≤ trapVpn)
    (hx : uvmunmap np 0 n true s = .ok u s') :
    Nascent np s₀ s' ∧ s'.High np ∧ s'.proc = s.proc := by
  unfold Vm.uvmunmap at hx
  obtain ⟨-, hx⟩ := throw_ite_ok hx
  refine loop_ok (I := fun _ t => Nascent np s₀ t ∧ t.High np ∧ t.proc = s.proc) hx
    ⟨h, hhigh, rfl⟩ ?_
  rintro i t t' - hi ⟨ht, hth, hproc⟩ hpage
  have hdiv : (0 + i * pgSize) / pgSize = i := by
    rw [Nat.zero_add, Nat.mul_div_cancel _ (by decide)]
  obtain ⟨h1, h2, h3⟩ := ht.uvmunmapPage hth (by rw [hdiv]; simp; omega) hpage
  exact ⟨h1, h2, h3.trans hproc⟩

/-- Mapping the trampoline or the trapframe. -/
theorem Nascent.mappages_high (hhigh : s.High np) {pa : ℕ}
    (hv : trapVpn ≤ va / pgSize) (hu : perm.u = false) (hx : mappages np va pa perm s = .ok b s') :
    Nascent np s₀ s' ∧ s'.High np ∧ s'.proc = s.proc ∧ (b = true → ∀ v, s'.trans np v =
      if v = va / pgSize then some ⟨true, perm, pa⟩ else s.trans np v) := by
  obtain ⟨s1, hq, hk, hva, hcase⟩ := mappages_ok hx
  have h1 := h.quiet hq hk
  have hh1 := hhigh.quiet hq
  rcases hcase with ⟨rfl, rfl⟩ | ⟨rfl, hl, hn, rfl⟩
  · exact ⟨h1, hh1, hq.proc, by simp⟩
  · refine ⟨h1.withPte_of_ge hl hv (by simp [hn]) hu, hh1.withPte hl fun _ => hu, hq.proc,
      fun _ v => ?_⟩
    rw [trans_withPte hl, hq.trans]
    simp

theorem uvmfree_zero_ok (hb : s₀.Bounded) (hx : uvmfree np 0 s = .ok u s') :
    Nascent np s₀ s' ∧ s'.proc = s.proc ∧ s'.table np = none := by
  unfold uvmfree at hx
  rw [if_neg (by omega)] at hx
  exact freewalk_ok h hb (by simpa using hx)

theorem uvmcreate_ok (hnp : np < nProc) (hs : s.table np = none) (hx : uvmcreate np s = .ok b s') :
    Nascent np s₀ s' ∧ s'.proc = s.proc ∧ (b = false → s'.table np = none) ∧
      (b = true → (s'.table np).isSome ∧ ∀ v, s'.trans np v = none) := by
  obtain ⟨rfl, rfl⟩ | ⟨rfl, pa, rest, hf, rfl⟩ := uvmcreate_cases hx
  · exact ⟨h, rfl, fun _ => hs, by simp⟩
  set pt : PageTable := ⟨pa, fun _ => none, fun _ => none, fun _ => .zero⟩ with hpt
  have hempty : ∀ v, pt.trans v = none := fun v => by
    simp [hpt, PageTable.trans, PageTable.lookup]
  have haside : Aside (some np) s₀ ((s.allocated pa rest).setTable np (some pt)) := by
    refine (h.aside.andThen (.allocated hf)).setTable_self (fun x a hx => .inr ?_) ?_
    · rw [bind_some] at hx
      cases x with
      | root =>
        cases hx
        exact h.aside.free pa (by simp [hf])
      | dir i => simp [PageTable.holds, hpt] at hx
      | tab i => simp [PageTable.holds, hpt] at hx
      | leaf v => simp [PageTable.holds, hempty] at hx
    · rintro _ - ⟨⟩
      exact ⟨hnp, fun _ _ => rfl⟩
  refine ⟨⟨haside, fun D hD => ?_, h.noTable, h.noFrame⟩, rfl, by simp, fun _ => ⟨?_, ?_⟩⟩
  · have h0 := h.keeps D hD
    have h1 := (h0.allocated hf).newTable hs hnp (by simp [h0.debt_of_free hf])
      (show (s.allocated pa rest).ref pa = 1 by simp [allocated])
    rwa [add_sub_cancel_right] at h1
  · simp [setTable]
  · intro v
    simp [trans_setTable, hempty]

omit h in
/-- How `proc_pagetable` comes to its end. -/
theorem procPagetableIn_cases {t p : ℕ} (hx : procPagetableIn t p s = .ok b s') :
    (b = false ∧ uvmcreate t s = .ok false s') ∨ ∃ s1, uvmcreate t s = .ok true s1 ∧
      ((b = false ∧ ∃ s2, mappages t trampoline s1.trampolinePage ⟨true, false, true, false⟩ s1 =
          .ok false s2 ∧ uvmfree t 0 s2 = .ok ⟨⟩ s') ∨
      ∃ s2, mappages t trampoline s1.trampolinePage ⟨true, false, true, false⟩ s1 = .ok true s2 ∧
        ((b = false ∧ ∃ s3 s4, mappages t Xv6.trapframe ((s1.proc p).trapframe.getD 0)
            ⟨true, true, false, false⟩ s2 = .ok false s3 ∧
            uvmunmap t trampoline 1 false s3 = .ok ⟨⟩ s4 ∧ uvmfree t 0 s4 = .ok ⟨⟩ s') ∨
        (b = true ∧ mappages t Xv6.trapframe ((s1.proc p).trapframe.getD 0)
            ⟨true, true, false, false⟩ s2 = .ok true s'))) := by
  unfold procPagetableIn at hx
  obtain ⟨b1, s1, hcreate, hx⟩ := bind_ok.mp hx
  cases b1 with
  | false =>
    obtain ⟨rfl, rfl⟩ := pure_ok.mp hx
    exact .inl ⟨rfl, hcreate⟩
  | true =>
    refine .inr ⟨s1, hcreate, ?_⟩
    rw [if_pos rfl, get_run] at hx
    obtain ⟨b2, s2, hmap2, hx⟩ := bind_ok.mp hx
    cases b2 with
    | false =>
      simp only [Bool.false_eq_true, if_false, bind_ok, pure_ok] at hx
      obtain ⟨_, _, hfree, rfl, rfl⟩ := hx
      exact .inl ⟨rfl, s2, hmap2, hfree⟩
    | true =>
      refine .inr ⟨s2, hmap2, ?_⟩
      obtain ⟨b3, s3, hmap3, hx⟩ := bind_ok.mp hx
      cases b3 with
      | false =>
        simp only [Bool.false_eq_true, if_false, bind_ok, pure_ok] at hx
        obtain ⟨_, s4, hunmap, _, _, hfree, rfl, rfl⟩ := hx
        exact .inl ⟨rfl, s3, s4, hmap3, hunmap, hfree⟩
      | true =>
        obtain ⟨rfl, rfl⟩ := pure_ok.mp hx
        exact .inr ⟨rfl, hmap3⟩

/-- A new page table maps the trampoline and the trapframe, and nothing else. -/
theorem procPagetable_ok (hb : s₀.Bounded) (hnp : np < nProc)
    (hs : s.table np = none) (hx : procPagetable np s = .ok b s') :
    Nascent np s₀ s' ∧ s'.proc = s.proc ∧ (b = false → s'.table np = none) ∧
      (b = true → s'.High np ∧ s'.Special np ∧ ∀ v < trapVpn, s'.trans np v = none) := by
  rcases procPagetableIn_cases hx with ⟨rfl, hcreate⟩ | ⟨s1, hcreate, hx⟩
  · obtain ⟨h1, hp1, hfail1, -⟩ := uvmcreate_ok h hnp hs hcreate
    exact ⟨h1, hp1, fun _ => hfail1 rfl, by simp⟩
  obtain ⟨h1, hp1, -, hok1⟩ := uvmcreate_ok h hnp hs hcreate
  obtain ⟨htab1, hempty⟩ := hok1 rfl
  have hh1 : s1.High np := fun v pte _ ht => by simp [hempty] at ht
  have htramp : trapVpn ≤ trampoline / pgSize := by rw [trampoline_div]; omega
  rcases hx with ⟨rfl, s2, hx2, hfree⟩ | ⟨s2, hx2, hx⟩
  · obtain ⟨h2, -, hp2, -⟩ := h1.mappages_high hh1 htramp rfl hx2
    obtain ⟨h3, hp3, hnone⟩ := uvmfree_zero_ok h2 hb hfree
    exact ⟨h3, by rw [hp3, hp2, hp1], fun _ => hnone, by simp⟩
  obtain ⟨h2, hh2, hp2, ht2⟩ := h1.mappages_high hh1 htramp rfl hx2
  rcases hx with ⟨rfl, s3, s4, hx3, hunmap, hfree⟩ | ⟨rfl, hx3⟩
  · obtain ⟨h3, hh3, hp3, -⟩ := h2.mappages_high hh2 trapframe_div.ge rfl hx3
    have hlow : false = true ↔ trampoline / pgSize < trapVpn := by
      rw [trampoline_div]
      simp
    obtain ⟨h4, -, hp4⟩ := h3.uvmunmapPage hh3 hlow (uvmunmap_one hunmap)
    obtain ⟨h5, hp5, hnone⟩ := uvmfree_zero_ok h4 hb hfree
    exact ⟨h5, by rw [hp5, hp4, hp3, hp2, hp1], fun _ => hnone, by simp⟩
  obtain ⟨h3, hh3, hp3, ht3⟩ := h2.mappages_high hh2 trapframe_div.ge rfl hx3
  have htrans := ht3 rfl
  simp only [ht2 rfl, hempty, trampoline_div, trapframe_div] at htrans
  refine ⟨h3, by rw [hp3, hp2, hp1], by simp, fun _ => ⟨hh3, fun v hv hlt => ?_, fun v hv => ?_⟩⟩
  · rw [htrans]
    by_cases hv1 : v = trapVpn
    · exact ⟨_, if_pos hv1, rfl⟩
    · have hmax : maxVa / pgSize = trapVpn + 2 := by decide
      exact ⟨_, by rw [if_neg hv1, if_pos (by omega)], rfl⟩
  · rw [htrans, if_neg (by omega), if_neg (by omega)]

theorem freeTrapframe_ok (hx : freeTrapframe np s = .ok u s') :
    Nascent np s₀ s' ∧ s'.table = s.table ∧
      s'.proc np = { s.proc np with trapframe := none } := by
  unfold freeTrapframe at hx
  rw [get_run] at hx
  cases hf : (s.proc np).trapframe with
  | none =>
    simp only [hf, pure_ok] at hx
    obtain ⟨-, rfl⟩ := hx
    exact ⟨h, rfl, by rw [← hf]⟩
  | some pa =>
    simp only [hf, bind_ok, modify_ok] at hx
    obtain ⟨_, s1, hfree, rfl⟩ := hx
    obtain ⟨href, rfl⟩ := kfree_ok hfree
    refine ⟨?_, rfl, by simp [setProc, freed]⟩
    have haside : Aside (some np) s₀ (s.setProc np fun q => { q with trapframe := none }) :=
      h.aside.setProc_self (by simp)
    exact h.release (h.free_of_trapframe hf) haside (fun D hD => hD.dropTrapframe hf) href

theorem freeTable_ok (hb : s₀.Bounded) (hhigh : s.High np)
    (hsz : (s.proc np).sz = 0) (hx : freeTable np s = .ok u s') :
    Nascent np s₀ s' ∧ s'.proc = s.proc ∧ s'.table np = none := by
  unfold freeTable at hx
  rw [get_run] at hx
  rcases ite_ok hx with ⟨-, hx⟩ | ⟨hnone, hx⟩
  · unfold procFreepagetable at hx
    rw [hsz] at hx
    simp only [bind_ok] at hx
    obtain ⟨_, s1, hunmap1, _, s2, hunmap2, hfree⟩ := hx
    have hlow1 : false = true ↔ trampoline / pgSize < trapVpn := by
      rw [trampoline_div]
      simp
    have hlow2 : false = true ↔ Xv6.trapframe / pgSize < trapVpn := by
      rw [trapframe_div]
      simp
    obtain ⟨h1, hh1, hp1⟩ := h.uvmunmapPage hhigh hlow1 (uvmunmap_one hunmap1)
    obtain ⟨h2, -, hp2⟩ := h1.uvmunmapPage hh1 hlow2 (uvmunmap_one hunmap2)
    obtain ⟨h3, hp3, hgone⟩ := uvmfree_zero_ok h2 hb hfree
    exact ⟨h3, by rw [hp3, hp2, hp1], hgone⟩
  · obtain ⟨-, rfl⟩ := pure_ok.mp hx
    exact ⟨h, rfl, by simpa using hnone⟩

theorem freeproc_ok (hb : s₀.Bounded) (hhigh : s.High np)
    (hsz : (s.proc np).sz = 0) (hx : freeproc np s = .ok u s') :
    Nascent np s₀ s' ∧ s'.table np = none ∧ s'.proc np =
      { s.proc np with trapframe := none, sz := 0, killed := false, state := .unused } := by
  unfold freeproc at hx
  simp only [bind_ok, modify_ok] at hx
  obtain ⟨_, s1, hframe, _, s2, htable, rfl⟩ := hx
  obtain ⟨h1, htab1, hp1⟩ := freeTrapframe_ok h hframe
  have hh1 : s1.High np := by
    intro v pte hv ht
    exact hhigh v pte hv (by simpa [Kernel.trans, htab1] using ht)
  obtain ⟨h2, hp2, hnone⟩ := freeTable_ok h1 hb hh1 (by rw [hp1]; exact hsz) htable
  have hnp : s2.proc np = { s.proc np with trapframe := none } := by rw [hp2, hp1]
  refine ⟨⟨?_, ?_, h.noTable, h.noFrame⟩, hnone, ?_⟩
  · exact h2.aside.setProc_self (by simp [hnp])
  · exact fun D hD => (h2.keeps D hD).setProc rfl
  · simp [setProc, hnp]

end Create

section Allocproc

variable {np : ℕ} {s s' : Kernel} {r : Option ℕ}

def Kernel.Blank (s : Kernel) (np : ℕ) : Prop :=
  (s.proc np).state = .unused ∧ s.table np = none ∧ (s.proc np).trapframe = none ∧
    (s.proc np).sz = 0

/-- The attempt to make process `np` left nothing behind. -/
def Discarded (np : ℕ) (s s' : Kernel) : Prop :=
  s.Blank np ∧ np < nProc ∧ Nascent np s s' ∧ s'.Blank np ∧
    (s'.proc np).vmas = (s.proc np).vmas ∧ (s'.proc np).ofile = (s.proc np).ofile

def Allocated (np : ℕ) (s s' : Kernel) : Prop :=
  s.Blank np ∧ np < nProc ∧ Nascent np s s' ∧ s'.High np ∧ s'.Special np ∧
    (∀ v < trapVpn, s'.trans np v = none) ∧
    ∃ pa, s'.proc np =
      { s.proc np with state := .used, nmp := Xv6.trapframe, trapframe := some pa }

theorem allocproc_ok (hb : s.Bounded) (hblank : ∀ q, (s.proc q).state = .unused → s.Blank q)
    (hx : allocproc s = .ok r s') :
    (r = none ∧ (s' = s ∨ ∃ np, Discarded np s s')) ∨
      ∃ np, r = some np ∧ Allocated np s s' := by
  unfold allocproc at hx
  rw [get_run] at hx
  cases hfind : (range nProc).find? fun p => (s.proc p).state = .unused with
  | none =>
    simp only [hfind, pure_ok] at hx
    exact .inl ⟨hx.1.symm, .inl hx.2.symm⟩
  | some np =>
    have hun : (s.proc np).state = .unused := by simpa using find?_some hfind
    have hnp : np < nProc := mem_range.mp (mem_of_find?_eq_some hfind)
    have hbl := hblank np hun
    obtain ⟨-, htab, hframe, hsz⟩ := hblank np hun
    simp only [hfind, bind_ok, modify_ok] at hx
    obtain ⟨_, s1, rfl, o, s2, hk, hx⟩ := hx
    set s1 := s.setProc np fun q => { q with state := .used, nmp := Xv6.trapframe } with hs1
    have h1 : Nascent np s s1 :=
      ⟨(Aside.refl s).setProc_self fun _ ha => .inl ha, fun D hD => hD.setProc rfl, htab, hframe⟩
    have hp1 : s1.proc np = { s.proc np with state := .used, nmp := Xv6.trapframe } := by
      simp [hs1, setProc]
    have hempty : ∀ (t : Kernel), t.table np = none → t.High np := fun t ht v pte _ hv => by
      simp [Kernel.trans, ht] at hv
    cases o with
    | none =>
      simp only [bind_ok, pure_ok] at hx
      obtain ⟨_, s3, hfree, rfl, rfl⟩ := hx
      rw [kalloc_none hk] at hfree
      obtain ⟨h3, hnone, hp3⟩ :=
        freeproc_ok h1 hb (hempty s1 htab) (by rw [hp1]; exact hsz) hfree
      rw [hp1] at hp3
      refine .inl ⟨rfl, .inr ⟨np, hbl, hnp, h3, ⟨?_, hnone, ?_, ?_⟩, ?_, ?_⟩⟩ <;> simp [hp3]
    | some pa =>
      simp only [bind_ok, modify_ok] at hx
      obtain ⟨_, _, rfl, b, s4, hpt, hx⟩ := hx
      obtain ⟨hq, hf, htab2⟩ := kalloc_some hk
      set s3 := s2.setProc np fun q => { q with trapframe := some pa } with hs3
      have hfree : pa ∈ s.freelist := hf.was
      have hp2 : s2.proc np = s1.proc np := by rw [hq.proc]
      have hp3 : s3.proc np = { s.proc np with
          state := .used, nmp := Xv6.trapframe, trapframe := some pa } := by
        simp [hs3, setProc, hp2, hp1]
      have h3 : Nascent np s s3 := by
        refine ⟨(h1.aside.andThen (.of_quiet hq)).setProc_self (by simp [hfree]), fun D hD => ?_,
          htab, hframe⟩
        have hD1 := h1.keeps D hD
        obtain ⟨hD2, hd⟩ := kalloc_owned hD1 hk
        have hD3 := hD2.setTrapframe (by rw [hp2, hp1]; exact hframe) (by simp [hd])
          (hf.taken hD1.balanced.nodup).2
        rwa [add_sub_cancel_right] at hD3
      have htab3 : s3.table np = none := by
        have : s2.table np = none := by rw [htab2]; exact htab
        exact this
      obtain ⟨h4, hp4, hfail, hok⟩ := procPagetable_ok h3 hb hnp htab3 hpt
      rcases pure_ite_ok hx with ⟨hbt, rfl, rfl⟩ | ⟨hbf, hx⟩
      · obtain ⟨hhigh, hspecial, hnone⟩ := hok hbt
        exact .inr ⟨np, rfl, hbl, hnp, h4, hhigh, hspecial, hnone, pa, by rw [hp4, hp3]⟩
      · simp only [bind_ok, pure_ok] at hx
        obtain ⟨_, s5, hfree, rfl, rfl⟩ := hx
        have hnone := hfail (by simpa using hbf)
        obtain ⟨h5, hnone5, hp5⟩ :=
          freeproc_ok h4 hb (hempty s4 hnone) (by rw [hp4, hp3]; exact hsz) hfree
        rw [hp4, hp3] at hp5
        refine .inl ⟨rfl, .inr ⟨np, hbl, hnp, h5, ⟨?_, hnone5, ?_, ?_⟩, ?_, ?_⟩⟩ <;>
          simp [hp5]

end Allocproc

section Copy

variable {p np k i : ℕ} {s₀ s s' : Kernel} {b : Bool}

/-- `_uvmcopy` gives the child copies of the parent's pages, or fails and frees them. -/
theorem uvmcopyLoop_ok (h : Nascent np s₀ s) (hhigh : s.High np) (hsp : s.Special np)
    (hcop : Copied p np (i / pgSize) s₀ s) (hne : p ≠ np) (hi : i % pgSize = 0)
    (hle : i + k * pgSize ≤ Xv6.trapframe) (hx : uvmcopyLoop p np k i s = .ok b s') :
    Nascent np s₀ s' ∧ s'.High np ∧ s'.proc = s.proc ∧
      (b = true → s'.Special np ∧ Copied p np (i / pgSize + k) s₀ s') := by
  induction k generalizing s i with
  | zero =>
    obtain ⟨-, rfl⟩ := pure_ok.mp hx
    exact ⟨h, hhigh, rfl, fun _ => ⟨hsp, hcop⟩⟩
  | succ k ih =>
    have hpg : pgSize = 4096 := rfl
    have htf : Xv6.trapframe = trapVpn * 4096 := by decide
    have hnext : (i + pgSize) / pgSize = i / pgSize + 1 := Nat.add_div_right i (by decide)
    have hmod : (i + pgSize) % pgSize = 0 := by rw [Nat.add_mod_right, hi]
    have hlow : i / pgSize < trapVpn := by
      rw [hpg] at hle ⊢
      omega
    unfold uvmcopyLoop at hx
    rw [get_run] at hx
    obtain ⟨-, hx⟩ := throw_ite_ok hx
    have hle' : i + pgSize + k * pgSize ≤ Xv6.trapframe := by
      rw [Nat.add_mul] at hle
      omega
    have hshift : i / pgSize + (k + 1) = (i + pgSize) / pgSize + k := by omega
    have hold : s.trans p (i / pgSize) = s₀.trans p (i / pgSize) :=
      h.aside.apart p _ hne
    cases ht : s.trans p (i / pgSize) with
    | none =>
      simp only [ht] at hx
      have hcop' : Copied p np ((i + pgSize) / pgSize) s₀ s := by
        intro v pte hv hpte
        obtain ⟨hlt, hsrc⟩ := hcop v pte hv hpte
        exact ⟨by omega, hsrc⟩
      rw [hshift]
      exact ih h hhigh hsp hcop' hmod hle' hx
    | some pte =>
      simp only [ht] at hx
      obtain ⟨o, s1, hk, hx⟩ := bind_ok.mp hx
      cases o with
      | none =>
        simp only [bind_ok, pure_ok] at hx
        obtain ⟨_, s2, hunmap, rfl, rfl⟩ := hx
        rw [kalloc_none hk] at hunmap
        obtain ⟨h1, h2, h3⟩ := h.uvmunmap hhigh (by omega) hunmap
        exact ⟨h1, h2, h3, by simp⟩
      | some mem =>
        obtain ⟨hq1, hf1, -⟩ := kalloc_some hk
        simp only [bind_ok, modify_ok] at hx
        obtain ⟨_, s2, hs2, b1, s3, hmap, hx⟩ := hx
        subst hs2
        set s2 := s1.setPage mem (s.mem pte.ppn) with hs2
        have hq2 : Quiet s s2 := hq1.setPage hf1.was _
        obtain ⟨s4, hq4, hk4, -, hcase⟩ := mappages_ok hmap
        have hq : Quiet s s4 := hq2.andThen hq4
        have hfresh : Fresh s s4 mem := hq4.fresh ⟨hf1.was, hf1.taken, hf1.faulted⟩
        have howned : ∀ D, s.Owned D → s4.Owned (D + Pi.single mem 1) ∧ D mem = 0 := by
          intro D hD
          obtain ⟨hD1, hd⟩ := kalloc_owned hD hk
          exact ⟨hk4 _ ⟨hD1.balanced, hD1.bounded, hD1.small⟩, hd⟩
        have hmem : mem ∈ s₀.freelist := h.aside.free mem hf1.was
        have haside : Aside (some np) s₀ s4 := h.aside.andThen (.of_quiet hq)
        rcases hcase with ⟨rfl, rfl⟩ | ⟨rfl, hl, hn, rfl⟩
        · simp only [Bool.false_eq_true, if_false, bind_ok, pure_ok] at hx
          obtain ⟨_, s5, hfree, _, s6, hunmap, rfl, rfl⟩ := hx
          obtain ⟨-, rfl⟩ := kfree_ok hfree
          have h5 : Nascent np s₀ (s3.freed mem) := by
            refine ⟨haside.freed hmem, fun D hD => ?_, h.noTable, h.noFrame⟩
            have hD0 := h.keeps D hD
            obtain ⟨hD4, hd⟩ := howned D hD0
            have hD5 := hD4.freed (by simp [hd]) (hfresh.taken hD0.balanced.nodup).2
            rwa [add_sub_cancel_right] at hD5
          have hhigh3 : s3.High np := hhigh.quiet hq
          have hhigh5 : (s3.freed mem).High np := hhigh3
          obtain ⟨h6, hh6, hp6⟩ := h5.uvmunmap hhigh5 (by omega) hunmap
          exact ⟨h6, hh6, by rw [hp6]; exact hq.proc, by simp⟩
        · simp only [if_true] at hx
          set s5 := s4.withPte np (i / pgSize) ⟨true, pte.perm, mem⟩ with hs5
          have h5 : Nascent np s₀ s5 := by
            refine ⟨haside.withPte_self hl fun _ _ => hmem, fun D hD => ?_, h.noTable, h.noFrame⟩
            have hD0 := h.keeps D hD
            obtain ⟨hD4, hd⟩ := howned D hD0
            have hD5 : s5.Owned _ :=
              hD4.map hl hlow hn (by simp [hd]) (hfresh.taken hD0.balanced.nodup).2
            rwa [add_sub_cancel_right] at hD5
          have htrans : ∀ v, s5.trans np v =
              if v = i / pgSize then some ⟨true, pte.perm, mem⟩ else s.trans np v := by
            intro v
            rw [hs5, trans_withPte hl, hq.trans]
            simp
          have hhigh5 : s5.High np := (hhigh.quiet hq).withPte hl fun hge => by omega
          have hsp5 : s5.Special np := by
            intro v hv hlt
            rw [htrans, if_neg (by omega)]
            exact hsp v hv hlt
          have hcop5 : Copied p np ((i + pgSize) / pgSize) s₀ s5 := by
            intro v y hv hy
            rw [htrans] at hy
            split_ifs at hy with hvi
            · cases hy
              exact ⟨by omega, pte, by rw [hvi, ← hold, ht], rfl⟩
            · obtain ⟨hlt, hsrc⟩ := hcop v y hv hy
              exact ⟨by omega, hsrc⟩
          have hp5 : s5.proc = s.proc := hq.proc
          rw [hshift, ← hp5]
          exact ih h5 hhigh5 hsp5 hcop5 hmod hle' hx

theorem uvmcopy_ok {sz start : ℕ} (h : Nascent np s₀ s) (hhigh : s.High np) (hsp : s.Special np)
    (hnone : ∀ v < trapVpn, s.trans np v = none) (hne : p ≠ np) (hstart : start % pgSize = 0)
    (hsz : sz ≤ Xv6.trapframe) (hx : uvmcopy p np sz start s = .ok b s') :
    Nascent np s₀ s' ∧ s'.High np ∧ s'.proc = s.proc ∧
      (b = true → s'.Special np ∧ Copied p np (pgRoundUp sz / pgSize) s₀ s') := by
  have hcop : ∀ n, Copied p np n s₀ s := fun n v pte hv ht => by simp [hnone v hv] at ht
  have htf : Xv6.trapframe = trapVpn * 4096 := by decide
  have hpg : pgSize = 4096 := rfl
  unfold uvmcopy at hx
  by_cases hlt : start < sz
  · have hle : start + (sz - start + pgSize - 1) / pgSize * pgSize ≤ Xv6.trapframe := by
      rw [hpg] at hstart ⊢
      omega
    have hend : start / pgSize + (sz - start + pgSize - 1) / pgSize = pgRoundUp sz / pgSize := by
      unfold pgRoundUp
      rw [hpg] at hstart ⊢
      omega
    rw [← hend]
    exact uvmcopyLoop_ok h hhigh hsp (hcop _) hne hstart hle hx
  · have hzero : (sz - start + pgSize - 1) / pgSize = 0 := by
      rw [hpg]
      omega
    rw [hzero] at hx
    obtain ⟨-, rfl⟩ := pure_ok.mp hx
    exact ⟨h, hhigh, rfl, fun _ => ⟨hsp, hcop _⟩⟩

end Copy

section Share

variable {p np : ℕ} {s s' : Kernel} {D : ℕ → ℤ} {perm : Perm} {priv : Bool} {u : PUnit}

/-- The page of `va` of the parent is now also the page of `va'` of the child; a private
page gets the same permissions in the parent. -/
def PageShared (p np va va' : ℕ) (perm : Perm) (priv : Bool) (s s' : Kernel) : Prop :=
  ∃ s₁ s₂ pte, Quiet s s₁ ∧ Keeps s s₁ ∧ va < maxVa ∧ va' < maxVa ∧
    s.trans p (va / pgSize) = some pte ∧ pte.perm.u = true ∧ pte.ppn ≠ 0 ∧
    (s₁.lookup np (va' / pgSize)).isSome ∧ s.trans np (va' / pgSize) = none ∧
    s₂ = s₁.withPte np (va' / pgSize) ⟨true, perm, pte.ppn⟩ ∧
    s' = (if priv then s₂.withPte p (va / pgSize) ⟨true, perm, pte.ppn⟩ else s₂).setRef pte.ppn
      (u32 (s₁.ref pte.ppn + 1))

theorem forkPerm_user (prot : Prot) (flags : MapFlags) : (forkPerm prot flags).u = true := by
  cases prot <;> cases flags <;> rfl

theorem sharePage_ok {j0 j k : ℕ} (hx : sharePage p np j0 j k s = .ok u s') :
    (s' = s ∧ s.walkaddr p (u64 ((s.vmas j0).addr + (k * pgSize : ℕ))) = none) ∨
      PageShared p np (u64 ((s.vmas j0).addr + (k * pgSize : ℕ)))
      (u64 ((s.vmas j).addr + (k * pgSize : ℕ))) (forkPerm (s.vmas j0).prot (s.vmas j0).flags)
      ((s.vmas j0).flags = .mapPrivate) s s' := by
  unfold sharePage at hx
  rw [get_run] at hx
  set va := u64 ((s.vmas j0).addr + (k * pgSize : ℕ)) with hva
  cases hw : s.walkaddr p va with
  | none =>
    simp only [hw, pure_ok] at hx
    exact .inl ⟨hx.2.symm, rfl⟩
  | some phy =>
    have hnz := walkaddr_ne_zero hw
    obtain ⟨hlt, pte, ht, hu, rfl⟩ := walkaddr_some hw
    simp only [hw] at hx
    obtain ⟨b, s1, hmap, hx⟩ := bind_ok.mp hx
    obtain ⟨s2, hq, hk, hlt', hcase⟩ := mappages_ok hmap
    rw [pgRoundDown_div] at hcase
    rcases hcase with ⟨rfl, rfl⟩ | ⟨rfl, hl, hn, rfl⟩
    · simp at hx
    · right
      refine ⟨s2, _, pte, hq, hk, hlt, pgRoundDown_lt hlt', ht, hu, hnz, hl, ?_, rfl, ?_⟩
      · rw [← hq.trans]
        exact hn
      · simp only [if_true] at hx
        by_cases hpriv : (s.vmas j0).flags = .mapPrivate
        · simp only [hpriv, if_true, bind_ok, modify_ok] at hx
          obtain ⟨_, _, rfl, hinc⟩ := hx
          simp only [hpriv, decide_true, if_true]
          exact incref_ok hinc
        · simp only [hpriv, if_false] at hx
          simp only [hpriv, decide_false, Bool.false_eq_true, if_false]
          exact incref_ok hx

theorem u32_succ {n : ℕ} (h : n + 1 < 2 ^ 32) : u32 ((n : ℤ) + 1) = n + 1 := by
  unfold u32
  omega

/-- A page that user code can reach has at most one holder for each user page of each process. -/
theorem Kernel.Owned.ncard_holders_le (h : s.Owned D) {pa t v : ℕ} {pte : Pte}
    (ht : s.trans t v = some pte) (hv : v < trapVpn) (hu : pte.perm.u = true)
    (hpa : pte.ppn = pa) : (holders s.own pa).ncard ≤ nProc * trapVpn := by
  have hheld : s.own (.table t (.leaf v)) = some pa := hpa ▸ Kernel.Owned.own_leaf_of_trans ht hv
  have hshared : s.Shared (.table t (.leaf v)) := ⟨pte, ht, hu⟩
  have hall : ∀ y ∈ holders s.own pa, s.Shared y := by
    intro y hy
    by_cases hyt : y = .table t (.leaf v)
    · rw [hyt]
      exact hshared
    · exact (h.balanced.exclusive y _ pa hy hheld hyt).1
  have hsub : holders s.own pa ⊆
      (fun a : ℕ × ℕ => Handle.table a.1 (.leaf a.2)) '' (Set.Iio nProc ×ˢ Set.Iio trapVpn) := by
    intro y hy
    have hsh := hall y hy
    cases y with
    | table t' x =>
      cases x with
      | leaf v' =>
        change s.own _ = some pa at hy
        simp only [own] at hy
        cases hs : s.table t' with
        | none => simp [hs] at hy
        | some pt =>
          simp only [hs, bind_some, PageTable.holds] at hy
          split_ifs at hy with hlt
          exact ⟨(t', v'), ⟨(h.bounded t' pt hs).1, hlt⟩, rfl⟩
      | root => exact hsh.elim
      | dir i => exact hsh.elim
      | tab i => exact hsh.elim
    | trapframe q => exact hsh.elim
  have hfin : (Set.Iio nProc ×ˢ Set.Iio trapVpn).Finite :=
    (Set.finite_Iio nProc).prod (Set.finite_Iio trapVpn)
  calc (holders s.own pa).ncard
      ≤ ((fun a : ℕ × ℕ => Handle.table a.1 (.leaf a.2)) ''
          (Set.Iio nProc ×ˢ Set.Iio trapVpn)).ncard := Set.ncard_le_ncard hsub (hfin.image _)
    _ ≤ (Set.Iio nProc ×ˢ Set.Iio trapVpn).ncard := Set.ncard_image_le hfin
    _ = nProc * trapVpn := by
      rw [Set.ncard_prod]
      simp [Set.ncard_eq_toFinset_card']

theorem PageShared.trans_eq {va va' : ℕ} (h : PageShared p np va va' perm priv s s')
    (hne : p ≠ np) : ∃ pte, s.trans p (va / pgSize) = some pte ∧ ∀ t v, s'.trans t v =
      if t = np ∧ v = va' / pgSize then some ⟨true, perm, pte.ppn⟩
      else if priv = true ∧ t = p ∧ v = va / pgSize then some ⟨true, perm, pte.ppn⟩
      else s.trans t v := by
  obtain ⟨s1, s2, pte, hq, -, -, -, ht, -, -, hl, -, rfl, rfl⟩ := h
  refine ⟨pte, ht, fun t v => ?_⟩
  have ht2 : (s1.withPte np (va' / pgSize) ⟨true, perm, pte.ppn⟩).trans p (va / pgSize) =
      some pte := by
    rw [trans_withPte_of_ne hl fun hc => hne hc.1, hq.trans, ht]
  have hl2 := lookup_isSome_of_trans ht2
  cases priv with
  | false =>
    simp only [Bool.false_eq_true, if_false, false_and]
    rw [← hq.trans t v]
    exact trans_withPte hl
  | true =>
    simp only [if_true, true_and]
    rw [← hq.trans t v]
    have hstep : ∀ y : Kernel, (y.setRef pte.ppn (u32 (s1.ref pte.ppn + 1))).trans t v =
        y.trans t v := fun _ => rfl
    rw [hstep, trans_withPte hl2, trans_withPte hl]
    by_cases h1 : t = np ∧ v = va' / pgSize
    · have h2 : ¬(t = p ∧ v = va / pgSize) := fun hc => hne (hc.1.symm.trans h1.1)
      simp [h1, hne.symm]
    · simp [h1]

/-- Sharing a page keeps the accounts, as long as the count cannot overflow. -/
theorem PageShared.owned {va va' : ℕ} (h : PageShared p np va va' perm priv s s')
    (hD : s.Owned D) (hdebt : ∀ pa, D pa ≤ 127) (hne : p ≠ np) (hp : s.Special p)
    (hnp : s.Special np) (hperm : perm.u = true) : s'.Owned D := by
  obtain ⟨s1, s2, pte, hq, hk, hva, hva', ht, hu, -, hl, hn, rfl, rfl⟩ := h
  have hv : va / pgSize < trapVpn := hp.lt_of_user hva ht hu
  have hv' : va' / pgSize < trapVpn := hnp.lt_of_none hva' hn
  have hD1 := hk D hD
  have ht1 : s1.trans p (va / pgSize) = some pte := (hq.trans p _).trans ht
  have hD2 : (s1.withPte np (va' / pgSize) ⟨true, perm, pte.ppn⟩).Owned _ :=
    hD1.mapShared hl hv' ((hq.trans np _).trans hn) ht1 hv hu hperm
  have ht2 : (s1.withPte np (va' / pgSize) ⟨true, perm, pte.ppn⟩).trans p (va / pgSize) =
      some pte := by
    rw [trans_withPte_of_ne hl fun hc => hne hc.1, ht1]
  have hcard := hD2.ncard_holders_le ht2 hv hu rfl
  have hfree := hD2.not_free_of_trans hv ht2
  have hcount := hD2.balanced.count pte.ppn hfree
  have hlt : s1.ref pte.ppn + 1 < 2 ^ 32 := by
    have hd := hdebt pte.ppn
    have hsame : (s1.withPte np (va' / pgSize) ⟨true, perm, pte.ppn⟩).ref pte.ppn =
      s1.ref pte.ppn := rfl
    have hsize : nProc * trapVpn = 2 ^ 32 - 128 := by decide
    rw [hsame] at hcount
    simp only [Pi.sub_apply, Pi.single_eq_same] at hcount
    omega
  rw [u32_succ hlt]
  have hsum : D - Pi.single pte.ppn 1 +
      Pi.single pte.ppn (((s1.ref pte.ppn + 1 : ℕ) : ℤ) - (s1.ref pte.ppn : ℤ)) = D := by
    have hone : ((s1.ref pte.ppn + 1 : ℕ) : ℤ) - (s1.ref pte.ppn : ℤ) = 1 := by omega
    rw [hone, sub_add_cancel]
  cases priv with
  | false =>
    have hD3 := hD2.setRef hfree hlt
    rwa [show (s1.withPte np (va' / pgSize) ⟨true, perm, pte.ppn⟩).ref pte.ppn =
      s1.ref pte.ppn from rfl, hsum] at hD3
  | true =>
    have hD3 : ((s1.withPte np (va' / pgSize) ⟨true, perm, pte.ppn⟩).withPte p (va / pgSize)
        ⟨true, perm, pte.ppn⟩).Owned _ := hD2.reperm ht2 (hperm.trans hu.symm)
    have hD4 := hD3.setRef hfree hlt
    rwa [show ((s1.withPte np (va' / pgSize) ⟨true, perm, pte.ppn⟩).withPte p (va / pgSize)
      ⟨true, perm, pte.ppn⟩).ref pte.ppn = s1.ref pte.ppn from rfl, hsum] at hD4

end Share

end Xv6.Vm
