import Xv6.Vm.FaultEffects

/-!
# Demand paging

The faults that user accesses and user copies may take. `Demand p` collects what
can happen to the state while the kernel accesses the memory of process `p` for
reading: pages are faulted in, or the process is killed. Nothing that was mapped is
changed by it.
-/
namespace Xv6.Vm

open Library Relation Kernel

/-- The region whose page a fault at `va` brings in, and its permissions. -/
def Kernel.backing (s : Kernel) (p va : ℕ) : Option (Region × Perm) :=
  let q := s.proc p
  if q.text.Contains va then some (q.text, textPerm)
  else if q.data.Contains va then some (q.data, dataPerm)
  else (s.findVma p va).map fun v => (v.toRegion, v.prot.perm)

/-- What reading the memory of process `p` may do. -/
inductive Demand (p : ℕ) (s : Kernel) : Kernel → Prop
  | killed {s' : Kernel} (h : KilledBy p s s') : Demand p s s'
  | faultedIn {s' : Kernel} {r : Region} {va : ℕ} {perm : Perm}
      (hb : s.backing p va = some (r, perm)) (h : FaultedIn r p va perm s s')
      (hk : Keeps s s') : Demand p s s'

abbrev Demands (p : ℕ) : Kernel → Kernel → Prop := ReflTransGen (Demand p)

/-- Only process `p` was worked on: its page table changed, or it was killed. -/
structure Local (p : ℕ) (s s' : Kernel) : Prop where
  tables : ∀ t v, t ≠ p → s'.trans t v = s.trans t v
  procs : ∀ q, ∃ b, s'.proc q = { s.proc q with killed := b }
  vmas : s'.vmas = s.vmas
  file : s'.file = s.file
  bounded : s.Bounded → s'.Bounded
  absent : ∀ t, s.table t = none → s'.table t = none

/-- Besides, all that was mapped is still mapped. -/
structure Steady (p : ℕ) (s s' : Kernel) : Prop extends Local p s s' where
  trans : ∀ t v pte, s.trans t v = some pte → s'.trans t v = some pte

namespace Local

variable {p : ℕ} {s s₁ s' : Kernel}

theorem refl (s : Kernel) : Local p s s where
  tables _ _ _ := rfl
  procs q := ⟨(s.proc q).killed, rfl⟩
  vmas := rfl
  file := rfl
  bounded := id
  absent _ h := h

theorem andThen (h : Local p s s₁) (h' : Local p s₁ s') : Local p s s' where
  tables t v ht := (h'.tables t v ht).trans (h.tables t v ht)
  procs q := by
    obtain ⟨b, hb⟩ := h.procs q
    obtain ⟨c, hc⟩ := h'.procs q
    exact ⟨c, by rw [hc, hb]⟩
  vmas := h'.vmas.trans h.vmas
  file := h'.file.trans h.file
  bounded hb := h'.bounded (h.bounded hb)
  absent t hn := h'.absent t (h.absent t hn)

theorem slot (h : Local p s s') (q i : ℕ) : s'.slot q i = s.slot q i := by
  obtain ⟨b, hb⟩ := h.procs q
  simp [Kernel.slot, hb, h.vmas]

theorem setPage (pa : ℕ) (bytes : Bytes) : Local p s (s.setPage pa bytes) :=
  ⟨fun _ _ _ => rfl, fun _ => ⟨_, rfl⟩, rfl, rfl, id, fun _ h => h⟩

end Local

/-- Images and regions are what they were; processes may be killed, and descriptors change. -/
structure Unmoved (s s' : Kernel) : Prop where
  procs : ∀ q, ∃ b o, s'.proc q = { s.proc q with killed := b, ofile := o }
  vmas : s'.vmas = s.vmas

namespace Unmoved

variable {p : ℕ} {s s₁ s' : Kernel}

theorem of_eq (hp : s'.proc = s.proc) (hv : s'.vmas = s.vmas) : Unmoved s s' :=
  ⟨fun q => ⟨(s.proc q).killed, (s.proc q).ofile, by rw [hp]⟩, hv⟩

theorem andThen (h : Unmoved s s₁) (h' : Unmoved s₁ s') : Unmoved s s' where
  procs q := by
    obtain ⟨b, o, hb⟩ := h.procs q
    obtain ⟨c, r, hc⟩ := h'.procs q
    exact ⟨c, r, by rw [hc, hb]⟩
  vmas := h'.vmas.trans h.vmas

theorem setFile (f : ℕ) (file : File) : Unmoved s (s.setFile f file) := .of_eq rfl rfl

theorem setOfile (fd : ℕ) (o : Option ℕ) :
    Unmoved s (s.setProc p fun q => { q with ofile := Function.update q.ofile fd o }) where
  procs q := by
    by_cases hq : q = p
    · subst hq
      exact ⟨(s.proc q).killed, _, Function.update_self ..⟩
    · exact ⟨_, _, Function.update_of_ne hq ..⟩
  vmas := rfl

theorem state (h : Unmoved s s') (q : ℕ) : (s'.proc q).state = (s.proc q).state := by
  obtain ⟨b, o, hb⟩ := h.procs q
  rw [hb]

theorem slot (h : Unmoved s s') (q i : ℕ) : s'.slot q i = s.slot q i := by
  obtain ⟨b, o, hb⟩ := h.procs q
  simp [Kernel.slot, hb, h.vmas]

end Unmoved

theorem Local.unmoved {p : ℕ} {s s' : Kernel} (h : Local p s s') : Unmoved s s' where
  procs q := by
    obtain ⟨b, hb⟩ := h.procs q
    exact ⟨b, (s.proc q).ofile, hb⟩
  vmas := h.vmas

namespace Steady

variable {p : ℕ} {s s₁ s' : Kernel}

theorem refl (s : Kernel) : Steady p s s := ⟨Local.refl s, fun _ _ _ h => h⟩

theorem andThen (h : Steady p s s₁) (h' : Steady p s₁ s') : Steady p s s' :=
  ⟨h.toLocal.andThen h'.toLocal, fun t v pte ht => h'.trans t v pte (h.trans t v pte ht)⟩

theorem of_quiet (h : Quiet s s') : Steady p s s' where
  trans t v pte ht := (h.trans t v).trans ht
  tables t v _ := h.trans t v
  procs q := ⟨(s.proc q).killed, by rw [h.proc]⟩
  vmas := h.vmas
  file := h.file
  bounded := h.bounded
  absent t hn := h.absent t (by simp) hn

theorem special (h : Steady p s s') {q : ℕ} (hsp : s.Special q) : s'.Special q := by
  intro v hv hlt
  obtain ⟨pte, ht, hu⟩ := hsp v hv hlt
  exact ⟨pte, h.trans q v pte ht, hu⟩

theorem walkaddr (h : Steady p s s') {q va pa : ℕ} (hw : s.walkaddr q va = some pa) :
    s'.walkaddr q va = some pa := by
  obtain ⟨hva, pte, ht, hu, hpa⟩ := walkaddr_some hw
  unfold Kernel.walkaddr at hw ⊢
  rw [h.trans q _ pte ht]
  rwa [ht] at hw

end Steady

section Demand

variable {p : ℕ} {s s' : Kernel}

theorem Demand.keeps (h : Demand p s s') : Keeps s s' := by
  cases h with
  | killed h =>
    obtain ⟨s₁, -, hk, rfl⟩ := h
    exact fun D hD => (hk D hD).setProc rfl
  | faultedIn _ _ hk => exact hk

theorem Kernel.trans_mark {t v pa : ℕ} : (s.mark pa).trans t v = s.trans t v := by
  rfl

/-- A page of the process was mapped before, or has been faulted in. -/
theorem Demand.trans_cases {w : ℕ} {pte : Pte} (hd : Demand p s s')
    (ht : s'.trans p w = some pte) : s.trans p w = some pte ∨
      ∃ r va, s.backing p va = some (r, pte.perm) ∧ w = va / pgSize ∧ w < trapVpn := by
  cases hd with
  | killed hk =>
    obtain ⟨s₁, hq, -, rfl⟩ := hk
    exact .inl ((hq.trans p w).symm.trans ht)
  | @faultedIn r va perm hb hf _ =>
    obtain ⟨s₁, pa, hq, -, -, hlow, hl, -, -, rfl⟩ := hf
    rw [trans_mark, trans_withPte hl, hq.trans] at ht
    split_ifs at ht with hc
    · cases ht
      exact .inr ⟨r, va, hb, hc.2, hc.2 ▸ hlow⟩
    · exact .inl ht

theorem Kernel.trans_setProc {t v q : ℕ} {f : Proc → Proc} :
    (s.setProc q f).trans t v = s.trans t v := by
  rfl

theorem Kernel.table_withPte_none {t t' v : ℕ} {pte : Pte} (h : s.table t' = none) :
    (s.withPte t v pte).table t' = none := by
  unfold withPte setTable
  by_cases ht : t' = t
  · subst ht
    simp [h]
  · simp [ht, h]

theorem Demand.steady (h : Demand p s s') : Steady p s s' := by
  cases h with
  | killed h =>
    obtain ⟨s₁, hq, -, rfl⟩ := h
    have hst : Steady p s s₁ := Steady.of_quiet hq
    exact { hst with
      procs := fun q => by
        by_cases hqp : q = p
        · subst hqp
          exact ⟨true, by simp [setProc, hq.proc]⟩
        · obtain ⟨b, hb⟩ := hst.procs q
          exact ⟨b, by simp [setProc, hqp, hb]⟩ }
  | @faultedIn r va perm _ h _ =>
    obtain ⟨s₁, pa, hq, -, -, -, hl, hn, -, rfl⟩ := h
    have hst : Steady p s s₁ := Steady.of_quiet hq
    have hne : ∀ t v pte, s.trans t v = some pte → ¬(t = p ∧ v = va / pgSize) := by
      rintro t v pte ht ⟨rfl, rfl⟩
      simp [hn] at ht
    have hb : s.Bounded → (s₁.withPte p (va / pgSize) ⟨true, perm, pa⟩).Bounded := fun hb =>
      Kernel.Owned.bounded_withPte (hq.bounded hb)
    have ha : ∀ t, s.table t = none →
        (s₁.withPte p (va / pgSize) ⟨true, perm, pa⟩).table t = none := fun t hn =>
      table_withPte_none (hq.absent t (by simp) hn)
    refine ⟨⟨fun t v ht => ?_, ?_, ?_, ?_, ?_, ?_⟩, fun t v pte ht => ?_⟩
    · rw [trans_mark, trans_withPte_of_ne hl (fun hc => ht hc.1)]
      exact hst.tables t v ht
    · exact hst.procs
    · exact hst.vmas
    · exact hst.file
    · exact hb
    · exact ha
    · rw [trans_mark, trans_withPte_of_ne hl (hne t v pte ht)]
      exact hst.trans t v pte ht

theorem Demands.steady (h : Demands p s s') : Steady p s s' := by
  induction h with
  | refl => exact Steady.refl s
  | tail _ hd ih => exact ih.andThen hd.steady

end Demand

section Trap

variable {s s' : Kernel} {p va : ℕ} {cause : Cause} {u : PUnit}

theorem setkilled_ok (hx : setkilled p s = .ok u s') : Demand p s s' := by
  have hs' := modify_ok.mp hx
  subst hs'
  exact .killed ⟨s, Aside.refl s, fun _ h => h, rfl⟩

theorem demand_of_alloc {r : Region} {perm : Perm} (hsp : s.Special p)
    (hb : s.backing p va = some (r, perm))
    (hx : allocPhysicalVMA r p va perm s = .ok u s') : Demand p s s' := by
  obtain ⟨hk, hf | hf⟩ := allocPhysicalVMA_ok hsp hx
  · exact .faultedIn hb hf hk
  · exact .killed hf

/-- The outcomes of a page fault; only stores to resident pages of mmap regions reach the
copy-on-write code. -/
inductive Trapped (p : ℕ) (cause : Cause) (va : ℕ) (s : Kernel) : Kernel → Prop
  | ignored : Trapped p cause va s s
  | demand {s' : Kernel} (h : Demand p s s') : Trapped p cause va s s'
  | split {s' : Kernel} (hc : cause = .store) (hv : (s.findVma p va).isSome)
      (hw : s.walkaddr p va ≠ none) (h : Split p va s s') : Trapped p cause va s s'
  | granted {s' : Kernel} (hc : cause = .store) (hv : (s.findVma p va).isSome)
      (hw : s.walkaddr p va ≠ none) (h : Granted p va s s') : Trapped p cause va s s'

/-- Faults that are not copy-on-write faults. -/
theorem fault_ok (hsp : s.Special p)
    (hx : (if (s.proc p).text.Contains va then
        allocPhysicalVMA (s.proc p).text p va textPerm
      else if (s.proc p).data.Contains va then
        allocPhysicalVMA (s.proc p).data p va dataPerm
      else
        match s.findVma p va with
        | some v => allocPhysicalVMA v.toRegion p va v.prot.perm
        | none => setkilled p) s = .ok u s') : Demand p s s' := by
  rcases ite_ok hx with ⟨ht, hx⟩ | ⟨ht, hx⟩
  · exact demand_of_alloc hsp (by simp [backing, ht]) hx
  rcases ite_ok hx with ⟨hd, hx⟩ | ⟨hd, hx⟩
  · exact demand_of_alloc hsp (by simp [backing, ht, hd]) hx
  cases hv : s.findVma p va with
  | none =>
    simp only [hv] at hx
    exact setkilled_ok hx
  | some v =>
    simp only [hv] at hx
    exact demand_of_alloc hsp (by simp [backing, ht, hd, hv]) hx

theorem usertrap_ok (hsp : s.Special p) (hx : usertrap p cause va s = .ok u s') :
    Trapped p cause va s s' := by
  unfold usertrap at hx
  rw [get_run] at hx
  cases cause with
  | fetch =>
    rcases ite_ok hx with ⟨ht, hx⟩ | ⟨ht, hx⟩
    · exact .demand (demand_of_alloc hsp (by simp [backing, ht]) hx)
    · obtain ⟨-, rfl⟩ := pure_ok.mp hx
      exact .ignored
  | load =>
    cases hw : s.walkaddr p va <;> simp only [hw] at hx <;> exact .demand (fault_ok hsp hx)
  | store =>
    cases hw : s.walkaddr p va with
    | none =>
      simp only [hw] at hx
      exact .demand (fault_ok hsp hx)
    | some phy =>
      simp only [hw] at hx
      rcases ite_ok hx with ⟨hv, hx⟩ | ⟨-, hx⟩
      · rcases cow_ok hw hx with rfl | hs | hg
        · exact .ignored
        · exact .split rfl hv (by simp [hw]) hs
        · exact .granted rfl hv (by simp [hw]) hg
      · exact .demand (setkilled_ok hx)

end Trap

section Copy

variable {s s' : Kernel} {p va pa : ℕ} {u : PUnit}

theorem userPage_of_walkaddr (hw : s.walkaddr p va = some pa) :
    userPage p va s = .ok (some pa) s := by
  simp [userPage, hw]

theorem walkaddr_pgRoundDown : s.walkaddr p (pgRoundDown va) = s.walkaddr p va := by
  have hiff : pgRoundDown va ≥ maxVa ↔ va ≥ maxVa := by
    unfold pgRoundDown maxVa pgSize
    omega
  simp only [walkaddr, hiff, pgRoundDown_div]

theorem sub_pgRoundDown : va - pgRoundDown va = va % pgSize := by
  unfold pgRoundDown pgSize
  omega

variable (hsp : s.Special p)
include hsp

theorem checkVmas_ok {b : Bool} (hw : s.walkaddr p va = none)
    (hx : checkVmas p va s = .ok b s') : Demands p s s' := by
  unfold checkVmas at hx
  rw [get_run] at hx
  simp only at hx
  rcases ite_ok hx with ⟨ht, hx⟩ | ⟨ht, hx⟩
  · simp only [bind_ok, pure_ok] at hx
    obtain ⟨_, s₁, halloc, -, rfl⟩ := hx
    exact .single (demand_of_alloc hsp (by simp [backing, ht]) halloc)
  rcases ite_ok hx with ⟨hd, hx⟩ | ⟨hd, hx⟩
  · simp only [bind_ok, pure_ok] at hx
    obtain ⟨_, s₁, halloc, -, rfl⟩ := hx
    exact .single (demand_of_alloc hsp (by simp [backing, ht, hd]) halloc)
  cases hv : s.findVma p va with
  | none =>
    simp only [hv, pure_ok] at hx
    obtain ⟨-, rfl⟩ := hx
    exact .refl
  | some v =>
    simp only [hv, hw, bind_ok, pure_ok] at hx
    obtain ⟨_, s₁, halloc, -, rfl⟩ := hx
    exact .single (demand_of_alloc hsp (by simp [backing, ht, hd, hv]) halloc)

theorem userPage_ok {o : Option ℕ} (hx : userPage p va s = .ok o s') :
    Demands p s s' ∧ ∀ pa, o = some pa → s'.walkaddr p va = some pa := by
  unfold userPage at hx
  rw [get_run] at hx
  cases hw : s.walkaddr p va with
  | some pa =>
    simp only [hw, pure_ok] at hx
    obtain ⟨rfl, rfl⟩ := hx
    exact ⟨.refl, fun _ h => by rw [hw]; exact h⟩
  | none =>
    simp only [hw] at hx
    obtain ⟨b, s₁, hcheck, hx⟩ := bind_ok.mp hx
    have hd := checkVmas_ok hsp hw hcheck
    rcases ite_ok hx with ⟨-, hx⟩ | ⟨-, hx⟩
    · rw [get_run] at hx
      cases hw1 : s₁.walkaddr p va with
      | none => simp [hw1] at hx
      | some pa =>
        simp only [hw1, pure_ok] at hx
        obtain ⟨rfl, rfl⟩ := hx
        exact ⟨hd, fun _ h => by rw [hw1]; exact h⟩
    · obtain ⟨rfl, rfl⟩ := pure_ok.mp hx
      exact ⟨hd, by simp⟩

theorem copyinLoop_ok {fuel got len : ℕ} {dst : Bytes} {r : Bool × Bytes × ℕ}
    (hx : copyinLoop p fuel dst got va len s = .ok r s') : Demands p s s' := by
  induction fuel generalizing s dst got va len with
  | zero =>
    obtain ⟨-, rfl⟩ := pure_ok.mp hx
    exact .refl
  | succ fuel ih =>
    unfold copyinLoop at hx
    rcases pure_ite_ok hx with ⟨-, -, rfl⟩ | ⟨-, hx⟩
    · exact .refl
    · obtain ⟨o, s₁, hpage, hx⟩ := bind_ok.mp hx
      obtain ⟨hd, -⟩ := userPage_ok hsp hpage
      cases o with
      | none =>
        obtain ⟨-, rfl⟩ := pure_ok.mp hx
        exact hd
      | some pa =>
        replace hx := get_bind_ok hx
        exact hd.trans (ih (hd.steady.special hsp) hx)

theorem copyin_ok {len : ℕ} {r : Bool × Bytes × ℕ}
    (hx : copyin p va len s = .ok r s') : Demands p s s' := copyinLoop_ok hsp hx

/-- The kernel wrote `n` bytes to the page of `va`, starting at `va`. -/
def Poked (p va : ℕ) (src : Bytes) (n : ℕ) (s s' : Kernel) : Prop :=
  ∃ pa, s.walkaddr p va = some pa ∧
    s' = s.setPage pa ((s.mem pa).blit (va % pgSize) src n)

/-- `m` bytes of `src`, from byte `k` on, were copied to user memory at `va`. -/
inductive CopiedOut (p : ℕ) (src : Bytes) : ℕ → ℕ → ℕ → Kernel → Kernel → Prop
  | stop {va k : ℕ} {s s' : Kernel} (hd : Demands p s s') : CopiedOut p src va k 0 s s'
  | page {va k n m : ℕ} {s s₁ s₂ s' : Kernel} (hd : Demands p s s₁)
      (hn : va % pgSize + n ≤ pgSize) (hp : Poked p va (fun i => src (k + i)) n s₁ s₂)
      (hrest : CopiedOut p src (va + n) (k + n) m s₂ s') : CopiedOut p src va k (n + m) s s'

omit hsp in
/-- What faults and stores by the kernel preserve. -/
theorem CopiedOut.preserve {I : Kernel → Prop} {src : Bytes} {k m : ℕ}
    (hc : CopiedOut p src va k m s s') (hdemand : ∀ t t', I t → Demand p t t' → I t')
    (hpage : ∀ t pa bytes, I t → I (t.setPage pa bytes)) (h : I s) : I s' := by
  have hdemands : ∀ t t', I t → Demands p t t' → I t' := by
    intro t t' ht hd
    induction hd with
    | refl => exact ht
    | tail _ hd ih => exact hdemand _ _ ih hd
  induction hc with
  | stop hd => exact hdemands _ _ h hd
  | page hd _ hp _ ih =>
    obtain ⟨pa, -, rfl⟩ := hp
    exact ih (hpage _ pa _ (hdemands _ _ h hd))

omit hsp in
theorem CopiedOut.toLocal {src : Bytes} {k m : ℕ} (h : CopiedOut p src va k m s s') :
    Local p s s' :=
  h.preserve (fun _ _ ht hd => ht.andThen hd.steady.toLocal)
    (fun _ pa bytes ht => ht.andThen (.setPage pa bytes)) (.refl s)

theorem copyoutLoop_ok {src : Bytes} {fuel done len : ℕ} {b : Bool}
    (hfuel : len < fuel) (hx : copyoutLoop p src fuel va done len s = .ok b s') :
    ∃ m ≤ len, CopiedOut p src va done m s s' := by
  induction fuel generalizing s va done len with
  | zero => omega
  | succ fuel ih =>
    unfold copyoutLoop at hx
    rcases pure_ite_ok hx with ⟨-, -, rfl⟩ | ⟨hlen, hx⟩
    · exact ⟨0, Nat.zero_le _, .stop .refl⟩
    · obtain ⟨o, s₁, hpage, hx⟩ := bind_ok.mp hx
      obtain ⟨hd, hw⟩ := userPage_ok hsp hpage
      cases o with
      | none =>
        obtain ⟨-, rfl⟩ := pure_ok.mp hx
        exact ⟨0, Nat.zero_le _, .stop hd⟩
      | some pa =>
        have hw1 := hw pa rfl
        rw [walkaddr_pgRoundDown] at hw1
        simp only [bind_ok, modify_ok, sub_pgRoundDown] at hx
        obtain ⟨_, _, rfl, hx⟩ := hx
        set n := min (pgSize - va % pgSize) len with hn
        have hmod : va % pgSize < pgSize := Nat.mod_lt _ (by decide)
        set s2 := s₁.setPage pa ((s₁.mem pa).blit (va % pgSize) (fun i => src (done + i)) n)
        have hp : Poked p va (fun i => src (done + i)) n s₁ s2 := ⟨pa, hw1, rfl⟩
        have hsp2 : s2.Special p := hd.steady.special hsp
        by_cases hfull : n = len
        · refine ⟨len, le_rfl, ?_⟩
          have hdone : CopiedOut p src (va + n) (done + n) 0 s2 s' := by
            rw [hfull, Nat.sub_self] at hx
            cases fuel with
            | zero => omega
            | succ fuel =>
              unfold copyoutLoop at hx
              rw [if_pos rfl] at hx
              obtain ⟨-, rfl⟩ := pure_ok.mp hx
              rw [hfull]
              exact .stop .refl
          have h := CopiedOut.page hd (by omega) hp hdone
          rwa [Nat.add_zero, hfull] at h
        · have hnext : u64 (pgRoundDown va + pgSize : ℕ) = va + n := by
            have hva := (walkaddr_some hw1).1
            have hroll : pgRoundDown va + va % pgSize = va := Nat.div_add_mod' va pgSize
            have hpg : pgSize = 4096 := rfl
            unfold maxVa at hva
            unfold u64
            omega
          rw [← Nat.cast_add, hnext] at hx
          obtain ⟨m, hm, hrest⟩ := ih hsp2 (show len - n < fuel by omega) hx
          exact ⟨n + m, by omega, .page hd (by omega) hp hrest⟩

theorem copyout_ok {src : Bytes} {len : ℕ} {b : Bool}
    (hx : copyout p va src len s = .ok b s') : ∃ m ≤ len, CopiedOut p src va 0 m s s' :=
  copyoutLoop_ok hsp (by omega) hx

end Copy

end Xv6.Vm
