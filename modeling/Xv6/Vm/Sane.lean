import Xv6.Vm.Fork

/-!
# Page tables stay well formed

In every state that the machine reaches, unused entries of the process table have no
pages, the other processes have their trampoline and trapframe pages, and what user
code can access lies below those. `Outcome` says what each event may do.
-/
namespace Xv6.Vm

open Library Relation Function Kernel

/-- What holds of the page tables between calls. -/
structure Kernel.Sane (s : Kernel) : Prop where
  bounded : s.Bounded
  low : ∀ t v pte, s.trans t v = some pte → pte.perm.u = true → v < trapVpn
  blank : ∀ q, (s.proc q).state = .unused → s.Blank q
  special : ∀ q, (s.proc q).state ≠ .unused → s.Special q
  size : ∀ q, (s.proc q).state ≠ .unused → (s.proc q).sz ≤ Xv6.trapframe
  fits : ∀ j, (s.vmas j).Fits

section Cut

variable {v v' : Vma} {addr : ℕ} {size off : ℤ} {complete : Bool}

theorem u64_lt (z : ℤ) : u64 z < 2 ^ 64 := by
  unfold u64
  omega

theorem Vma.Fits.end_eq (h : v.Fits) (hin : v.Contains addr) :
    (u64 (v.addr + v.size) : ℤ) = v.addr + v.size := by
  obtain ⟨h1, h2⟩ := hin
  obtain ⟨h3, h4, h5⟩ := h
  unfold u64 at h2 ⊢
  omega

theorem Vma.Fits.cut (h : v.Fits) (hsize : 0 ≤ size ∧ size < 2 ^ 31)
    (hcut : v.cut addr size = some (v', complete, off)) (hin : v.Contains addr) : v'.Fits := by
  have hend := h.end_eq hin
  obtain ⟨h1, h2⟩ := hin
  obtain ⟨h3, h4, h5⟩ := h
  unfold Vma.cut at hcut
  split_ifs at hcut with hc1 hc2 hc3
  · cases hcut
    exact ⟨h3, h4, h5⟩
  · cases hcut
    refine ⟨u64_lt _, ?_, ?_⟩ <;> simp only <;> omega
  · cases hcut
    obtain ⟨h6, h7⟩ := hc3
    rw [← Int.ofNat_inj, hend] at h7
    refine ⟨h3, ?_, ?_⟩ <;> simp only <;> unfold u64 at h7 <;> omega

theorem Vma.cut_contains {va : ℕ} (h : v.Fits) (hin : v.Contains addr)
    (hsize : 0 ≤ size ∧ size < 2 ^ 31) (hcut : v.cut addr size = some (v', complete, off))
    (hva : v'.Contains va) : v.Contains va := by
  have hend := h.end_eq hin
  obtain ⟨h3, h4, h5⟩ := h
  unfold Vma.cut at hcut
  unfold Region.Contains at *
  split_ifs at hcut with hc1 hc2 hc3
  · cases hcut
    exact hva
  · cases hcut
    simp only at hva
    unfold u64 at *
    omega
  · cases hcut
    obtain ⟨h6, h7⟩ := hc3
    rw [← Int.ofNat_inj, hend] at h7
    simp only at hva
    unfold u64 at *
    omega

theorem lt_of_lt_pageCount {k : ℕ} (hsize : 0 ≤ size ∧ size < 2 ^ 31) (hk : k < pageCount size) :
    ((k * pgSize : ℕ) : ℤ) < size := by
  unfold pageCount pgRoundUpInt i32 pgSize at *
  omega

theorem Vma.cut_range {k : ℕ} {c : Vma × Bool × ℤ} (h : v.Fits) (hin : v.Contains addr)
    (hsize : 0 ≤ size ∧ size < 2 ^ 31) (hcut : v.cut addr size = some c)
    (hk : k < pageCount size) : v.Contains (u64 (addr + (k * pgSize : ℕ))) := by
  have hend := h.end_eq hin
  have hlt := lt_of_lt_pageCount hsize hk
  obtain ⟨h3, h4, h5⟩ := h
  unfold Vma.cut at hcut
  unfold Region.Contains at *
  generalize k * pgSize = d at hlt
  split_ifs at hcut with hc1 hc2 hc3
  · unfold u64 at *
    omega
  · unfold u64 at *
    omega
  · obtain ⟨h6, h7⟩ := hc3
    rw [← Int.ofNat_inj, hend] at h7
    unfold u64 at *
    omega

end Cut

namespace Kernel.Sane

variable {L : Prop} {p : ℕ} {s s' : Kernel}

variable (h : s.Sane)
include h

/-- Work on the page table of one process. -/
theorem of_local (hl : Local p s s')
    (hlow : ∀ v pte, s'.trans p v = some pte → pte.perm.u = true → v < trapVpn)
    (hsp : s.Special p → s'.Special p) : s'.Sane := by
  have hstate : ∀ q, (s'.proc q).state = (s.proc q).state := fun q => by
    obtain ⟨b, hb⟩ := hl.procs q
    rw [hb]
  constructor
  · exact hl.bounded h.bounded
  · intro t v pte ht hu
    by_cases htp : t = p
    · subst htp
      exact hlow v pte ht hu
    · exact h.low t v pte ((hl.tables t v htp).symm.trans ht) hu
  · intro q hq
    obtain ⟨b, hb⟩ := hl.procs q
    obtain ⟨h1, h2, h3, h4⟩ := h.blank q (hstate q ▸ hq)
    rw [Kernel.Blank, hb]
    exact ⟨h1, hl.absent q h2, h3, h4⟩
  · intro q hq
    have hold := h.special q (hstate q ▸ hq)
    by_cases hqp : q = p
    · subst hqp
      exact hsp hold
    · intro v hv hlt
      rw [hl.tables q v hqp]
      exact hold v hv hlt
  · intro q hq
    obtain ⟨b, hb⟩ := hl.procs q
    rw [hb]
    exact h.size q (hstate q ▸ hq)
  · intro j
    rw [hl.vmas]
    exact h.fits j

theorem setProc {f : Proc → Proc} (hs : (f (s.proc p)).state = (s.proc p).state)
    (ht : (f (s.proc p)).trapframe = (s.proc p).trapframe)
    (hz : (f (s.proc p)).sz = (s.proc p).sz) :
    (s.setProc p f).Sane := by
  have hproc : ∀ q, ((s.setProc p f).proc q).state = (s.proc q).state ∧
      ((s.setProc p f).proc q).trapframe = (s.proc q).trapframe ∧
      ((s.setProc p f).proc q).sz = (s.proc q).sz := by
    intro q
    by_cases hq : q = p
    · subst hq
      simp [Kernel.setProc, hs, ht, hz]
    · simp [Kernel.setProc, hq]
  constructor
  · exact h.bounded
  · exact h.low
  · intro q hq
    obtain ⟨h1, h2, h3, h4⟩ := h.blank q ((hproc q).1 ▸ hq)
    exact ⟨hq, h2, (hproc q).2.1.trans h3, (hproc q).2.2.trans h4⟩
  · intro q hq
    exact h.special q ((hproc q).1 ▸ hq)
  · intro q hq
    rw [(hproc q).2.2]
    exact h.size q ((hproc q).1 ▸ hq)
  · exact h.fits

theorem setVma {j : ℕ} {v : Vma} (hv : v.Fits) : (s.setVma j v).Sane := by
  refine ⟨h.bounded, h.low, h.blank, h.special, h.size, fun k => ?_⟩
  by_cases hk : k = j
  · simpa [Kernel.setVma, hk] using hv
  · simpa [Kernel.setVma, hk] using h.fits k

theorem setFile {f : ℕ} {file : File} : (s.setFile f file).Sane :=
  ⟨h.bounded, h.low, h.blank, h.special, h.size, h.fits⟩

theorem setPage {pa : ℕ} {bytes : Bytes} : (s.setPage pa bytes).Sane :=
  ⟨h.bounded, h.low, h.blank, h.special, h.size, h.fits⟩

theorem demand (hd : Demand p s s') : s'.Sane := by
  refine h.of_local hd.steady.toLocal (fun v pte ht hu => ?_) hd.steady.special
  rcases hd.trans_cases ht with hold | ⟨-, -, -, -, hlow⟩
  · exact h.low p v pte hold hu
  · exact hlow

theorem transfer (ht : Transfer p s s') : s'.Sane := by
  cases ht with
  | demand hd => exact h.demand hd
  | files _ _ => exact ⟨h.bounded, h.low, h.blank, h.special, h.size, h.fits⟩
  | locked _ => exact ⟨h.bounded, h.low, h.blank, h.special, h.size, h.fits⟩

theorem addVma {i j : ℕ} {v : Vma} (hv : v.Fits) : (s.addVma p i j v).Sane :=
  ((h.setVma hv).setFile).setProc rfl rfl rfl

/-- The process table and the page tables outside the new process are as before. -/
theorem of_nascent {np : ℕ} (hn : Nascent np s s') (hhigh : s'.High np)
    (hblank : (s'.proc np).state = .unused → s'.Blank np)
    (hsp : (s'.proc np).state ≠ .unused → s'.Special np ∧ (s'.proc np).sz ≤ Xv6.trapframe) :
    s'.Sane := by
  have htab : ∀ t, t ≠ np → ∀ v, s'.trans t v = s.trans t v := fun t ht v =>
    hn.aside.apart t v ht
  have hproc : ∀ q, q ≠ np → s'.proc q = s.proc q := hn.aside.others
  constructor
  · exact hn.aside.bounded h.bounded
  · intro t v pte ht hu
    by_cases htn : t = np
    · subst htn
      by_contra hc
      simp [hhigh v pte (by omega) ht] at hu
    · exact h.low t v pte ((htab t htn v).symm.trans ht) hu
  · intro q hq
    by_cases hqn : q = np
    · subst hqn
      exact hblank hq
    · obtain ⟨h1, h2, h3, h4⟩ := h.blank q (hproc q hqn ▸ hq)
      rw [Kernel.Blank, hproc q hqn]
      exact ⟨h1, hn.aside.absent q (by simpa using hqn) h2, h3, h4⟩
  · intro q hq
    by_cases hqn : q = np
    · subst hqn
      exact (hsp hq).1
    · intro v hv hlt
      rw [htab q hqn v]
      exact h.special q (hproc q hqn ▸ hq) v hv hlt
  · intro q hq
    by_cases hqn : q = np
    · subst hqn
      exact (hsp hq).2
    · rw [hproc q hqn] at hq ⊢
      exact h.size q hq
  · intro j
    rw [hn.aside.vmas]
    exact h.fits j

theorem discarded {np : ℕ} (hd : Discarded np s s') : s'.Sane := by
  obtain ⟨-, -, hn, hb, -, -⟩ := hd
  have hempty : s'.High np := fun v pte _ ht => by simp [Kernel.trans, hb.2.1] at ht
  exact h.of_nascent hn hempty (fun _ => hb) fun hne => absurd hb.1 hne

theorem pageShared {np va va' : ℕ} {perm : Perm} {priv : Bool} (hne : p ≠ np)
    (hp : (s.proc p).state ≠ .unused) (hnp : (s.proc np).state ≠ .unused)
    (hs : PageShared p np va va' perm priv s s') : s'.Sane := by
  obtain ⟨pte, htp, htrans⟩ := hs.trans_eq hne
  obtain ⟨hproc, hvmas, -, hbound, habsent⟩ := hs.frame
  have hsp := h.special p hp
  obtain ⟨s1, s2, pte', -, -, hva, hva', ht, hu, -, -, hn, -⟩ := id hs
  have hv := hsp.lt_of_user hva ht hu
  have hv' := (h.special np hnp).lt_of_none hva' hn
  constructor
  · exact hbound h.bounded
  · intro t v y hy hyu
    rw [htrans] at hy
    split_ifs at hy with hc1 hc2
    · rw [hc1.2]
      exact hv'
    · rw [hc2.2.2]
      exact hv
    · exact h.low t v y hy hyu
  · intro q hq
    rw [hproc] at hq
    obtain ⟨h1, h2, h3, h4⟩ := h.blank q hq
    rw [Kernel.Blank, hproc]
    exact ⟨h1, habsent q h2, h3, h4⟩
  · intro q hq
    rw [hproc] at hq
    exact hs.special hne hsp (h.special q hq)
  · intro q hq
    rw [hproc] at hq ⊢
    exact h.size q hq
  · intro j
    rw [hvmas]
    exact h.fits j

theorem inherit {np : ℕ} (hne : p ≠ np) (hp : (s.proc p).state ≠ .unused)
    (hnp : (s.proc np).state = .used) (hi : Inherit p np s s') :
    s'.Sane ∧ s'.proc p = s.proc p ∧ (s'.proc np).state = .used := by
  cases hi with
  | opening ho =>
    cases ho with
    | setFile f file => exact ⟨h.setFile, rfl, hnp⟩
    | setOfile fd o =>
      exact ⟨h.setProc rfl rfl rfl, by simp [Kernel.setProc, hne],
        by simpa [Kernel.setProc] using hnp⟩
  | @region i j0 j hi hj =>
    obtain ⟨-, hsize⟩ := h.fits j0
    refine ⟨h.addVma ⟨u64_lt _, hsize⟩, ?_, ?_⟩
    · simp [Kernel.addVma, Kernel.setProc, Kernel.setFile, Kernel.setVma, hne]
    · simpa [Kernel.addVma, Kernel.setProc, Kernel.setFile, Kernel.setVma] using hnp
  | page _ _ _ hs =>
    obtain ⟨hproc, -⟩ := hs.frame
    exact ⟨h.pageShared hne hp (by simp [hnp]) hs, by rw [hproc], by rw [hproc, hnp]⟩

theorem inherits {np : ℕ} (hne : p ≠ np) (hp : (s.proc p).state ≠ .unused)
    (hnp : (s.proc np).state = .used) (hi : Inherits p np s s') :
    s'.Sane ∧ s'.proc p = s.proc p ∧ (s'.proc np).state = .used := by
  induction hi with
  | refl => exact ⟨h, rfl, hnp⟩
  | tail _ hi ih =>
    obtain ⟨h1, hp1, hnp1⟩ := ih
    obtain ⟨h2, hp2, hnp2⟩ := h1.inherit hne (by rw [hp1]; exact hp) hnp1 hi
    exact ⟨h2, hp2.trans hp1, hnp2⟩

variable (hp : (s.proc p).state ≠ .unused)
include hp

/-- The state of a process that is in use may change to another such state. -/
theorem setState {st : ProcState}
    (hst : st ≠ .unused) : (s.setProc p fun q => { q with state := st }).Sane := by
  constructor
  · exact h.bounded
  · exact h.low
  · intro q hq
    by_cases hqp : q = p
    · subst hqp
      simp only [Kernel.setProc, update_self] at hq
      exact absurd hq hst
    · simp only [Kernel.setProc, update_of_ne hqp] at hq
      have hb := h.blank q hq
      simpa [Kernel.Blank, Kernel.setProc, hqp] using hb
  · intro q hq
    by_cases hqp : q = p
    · subst hqp
      exact h.special q hp
    · simp only [Kernel.setProc, update_of_ne hqp] at hq
      exact h.special q hq
  · intro q hq
    by_cases hqp : q = p
    · subst hqp
      simpa [Kernel.setProc] using h.size q hp
    · simp only [Kernel.setProc, update_of_ne hqp] at hq ⊢
      exact h.size q hq
  · exact h.fits

theorem unmapped {va : ℕ} (hu : Unmapped p va s s') : s'.Sane := by
  have hsp := h.special p hp
  refine h.of_local hu.toLocal (fun v pte ht hpu => ?_) fun _ => hu.special hsp hsp
  rw [hu.trans] at ht
  split_ifs at ht
  exact h.low p v pte ht hpu

theorem act (ha : Act L p s s') : s'.Sane ∧ (s'.proc p).state ≠ .unused := by
  cases ha with
  | transfer hd =>
    obtain ⟨b, hb⟩ := hd.steady.procs p
    exact ⟨h.transfer hd, by rw [hb]; exact hp⟩
  | freed hf => exact ⟨h.unmapped hp hf.unmapped, by rw [hf.unmapped.proc]; exact hp⟩
  | dropped hf => exact ⟨h.unmapped hp hf.unmapped, by rw [hf.unmapped.proc]; exact hp⟩
  | leaked _ hf => exact ⟨h.unmapped hp hf.unmapped, by rw [hf.unmapped.proc]; exact hp⟩
  | setFile f file => exact ⟨h.setFile, hp⟩
  | setOfile fd o => exact ⟨h.setProc rfl rfl rfl, by simpa [Kernel.setProc] using hp⟩
  | cut _ hin hsize _ hcut => exact ⟨h.setVma ((h.fits _).cut hsize hcut hin), hp⟩
  | offset j off => exact ⟨h.setVma (h.fits j), hp⟩
  | dropSlot i => exact ⟨h.setProc rfl rfl rfl, by simpa [Kernel.setProc] using hp⟩
  | nmp => exact ⟨h.setProc rfl rfl rfl, by simpa [Kernel.setProc] using hp⟩

theorem acts (ha : Acts L p s s') : s'.Sane ∧ (s'.proc p).state ≠ .unused := by
  induction ha with
  | refl => exact ⟨h, hp⟩
  | tail _ ha ih => exact ih.1.act ih.2 ha

theorem spawned {np : ℕ} (hs : Spawned p np s s') : s'.Sane := by
  obtain ⟨pa, hproc⟩ := hs.proc
  refine h.of_nascent hs.nascent hs.high (fun hu => ?_) fun _ => ⟨hs.special, ?_⟩
  · simp [hproc] at hu
  · rw [hproc]
    exact h.size p hp

theorem forked (hf : Forked p s s') : s'.Sane := by
  cases hf with
  | failed => exact h
  | discarded _ hd => exact h.discarded hd
  | @child s1 s2 s3 np hs ho hl =>
    have hi := inherits_of_loop hs.ne ho hl
    have h1 := h.spawned hp hs
    have hp1 : s1.proc p = s.proc p := hs.nascent.aside.others p hs.ne
    obtain ⟨pa, hnp1⟩ := hs.proc
    obtain ⟨h2, -, hnp2⟩ :=
      h1.inherits hs.ne (by rw [hp1]; exact hp) (by rw [hnp1]) hi
    exact h2.setState (by simp [hnp2]) (by simp)

end Kernel.Sane

section Cow

variable {p va : ℕ} {s s' : Kernel}

theorem Split.trans_eq (h : Split p va s s') : ∃ new pte, new ∈ s.freelist ∧
    s.trans p (va / pgSize) = some pte ∧ ∀ t v, s'.trans t v =
      if t = p ∧ v = va / pgSize then some ⟨true, { pte.perm with w := true }, new⟩
      else s.trans t v := by
  obtain ⟨s1, new, pte, hq, hf, -, -, ht, -, -, -, rfl⟩ := h
  refine ⟨new, pte, hf.was, ht, fun t v => ?_⟩
  have hl : (s1.lookup p (va / pgSize)).isSome :=
    lookup_isSome_of_trans ((hq.trans p _).trans ht)
  rw [← hq.trans t v]
  exact trans_withPte hl

theorem Split.toLocal (h : Split p va s s') : Local p s s' := by
  obtain ⟨new, pte', -, -, htrans⟩ := h.trans_eq
  obtain ⟨s1, new, pte, hq, -, -, -, -, -, -, -, rfl⟩ := h
  refine ⟨fun t v ht => ?_, fun q => ⟨(s.proc q).killed, ?_⟩, hq.vmas, hq.file, fun hb => ?_,
    fun t hn => ?_⟩
  · rw [htrans, if_neg fun hc => ht hc.1]
  · exact congrFun hq.proc q
  · have hw : (s1.withPte p (va / pgSize) ⟨true, { pte.perm with w := true }, new⟩).Bounded :=
      Kernel.Owned.bounded_withPte (hq.bounded hb)
    exact hw
  · have hw : (s1.withPte p (va / pgSize) ⟨true, { pte.perm with w := true }, new⟩).table t =
        none := table_withPte_none (hq.absent t (by simp) hn)
    exact hw

/-- A split keeps the accounts: the copy belongs to the process, the old page lost one
holder. -/
theorem Split.owned {D : ℕ → ℤ} (h : Split p va s s') (hD : s.Owned D) (hpos : 0 ≤ D)
    (hlow : va / pgSize < trapVpn) : s'.Owned D := by
  obtain ⟨s1, new, pte, hq, hf, hk, -, ht, hu, -, -, rfl⟩ := h
  have hD1 := hk D hD
  have ht1 : s1.trans p (va / pgSize) = some pte := (hq.trans p _).trans ht
  have hl1 := lookup_isSome_of_trans ht1
  have hnew : D new = 0 := hD.balanced.settled new hf.was
  have hne : new ≠ pte.ppn := fun he => hD.not_free_of_trans hlow ht (he ▸ hf.was)
  have hpos1 : 0 ≤ (D + Pi.single new 1 : ℕ → ℤ) pte.ppn := by
    simpa [hne.symm] using hpos pte.ppn
  have hD2 := hD1.unmapDrop hpos1 hlow ht1
  set s2 := (s1.setRef pte.ppn (u32 (s1.ref pte.ppn - 1))).withPte p (va / pgSize) .zero with hs2
  have hl2 : (s2.lookup p (va / pgSize)).isSome := by
    obtain ⟨pt, hs, hlp⟩ := exists_table_of_lookup hl1
    have hs' : (s1.setRef pte.ppn (u32 (s1.ref pte.ppn - 1))).table p = some pt := hs
    simp [hs2, withPte_eq hs', lookup, setTable,
      PageTable.lookup_withLeaf_isSome, hlp]
  have hn2 : s2.trans p (va / pgSize) = none := by
    have hl' : ((s1.setRef pte.ppn (u32 (s1.ref pte.ppn - 1))).lookup p (va / pgSize)).isSome := hl1
    simp [hs2, trans_withPte hl', Pte.zero]
  have hr2 : s2.ref new = 1 := by
    have hr := (hf.taken hD.balanced.nodup).2
    simpa [hs2, withPte, setTable, setRef, hne] using hr
  have hD3 : (s2.withPte p (va / pgSize) ⟨true, { pte.perm with w := true }, new⟩).Owned _ :=
    hD2.map hl2 hlow hn2 (by simp [hnew]) hr2
  rw [add_sub_cancel_right, hs2, withPte_withPte] at hD3
  exact ⟨hD3.balanced, hD3.bounded, hD3.small⟩

theorem Granted.trans_eq (h : Granted p va s s') : ∃ pte, s.trans p (va / pgSize) = some pte ∧
    s.ref pte.ppn = 1 ∧ ∀ t v, s'.trans t v =
      if t = p ∧ v = va / pgSize then some ⟨true, { pte.perm with w := true }, pte.ppn⟩
      else s.trans t v := by
  obtain ⟨pte, -, ht, -, href, rfl⟩ := h
  exact ⟨pte, ht, href, fun t v => trans_withPte (lookup_isSome_of_trans ht)⟩

theorem Granted.toLocal (h : Granted p va s s') : Local p s s' := by
  obtain ⟨pte', -, -, htrans⟩ := h.trans_eq
  obtain ⟨pte, -, -, -, -, rfl⟩ := h
  refine ⟨fun t v ht => ?_, fun q => ⟨(s.proc q).killed, rfl⟩, rfl, rfl,
    fun hb => Kernel.Owned.bounded_withPte hb, fun t hn => table_withPte_none hn⟩
  rw [htrans, if_neg fun hc => ht hc.1]

theorem Trapped.toLocal {cause : Cause} (h : Trapped p cause va s s') : Local p s s' := by
  cases h with
  | ignored => exact Local.refl s
  | demand hd => exact hd.steady.toLocal
  | split _ _ _ hs => exact hs.toLocal
  | granted _ _ _ hg => exact hg.toLocal

namespace Kernel.Sane

theorem of_rewrite (h : s.Sane) {pte y : Pte} (hl : Local p s s')
    (hold : s.trans p (va / pgSize) = some pte) (hu : pte.perm.u = true)
    (htrans : ∀ t v, s'.trans t v =
      if t = p ∧ v = va / pgSize then some y else s.trans t v) : s'.Sane := by
  have hlow := h.low p _ pte hold hu
  refine h.of_local hl (fun v z hz hzu => ?_) fun hsp v hv hlt => ?_
  · rw [htrans] at hz
    split_ifs at hz with hc
    · rw [hc.2]
      exact hlow
    · exact h.low p v z hz hzu
  · rw [htrans, if_neg (by omega)]
    exact hsp v hv hlt

theorem split (h : s.Sane) (hs : Split p va s s') : s'.Sane := by
  obtain ⟨new, pte, -, ht, htrans⟩ := hs.trans_eq
  obtain ⟨-, -, pte', -, -, -, -, ht', hu, -⟩ := id hs
  have hpte : pte = pte' := Option.some.inj (ht.symm.trans ht')
  exact h.of_rewrite hs.toLocal ht (hpte ▸ hu) htrans

theorem granted (h : s.Sane) (hg : Granted p va s s') : s'.Sane := by
  obtain ⟨pte, ht, -, htrans⟩ := hg.trans_eq
  obtain ⟨pte', -, ht', hu, -⟩ := id hg
  have hpte : pte = pte' := Option.some.inj (ht.symm.trans ht')
  exact h.of_rewrite hg.toLocal ht (hpte ▸ hu) htrans

theorem trapped (h : s.Sane) {cause : Cause} (ht : Trapped p cause va s s') : s'.Sane := by
  cases ht with
  | ignored => exact h
  | demand hd => exact h.demand hd
  | split _ _ _ hs => exact h.split hs
  | granted _ _ _ hg => exact h.granted hg

theorem copiedOut (h : s.Sane) {src : Bytes} {k m : ℕ} (hc : CopiedOut p src va k m s s') :
    s'.Sane :=
  hc.preserve (fun _ _ ht hd => ht.demand hd) (fun _ _ _ ht => ht.setPage) h

end Kernel.Sane

end Cow

section Outcome

/-- What an event may do to the state. -/
def Outcome (L : Prop) (s t : Kernel) : Event → Prop
  | .fetch p va => Trapped p .fetch va s t
  | .load p va => Trapped p .load va s t
  | .store p va b =>
    (∃ pte, va < maxVa ∧ s.trans p (va / pgSize) = some pte ∧ pte.perm.u = true ∧
      pte.perm.w = true ∧
      t = s.setPage pte.ppn (update (s.mem pte.ppn) (va % pgSize) b)) ∨
    Trapped p .store va s t
  | .copyout p va src len => ∃ m ≤ len, CopiedOut p src va 0 m s t
  | .write p _ _ _ => Writes p s t
  | .mmap p length prot flags fd offset => t = s ∨
      ((∃ a, sysMmap p (i32 length) (i32 prot) (i32 flags) (i32 fd) (i32 offset) s =
        .ok (some a) t) ∧ Mapped p (i32 length) s t)
  | .munmap p _ _ => Acts L p s t
  | .fork p => Forked p s t
  | .exit p => ∃ s₁, Acts L p s s₁ ∧ t = s₁.setProc p fun q => { q with state := .zombie }

variable {L : Prop} {s t : Kernel} {p va : ℕ}

theorem access_ok {cause : Cause} {allowed : Perm → Bool} {k : ℕ → KernelM PUnit} {u : PUnit}
    (hsp : s.Special p) (hx : access p va cause allowed k s = .ok u t) :
    (∃ pte, va < maxVa ∧ s.trans p (va / pgSize) = some pte ∧ pte.perm.u = true ∧
      allowed pte.perm = true ∧ k pte.ppn s = .ok u t) ∨ Trapped p cause va s t := by
  unfold access at hx
  rw [get_run] at hx
  by_cases hva : va < maxVa
  · simp only [hva, if_true] at hx
    cases ht : s.trans p (va / pgSize) with
    | none =>
      simp only [ht] at hx
      exact .inr (usertrap_ok hsp hx)
    | some pte =>
      simp only [ht] at hx
      rcases ite_ok hx with ⟨⟨hu, ha⟩, hx⟩ | ⟨-, hx⟩
      · exact .inl ⟨pte, hva, rfl, hu, ha, hx⟩
      · exact .inr (usertrap_ok hsp hx)
  · simp only [hva, if_false] at hx
    exact .inr (usertrap_ok hsp hx)

theorem i32_lt (z : ℤ) : i32 z < 2 ^ 31 := by
  unfold i32
  omega

theorem Step.performed {e : Event} (h : Step s e t) :
    s.Enabled e ∧ ∃ bound, perform bound e s = .ok ⟨⟩ t := by
  obtain ⟨bound, hstep⟩ := h
  unfold step at hstep
  split_ifs at hstep with hen
  refine ⟨hen, bound, ?_⟩
  cases hx : perform bound e s with
  | error err s1 => simp [hx] at hstep
  | ok u s1 =>
    simp only [hx, Except.ok.injEq] at hstep
    rw [hstep]

theorem Step.runnable {e : Event} (h : Step s e t) : (s.proc e.proc).state = .runnable :=
  h.performed.1.2.1

theorem Step.used {e : Event} (h : Step s e t) : (s.proc e.proc).state ≠ .unused := by
  simp [h.runnable]

theorem Step.munmap_ok {p addr : ℕ} {size : ℤ} (h : Step s (.munmap p addr size) t) :
    ∃ bound b, sysMunmap bound p addr (i32 size) s = .ok b t := by
  obtain ⟨-, bound, hx⟩ := h.performed
  simp only [perform, bind_ok, pure_ok] at hx
  obtain ⟨b, _, hx, -, rfl⟩ := hx
  exact ⟨bound, b, hx⟩

/-- What has to hold for a step not to leak a page; `R` is what `exit` relies on. -/
theorem step_outcome {e : Event} {R : Kernel → Prop} (h : s.Sane) (hstep : Step s e t)
    (hmunmap : ∀ p addr size, e = .munmap p addr size → L ∨ ∀ i v, s.usedSlot p addr = some i →
      s.slot p i = some v → v.flags = .mapPrivate → s.Unshared p addr (i32 size))
    (hexit : ∀ p, e = .exit p → R s ∧
      (∀ t t', t.Special p → R t → Act L p t t' → R t') ∧
      (∀ t i v, R t → t.slot p i = some v → v.Fits) ∧
      (L ∨ ∀ t addr size i v c, R t → 0 ≤ size ∧ size < 2 ^ 31 → t.slot p i = some v →
        v.Contains addr → v.cut addr size = some c → v.flags = .mapPrivate →
        t.Unshared p addr size)) : Outcome L s t e := by
  have hrun := hstep.used
  obtain ⟨-, bound, hx⟩ := hstep.performed
  have hsp := h.special _ hrun
  cases e with
  | fetch p va =>
    change s.Special p at hsp
    unfold perform at hx
    rcases access_ok hsp hx with ⟨pte, -, -, -, -, hk⟩ | ht
    · obtain ⟨-, rfl⟩ := pure_ok.mp hk
      exact .ignored
    · exact ht
  | load p va =>
    change s.Special p at hsp
    unfold perform at hx
    rcases access_ok hsp hx with ⟨pte, -, -, -, -, hk⟩ | ht
    · obtain ⟨-, rfl⟩ := pure_ok.mp hk
      exact .ignored
    · exact ht
  | store p va b =>
    change s.Special p at hsp
    unfold perform at hx
    rcases access_ok hsp hx with ⟨pte, hva, ht, hu, ha, hk⟩ | ht
    · exact .inl ⟨pte, hva, ht, hu, (Bool.and_eq_true_iff.mp ha).2, (modify_ok.mp hk).symm⟩
    · exact .inr ht
  | copyout p va src len =>
    simp only [perform, bind_ok, pure_ok] at hx
    obtain ⟨b, s2, hc, -, rfl⟩ := hx
    exact copyout_ok hsp hc
  | write p fd va n =>
    unfold perform at hx
    replace hx := get_bind_ok hx
    cases hf : s.argfd p fd with
    | none =>
      simp only [hf, pure_ok] at hx
      obtain ⟨-, rfl⟩ := hx
      exact ReflTransGen.refl
    | some f =>
      simp only [hf] at hx
      exact filewrite_ok hsp hx
  | mmap p length prot flags fd offset =>
    simp only [perform, bind_ok, pure_ok] at hx
    obtain ⟨b, s2, hc, -, rfl⟩ := hx
    rcases sysMmap_ok hc with rfl | ⟨⟨a, rfl⟩, hm⟩
    · exact .inl rfl
    · exact .inr ⟨⟨a, hc⟩, hm⟩
  | munmap p addr size =>
    simp only [perform, bind_ok, pure_ok] at hx
    obtain ⟨b, s2, hc, -, rfl⟩ := hx
    exact sysMunmap_ok hsp (i32_lt size) (hmunmap p addr size rfl) hc
  | fork p =>
    simp only [perform, bind_ok, pure_ok] at hx
    obtain ⟨b, s2, hc, -, rfl⟩ := hx
    exact fork_ok h.bounded h.blank hrun (h.size _ hrun) hc
  | exit p =>
    obtain ⟨hR, hact, hfits, hL⟩ := hexit p rfl
    exact exit_ok hsp hR hact hfits hL hx

theorem Step.outcome {e : Event} (h : Step s e t) (hs : s.Sane) : Outcome True s t e := by
  have hrun := h.used
  refine step_outcome (R := fun t => t.Sane ∧ (t.proc e.proc).state ≠ .unused) hs h
    (fun _ _ _ _ => .inl trivial) ?_
  rintro p rfl
  refine ⟨⟨hs, hrun⟩, fun t t' _ hR ha => hR.1.act hR.2 ha, fun t i v hR hv => ?_, .inl trivial⟩
  obtain ⟨j, -, rfl⟩ : ∃ j, (t.proc p).vmas i = some j ∧ t.vmas j = v := by
    simpa [slot, Option.map_eq_some_iff] using hv
  exact hR.1.fits j

def Event.Plain : Event → Prop
  | .fetch .. | .load .. | .store .. | .copyout .. | .write .. => True
  | _ => False

theorem Outcome.unmoved {e : Event} (ho : Outcome L s t e) (he : e.Plain) : Unmoved s t := by
  cases e with
  | fetch p va => exact (Trapped.toLocal ho).unmoved
  | load p va => exact (Trapped.toLocal ho).unmoved
  | store p va b =>
    rcases ho with ⟨pte, -, -, -, -, rfl⟩ | ht
    · exact .of_eq rfl rfl
    · exact ht.toLocal.unmoved
  | copyout p va src len =>
    obtain ⟨m, -, hc⟩ := ho
    exact hc.toLocal.unmoved
  | write p fd va n => exact Writes.unmoved ho
  | _ => exact he.elim

/-- Every step keeps the page tables well formed. -/
theorem Kernel.Sane.step {e : Event} (h : s.Sane) (hstep : Step s e t) : t.Sane := by
  have hrun := hstep.used
  have ho := hstep.outcome h
  cases e with
  | fetch p va => exact h.trapped ho
  | load p va => exact h.trapped ho
  | store p va b =>
    rcases ho with ⟨pte, -, -, -, -, rfl⟩ | ht
    · exact h.setPage
    · exact h.trapped ht
  | copyout p va src len =>
    obtain ⟨m, -, hc⟩ := ho
    exact h.copiedOut hc
  | write p fd va n => exact (h.acts (L := True) hrun ho.acts).1
  | mmap p length prot flags fd offset =>
    rcases ho with rfl | ⟨-, i, j, v, -, -, -, -, hsize, hpos, haddr, rfl⟩
    · exact h
    · refine h.addVma ⟨?_, ?_, ?_⟩
      · rw [haddr]
        exact u64_lt _
      · rw [hsize]
        exact hpos
      · rw [hsize]
        exact i32_lt length
  | munmap p addr size => exact (h.acts hrun ho).1
  | fork p => exact h.forked hrun ho
  | exit p =>
    obtain ⟨s1, ha, rfl⟩ := ho
    obtain ⟨h1, hp1⟩ := h.acts hrun ha
    exact h1.setState hp1 (by simp)

end Outcome

end Xv6.Vm
