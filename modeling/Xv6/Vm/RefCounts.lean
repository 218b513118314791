import Xv6.Vm.Boot

/-!
# Reference counts of mapped pages

The count of a page that user code maps is the number of page-table entries that map
it, and a page given to an mmap region goes back to the free list with its last entry.
This holds in every run in which no page of a private region is unmapped while others
map it: `deallocvma` then forgets to lower the count.
-/
namespace Xv6.Vm

open Library Relation Kernel List Option

/-- User code of process `t` reaches page `pa` through page number `v`. -/
def Kernel.Maps (s : Kernel) (t v pa : ℕ) : Prop :=
  ∃ pte, s.trans t v = some pte ∧ pte.perm.u = true ∧ pte.ppn = pa

def Kernel.Homed (s : Kernel) : Prop :=
  ∀ pa ∈ s.faulted, pa ∈ s.freelist ∨ ∃ t v, s.Maps t v pa

structure Kernel.Exact (s : Kernel) : Prop where
  owned : s.Owned 0
  homed : s.Homed

section Leaves

variable {s s' : Kernel} {t v p va : ℕ} {pte : Pte}

/-- A page with another count than one, mapped once, is mapped a second time. -/
theorem Kernel.Owned.other_leaf (h : s.Owned 0) (ht : s.trans t v = some pte)
    (hv : v < trapVpn) (href : s.ref pte.ppn ≠ 1) :
    ∃ t' v', ¬(t' = t ∧ v' = v) ∧ s.Maps t' v' pte.ppn := by
  have hown := Kernel.Owned.own_leaf_of_trans ht hv
  have hcount := h.balanced.count pte.ppn (h.not_free_of_trans hv ht)
  have hpos := h.ref_pos le_rfl hv ht
  have hcard : 1 < (holders s.own pte.ppn).ncard := by
    simp only [Pi.zero_apply, add_zero] at hcount
    omega
  obtain ⟨y, hy, hne⟩ := Set.exists_ne_of_one_lt_ncard hcard (.table t (.leaf v))
  have hsh := (h.balanced.exclusive y _ _ hy hown hne).1
  cases y with
  | table t' x =>
    cases x with
    | leaf v' =>
      obtain ⟨z, hz, hzu⟩ := hsh
      refine ⟨t', v', fun hc => hne (by rw [hc.1, hc.2]), z, hz, hzu, ?_⟩
      have hheld : s.own (.table t' (.leaf v')) = some pte.ppn := hy
      simp only [own, PageTable.holds] at hheld
      cases hs : s.table t' with
      | none => simp [hs] at hheld
      | some pt =>
        have htr : pt.trans v' = some z := by simpa [Kernel.trans, hs] using hz
        simp only [hs, bind_some, htr, map_some] at hheld
        split_ifs at hheld
        exact some.inj hheld
    | root => exact hsh.elim
    | dir i => exact hsh.elim
    | tab i => exact hsh.elim
  | trapframe q => exact hsh.elim

/-- The count of a page that user code maps is the number of entries that map it. -/
theorem Kernel.Owned.ref_eq_encard (h : s.Owned 0) {pa : ℕ}
    (hlow : ∀ t v pte, s.trans t v = some pte → pte.perm.u = true → v < trapVpn)
    (hm : s.Maps t v pa) : (s.ref pa : ℕ∞) = {x : ℕ × ℕ | s.Maps x.1 x.2 pa}.encard := by
  obtain ⟨pte, ht, hu, rfl⟩ := hm
  have hv := hlow t v pte ht hu
  have hown := Kernel.Owned.own_leaf_of_trans ht hv
  have hcount := h.balanced.count pte.ppn (h.not_free_of_trans hv ht)
  simp only [Pi.zero_apply, add_zero, Nat.cast_inj] at hcount
  have himage : (fun x : ℕ × ℕ => Handle.table x.1 (.leaf x.2)) ''
      {x : ℕ × ℕ | s.Maps x.1 x.2 pte.ppn} = holders s.own pte.ppn := by
    ext y
    constructor
    · rintro ⟨⟨t', v'⟩, ⟨z, hz, hzu, hzp⟩, rfl⟩
      have := Kernel.Owned.own_leaf_of_trans hz (hlow t' v' z hz hzu)
      rw [hzp] at this
      exact this
    · intro hy
      have hsh : s.Shared y := by
        by_cases hyt : y = .table t (.leaf v)
        · rw [hyt]
          exact ⟨pte, ht, hu⟩
        · exact (h.balanced.exclusive y _ _ hy hown hyt).1
      cases y with
      | table t' x =>
        cases x with
        | leaf v' =>
          obtain ⟨z, hz, hzu⟩ := hsh
          have hz' := Kernel.Owned.own_leaf_of_trans hz (hlow t' v' z hz hzu)
          have hzp : z.ppn = pte.ppn := some.inj (hz'.symm.trans hy)
          exact ⟨(t', v'), ⟨z, hz, hzu, hzp⟩, rfl⟩
        | root => exact hsh.elim
        | dir i => exact hsh.elim
        | tab i => exact hsh.elim
      | trapframe q => exact hsh.elim
  have hinj : Function.Injective (fun x : ℕ × ℕ => Handle.table x.1 (.leaf x.2)) := by
    rintro ⟨a, b⟩ ⟨c, d⟩ hab
    simpa using hab
  rw [← hinj.encard_image, himage, ← (h.balanced.finite pte.ppn).cast_ncard_eq, hcount]

end Leaves

namespace Kernel.Exact

variable {p : ℕ} {s s' : Kernel}

/-- Entries other than that of `va` are as before: what they map stays homed. -/
theorem homed_of_rewrite (h : s.Homed) (p va : ℕ)
    (hfree : ∀ pa ∈ s'.faulted, pa ∈ s.freelist → pa ∈ s'.freelist ∨ ∃ t v, s'.Maps t v pa)
    (htrans : ∀ t v, ¬(t = p ∧ v = va / pgSize) → s'.trans t v = s.trans t v)
    (hnew : ∀ pa ∈ s'.faulted, pa ∉ s.faulted → ∃ t v, s'.Maps t v pa)
    (hlost : ∀ pa ∈ s'.faulted, s.Maps p (va / pgSize) pa →
      pa ∈ s'.freelist ∨ ∃ t v, s'.Maps t v pa) : s'.Homed := by
  intro pa hpa
  by_cases hold : pa ∈ s.faulted
  · rcases h pa hold with hf | ⟨t, v, hm⟩
    · exact hfree pa hpa hf
    · by_cases hc : t = p ∧ v = va / pgSize
      · rw [hc.1, hc.2] at hm
        exact hlost pa hpa hm
      · obtain ⟨pte, ht, hu, hp⟩ := hm
        exact .inr ⟨t, v, pte, (htrans t v hc).trans ht, hu, hp⟩
  · exact .inr (hnew pa hpa hold)

theorem backing_user {r : Region} {perm : Perm} {va : ℕ}
    (h : s.backing p va = some (r, perm)) : perm.u = true := by
  unfold backing at h
  simp only at h
  split_ifs at h
  · cases h
    rfl
  · cases h
    rfl
  · obtain ⟨v, -, hv⟩ := map_eq_some_iff.mp h
    cases hv
    cases v.prot <;> rfl

variable (h : s.Exact)
include h

theorem quiet (hq : Quiet s s') (hk : Keeps s s') : s'.Exact := by
  refine ⟨hk 0 h.owned, fun pa hpa => ?_⟩
  obtain ⟨hold, hfree⟩ := hq.faulted pa hpa
  rcases h.homed pa hold with hf | ⟨t, v, pte, ht, hu, hp⟩
  · exact .inl (hfree hf)
  · exact .inr ⟨t, v, pte, (hq.trans t v).trans ht, hu, hp⟩

theorem setProc {f : Proc → Proc}
    (hf : (f (s.proc p)).trapframe = (s.proc p).trapframe) : (s.setProc p f).Exact :=
  ⟨h.owned.setProc hf, h.homed⟩

theorem setVma {j : ℕ} {v : Vma} : (s.setVma j v).Exact :=
  ⟨⟨h.owned.balanced, h.owned.bounded, h.owned.small⟩, h.homed⟩

theorem setFile {f : ℕ} {file : File} : (s.setFile f file).Exact :=
  ⟨⟨h.owned.balanced, h.owned.bounded, h.owned.small⟩, h.homed⟩

theorem setPage {pa : ℕ} {bytes : Bytes} : (s.setPage pa bytes).Exact :=
  ⟨⟨h.owned.balanced, h.owned.bounded, h.owned.small⟩, h.homed⟩

theorem demand (hd : Demand p s s') : s'.Exact := by
  have hk := hd.keeps
  cases hd with
  | killed hkill =>
    obtain ⟨s1, hq, hk1, rfl⟩ := hkill
    exact (h.quiet hq hk1).setProc rfl
  | @faultedIn r va perm hb hf _ =>
    refine ⟨hk 0 h.owned, ?_⟩
    have hu := backing_user hb
    obtain ⟨s1, pa, hq, hfresh, -, -, hl, hn, -, rfl⟩ := hf
    have hmaps : ((s1.withPte p (va / pgSize) ⟨true, perm, pa⟩).mark pa).Maps p (va / pgSize)
        pa := ⟨⟨true, perm, pa⟩, by simp [trans_mark, trans_withPte hl], hu, rfl⟩
    intro a ha
    rcases Finset.mem_insert.mp ha with rfl | ha
    · exact .inr ⟨p, _, hmaps⟩
    · obtain ⟨hold, hfree⟩ := hq.faulted a ha
      rcases h.homed a hold with hf | ⟨t, v, y, ht, hyu, hy⟩
      · exact .inl (hfree hf)
      · have hne : ¬(t = p ∧ v = va / pgSize) := by
          rintro ⟨rfl, rfl⟩
          simp [hn] at ht
        refine .inr ⟨t, v, y, ?_, hyu, hy⟩
        rw [trans_mark, trans_withPte_of_ne hl hne, hq.trans]
        exact ht

theorem transfer (ht : Transfer p s s') : s'.Exact := by
  cases ht with
  | demand hd => exact h.demand hd
  | files ino fb => exact ⟨⟨h.owned.balanced, h.owned.bounded, h.owned.small⟩, h.homed⟩
  | locked l => exact ⟨⟨h.owned.balanced, h.owned.bounded, h.owned.small⟩, h.homed⟩

theorem granted {va : ℕ} (hg : Granted p va s s') : s'.Exact := by
  obtain ⟨pte', ht', -, htrans⟩ := hg.trans_eq
  obtain ⟨pte, -, ht, hu, -, rfl⟩ := hg
  have hpte : pte' = pte := some.inj (ht'.symm.trans ht)
  rw [hpte] at htrans
  refine ⟨h.owned.reperm ht rfl, ?_⟩
  refine homed_of_rewrite h.homed p va (fun pa _ hf => .inl hf) (fun t v hc => ?_)
    (fun pa hpa hnew => absurd hpa hnew) fun pa _ hm => .inr ⟨p, va / pgSize, ?_⟩
  · rw [htrans, if_neg hc]
  · obtain ⟨y, hy, -, rfl⟩ := hm
    have hyp : pte = y := some.inj (ht.symm.trans hy)
    refine ⟨⟨true, { pte.perm with w := true }, pte.ppn⟩, ?_, hu, by rw [hyp]⟩
    rw [htrans, if_pos ⟨rfl, rfl⟩]

theorem nascent {np : ℕ} (hn : Nascent np s s') : s'.Exact := by
  refine ⟨hn.keeps 0 h.owned, fun pa hpa => ?_⟩
  obtain ⟨hold, hfree⟩ := hn.aside.faulted pa hpa
  rcases h.homed pa hold with hf | ⟨t, v, pte, ht, hu, hp⟩
  · exact .inl (hfree hf)
  · have hne : t ≠ np := by
      rintro rfl
      simp [Kernel.trans, hn.noTable] at ht
    exact .inr ⟨t, v, pte, (hn.aside.apart t v hne).trans ht, hu, hp⟩

theorem pageShared {np va va' : ℕ} {prot : Prot} {flags : MapFlags} {priv : Bool}
    (hne : p ≠ np) (hp : s.Special p) (hnp : s.Special np)
    (hs : PageShared p np va va' (forkPerm prot flags) priv s s') : s'.Exact := by
  have hu := forkPerm_user prot flags
  obtain ⟨pte, htp, htrans⟩ := hs.trans_eq hne
  refine ⟨hs.owned h.owned (fun _ => by simp) hne hp hnp hu, fun pa hpa => ?_⟩
  obtain ⟨s1, s2, pte', hq, -, -, -, ht, hpu, -, -, hn, hs2, hs'⟩ := hs
  have hfaulted : s'.faulted = s1.faulted := by
    rw [hs', hs2]
    cases priv <;> rfl
  have hlist : s'.freelist = s1.freelist := by
    rw [hs', hs2]
    cases priv <;> rfl
  rw [hfaulted] at hpa
  obtain ⟨hold, hfree⟩ := hq.faulted pa hpa
  rcases h.homed pa hold with hf | ⟨t, v, y, hy, hyu, hyp⟩
  · left
    rw [hlist]
    exact hfree hf
  · right
    by_cases hc : priv = true ∧ t = p ∧ v = va / pgSize
    · obtain ⟨hpriv, rfl, rfl⟩ := hc
      have hyt : pte = y := some.inj (htp.symm.trans hy)
      refine ⟨t, va / pgSize, ⟨true, forkPerm prot flags, pte.ppn⟩, ?_, hu, by rw [hyt, hyp]⟩
      rw [htrans, if_neg (fun hc => hne hc.1), if_pos ⟨hpriv, rfl, rfl⟩]
    · have hc' : ¬(t = np ∧ v = va' / pgSize) := by
        rintro ⟨rfl, rfl⟩
        simp [hn] at hy
      exact ⟨t, v, y, by rw [htrans, if_neg hc', if_neg hc, hy], hyu, hyp⟩

theorem copiedOut {src : Bytes} {va k m : ℕ} (hc : CopiedOut p src va k m s s') : s'.Exact :=
  hc.preserve (fun _ _ ht hd => ht.demand hd) (fun _ _ _ ht => ht.setPage) h

variable (hs : s.Sane)
include hs

theorem freed {va : ℕ} (hf : Freed p va s s') : s'.Exact := by
  have hun := hf.unmapped
  obtain ⟨pte, hva, ht, hu, href, rfl⟩ := hf
  have hv := hs.low p _ pte ht hu
  refine ⟨h.owned.unmapFree le_rfl hv ht href, ?_⟩
  refine homed_of_rewrite h.homed p va (fun pa _ hf => .inl (mem_cons_of_mem _ hf))
    (fun t v hc => ?_)
    (fun pa hpa hnew => absurd hpa hnew) fun pa _ hm => .inl ?_
  · rw [hun.trans, if_neg hc]
  · obtain ⟨y, hy, -, rfl⟩ := hm
    rw [ht] at hy
    cases hy
    exact mem_cons_self

theorem dropped {va : ℕ} (hf : Dropped p va s s') : s'.Exact := by
  have hun := hf.unmapped
  obtain ⟨pte, hva, ht, hu, href, rfl⟩ := hf
  have hv := hs.low p _ pte ht hu
  refine ⟨h.owned.unmapDrop le_rfl hv ht, ?_⟩
  refine homed_of_rewrite h.homed p va (fun pa _ hf => .inl hf) (fun t v hc => ?_)
    (fun pa hpa hnew => absurd hpa hnew) fun pa _ hm => .inr ?_
  · rw [hun.trans, if_neg hc]
  · obtain ⟨y, hy, -, rfl⟩ := hm
    rw [ht] at hy
    cases hy
    obtain ⟨t', v', hne, z, hz, hzu, hzp⟩ := h.owned.other_leaf ht hv href
    exact ⟨t', v', z, by rw [hun.trans, if_neg hne, hz], hzu, hzp⟩

theorem split {va : ℕ} (hsp : Split p va s s') : s'.Exact := by
  obtain ⟨s1, new, pte, hq, hf, -, -, ht, hu, href, -, hs'⟩ := id hsp
  have hv := hs.low p _ pte ht hu
  have hl : (s1.lookup p (va / pgSize)).isSome :=
    lookup_isSome_of_trans ((hq.trans p _).trans ht)
  have htrans : ∀ t v, s'.trans t v =
      if t = p ∧ v = va / pgSize then some ⟨true, { pte.perm with w := true }, new⟩
      else s.trans t v := by
    intro t v
    rw [hs', ← hq.trans t v]
    exact trans_withPte hl
  have hmaps : s'.Maps p (va / pgSize) new :=
    ⟨⟨true, { pte.perm with w := true }, new⟩, by rw [htrans, if_pos ⟨rfl, rfl⟩], hu, rfl⟩
  have hfaulted : ∀ a ∈ s'.faulted, a = new ∨ a ∈ s1.faulted := by
    intro a ha
    rw [hs'] at ha
    exact Finset.mem_insert.mp ha
  have hlist : s'.freelist = s1.freelist := by
    rw [hs']
    rfl
  refine ⟨hsp.owned h.owned le_rfl hv, ?_⟩
  refine homed_of_rewrite h.homed p va (fun pa hpa hfree => ?_) (fun t v hc => ?_)
    (fun pa hpa hnew => ?_) fun pa _ hm => .inr ?_
  · rcases hfaulted pa hpa with rfl | ha
    · exact .inr ⟨p, _, hmaps⟩
    · left
      rw [hlist]
      exact (hq.faulted pa ha).2 hfree
  · rw [htrans, if_neg hc]
  · rcases hfaulted pa hpa with rfl | ha
    · exact ⟨p, _, hmaps⟩
    · exact absurd (hq.faulted pa ha).1 hnew
  · obtain ⟨y, hy, -, rfl⟩ := hm
    rw [ht] at hy
    cases hy
    obtain ⟨t', v', hne, z, hz, hzu, hzp⟩ := h.owned.other_leaf ht hv (by omega)
    exact ⟨t', v', z, by rw [htrans, if_neg hne, hz], hzu, hzp⟩

theorem inherits {np : ℕ} (hne : p ≠ np)
    (hp : (s.proc p).state ≠ .unused) (hnp : (s.proc np).state = .used)
    (hi : Inherits p np s s') : s'.Exact := by
  induction hi with
  | refl => exact h
  | @tail s1 s2 hi1 hi ih =>
    obtain ⟨hs1, hp1, hnp1⟩ := hs.inherits hne hp hnp hi1
    cases hi with
    | opening ho =>
      cases ho with
      | setFile f file => exact ih.setFile
      | setOfile fd o => exact ih.setProc rfl
    | region _ _ => exact (ih.setVma.setFile).setProc rfl
    | page _ _ _ hsh =>
      exact ih.pageShared hne (hs1.special p (by rw [hp1]; exact hp))
        (hs1.special np (by simp [hnp1])) hsh

theorem forked (hp : (s.proc p).state ≠ .unused) (hf : Forked p s s') : s'.Exact := by
  cases hf with
  | failed => exact h
  | discarded _ hd => exact h.nascent hd.2.2.1
  | @child s1 s2 s3 np hsp ho hl =>
    have hi := inherits_of_loop hsp.ne ho hl
    have hp1 : s1.proc p = s.proc p := hsp.nascent.aside.others p hsp.ne
    obtain ⟨pa, hnp1⟩ := hsp.proc
    exact ((h.nascent hsp.nascent).inherits (hs.spawned hp hsp) hsp.ne (by rw [hp1]; exact hp)
      (by rw [hnp1]) hi).setProc rfl

theorem act (ha : Act False p s s') : s'.Exact := by
  cases ha with
  | transfer hd => exact h.transfer hd
  | freed hf => exact h.freed hs hf
  | dropped hf => exact h.dropped hs hf
  | leaked hL _ => exact hL.elim
  | setFile f file => exact h.setFile
  | setOfile fd o => exact h.setProc rfl
  | cut _ _ _ _ _ => exact h.setVma
  | offset j off => exact h.setVma
  | dropSlot i => exact h.setProc rfl
  | nmp => exact h.setProc rfl

theorem acts (hp : (s.proc p).state ≠ .unused) (ha : Acts False p s s') : s'.Exact := by
  induction ha with
  | refl => exact h
  | tail ha1 ha ih => exact ih.act (hs.acts hp ha1).1 ha

theorem trapped {cause : Cause} {va : ℕ} (ht : Trapped p cause va s s') : s'.Exact := by
  cases ht with
  | ignored => exact h
  | demand hd => exact h.demand hd
  | split _ _ _ hsp => exact h.split hs hsp
  | granted _ _ _ hg => exact h.granted hg

end Kernel.Exact

section Private

variable {p : ℕ} {s s' : Kernel}

def Kernel.PrivateOnce (s : Kernel) (p : ℕ) : Prop :=
  ∀ i v va pa, s.slot p i = some v → v.flags = .mapPrivate → v.Contains va →
    s.walkaddr p va = some pa → s.ref pa = 1

variable (h : s.PrivateOnce p)
include h

theorem Kernel.PrivateOnce.of_regions
    (hwalk : ∀ va pa, s'.walkaddr p va = some pa → s.walkaddr p va = some pa)
    (href : s'.ref = s.ref) (hslot : ∀ i v, s'.slot p i = some v → ∃ v0, s.slot p i = some v0 ∧
      v0.flags = v.flags ∧ ∀ va, v.Contains va → v0.Contains va) : s'.PrivateOnce p := by
  intro i v va pa hv hf hin hw
  obtain ⟨v0, hv0, hf0, hin0⟩ := hslot i v hv
  rw [href]
  exact h i v0 va pa hv0 (hf0.trans hf) (hin0 va hin) (hwalk va pa hw)

theorem Kernel.PrivateOnce.demand (hs : s.Sane) (he : s.Owned 0)
    (hd : Demand p s s') : s'.PrivateOnce p := by
  intro i v va pa hv hf hin hw
  rw [hd.steady.toLocal.slot p i] at hv
  have hquiet : ∀ s1, Quiet s s1 → s1.walkaddr p va = some pa → s1.ref pa = 1 := by
    intro s1 hq hw1
    rw [hq.walkaddr] at hw1
    obtain ⟨hva, pte, ht, hu, rfl⟩ := walkaddr_some hw1
    rw [hq.ref _ (he.not_free_of_trans (hs.low p _ pte ht hu) ht)]
    exact h i v va _ hv hf hin hw1
  cases hd with
  | killed hk =>
    obtain ⟨s1, hq, -, rfl⟩ := hk
    exact hquiet s1 hq hw
  | @faultedIn r va' perm _ hfi _ =>
    obtain ⟨s1, new, hq, hfresh, -, -, hl, -, -, rfl⟩ := hfi
    change s1.ref _ = 1
    obtain ⟨hva, pte, ht, hu, hpa⟩ := walkaddr_some hw
    rw [trans_mark, trans_withPte hl] at ht
    by_cases hc : p = p ∧ va / pgSize = va' / pgSize
    · rw [if_pos hc] at ht
      cases ht
      rw [← hpa]
      exact (hfresh.taken he.balanced.nodup).2
    · rw [if_neg hc] at ht
      refine hquiet s1 hq ?_
      unfold walkaddr at hw ⊢
      rw [trans_mark, trans_withPte hl, if_neg hc] at hw
      exact hw

theorem Kernel.PrivateOnce.transfer (hs : s.Sane) (he : s.Owned 0)
    (ht : Transfer p s s') : s'.PrivateOnce p := by
  cases ht with
  | demand hd => exact h.demand hs he hd
  | files ino fb => exact h
  | locked l => exact h

theorem Kernel.PrivateOnce.act (hs : s.Sane) (he : s.Owned 0)
    (ha : Act False p s s') : s'.PrivateOnce p := by
  cases ha with
  | transfer hd => exact h.transfer hs he hd
  | freed hf =>
    have hun := hf.unmapped
    obtain ⟨pte, -, -, -, -, rfl⟩ := hf
    exact h.of_regions (fun va pa hw => hun.walkaddr hw) rfl fun i v hv =>
      ⟨v, hv, rfl, fun _ hin => hin⟩
  | dropped hf =>
    have hun := hf.unmapped
    obtain ⟨pte, -, -, -, hne, rfl⟩ := hf
    intro i v va pa hv hflag hin hw
    have hw0 := hun.walkaddr hw
    have hr := h i v va pa hv hflag hin hw0
    have hpa : pa ≠ pte.ppn := fun hc => hne (hc ▸ hr)
    simpa [withPte, setTable, setRef, hpa] using hr
  | leaked hL _ => exact hL.elim
  | setFile f file => exact h
  | setOfile fd o =>
    refine h.of_regions (fun _ _ hw => hw) rfl fun i v hv => ⟨v, ?_, rfl, fun _ hin => hin⟩
    simpa [slot, setProc] using hv
  | @cut i0 j addr size off v1 complete _ hin hsize _ hcut =>
    refine h.of_regions (fun _ _ hw => hw) rfl fun i v hv => ?_
    obtain ⟨j', hj', rfl⟩ := exists_of_slot hv
    have hj0 : (s.proc p).vmas i = some j' := hj'
    by_cases hjj : j' = j
    · subst hjj
      refine ⟨s.vmas j', by simp [slot, hj0], ?_, fun va hva => ?_⟩
      · simp [setVma, Vma.cut_flags hcut]
      · exact Vma.cut_contains (hs.fits j') hin hsize hcut (by simpa [setVma] using hva)
    · exact ⟨s.vmas j', by simp [slot, hj0], by simp [setVma, hjj],
        fun va hva => by simpa [setVma, hjj] using hva⟩
  | offset j off =>
    refine h.of_regions (fun _ _ hw => hw) rfl fun i v hv => ?_
    obtain ⟨j', hj', rfl⟩ := exists_of_slot hv
    have hj0 : (s.proc p).vmas i = some j' := hj'
    by_cases hjj : j' = j
    · subst hjj
      exact ⟨s.vmas j', by simp [slot, hj0], by simp [setVma],
        fun va hva => by simpa [setVma, Region.Contains] using hva⟩
    · exact ⟨s.vmas j', by simp [slot, hj0], by simp [setVma, hjj],
        fun va hva => by simpa [setVma, hjj] using hva⟩
  | dropSlot i0 =>
    refine h.of_regions (fun _ _ hw => hw) rfl fun i v hv => ⟨v, ?_, rfl, fun _ hin => hin⟩
    by_cases hi : i = i0
    · simp [slot, setProc, hi] at hv
    · simpa [slot, setProc, hi] using hv
  | nmp =>
    refine h.of_regions (fun _ _ hw => hw) rfl fun i v hv => ⟨v, ?_, rfl, fun _ hin => hin⟩
    simpa [slot, setProc] using hv

end Private

section Run

/-- No page of a private region is unmapped while its count is not one. -/
def UnmapsUnshared (s : Kernel) : Event → Prop
  | .munmap p addr size => ∀ i v, s.usedSlot p addr = some i → s.slot p i = some v →
      v.flags = .mapPrivate → s.Unshared p addr (i32 size)
  | .exit p => s.PrivateOnce p
  | _ => True

variable {s₀ s t : Kernel} {e : Event}

/-- One step keeps counts and entries in agreement. -/
theorem Kernel.Exact.step (h : s.Exact) (hs : s.Sane) (hok : UnmapsUnshared s e)
    (hstep : Step s e t) : t.Exact := by
  have hrun := hstep.used
  have ho : Outcome False s t e := by
    refine step_outcome (R := fun t => t.Sane ∧ (t.proc e.proc).state ≠ .unused ∧ t.Exact ∧
      t.PrivateOnce e.proc) hs hstep ?_ ?_
    · rintro p addr size rfl
      exact .inr hok
    · rintro p rfl
      refine ⟨⟨hs, hrun, h, hok⟩, ?_, ?_, .inr ?_⟩
      · rintro t t' - ⟨hs', hp', he', hpo⟩ ha
        obtain ⟨hs'', hp''⟩ := hs'.act hp' ha
        exact ⟨hs'', hp'', he'.act hs' ha, hpo.act hs' he'.owned ha⟩
      · rintro t i v ⟨hs', -⟩ hv
        obtain ⟨j, -, rfl⟩ := exists_of_slot hv
        exact hs'.fits j
      · rintro t addr size i v c ⟨hs', -, -, hpo⟩ hsize hv hin hcut hf k hk pa hw
        obtain ⟨j, -, rfl⟩ := exists_of_slot hv
        exact hpo i _ _ pa hv hf (Vma.cut_range (hs'.fits j) hin hsize hcut hk) hw
  cases e with
  | fetch p va => exact h.trapped hs ho
  | load p va => exact h.trapped hs ho
  | store p va b =>
    rcases ho with ⟨pte, -, -, -, -, rfl⟩ | ht
    · exact h.setPage
    · exact h.trapped hs ht
  | copyout p va src len =>
    obtain ⟨m, -, hc⟩ := ho
    exact h.copiedOut hc
  | write p fd va n => exact h.acts hs hrun ho.acts
  | mmap p length prot flags fd offset =>
    rcases ho with rfl | ⟨-, i, j, v, -, -, -, -, -, -, -, rfl⟩
    · exact h
    · exact (h.setVma.setFile).setProc rfl
  | munmap p addr size => exact h.acts hs hrun ho
  | fork p => exact h.forked hs hrun ho
  | exit p =>
    obtain ⟨s1, ha, rfl⟩ := ho
    exact (h.acts hs hrun ha).setProc rfl

theorem Kernel.Start.exact (h0 : s₀.Start) (hr : Reach Step UnmapsUnshared s₀ s) :
    s.Sane ∧ s.Exact := by
  have hhomed : s₀.Homed := by simp [Kernel.Homed, h0.faulted]
  apply hr.invariant (I := fun s => s.Sane ∧ s.Exact) ⟨h0.sane, h0.owned, hhomed⟩
  intro s e t h hok hstep
  exact ⟨h.1.step hstep, h.2.step h.1 hok hstep⟩

/-- In every run that unmaps private pages only while they are not shared, the count of a
page mapped through an mmap region is the number of user entries that map it, and a page
given to an mmap region that no entry maps any more is free. -/
theorem getref_eq_mappings (h₀ : s₀.Start) (hr : Reach Step UnmapsUnshared s₀ s) :
    (∀ p i v va pa, s.slot p i = some v → v.Contains va → s.walkaddr p va = some pa →
      (s.ref pa : ℕ∞) = {x : ℕ × ℕ | s.Maps x.1 x.2 pa}.encard) ∧
    ∀ pa ∈ s.faulted, (∀ t v, ¬ s.Maps t v pa) → pa ∈ s.freelist := by
  obtain ⟨hs, he⟩ := h₀.exact hr
  constructor
  · intro p i v va pa _ _ hw
    obtain ⟨-, pte, ht, hu, hpa⟩ := walkaddr_some hw
    exact he.owned.ref_eq_encard hs.low ⟨pte, ht, hu, hpa⟩
  · intro pa hpa hnone
    rcases he.homed pa hpa with hf | ⟨t, v, hm⟩
    · exact hf
    · exact absurd hm (hnone t v)

/-- After a private page was inherited, both entries are counted. -/
theorem getref_eq_mappings_forked : privateForked.ref privatePage = 2 ∧
    {x : ℕ × ℕ | privateForked.Maps x.1 x.2 privatePage}.encard = 2 := by
  have hr : Reach Step UnmapsUnshared boot privateForked :=
    privateForked_reach trivial trivial trivial
  have href : privateForked.ref privatePage = 2 := by decide +kernel
  have hcount := (getref_eq_mappings boot_start hr).1 0 0 (privateForked.vmas 0) mapBase privatePage
    (by decide +kernel) (by decide +kernel) (by decide +kernel)
  exact ⟨href, by rw [← hcount, href]; rfl⟩

end Run

section Leak

variable {bound p addr : ℕ} {size : ℤ} {s s' : Kernel} {b : Bool}

theorem unmapPrivate_trans {va : ℕ} {u : PUnit} (hx : unmapPrivate p va s = .ok u s') :
    ∀ t v pte, s'.trans t v = some pte → s.trans t v = some pte := by
  intro t v pte ht
  rcases unmapPrivate_ok hx with ⟨rfl, -⟩ | hf | hl
  · exact ht
  · rw [hf.unmapped.trans] at ht
    split_ifs at ht
    exact ht
  · rw [hl.unmapped.trans] at ht
    split_ifs at ht
    exact ht

/-- So does unmapping a part of a private region. -/
theorem deallocvma_trans (hpriv : ∀ i v, s.usedSlot p addr = some i → s.slot p i = some v →
      v.flags = .mapPrivate) (hx : deallocvma bound p addr size s = .ok b s') :
    ∀ t v pte, s'.trans t v = some pte → s.trans t v = some pte := by
  rcases deallocvma_cases hx with ⟨rfl, -⟩ | ⟨i, j, v, complete, off, s1, s2, hd⟩
  · exact fun _ _ _ ht => ht
  have hflags : v.flags = .mapPrivate :=
    (Vma.cut_flags hd.cut).trans (hpriv i _ hd.found (by simp [slot, hd.slot]))
  have h1 : ∀ t w pte, s1.trans t w = some pte → s.trans t w = some pte := by
    have hrange := hd.range
    unfold unmapRange at hrange
    rw [hflags] at hrange
    refine loop_ok (I := fun _ s1 => ∀ t w pte, s1.trans t w = some pte →
      s.trans t w = some pte) hrange (fun _ _ _ ht => ht) ?_
    intro k t1 t2 _ _ ih hk t w pte ht
    exact ih t w pte (unmapPrivate_trans hk t w pte ht)
  have htable : s'.table = s1.table := by
    rw [hd.result]
    cases complete with
    | true =>
      obtain ⟨hsame, -⟩ := dropSlot_regions (hd.dropped rfl)
      exact hsame
    | false =>
      rw [hd.kept rfl]
      rfl
  intro t w pte ht
  exact h1 t w pte (by simpa [Kernel.trans, htable] using ht)

theorem munmap_trans (hpriv : ∀ i v, s.usedSlot p addr = some i → s.slot p i = some v →
      v.flags = .mapPrivate) (hstep : Step s (.munmap p addr size) s') :
    ∀ t v pte, s'.trans t v = some pte → s.trans t v = some pte := by
  obtain ⟨bound, b, hx⟩ := hstep.munmap_ok
  rcases sysMunmap_cases hx with rfl | ⟨-, -, -, hx⟩
  · exact fun _ _ _ ht => ht
  · exact deallocvma_trans hpriv hx

def privateUnmapped : Kernel := next privateForked (.munmap 1 mapBase 4096)

/-- The parent is then the only one to map the page, with a count of two. -/
theorem munmap_private_leaks_reference : boot.Start ∧
    Reach Step (fun _ _ => True) boot privateUnmapped ∧
    privateUnmapped.slot 0 0 = some (privateUnmapped.vmas 0) ∧
    (privateUnmapped.vmas 0).Contains mapBase ∧
    privateUnmapped.walkaddr 0 mapBase = some privatePage ∧
    (privateUnmapped.ref privatePage : ℕ∞) ≠
      {x : ℕ × ℕ | privateUnmapped.Maps x.1 x.2 privatePage}.encard := by
  have hstep : Step privateForked (.munmap 1 mapBase 4096) privateUnmapped :=
    step_next (by decide +kernel)
  refine ⟨boot_start, (privateForked_reach trivial trivial trivial).tail trivial hstep,
    by decide +kernel, by decide +kernel, by decide +kernel, ?_⟩
  have hpriv : ∀ i v, privateForked.usedSlot 1 mapBase = some i →
      privateForked.slot 1 i = some v → v.flags = .mapPrivate := by
    intro i v hi hv
    have hslot : privateForked.usedSlot 1 mapBase = some 0 := by decide +kernel
    have hflags : (privateForked.slot 1 0).any (fun v => v.flags = .mapPrivate) = true := by
      decide +kernel
    rw [hslot] at hi
    cases hi
    simpa [hv] using hflags
  obtain ⟨hs, he⟩ := boot_start.exact (privateForked_reach trivial trivial trivial)
  have hpage : ∃ pte, privateForked.trans 0 (mapBase / pgSize) = some pte ∧ pte.perm.u = true ∧
      pte.ppn = privatePage := by
    have hw : privateForked.walkaddr 0 mapBase = some privatePage := by decide +kernel
    obtain ⟨-, hm⟩ := walkaddr_some hw
    exact hm
  have hcount := he.owned.ref_eq_encard hs.low hpage
  have hsub : {x : ℕ × ℕ | privateUnmapped.Maps x.1 x.2 privatePage} ⊂
      {x : ℕ × ℕ | privateForked.Maps x.1 x.2 privatePage} := by
    refine ⟨?_, fun hc => ?_⟩
    · rintro x ⟨pte, ht, hu, hp⟩
      exact ⟨pte, munmap_trans hpriv hstep _ _ _ ht, hu, hp⟩
    · have hchild : privateForked.Maps 1 (mapBase / pgSize) privatePage := by
        have hw : privateForked.walkaddr 1 mapBase = some privatePage := by decide +kernel
        exact (walkaddr_some hw).2
      obtain ⟨pte, ht, -⟩ := hc (a := (1, mapBase / pgSize)) hchild
      have hgone : privateUnmapped.trans 1 (mapBase / pgSize) = none := by decide +kernel
      simp [hgone] at ht
  have hfinite : {x : ℕ × ℕ | privateForked.Maps x.1 x.2 privatePage}.Finite := by
    rw [← Set.encard_lt_top_iff, ← hcount]
    exact ENat.natCast_lt_top _
  have hlt := (hfinite.subset hsub.1).encard_lt_encard hsub
  have href : privateUnmapped.ref privatePage = privateForked.ref privatePage := by decide +kernel
  rw [← hcount, ← href] at hlt
  exact hlt.ne'

end Leak

end Xv6.Vm
