import Xv6.Vm.ForkRegions

/-!
# The pages of a child

Each page that is resident in a region of the parent is shared at the same place of the
child's region, the others are missing there too. The states that `fork` goes through
are those of a well laid out kernel.
-/
namespace Xv6.Vm

open Library Relation Kernel Option

/-- What user code of `np` can reach belongs to its image or to one of its regions. -/
def Kernel.Housed (s : Kernel) (np : ℕ) : Prop :=
  ∀ w pte, s.trans np w = some pte → pte.perm.u = true →
    w * pgSize < pgRoundUp (s.proc np).sz ∨ ∃ k v, s.slot np k = some v ∧ v.Covers w

/-- The states that `fork` goes through while `np` inherits from `p`: the child's regions
are the parent's, at other addresses. -/
structure Kernel.Settled (s : Kernel) (p np : ℕ) : Prop where
  layout : s.Layout
  above : s.AboveImage
  housed : s.Housed np
  copies : ∀ k v', s.slot np k = some v' →
    ∃ v, s.slot p k = some v ∧ v' = { v with used := true, addr := v'.addr }

/-- A piece is inherited, and no region of the child is lost. -/
structure Settles (p np : ℕ) (s t : Kernel) : Prop where
  inherit : Inherit p np s t
  before : s.Settled p np
  after : t.Settled p np
  grows : ∀ k v, s.slot np k = some v → t.slot np k = some v

abbrev Settling (p np : ℕ) : Kernel → Kernel → Prop := ReflTransGen (Settles p np)

/-- The same page of both regions is the same physical page, or missing in both. -/
def Kernel.Mirrors (s : Kernel) (p np : ℕ) (v v' : Vma) (m : ℕ) : Prop :=
  s.walkaddr np (v'.addr + m * pgSize) = s.walkaddr p (v.addr + m * pgSize)

/-- The regions in slot `i` of both processes differ in their place only. -/
theorem Kernel.Settled.pages {s : Kernel} {p np i j0 j k : ℕ} (h : s.Settled p np)
    (hi : (s.proc p).vmas i = some j0) (hi' : (s.proc np).vmas i = some j)
    (hk : k < pageCount (s.vmas j0).size) :
    s.slot p i = some (s.vmas j0) ∧ s.slot np i = some (s.vmas j) ∧
      (s.vmas j).prot = (s.vmas j0).prot ∧
      (s.vmas j0).Covers (u64 ((s.vmas j0).addr + (k * pgSize : ℕ)) / pgSize) ∧
      (s.vmas j).Covers (u64 ((s.vmas j).addr + (k * pgSize : ℕ)) / pgSize) := by
  have hv : s.slot p i = some (s.vmas j0) := slot_eq_some.mpr ⟨j0, hi, rfl⟩
  have hv' : s.slot np i = some (s.vmas j) := slot_eq_some.mpr ⟨j, hi', rfl⟩
  obtain ⟨v, hvp, hcopy⟩ := h.copies i _ hv'
  have hsame : v = s.vmas j0 := some.inj (hvp.symm.trans hv)
  subst hsame
  obtain ⟨he, hc⟩ := (h.layout.placed p i _ hv).page hk
  obtain ⟨he', hc'⟩ := (h.layout.placed np i _ hv').page (k := k) (by rw [hcopy]; exact hk)
  exact ⟨hv, hv', by rw [hcopy], by rwa [he], by rwa [he']⟩

section Share

variable {p np va va' : ℕ} {perm : Perm} {priv : Bool} {s s' : Kernel}

/-- Sharing a page gives the child the parent's page and changes no other translation. -/
theorem PageShared.walkaddr (h : PageShared p np va va' perm priv s s') (hne : p ≠ np)
    (hu : perm.u = true) (t a : ℕ) : s'.walkaddr t a =
      if t = np ∧ a / pgSize = va' / pgSize then s.walkaddr p va else s.walkaddr t a := by
  obtain ⟨pte, htp, htrans⟩ := h.trans_eq hne
  obtain ⟨s1, s2, pte', -, -, hva, hva', ht, hpu, hnz, -⟩ := h
  have hpte : pte' = pte := some.inj (ht.symm.trans htp)
  subst hpte
  have hiff : ∀ b, a / pgSize = b / pgSize → (a ≥ maxVa ↔ b ≥ maxVa) := by
    intro b hb
    unfold maxVa pgSize at *
    omega
  unfold Kernel.walkaddr
  rw [htrans]
  by_cases h1 : t = np ∧ a / pgSize = va' / pgSize
  · have hlt : ¬ a ≥ maxVa := fun hc => by
      have := (hiff va' h1.2).mp hc
      omega
    have hlt' : ¬ va ≥ maxVa := by omega
    simp [h1, hlt, hlt', htp, hu, hpu, hnz]
  · rw [if_neg h1, if_neg h1]
    by_cases h2 : priv = true ∧ t = p ∧ a / pgSize = va / pgSize
    · obtain ⟨hpriv, rfl, ha⟩ := h2
      simp [hpriv, ha, htp, hu, hpu]
    · rw [if_neg h2]

theorem PageShared.settled (h : PageShared p np va va' perm priv s s') (hne : p ≠ np)
    (hs : s.Settled p np) (hcov : ∃ k v, s.slot np k = some v ∧ v.Covers (va' / pgSize)) :
    s'.Settled p np := by
  obtain ⟨pte, -, htrans⟩ := h.trans_eq hne
  obtain ⟨hproc, hvmas, -⟩ := h.frame
  have hslot : s'.slot = s.slot := by
    funext q k
    simp [slot, hproc, hvmas]
  refine ⟨hs.layout.of_unmoved (.of_eq hproc hvmas), hs.above.of_unmoved (.of_eq hproc hvmas),
    fun w y hy hyu => ?_,
    by simpa only [hslot] using hs.copies⟩
  rw [hslot, hproc]
  rw [htrans] at hy
  split_ifs at hy with h1 h2
  · rw [h1.2]
    exact .inr hcov
  · exact absurd h2.2.1.symm hne
  · exact hs.housed w y hy hyu

end Share

section Pages

variable {p np i j0 j : ℕ} {v v' : Vma} {s t : Kernel} {u : PUnit}

/-- What the loop over the pages of a region has done after `m` of them. -/
structure Sharing (p np : ℕ) (v v' : Vma) (s : Kernel) (m : ℕ) (t : Kernel) : Prop where
  proc : t.proc = s.proc
  vmas : t.vmas = s.vmas
  trail : Settling p np s t
  settled : t.Settled p np
  done : ∀ k < m, t.Mirrors p np v v' k
  missing : ∀ k, m ≤ k → t.walkaddr np (v'.addr + k * pgSize) =
    s.walkaddr np (v'.addr + k * pgSize)
  others : ∀ q a, ¬(q = np ∧ v'.Covers (a / pgSize)) → t.walkaddr q a = s.walkaddr q a

theorem page_div (v : Vma) (k : ℕ) :
    (v.addr + k * pgSize) / pgSize = v.addr / pgSize + k :=
  Nat.add_mul_div_right v.addr k (by decide)

theorem sharePages_ok (hne : p ≠ np) (hi : (s.proc p).vmas i = some j0)
    (hi' : (s.proc np).vmas i = some j) (hv : s.vmas j0 = v) (hv' : s.vmas j = v')
    (hsize : v'.size = v.size) (hs : s.Settled p np)
    (hnone : ∀ k < pageCount v.size, s.walkaddr np (v'.addr + k * pgSize) = none)
    (hx : loop (sharePage p np j0 j) 0 (pageCount v.size) s = .ok u t) :
    Sharing p np v v' s (pageCount v.size) t := by
  have hpl : v.Placed :=
    hs.layout.placed p i v (slot_eq_some.mpr ⟨j0, hi, hv⟩)
  have hslot' : s.slot np i = some v' := slot_eq_some.mpr ⟨j, hi', hv'⟩
  have hpl' : v'.Placed := hs.layout.placed np i v' hslot'
  have hstart : Sharing p np v v' s 0 s :=
    ⟨rfl, rfl, .refl, hs, fun k hk => absurd hk (Nat.not_lt_zero k), fun _ _ => rfl,
      fun _ _ _ => rfl⟩
  have hloop := loop_ok (I := Sharing p np v v' s) hx hstart ?_
  · rwa [Nat.zero_add] at hloop
  intro m a b _ hm ih hbody
  have hm' : m < pageCount v.size := by omega
  obtain ⟨hu, hcov⟩ := hpl.page hm'
  obtain ⟨hu', hcov'⟩ := hpl'.page (k := m) (by rw [hsize]; exact hm')
  have hkeep : ∀ k, k ≠ m → (v'.addr + k * pgSize) / pgSize ≠ (v'.addr + m * pgSize) / pgSize := by
    intro k hk he
    rw [page_div, page_div] at he
    omega
  rcases sharePage_ok hbody with ⟨rfl, hmiss⟩ | hsh
  · rw [ih.vmas, hv, hu] at hmiss
    refine ⟨ih.proc, ih.vmas, ih.trail, ih.settled, fun k hk => ?_, fun k hk => ?_, ih.others⟩
    · by_cases hkm : k = m
      · subst hkm
        rw [Kernel.Mirrors, hmiss, ih.missing k le_rfl]
        exact hnone k hm'
      · exact ih.done k (by omega)
    · exact ih.missing k (by omega)
  · have hstep : Inherit p np a b := by
      refine .page (i := i) ?_ ?_ ?_ hsh
      · rw [ih.proc, hi]
      · rw [ih.proc, hi']
      · rw [ih.vmas, hv]
        exact hm'
    rw [ih.vmas, hv, hv', hu, hu'] at hsh
    have hperm := forkPerm_user v.prot v.flags
    have hwalk := hsh.walkaddr hne hperm
    obtain ⟨hproc, hvmas, -⟩ := hsh.frame
    have hslot : b.slot = a.slot := by
      funext q k
      simp [slot, hproc, hvmas]
    have hsettled : b.Settled p np := by
      refine hsh.settled hne ih.settled ⟨i, v', ?_, hcov'⟩
      exact slot_eq_some.mpr ⟨j, by rw [ih.proc, hi'], by rw [ih.vmas, hv']⟩
    refine ⟨hproc.trans ih.proc, hvmas.trans ih.vmas,
      ih.trail.tail ⟨hstep, ih.settled, hsettled, fun k x hx => by rw [hslot]; exact hx⟩, hsettled,
      fun k hk => ?_, fun k hk => ?_, fun q c hc => ?_⟩
    · have hparent : ∀ c, b.walkaddr p c = a.walkaddr p c := fun c => by
        rw [hwalk, if_neg fun hc => hne hc.1]
      rw [Kernel.Mirrors, hparent, hwalk]
      by_cases hkm : k = m
      · rw [hkm, if_pos ⟨rfl, rfl⟩]
      · rw [if_neg fun hc => hkeep k hkm hc.2]
        exact ih.done k (by omega)
    · rw [hwalk, if_neg fun hc => hkeep k (by omega) hc.2]
      exact ih.missing k (by omega)
    · rw [hwalk, if_neg]
      · exact ih.others q c hc
      · rintro ⟨rfl, he⟩
        exact hc ⟨rfl, he ▸ hcov'⟩

end Pages

section Regions

variable {p np : ℕ} {s t t' : Kernel} {u : PUnit}

/-- What the loop over the slots has done before slot `i`, pages included. -/
structure Inheriting (p np : ℕ) (s : Kernel) (i : ℕ) (t : Kernel) : Prop
    extends Placing p np s i t where
  trail : Settling p np s t
  settled : t.Settled p np
  mirrors : ∀ k v v', t.slot p k = some v → t.slot np k = some v' →
    ∀ m < pageCount v.size, t.Mirrors p np v v' m

theorem Kernel.Settled.missing {v : Vma} (h : t.Settled p np)
    (hstate : (t.proc np).state ≠ .unused) (hplaced : v.Placed)
    (habove : pgRoundUp (t.proc np).sz ≤ v.addr) (hstop : v.stop = (t.proc np).nmp) {k : ℕ}
    (hk : k < pageCount v.size) : t.walkaddr np (v.addr + k * pgSize) = none := by
  by_contra hc
  obtain ⟨pa, hw⟩ := ne_none_iff_exists'.mp hc
  obtain ⟨-, pte, ht, hu, -⟩ := walkaddr_some hw
  obtain ⟨hc1, hc2⟩ := (hplaced.page hk).2
  rcases h.housed _ pte ht hu with himg | ⟨k', x, hxs, hxc⟩
  · omega
  · have hbelow := h.layout.minVma_le hxs
    have hnext := h.layout.next np hstate
    have hstart := hxc.1
    omega

theorem Kernel.Housed.addVma {i j : ℕ} {v : Vma} (h : t.Housed np)
    (hnone : (t.proc np).vmas i = none) (hfree : ∀ q k, (t.proc q).vmas k ≠ some j) :
    (t.addVma np i j v).Housed np := by
  intro w pte ht hu
  rw [proc_addVma]
  rcases h w pte ht hu with himg | ⟨k, x, hxs, hxc⟩
  · exact .inl himg
  · refine .inr ⟨k, x, ?_, hxc⟩
    rw [slot_addVma hfree, if_neg]
    · exact hxs
    · rintro ⟨-, rfl⟩
      obtain ⟨j', hj', -⟩ := slot_eq_some.mp hxs
      simp [hnone] at hj'

theorem Inheriting.step {i : ℕ} (hne : p ≠ np) (hi : i < perProcessVmas) (hs : s.Settled p np)
    (hstate : (s.proc np).state ≠ .unused) (hsz : (s.proc np).sz = (s.proc p).sz)
    (h : Inheriting p np s i t) (hx : inheritVma p np i t = .ok u t') :
    Inheriting p np s (i + 1) t' := by
  have hplace' := h.toPlacing.step hne hi hs.layout.toArranged hstate hx
  rcases inheritVma_cases hx with ⟨rfl, -⟩ | ⟨j0, j, hr, hj, hloop⟩
  · exact ⟨hplace', h.trail, h.settled, h.mirrors⟩
  set v := t.vmas j0 with hv
  set v' := t.heir np v with hv'
  set s1 := t.addVma np i j v' with hs1
  have hplace1 : Placing p np s (i + 1) s1 :=
    h.toPlacing.add hne hi hs.layout.toArranged hstate hr hj
  have hfree := h.layout.unreferenced hj
  have hslot : t.slot p i = some v := slot_eq_some.mpr ⟨j0, hr, rfl⟩
  have hslot0 : s.slot p i = some v := (h.slots p i hne).symm.trans hslot
  have hstate' : (t.proc np).state ≠ .unused := by
    rw [h.state]
    exact hstate
  obtain ⟨hplaced, hstop⟩ : v'.Placed ∧ v'.stop = (t.proc np).nmp :=
    h.heir_placed hs.layout.toArranged hstate' hslot0
  have habove : pgRoundUp (t.proc np).sz ≤ v'.addr := by
    have hroom := h.room_below hs.layout.toArranged (hs.above.above p) hslot0
    obtain ⟨vm, nm, hchild⟩ := h.child
    have hsz' : (t.proc np).sz = (s.proc p).sz := by
      rw [hchild]
      exact hsz
    have hspan : v'.span = v.span := rfl
    unfold Vma.stop at hstop
    rw [hsz']
    omega
  have hset1 : s1.Settled p np :=
    ⟨hplace1.layout, h.settled.above.addVma hfree habove,
      h.settled.housed.addVma (h.later i le_rfl) hfree, hplace1.copies⟩
  have hnone : ∀ k < pageCount v.size, s1.walkaddr np (v'.addr + k * pgSize) = none :=
    fun k hk => h.settled.missing hstate' hplaced habove hstop hk
  have hslot1 : ∀ q k, s1.slot q k = if q = np ∧ k = i then some v' else t.slot q k :=
    fun q k => slot_addVma hfree
  have hp1 : s1.proc p = t.proc p := proc_addVma_of_ne hne
  have hjj : j0 ≠ j := fun he => hfree p i (he ▸ hr)
  have hsh : Sharing p np v v' s1 (pageCount v.size) t' := by
    refine sharePages_ok (i := i) hne (by rw [hp1, hr]) ?_ ?_ ?_ rfl hset1 hnone hloop
    · simp [hs1, proc_addVma]
    · simp [hs1, vmas_addVma, hjj, hv]
    · simp [hs1, vmas_addVma]
  have hslot' : ∀ q k, t'.slot q k = if q = np ∧ k = i then some v' else t.slot q k := by
    intro q k
    rw [← hslot1]
    simp [slot, hsh.proc, hsh.vmas]
  have hgrows : ∀ k x, t.slot np k = some x → s1.slot np k = some x := by
    intro k x hxs
    rw [hslot1, if_neg]
    · exact hxs
    · rintro ⟨-, rfl⟩
      obtain ⟨j', hj', -⟩ := slot_eq_some.mp hxs
      simp [h.later k le_rfl] at hj'
  refine ⟨hplace', (h.trail.tail ⟨.region hr hj, h.settled, hset1, hgrows⟩).trans hsh.trail,
    hsh.settled, ?_⟩
  intro k x x' hxs hxs' m hm
  rw [hslot', if_neg fun hc => hne hc.1] at hxs
  rw [hslot'] at hxs'
  split_ifs at hxs' with hc
  · cases hxs'
    rw [hc.2, hslot] at hxs
    cases hxs
    exact hsh.done m hm
  · have hslot2 : s1.slot np k = some x' := by rw [hslot1, if_neg hc, hxs']
    obtain ⟨y, hy, hxy⟩ := h.settled.copies k x' hxs'
    have hyx : y = x := some.inj (hy.symm.trans hxs)
    have hm' : m < pageCount x'.size := by
      rw [hxy, hyx]
      exact hm
    have hdis := hset1.layout.disjoint np k i x' v' (fun he => hc ⟨rfl, he⟩) hslot2
      (by rw [hslot1, if_pos ⟨rfl, rfl⟩])
    have hnot := Vma.not_covers_of_disjoint hdis
      ((hset1.layout.placed np k x' hslot2).page hm').2
    rw [Kernel.Mirrors, hsh.others np _ fun hn => hnot hn.2, hsh.others p _ fun hn => hne hn.1]
    exact h.mirrors k x x' hxs hxs' m hm

theorem inheriting_of_loop (hne : p ≠ np) (hs : s.Settled p np)
    (hstate : (s.proc np).state ≠ .unused) (hsz : (s.proc np).sz = (s.proc p).sz)
    (hvmas : ∀ k, (s.proc np).vmas k = none) (hnmp : (s.proc np).nmp = Xv6.trapframe)
    (hx : loop (inheritVma p np) 0 perProcessVmas s = .ok u t) :
    Inheriting p np s perProcessVmas t := by
  have hnone : ∀ k, s.slot np k = none := fun k => by simp [slot, hvmas k]
  have hstart : Inheriting p np s 0 s :=
    ⟨placing_start hs.layout hvmas hnmp, .refl, hs, fun k v v' _ hv' => by simp [hnone k] at hv'⟩
  have hloop := loop_ok (I := Inheriting p np s) hx hstart fun i a b _ hi ih hbody =>
    ih.step hne (by omega) hs hstate hsz hbody
  rwa [Nat.zero_add] at hloop

end Regions

section Spawn

variable {p np : ℕ} {s s1 s2 s3 : Kernel}

theorem Kernel.AboveImage.newProc (h : s.AboveImage) (hvac : ∀ k, s1.slot np k = none)
    (hother : ∀ q, q ≠ np → s1.proc q = s.proc q) (hslot : s1.slot = s.slot)
    (himage : (s1.proc np).state ≠ .unused → ∀ va,
      (s1.proc np).text.Contains va ∨ (s1.proc np).data.Contains va →
        va < pgRoundUp (s1.proc np).sz) : s1.AboveImage := by
  constructor
  · intro q hq
    by_cases hqn : q = np
    · rw [hqn] at hq ⊢
      exact himage hq
    · rw [hother q hqn] at hq ⊢
      exact h.image q hq
  · intro q k v hv
    by_cases hqn : q = np
    · rw [hqn, hvac] at hv
      cases hv
    · rw [hother q hqn]
      rw [hslot] at hv
      exact h.above q k v hv

/-- The new process has no regions yet and maps pages of its image only. -/
theorem Spawned.settled (hs : Spawned p np s s1) (h : s.Layout) (ha : s.AboveImage)
    (hp : (s.proc p).state ≠ .unused) : s1.Settled p np := by
  obtain ⟨pa, hproc⟩ := hs.proc
  obtain ⟨hlay, hslot⟩ := hs.layout h
  have hnone : ∀ k, s1.slot np k = none := fun k => by
    rw [hslot]
    simp [slot, h.vacant np hs.blank.1 k]
  refine ⟨hlay, ?_, fun w pte ht hu => .inl ?_, fun k v' hv' => by simp [hnone k] at hv'⟩
  · apply ha.newProc hnone hs.nascent.aside.others hslot
    intro _
    rw [hproc]
    exact ha.image p hp
  have hw : w < trapVpn := by
    by_contra hc
    simp [hs.high w pte (by omega) ht] at hu
  have hlt := (hs.copied w pte hw ht).1
  have hup := pgRoundUp_aligned (s.proc p).sz
  rw [hproc]
  simp only
  unfold pgSize at *
  omega

theorem Openings.settled (ho : Openings np s1 s2) (h : s1.Settled p np) : s2.Settled p np := by
  obtain ⟨hlay, hslot, htable, hproc⟩ := ho.layout h.layout
  refine ⟨hlay, ?_, ?_, by simpa only [hslot] using h.copies⟩
  · apply h.above.shrink
    · intro q
      obtain ⟨o, ho⟩ := hproc q
      simp [ho]
    · intro q i v hv
      rw [hslot] at hv
      exact ⟨v, hv, Vma.Within.refl v⟩
  · intro w pte ht hu
    obtain ⟨o, ho⟩ := hproc np
    rw [ho, hslot]
    exact h.housed w pte (by simpa [Kernel.trans, htable] using ht) hu

/-- The child of a successful `fork`: how it got there, its regions and their pages. -/
theorem inheriting_of_spawned (h : s.Layout) (ha : s.AboveImage)
    (hp : (s.proc p).state ≠ .unused) (hs : Spawned p np s s1) (ho : Openings np s1 s2)
    (hl : loop (inheritVma p np) 0 perProcessVmas s2 = .ok ⟨⟩ s3) :
    s2.Settled p np ∧ Inheriting p np s2 perProcessVmas s3 := by
  obtain ⟨pa, hnp⟩ := hs.proc
  have hp1 : s1.proc p = s.proc p := hs.nascent.aside.others p hs.ne
  have hset := ho.settled (hs.settled h ha hp)
  obtain ⟨-, -, -, hproc⟩ := ho.layout (hs.layout h).1
  obtain ⟨o, hnp2⟩ := hproc np
  obtain ⟨o', hp2⟩ := hproc p
  obtain ⟨-, -, hstate, hvmas, hnmp⟩ := hs.ready ho h
  refine ⟨hset, inheriting_of_loop hs.ne hset (by simp [hstate]) ?_ hvmas hnmp hl⟩
  simp [hnp2, hnp, hp2, hp1]

/-- `fork` puts the regions of the child above its image. -/
theorem Kernel.AboveImage.forked {s' : Kernel} (ha : s.AboveImage) (h : s.Layout)
    (hp : (s.proc p).state ≠ .unused) (hf : Forked p s s') : s'.AboveImage := by
  cases hf with
  | failed => exact ha
  | @discarded _ np hne hd =>
    obtain ⟨-, hslot⟩ := h.discarded hd
    obtain ⟨hblank, -, hn, hblank', -⟩ := hd
    have hnone : ∀ k, s'.slot np k = none := fun k => by
      rw [hslot]
      simp [slot, h.vacant np hblank.1 k]
    exact ha.newProc hnone hn.aside.others hslot fun hc => absurd hblank'.1 hc
  | @child s1 s2 s3 np hs ho hl =>
    obtain ⟨-, hi⟩ := inheriting_of_spawned h ha hp hs ho hl
    have hused : (s3.proc np).state = .used := by
      rw [hi.state]
      exact (hs.ready ho h).2.2.1
    exact hi.settled.above.setProc (by simp [hused]) rfl rfl rfl fun _ _ hj => hj

end Spawn

/-- Each `mmap` that is accepted finds room above the image. -/
abbrev MapsRoomily : Kernel → Event → Prop := MapsAbove fun s p => pgRoundUp (s.proc p).sz

/-- Whatever processes do keeps regions above the image. -/
theorem Kernel.AboveImage.step {s t : Kernel} {e : Event} (ha : s.AboveImage) (h : s.Layout)
    (hs : s.Sane) (hroom : MapsRoomily s e) (hstep : Step s e t) : t.AboveImage := by
  have hrun := hstep.used
  have ho := hstep.outcome hs
  cases e with
  | mmap p length prot flags fd offset =>
    rcases ho with rfl | ⟨⟨a, hx⟩, hm⟩
    · exact ha
    · exact ha.mapped h hrun (hroom a t hx) hm
  | munmap p addr size => exact ha.acts h.toArranged ho
  | fork p => exact ha.forked h hrun ho
  | exit p =>
    obtain ⟨s1, hacts, rfl⟩ := ho
    have hst : (s1.proc p).state ≠ .unused := Acts.state hacts hrun
    exact (ha.acts h.toArranged hacts).setProc (by simp [hst]) rfl rfl rfl fun _ _ hj => hj
  | _ => exact ha.of_unmoved (ho.unmoved trivial)

end Xv6.Vm
