import Xv6.Vm.SystemEffects
import Xv6.Vm.MmapLayout

/-!
# Who owns the entries of the region table

The entries of `vmas[]` that are in use and the slots of the processes that have not exited
correspond one to one, in every run in which each accepted `mmap` has room and a length of at
least one byte. `exit` leaves an empty region to the zombie.
-/
namespace Xv6.Vm

open Library Kernel List Option

structure Kernel.Accounted (s : Kernel) : Prop where
  layout : s.Layout
  positive : ∀ q i v, s.slot q i = some v → 0 < v.size
  emptied : ∀ q, (s.proc q).state = .zombie → ∀ i, (s.proc q).vmas i = none
  owned : ∀ j, (s.vmas j).used = true → ∃ q i, (s.proc q).vmas i = some j

section Steps

variable {p i j bound addr : ℕ} {size : ℤ} {s s' : Kernel} {v : Vma}

theorem Vma.Placed.contains_start (h : v.Placed) (hpos : 0 < v.size) : v.Contains v.addr := by
  have hspan := h.size_le_span
  have hbelow := h.below
  have htf := trapframe_eq
  unfold Region.Contains u64
  unfold Vma.stop at hbelow
  omega

theorem Vma.cut_positive {v' : Vma} {off : ℤ} {complete : Bool} (h : v.Placed)
    (hin : v.Contains addr) (hsize : 0 ≤ size ∧ size < 2 ^ 31)
    (hcut : v.cut addr size = some (v', complete, off)) (hc : complete = false) : 0 < v'.size := by
  have hend := h.fits.end_eq hin
  have hspan := h.size_le_span
  have hbelow := h.below
  have htf := trapframe_eq
  obtain ⟨hlo, hhi⟩ := hin
  unfold Vma.stop at hbelow
  unfold Vma.cut at hcut
  split_ifs at hcut with h1 h2 h3
  · cases hcut
    cases hc
  · cases hcut
    have hlt := h2.2
    simp only
    omega
  · cases hcut
    have hsame := h3.2
    have hgt := h3.1
    unfold u64 at hsame hend hhi
    simp only
    omega

namespace Kernel.Accounted

variable (h : s.Accounted)
include h

theorem congr (hs : SameRegions s s')
    (hz : ∀ q, (s'.proc q).state = .zombie → (s.proc q).state = .zombie) : s'.Accounted where
  layout := h.layout.congr hs
  positive q i v hv := h.positive q i v (hs.slot ▸ hv)
  emptied q hq i := by
    rw [hs.slots]
    exact h.emptied q (hz q hq) i
  owned j hj := by
    rw [hs.vmas] at hj
    obtain ⟨q, i, hi⟩ := h.owned j hj
    exact ⟨q, i, by rw [hs.slots, hi]⟩

theorem of_unmoved (hu : Unmoved s s') : s'.Accounted := by
  apply h.congr hu.sameRegions
  intro q hq
  obtain ⟨b, o, hb⟩ := hu.procs q
  rwa [hb] at hq

theorem setProc {f : Proc → Proc} (hs : (f (s.proc p)).state = (s.proc p).state)
    (hv : (f (s.proc p)).vmas = (s.proc p).vmas) (hn : (f (s.proc p)).nmp = (s.proc p).nmp) :
    (s.setProc p f).Accounted := by
  apply h.congr (.setProc (by rw [hs]) hv hn)
  intro q hq
  by_cases hqp : q = p
  · subst hqp
    simpa [Kernel.setProc, hs] using hq
  · simpa [Kernel.setProc, hqp] using hq

/-- A region is added to a live process. -/
theorem addVma (hlay : (s.addVma p i j v).Layout)
    (hp : (s.proc p).state ≠ .zombie) (hnone : (s.proc p).vmas i = none)
    (hj : ∀ q k, (s.proc q).vmas k ≠ some j) (hpos : 0 < v.size) :
    (s.addVma p i j v).Accounted := by
  have hkeep : ∀ q k j', (s.proc q).vmas k = some j' →
      ((s.addVma p i j v).proc q).vmas k = some j' := by
    intro q k j' hr
    by_cases hq : q = p
    · subst hq
      have hk : k ≠ i := by
        rintro rfl
        simp [hnone] at hr
      simpa [proc_addVma, hk] using hr
    · rwa [proc_addVma_of_ne hq]
  refine ⟨hlay, fun q k w hw => ?_, fun q hq k => ?_, fun j' hj' => ?_⟩
  · rw [slot_addVma hj] at hw
    split_ifs at hw
    · cases hw
      exact hpos
    · exact h.positive q k w hw
  · have hqp : q ≠ p := by
      rintro rfl
      rw [proc_addVma] at hq
      exact hp hq
    rw [proc_addVma_of_ne hqp] at hq ⊢
    exact h.emptied q hq k
  · rw [vmas_addVma] at hj'
    by_cases hne : j' = j
    · subst hne
      exact ⟨p, i, by simp [proc_addVma]⟩
    · obtain ⟨q, k, hr⟩ := h.owned j' (by simpa [hne] using hj')
      exact ⟨q, k, hkeep q k j' hr⟩

/-- `deallocvma` gives up an entry together with its slot. -/
theorem deallocated {off : ℤ} {complete : Bool} {s1 s2 : Kernel}
    (hsp : s.Special p) (hsize : 0 ≤ size ∧ size < 2 ^ 31) (hlay : s'.Layout)
    (hd : Deallocated bound p addr size i j v complete off s s1 s2 s') :
    s'.Accounted ∧ (∀ k, (s'.proc p).vmas k =
      if k = i ∧ complete = true then none else (s.proc p).vmas k) ∧
      ∀ q, (s'.proc q).state = (s.proc q).state := by
  obtain ⟨hvmas, hproc⟩ := hd.regions hsp
  have hslots : ∀ q k, (s'.proc q).vmas k =
      if q = p ∧ k = i ∧ complete = true then none else (s.proc q).vmas k := by
    intro q k
    obtain ⟨c, o, hq⟩ := hproc q
    rw [hq]
  have hstate : ∀ q, (s'.proc q).state = (s.proc q).state := by
    intro q
    obtain ⟨c, o, hq⟩ := hproc q
    rw [hq]
  refine ⟨⟨hlay, fun q k w hw => ?_, fun q hq k => ?_, fun j' hj' => ?_⟩, fun k => ?_, hstate⟩
  · obtain ⟨j', hj', rfl⟩ := slot_eq_some.mp hw
    rw [hslots] at hj'
    split_ifs at hj' with hc
    rw [hvmas]
    by_cases hjj : j' = j
    · subst hjj
      obtain ⟨rfl, rfl⟩ := h.layout.distinct q k p i j' hj' hd.slot
      have hpl := h.layout.placed q k _ (slot_eq_some.mpr ⟨j', hd.slot, rfl⟩)
      have hfalse : complete = false := by simpa using hc
      simpa using Vma.cut_positive hpl hd.inside hsize hd.cut hfalse
    · simpa [hjj] using h.positive q k _ (slot_eq_some.mpr ⟨j', hj', rfl⟩)
  · rw [hstate] at hq
    rw [hslots, h.emptied q hq k, ite_self]
  · rw [hvmas] at hj'
    have hold : (s.vmas j').used = true ∧ (j' = j → complete = false) := by
      by_cases hjj : j' = j
      · subst hjj
        have hused := h.layout.used p i j' hd.slot
        refine ⟨hused, fun _ => ?_⟩
        by_contra hc
        have hcut := hd.cut
        unfold Vma.cut at hcut
        split_ifs at hcut <;> cases hcut <;> simp at hc hj'
      · exact ⟨by simpa [hjj] using hj', fun he => absurd he hjj⟩
    obtain ⟨q, k, hr⟩ := h.owned j' hold.1
    refine ⟨q, k, ?_⟩
    rw [hslots, if_neg, hr]
    rintro ⟨rfl, rfl, hc⟩
    have hjj : j' = j := some.inj (hr.symm.trans hd.slot)
    rw [hold.2 hjj] at hc
    cases hc
  · rw [hslots]
    simp

theorem deallocvma {b : Bool} (hsp : s.Special p)
    (hsize : 0 ≤ size ∧ size < 2 ^ 31) (hr : s.Ranges p addr size)
    (hx : deallocvma bound p addr size s = .ok b s') : s'.Accounted := by
  have hlay := h.layout.deallocvma hsp hsize hr hx
  rcases deallocvma_cases hx with ⟨rfl, -⟩ | ⟨i, j, v, complete, off, s1, s2, hd⟩
  · exact h
  · exact (h.deallocated hsp hsize hlay hd).1

/-- Unmapping a whole region empties its slot. -/
theorem deallocvma_whole {b : Bool} (hsp : s.Special p)
    (hv : s.slot p i = some v) (hx : Vm.deallocvma bound p v.addr v.size s = .ok b s') :
    s'.Accounted ∧ (∀ k, (s'.proc p).vmas k = if k = i then none else (s.proc p).vmas k) ∧
      ∀ q, (s'.proc q).state = (s.proc q).state := by
  have hpl := h.layout.placed p i v hv
  have hstart := hpl.contains_start (h.positive p i v hv)
  have hr : s.Ranges p v.addr v.size := .inr ⟨i, v, hv, rfl, rfl⟩
  have hlay := h.layout.deallocvma hsp hpl.fits.2 hr hx
  obtain ⟨j, hj, hjv⟩ := slot_eq_some.mp hv
  have hused : v.used = true := hjv ▸ h.layout.used p i j hj
  have hfind : s.usedSlot p v.addr = some i := by
    have hi : i < perProcessVmas := by
      by_contra hge
      rw [h.layout.slots p i (by omega)] at hj
      cases hj
    cases hf : s.usedSlot p v.addr with
    | none =>
      have hno := find?_eq_none.mp hf i (mem_range.mpr hi)
      simp [hv, hused, hstart] at hno
    | some k =>
      obtain ⟨-, w, hw, -, hin⟩ := slot_of_usedSlot hf
      have hcov := (h.layout.placed p k w hw).covers hin
      rw [(h.layout.toArranged.covers_unique hw hv hcov (hpl.covers hstart)).1]
  have hcut : v.cut v.addr v.size = some ({ v with used := false }, true, v.offset) := by
    simp [Vma.cut]
  rcases deallocvma_cases hx with ⟨-, hno⟩ | ⟨i', j', v', complete, off, s1, s2, hd⟩
  · rw [hno i v hfind hv] at hcut
    cases hcut
  · have hi' : i' = i := some.inj (hd.found.symm.trans hfind)
    subst hi'
    have hjj : j' = j := some.inj (hd.slot.symm.trans hj)
    have hc : complete = true := by
      have hd' := hd.cut
      rw [hjj, hjv, hcut] at hd'
      cases hd'
      rfl
    obtain ⟨hacc, hslots, hstate⟩ := h.deallocated hsp hpl.fits.2 hlay hd
    refine ⟨hacc, fun k => ?_, hstate⟩
    rw [hslots, hc]
    simp

theorem munmap {b : Bool} (hsp : s.Special p) (hsize : size < 2 ^ 31)
    (hx : sysMunmap bound p addr size s = .ok b s') : s'.Accounted := by
  rcases sysMunmap_cases hx with rfl | ⟨hpos, haddr, hpages, hx⟩
  · exact h
  · exact h.deallocvma hsp ⟨hpos.le, hsize⟩ (.inl ⟨haddr, hpages⟩) hx

/-- `exit` leaves nothing to the zombie. -/
theorem exit {u : PUnit} (hp : (s.proc p).state = .runnable)
    (hsp : s.Special p) (hx : Vm.exit bound p s = .ok u s') : s'.Accounted := by
  let I : ℕ → Kernel → Prop := fun _ t => t.Accounted ∧ t.Special p ∧ (t.proc p).state = .runnable
  let J : ℕ → Kernel → Prop := fun i t => I 0 t ∧ ∀ k < i, (t.proc p).vmas k = none
  have hend := exit_induction (I := I) (J := J) ⟨h, hsp, hp⟩ (fun _ _ ih _ => ih) ?_ ?_ ?_ ?_ hx
  · obtain ⟨t, ⟨⟨hacc, -, hrun⟩, hempty⟩, rfl⟩ := hend
    have hregions : SameRegions t (t.setProc p fun q => { q with state := .zombie }) :=
      .setProc (by simp [hrun]) rfl rfl
    refine ⟨hacc.layout.congr hregions, fun q k v hv => ?_, fun q hq k => ?_, fun j hj => ?_⟩
    · exact hacc.positive q k v (hregions.slot ▸ hv)
    · rw [hregions.slots]
      by_cases hqp : q = p
      · subst hqp
        by_cases hk : k < perProcessVmas
        · exact hempty k hk
        · exact hacc.layout.slots q k (by omega)
      · apply hacc.emptied q
        simpa [Kernel.setProc, hqp] using hq
    · obtain ⟨q, k, hr⟩ := hacc.owned j hj
      exact ⟨q, k, by rw [hregions.slots, hr]⟩
  · intro fd f file t ih _ _
    refine ⟨ih.1.of_unmoved (.andThen (.setFile f file) (.setOfile fd none)), ih.2.1, ?_⟩
    simpa [Kernel.setProc, Kernel.setFile] using ih.2.2
  · intro t _ t' ih _ _ hc
    have hu := hc.toLocal.unmoved
    exact ⟨⟨ih.1.of_unmoved hu, hc.special ih.2.1, (hu.state p).trans ih.2.2⟩, fun k hk => by omega⟩
  · intro i t _ ih hnone
    refine ⟨ih.1, fun k hk => ?_⟩
    by_cases hki : k = i
    · rw [hki]
      simpa [Kernel.slot] using hnone
    · exact ih.2 k (by omega)
  · intro i v b t t' _ ih hv hde
    obtain ⟨⟨hacc, hsp, hrun⟩, hbelow⟩ := ih
    have hfits := (hacc.layout.placed p i v hv).fits
    have hacts : Acts True p t t' := deallocvma_ok hsp hfits.2 (.inr ⟨i, v, hv, rfl, rfl⟩)
      (.inl trivial) hde
    obtain ⟨hacc', hslots, hstate⟩ := hacc.deallocvma_whole hsp hv hde
    refine ⟨⟨hacc', hacts.special hsp, ?_⟩, fun k hk => ?_⟩
    · rw [hstate]
      exact hrun
    · rw [hslots]
      split_ifs with hki
      · rfl
      · exact hbelow k (by omega)

theorem newProc {np : ℕ} (hlay : s'.Layout) (hslot : s'.slot = s.slot)
    (hvac : ∀ k, (s.proc np).vmas k = none) (hother : ∀ q, q ≠ np → s'.proc q = s.proc q)
    (hvm : s'.vmas = s.vmas) (hnp : (s'.proc np).vmas = (s.proc np).vmas) : s'.Accounted := by
  refine ⟨hlay, fun q k v hv => ?_, fun q hq k => ?_, fun j hj => ?_⟩
  · exact h.positive q k v (hslot ▸ hv)
  · by_cases hqn : q = np
    · rw [hqn, hnp]
      exact hvac k
    · rw [hother q hqn] at hq ⊢
      exact h.emptied q hq k
  · rw [hvm] at hj
    obtain ⟨q, k, hr⟩ := h.owned j hj
    have hqn : q ≠ np := by
      rintro rfl
      simp [hvac k] at hr
    exact ⟨q, k, by rw [hother q hqn, hr]⟩

theorem openings {np : ℕ} (ho : Openings np s s') : s'.Accounted := by
  induction ho with
  | refl => exact h
  | tail _ ha ih =>
    cases ha with
    | setFile f file => exact ih.of_unmoved (.setFile f file)
    | setOfile fd o => exact ih.of_unmoved (.setOfile fd o)

theorem forked (hf : Forked p s s') : s'.Accounted := by
  have hlay := h.layout.forked hf
  cases hf with
  | failed => exact h
  | @discarded _ np _ hd =>
    obtain ⟨-, hslot⟩ := h.layout.discarded hd
    obtain ⟨hblank, -, hn, -, hvmas, -⟩ := hd
    exact h.newProc hlay hslot (h.layout.vacant np hblank.1) hn.aside.others hn.aside.vmas hvmas
  | @child s1 s2 s3 np hs ho hl =>
    obtain ⟨pa, hnp⟩ := hs.proc
    obtain ⟨hlay1, hslot1⟩ := hs.layout h.layout
    have h1 : s1.Accounted := by
      apply h.newProc hlay1 hslot1 (h.layout.vacant np hs.blank.1)
      · intro q hq
        exact hs.nascent.aside.others q hq
      · exact hs.nascent.aside.vmas
      · rw [hnp]
    have h2 := h1.openings ho
    obtain ⟨hlay2, -, hstate, hvmas, hnmp⟩ := hs.ready ho h.layout
    have hne : (s2.proc np).state ≠ .unused := by simp [hstate]
    have h3 : Placing p np s2 (0 + perProcessVmas) s3 ∧ s3.Accounted := by
      apply loop_ok (I := fun i t => Placing p np s2 i t ∧ t.Accounted) hl
        ⟨placing_start hlay2 hvmas hnmp, h2⟩
      intro i t t' _ hi ih hbody
      have hplace := ih.1.step hs.ne (by omega) hlay2.toArranged hne hbody
      refine ⟨hplace, ?_⟩
      rcases inheritVma_cases hbody with ⟨rfl, -⟩ | ⟨j0, j, hr, hj, hloop⟩
      · exact ih.2
      · obtain ⟨hproc, hvm, -⟩ := sharePages_frame hloop
        have hadd := ih.1.add hs.ne (by omega) hlay2.toArranged hne hr hj
        have hpos := ih.2.positive p i _ (Kernel.slot_eq_some.mpr ⟨j0, hr, rfl⟩)
        have hlive : (t.proc np).state ≠ .zombie := by simp [ih.1.state, hstate]
        have hacc := ih.2.addVma hadd.layout hlive (ih.1.later i le_rfl)
          (ih.2.layout.unreferenced hj) hpos
        exact hacc.congr ⟨hvm, fun _ => by rw [hproc], fun _ => by rw [hproc],
          fun _ => by rw [hproc]⟩ fun q hq => by rwa [hproc] at hq
    have hused : (s3.proc np).state = .used := by rw [h3.1.state, hstate]
    apply h3.2.congr (.setProc (by simp [hused]) rfl rfl)
    intro q hq
    by_cases hqn : q = np
    · subst hqn
      simp [Kernel.setProc] at hq
    · simpa [Kernel.setProc, hqn] using hq

theorem reaped {pp : ℕ} (hz : (s.proc pp).state = .zombie)
    (hr : Reaped pp s s') : s'.Accounted := by
  have hvac := h.emptied pp hz
  have hother : ∀ q, q ≠ pp → s'.proc q = s.proc q := fun q hq => by simp [hr.procs, hq]
  have hnp : (s'.proc pp).vmas = (s.proc pp).vmas := by simp [hr.procs]
  obtain ⟨hlay, hslot⟩ := h.layout.newProc hvac hother hr.vmas hnp fun hc => by
    simp [hr.procs] at hc
  exact h.newProc hlay hslot hvac hother hr.vmas hnp

theorem resized (hr : Resized p s s') : s'.Accounted := by
  obtain ⟨s1, sz, hw, rfl, -, -⟩ := hr
  have h1 : s1.Accounted := h.congr ⟨hw.vmas, fun _ => by rw [hw.proc], fun _ => by rw [hw.proc],
    fun _ => by rw [hw.proc]⟩ fun q hq => by rwa [hw.proc] at hq
  exact h1.setProc rfl rfl rfl

theorem execed {ip : Option ℕ} {argv : List (List UInt8)}
    (he : Execed p ip argv s s') : s'.Accounted := by
  have hset : ∀ g i, (s.setSegments p g i).Accounted := fun g i => h.setProc rfl rfl rfl
  have hbeside : ∀ x : Kernel, x.Accounted → Beside p x s' → s'.Accounted := by
    intro x hx hb
    exact hx.congr ⟨hb.vmas, fun _ => by rw [hb.proc], fun _ => by rw [hb.proc],
      fun _ => by rw [hb.proc]⟩ fun q hq => by rwa [hb.proc] at hq
  cases he with
  | kept hb _ => exact hbeside s h hb
  | failed i g _ _ hb _ _ => exact hbeside _ (hset g i) hb
  | done i g _ _ hr =>
    have hproc : s'.proc = ((s.setSegments p g i).setProc p fun q =>
        { q with sz := g.size + 2 * pgSize }).proc := by
      rw [hr.procs]
      rfl
    exact ((hset g i).setProc rfl rfl rfl).congr ⟨hr.vmas, fun _ => by rw [hproc],
      fun _ => by rw [hproc], fun _ => by rw [hproc]⟩ fun q hq => by rwa [hproc] at hq

end Kernel.Accounted

end Steps

section Runs

/-- Each `mmap` that is accepted finds room, and maps at least one byte. -/
def MapsSome (σ : System) : Call → Prop
  | .event (.mmap p length prot flags fd offset) => ∀ a t,
      sysMmap p (i32 length) (i32 prot) (i32 flags) (i32 fd)
        (i32 offset) σ.kernel = .ok (some a) t →
      σ.kernel.Roomy p 0 (i32 length) ∧ 0 < i32 length
  | _ => True

variable {σ σ₀ τ : System} {c : Call}

theorem MapsSome.mapsAbove {e : Event} (h : MapsSome σ (.event e)) :
    MapsAbove (fun _ _ => 0) σ.kernel e := by
  cases e with
  | mmap p length prot flags fd offset => exact fun a t hx => (h a t hx).1
  | _ => trivial

theorem Kernel.Accounted.step {e : Event} {t : Kernel} (h : σ.kernel.Accounted)
    (hs : σ.kernel.Sane) (hok : MapsSome σ (.event e)) (hstep : Step σ.kernel e t) :
    t.Accounted := by
  have hrun := hstep.runnable
  have hne := hstep.used
  have ho := hstep.outcome hs
  have hlay := h.layout.step hs hok.mapsAbove hstep
  cases e with
  | mmap p length prot flags fd offset =>
    rcases ho with rfl | ⟨⟨a, hmap⟩, i, j, v, -, hnone, hj, -, hsize, -, -, rfl⟩
    · exact h
    · have hlive : (σ.kernel.proc p).state ≠ .zombie := by
        intro hz
        rw [show (σ.kernel.proc p).state = .runnable from hrun] at hz
        cases hz
      exact h.addVma hlay hlive hnone (h.layout.unreferenced hj) (hsize ▸ (hok a _ hmap).2)
  | munmap p addr size =>
    obtain ⟨bound, b, hx⟩ := hstep.munmap_ok
    exact h.munmap (hs.special p hne) (i32_lt size) hx
  | fork p => exact h.forked ho
  | exit p =>
    obtain ⟨-, bound, hx⟩ := hstep.performed
    exact h.exit hrun (hs.special p hne) hx
  | _ => exact h.of_unmoved (ho.unmoved trivial)

theorem Kernel.Accounted.sysStep (h : σ.kernel.Accounted) (hs : σ.kernel.Sane)
    (hok : MapsSome σ c) (hstep : SysStep σ c τ) : τ.kernel.Accounted := by
  have ho := hstep.outcome hs
  cases c with
  | event e => exact h.step hs hok ho
  | wait p addr status =>
    rcases Waited.cases ho with hl | ⟨pp, s1, hz, hl, hr⟩
    · exact h.of_unmoved hl.unmoved
    · exact (h.of_unmoved hl.unmoved).reaped hz hr
  | sbrk p n => exact h.resized ho
  | exec p ip argv => exact h.execed ho
  | _ => exact h.of_unmoved (FdActs.unmoved ho)

/-- The entries of a new process were free before. -/
theorem Kernel.Accounted.child_entries {s s' : Kernel} {p q i j : ℕ} (h : s.Accounted)
    (hf : Forked p s s') (hq : (s.proc q).state = .unused) (hr : (s'.proc q).vmas i = some j) :
    (s.vmas j).used = false := by
  have h' := (h.forked hf).layout
  have hvac := h.layout.vacant q hq
  by_contra hused
  obtain ⟨q', i', hr'⟩ := h.owned j (by simpa using hused)
  have hne : q' ≠ q := by
    rintro rfl
    simp [hvac i'] at hr'
  have hkeep : ∀ np, (∀ x, x ≠ np → (s'.proc x).vmas = (s.proc x).vmas) → False := by
    intro np hsame
    by_cases hqn : q = np
    · subst hqn
      have hr'' : (s'.proc q').vmas i' = some j := by rw [hsame q' hne, hr']
      exact hne (h'.distinct q' i' q i j hr'' hr).1
    · rw [hsame q hqn, hvac i] at hr
      cases hr
  cases hf with
  | failed =>
    rw [hvac i] at hr
    cases hr
  | @discarded _ np _ hd =>
    obtain ⟨-, -, hn, -⟩ := hd
    apply hkeep np
    intro x hx
    rw [hn.aside.others x hx]
  | @child s1 s2 s3 np hs ho hl =>
    have hplace := placing_of_spawned h.layout hs ho hl
    apply hkeep np
    intro x hx
    obtain ⟨o, ho'⟩ := (ho.layout (hs.layout h.layout).1).2.2.2 x
    simp [Kernel.setProc, hx, hplace.others x hx, ho',
      hs.nascent.aside.others x hx]

/-- Used entries and slots of processes that have not exited correspond one to one. -/
structure Kernel.TableOwned (s : Kernel) : Prop where
  owned : ∀ j, (s.vmas j).used = true → ∃! qi : ℕ × ℕ, (s.proc qi.1).vmas qi.2 = some j
  used : ∀ q i j, (s.proc q).vmas i = some j → (s.vmas j).used = true
  live : ∀ q i j, (s.proc q).vmas i = some j →
    q < nProc ∧ i < perProcessVmas ∧ (s.proc q).state ≠ .unused ∧ (s.proc q).state ≠ .zombie

theorem Kernel.Sane.lt_nProc {s : Kernel} {q : ℕ} (h : s.Sane) (hq : (s.proc q).state ≠ .unused) :
    q < nProc := by
  obtain ⟨pte, ht, -⟩ := h.special q hq trapVpn le_rfl (by decide)
  cases htab : s.table q with
  | none => simp [Kernel.trans, htab] at ht
  | some pt => exact (h.bounded q pt htab).1

theorem Kernel.Accounted.tableOwned {s : Kernel} (h : s.Accounted) (hs : s.Sane) :
    s.TableOwned := by
  refine ⟨fun j hj => ?_, h.layout.used, fun q i j hr => ?_⟩
  · obtain ⟨q, i, hr⟩ := h.owned j hj
    refine ⟨(q, i), hr, fun y hy => ?_⟩
    obtain ⟨h1, h2⟩ := h.layout.distinct y.1 y.2 q i j hy hr
    exact Prod.ext h1 h2
  · have hunused : (s.proc q).state ≠ .unused := by
      intro hu
      simp [h.layout.vacant q hu i] at hr
    refine ⟨hs.lt_nProc hunused, ?_, hunused, fun hz => ?_⟩
    · by_contra hge
      simp [h.layout.slots q i (by omega)] at hr
    · simp [h.emptied q hz i] at hr

/-- In every run in which accepted mappings are not empty and have room, each used entry
belongs to one slot of one live process, and new processes get entries that were free. -/
theorem vma_table_ownership (hs : σ₀.kernel.Sane)
    (hnone : ∀ q k, (σ₀.kernel.proc q).vmas k = none)
    (hn : ∀ q, (σ₀.kernel.proc q).state ≠ .unused → (σ₀.kernel.proc q).nmp = Xv6.trapframe)
    (hfree : ∀ j, (σ₀.kernel.vmas j).used = false) (hr : Reach SysStep MapsSome σ₀ σ) :
    σ.kernel.TableOwned ∧ ∀ p τ q i j, SysStep σ (.event (.fork p)) τ →
      (σ.kernel.proc q).state = .unused → (τ.kernel.proc q).vmas i = some j →
      (σ.kernel.vmas j).used = false := by
  have h0 : σ₀.kernel.Sane ∧ σ₀.kernel.Accounted := by
    refine ⟨hs, Kernel.Layout.of_no_regions hnone hn, fun q i v hv => ?_, fun q _ i => hnone q i,
      fun j hj => ?_⟩
    · simp [slot, hnone q i] at hv
    · simp [hfree j] at hj
  have h : σ.kernel.Sane ∧ σ.kernel.Accounted := by
    apply hr.invariant (I := fun a => a.kernel.Sane ∧ a.kernel.Accounted) h0
    intro a c b ha hok hstep
    exact ⟨ha.1.sysStep hstep, ha.2.sysStep ha.1 hok hstep⟩
  refine ⟨h.2.tableOwned h.1, fun p τ q i j hstep hq hrq => ?_⟩
  have hfork : Step σ.kernel (.fork p) τ.kernel := hstep.outcome h.1
  exact h.2.child_entries (hfork.outcome h.1) hq hrq

end Runs

def bootSystem : System := ⟨boot, fun _ => none⟩

/-- The state after a call, for a run that is followed by evaluation. -/
def sysNext (σ : System) (c : Call) : System :=
  match σ.step 8 c with
  | .ok τ => τ
  | .error _ => σ

def sysHappens (σ : System) (c : Call) : Bool :=
  match σ.step 8 c with
  | .ok _ => true
  | .error _ => false

theorem sysStep_next {σ : System} {c : Call} (h : sysHappens σ c = true) :
    SysStep σ c (sysNext σ c) := by
  refine ⟨8, ?_⟩
  unfold sysHappens at h
  unfold sysNext
  cases hs : σ.step 8 c with
  | ok τ => rfl
  | error err => simp [hs] at h

def forked : System := sysNext bootSystem (.event (.fork 0))

theorem boot_free (j : ℕ) : (boot.vmas j).used = false := by
  obtain ⟨s, ⟨-, -, hn, -⟩, hboot⟩ := boot_allocated
  have hvm : boot.vmas = bare.vmas := by
    rw [hboot]
    exact hn.aside.vmas
  rw [hvm]
  rfl

def childMapped : System := sysNext forked (.event (.mmap 1 4096 1 4 3 0))

def childReaped : System :=
  sysNext (sysNext childMapped (.event (.exit 1))) (.wait 0 0 fun _ => 0)

theorem vma_table_ownership_reaped : (childMapped.kernel.proc 1).vmas 0 = some 0 ∧
    (childReaped.kernel.proc 1).state = .unused ∧ (childReaped.kernel.vmas 0).used = false ∧
    childReaped.kernel.TableOwned := by
  have h1 : SysStep bootSystem _ forked := sysStep_next (by decide +kernel)
  have h2 : SysStep forked (.event (.mmap 1 4096 1 4 3 0)) childMapped :=
    sysStep_next (by decide +kernel)
  have h3 : SysStep childMapped (.event (.exit 1)) (sysNext childMapped (.event (.exit 1))) :=
    sysStep_next (by decide +kernel)
  have h4 : SysStep (sysNext childMapped (.event (.exit 1))) (.wait 0 0 fun _ => 0) childReaped :=
    sysStep_next (by decide +kernel)
  have hroom : MapsSome forked (.event (.mmap 1 4096 1 4 3 0)) := by
    refine fun _ _ _ => ⟨?_, by decide⟩
    have h : (4096 : ℤ) ≤ 2 ^ 31 - pgSize ∧ 0 + pgRoundUp 4096 ≤ (forked.kernel.proc 1).nmp := by
      decide +kernel
    exact h
  have hfork : MapsSome bootSystem (.event (.fork 0)) := trivial
  have hexit : MapsSome childMapped (.event (.exit 1)) := trivial
  have hwait : MapsSome (sysNext childMapped (.event (.exit 1))) (.wait 0 0 fun _ => 0) := trivial
  have hr : Reach SysStep MapsSome bootSystem childReaped :=
    (((Reach.refl.tail hfork h1).tail hroom h2).tail hexit h3).tail hwait h4
  refine ⟨by decide +kernel, by decide +kernel, by decide +kernel, ?_⟩
  exact (vma_table_ownership boot_start.sane boot_vmas boot_nmp boot_free hr).1

def emptyMapped : System := sysNext forked (.event (.mmap 1 0 1 4 3 0))

def emptyExited : System := sysNext emptyMapped (.event (.exit 1))

/-- The zombie still owns the entry of its empty region. -/
theorem empty_mapping_outlives_exit : Reach SysStep (fun _ _ => True) bootSystem emptyExited ∧
    (emptyExited.kernel.proc 1).state = .zombie ∧ (emptyExited.kernel.proc 1).vmas 0 = some 0 ∧
    (emptyExited.kernel.vmas 0).used = true ∧ ¬ emptyExited.kernel.TableOwned := by
  have h1 : SysStep bootSystem _ forked := sysStep_next (by decide +kernel)
  have h2 : SysStep forked _ emptyMapped := sysStep_next (by decide +kernel)
  have h3 : SysStep emptyMapped _ emptyExited := sysStep_next (by decide +kernel)
  have hz : (emptyExited.kernel.proc 1).state = .zombie := by decide +kernel
  have hslot : (emptyExited.kernel.proc 1).vmas 0 = some 0 := by decide +kernel
  refine ⟨((Reach.refl.tail trivial h1).tail trivial h2).tail trivial h3, hz, hslot,
    by decide +kernel, fun h => ?_⟩
  exact (h.live 1 0 0 hslot).2.2.2 hz

end Xv6.Vm
