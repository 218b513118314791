import Xv6.Vm.Image

/-!
# The regions of a child

`fork` lays the regions of the child out anew, one below the other from the trapframe
on. They fit, because those of the parent do. With that, no event breaks the layout of
regions as long as each `mmap` finds room.
-/
namespace Xv6.Vm

open Library Relation Function Kernel List Option

/-- The bytes of the pages of the region in slot `k`, if there is one. -/
def Kernel.spanAt (s : Kernel) (p k : ℕ) : ℕ := ((s.slot p k).map Vma.span).getD 0

section Room

variable {s : Kernel}

/-- The regions of a process fit between `low` and the trapframe, in any order. -/
theorem Kernel.Arranged.sum_span_le (h : s.Arranged) {p low : ℕ}
    (hlow : ∀ k v, s.slot p k = some v → low ≤ v.addr) (n : ℕ) :
    ∑ k ∈ Finset.range n, s.spanAt p k ≤ Xv6.trapframe - low := by
  have hfilter : ∑ k ∈ Finset.range n, s.spanAt p k =
      ∑ k ∈ (Finset.range n).filter (fun k => (s.slot p k).isSome), s.spanAt p k := by
    rw [Finset.sum_filter_of_ne]
    intro k _ hk
    by_contra hc
    simp only [Bool.not_eq_true, isSome_eq_false_iff, isNone_iff_eq_none] at hc
    simp [spanAt, hc] at hk
  rw [hfilter]
  refine @sum_length_le _ _ (fun k => ((s.slot p k).map (·.addr)).getD 0) _ _ _ ?_ ?_
  · intro k hk
    obtain ⟨v, hv⟩ := isSome_iff_exists.mp (Finset.mem_filter.mp hk).2
    simp only [spanAt, hv, map_some, getD_some]
    exact ⟨hlow k v hv, (h.placed p k v hv).below⟩
  · intro k hk k' hk' hne
    obtain ⟨v, hv⟩ := isSome_iff_exists.mp (Finset.mem_filter.mp hk).2
    obtain ⟨v', hv'⟩ := isSome_iff_exists.mp (Finset.mem_filter.mp hk').2
    simp only [spanAt, hv, hv', map_some, getD_some]
    exact h.disjoint p k k' v v' hne hv hv'

end Room

section Regions

variable {p np : ℕ} {s t t' : Kernel} {u : PUnit}

/-- The region the child gets for `v`. -/
def Kernel.heir (t : Kernel) (np : ℕ) (v : Vma) : Vma :=
  { v with used := true, addr := lowerNmp (t.proc np).nmp v.size }

theorem sharePages_frame {j0 j n : ℕ} (hx : loop (sharePage p np j0 j) 0 n s = .ok u t) :
    t.proc = s.proc ∧ t.vmas = s.vmas ∧ t.file = s.file := by
  apply loop_ok (I := fun _ a => a.proc = s.proc ∧ a.vmas = s.vmas ∧ a.file = s.file) hx
    ⟨rfl, rfl, rfl⟩
  intro k a b _ _ ih hbody
  rcases sharePage_ok hbody with ⟨rfl, -⟩ | hsh
  · exact ih
  · obtain ⟨hproc, hvmas, hfile, -⟩ := hsh.frame
    exact ⟨hproc.trans ih.1, hvmas.trans ih.2.1, hfile.trans ih.2.2⟩

/-- A slot is skipped, or its region is inherited and then the resident pages. -/
theorem inheritVma_cases {i : ℕ} (hx : inheritVma p np i t = .ok u t') :
    (t' = t ∧ ((t.proc p).vmas i = none ∨ t.freeVma = none)) ∨
      ∃ j0 j, (t.proc p).vmas i = some j0 ∧ t.freeVma = some j ∧
        loop (sharePage p np j0 j) 0 (pageCount (t.vmas j0).size)
          (t.addVma np i j (t.heir np (t.vmas j0))) = .ok u t' := by
  unfold inheritVma at hx
  rw [get_run] at hx
  cases hr : (t.proc p).vmas i with
  | none =>
    simp only [hr, pure_ok] at hx
    exact .inl ⟨hx.2.symm, .inl rfl⟩
  | some j0 =>
    cases hj : t.freeVma with
    | none =>
      simp only [hr, hj, pure_ok] at hx
      exact .inl ⟨hx.2.symm, .inr rfl⟩
    | some j =>
      simp only [hr, hj, bind_ok, set_ok] at hx
      obtain ⟨_, _, rfl, hloop⟩ := hx
      exact .inr ⟨j0, j, rfl, rfl, hloop⟩

/-- What the loop over the slots has done to the regions before slot `i`, starting from
`s`: the child's regions are the parent's, at other addresses. -/
structure Placing (p np : ℕ) (s : Kernel) (i : ℕ) (t : Kernel) : Prop where
  layout : t.Layout
  parent : t.proc p = s.proc p
  slots : ∀ q k, q ≠ np → t.slot q k = s.slot q k
  child : ∃ vm nm, t.proc np = { s.proc np with vmas := vm, nmp := nm }
  others : ∀ q, q ≠ np → t.proc q = s.proc q
  later : ∀ k, i ≤ k → (t.proc np).vmas k = none
  room : Xv6.trapframe ≤ (t.proc np).nmp + ∑ k ∈ Finset.range i, s.spanAt p k
  copies : ∀ k v', t.slot np k = some v' →
    ∃ v, t.slot p k = some v ∧ v' = { v with used := true, addr := v'.addr }

namespace Placing

variable {i j0 j : ℕ}

variable (h : Placing p np s i t)
include h

/-- There is room for the region in slot `i`, above `low`. -/
theorem room_below {low : ℕ} {v : Vma} (hs : s.Arranged)
    (hlow : ∀ k w, s.slot p k = some w → low ≤ w.addr) (hv : s.slot p i = some v) :
    low + v.span ≤ (t.proc np).nmp := by
  have hspan : s.spanAt p i = v.span := by simp [spanAt, hv]
  have hsum := hs.sum_span_le hlow (i + 1)
  have hle : low ≤ Xv6.trapframe := by
    have h1 := hlow i v hv
    have h2 := (hs.placed p i v hv).below
    unfold Vma.stop at h2
    omega
  have hroom := h.room
  rw [Finset.sum_range_succ, hspan] at hsum
  omega

theorem heir_placed {v : Vma} (hs : s.Arranged)
    (hstate : (t.proc np).state ≠ .unused) (hv : s.slot p i = some v) :
    (t.heir np v).Placed ∧ (t.heir np v).stop = (t.proc np).nmp := by
  have hpl := hs.placed p i v hv
  have hn := h.layout.next np hstate
  have hroom := h.room_below hs (fun k w _ => Nat.zero_le w.addr) hv
  exact Vma.Placed.of_lower (hn ▸ h.layout.minVma_aligned) (hn ▸ minVma_le_trapframe)
    hpl.nonneg hpl.small ((Nat.zero_add _).symm.le.trans hroom) rfl

theorem state : (t.proc np).state = (s.proc np).state := by
  obtain ⟨vm, nm, hchild⟩ := h.child
  rw [hchild]

theorem skip : Placing p np s (i + 1) t := by
  have hroom := h.room
  refine { h with later := fun k hk => h.later k (by omega), room := ?_ }
  rw [Finset.sum_range_succ]
  omega

/-- The region in slot `i` is inherited. -/
theorem add (hne : p ≠ np) (hi : i < perProcessVmas) (hs : s.Arranged)
    (hstate : (s.proc np).state ≠ .unused) (hr : (t.proc p).vmas i = some j0)
    (hj : t.freeVma = some j) :
    Placing p np s (i + 1) (t.addVma np i j (t.heir np (t.vmas j0))) := by
  set v := t.vmas j0 with hv
  have hfree := h.layout.unreferenced hj
  have hslot : t.slot p i = some v := slot_eq_some.mpr ⟨j0, hr, rfl⟩
  have hslot0 : s.slot p i = some v := (h.slots p i hne).symm.trans hslot
  have hstate' : (t.proc np).state ≠ .unused := by
    rw [h.state]
    exact hstate
  obtain ⟨hplaced, hstop⟩ := h.heir_placed hs hstate' hslot0
  have hslot' : ∀ q k, (t.addVma np i j (t.heir np v)).slot q k =
      if q = np ∧ k = i then some (t.heir np v) else t.slot q k :=
    fun q k => slot_addVma hfree
  refine ⟨?_, ?_, ?_, ?_, ?_, ?_, ?_, ?_⟩
  · exact h.layout.addVma hstate' hi (h.later i le_rfl) hfree rfl hplaced hstop
  · rw [proc_addVma_of_ne hne, h.parent]
  · intro q k hq
    rw [hslot', if_neg fun hc => hq hc.1, h.slots q k hq]
  · obtain ⟨vm, nm, hchild⟩ := h.child
    refine ⟨update (t.proc np).vmas i (some j), (t.heir np v).addr, ?_⟩
    rw [proc_addVma, hchild]
  · intro q hq
    rw [proc_addVma_of_ne hq, h.others q hq]
  · intro k hk
    have hki : k ≠ i := by omega
    rw [proc_addVma]
    simp only [update_of_ne hki]
    exact h.later k (by omega)
  · have hspan : s.spanAt p i = (t.heir np v).span := by
      simp only [spanAt, hslot0]
      rfl
    have hroom := h.room
    rw [Finset.sum_range_succ, hspan, proc_addVma]
    unfold Vma.stop at hstop
    simp only
    omega
  · intro k x hx
    rw [hslot'] at hx ⊢
    rw [if_neg fun hc => hne hc.1]
    split_ifs at hx with hc
    · cases hx
      rw [hc.2]
      exact ⟨v, hslot, rfl⟩
    · exact h.copies k x hx

theorem of_frame (hproc : t'.proc = t.proc) (hvmas : t'.vmas = t.vmas) : Placing p np s i t' := by
  have hslot : t'.slot = t.slot := by
    funext q k
    simp [slot, hproc, hvmas]
  refine ⟨h.layout.of_unmoved (.of_eq hproc hvmas), ?_, ?_, ?_, ?_, ?_, ?_, ?_⟩ <;>
    try simp only [hproc, hslot]
  · exact h.parent
  · exact h.slots
  · exact h.child
  · exact h.others
  · exact h.later
  · exact h.room
  · exact h.copies

omit h in
theorem step {i : ℕ} (h : Placing p np s i t) (hne : p ≠ np) (hi : i < perProcessVmas)
    (hs : s.Arranged) (hstate : (s.proc np).state ≠ .unused)
    (hx : inheritVma p np i t = .ok u t') : Placing p np s (i + 1) t' := by
  rcases inheritVma_cases hx with ⟨rfl, -⟩ | ⟨j0, j, hr, hj, hloop⟩
  · exact h.skip
  · obtain ⟨hproc, hvmas, -⟩ := sharePages_frame hloop
    exact (h.add hne hi hs hstate hr hj).of_frame hproc hvmas

end Placing

theorem placing_start (hs : s.Layout) (hvmas : ∀ k, (s.proc np).vmas k = none)
    (hnmp : (s.proc np).nmp = Xv6.trapframe) : Placing p np s 0 s := by
  refine ⟨hs, rfl, fun _ _ _ => rfl, ⟨(s.proc np).vmas, (s.proc np).nmp, rfl⟩, fun _ _ => rfl,
    fun k _ => hvmas k, by simp [hnmp], fun k v' hv' => ?_⟩
  simp [slot, hvmas k] at hv'

theorem placing_of_loop (hne : p ≠ np) (hs : s.Layout) (hstate : (s.proc np).state ≠ .unused)
    (hvmas : ∀ k, (s.proc np).vmas k = none) (hnmp : (s.proc np).nmp = Xv6.trapframe)
    (hx : loop (inheritVma p np) 0 perProcessVmas s = .ok u t) :
    Placing p np s perProcessVmas t := by
  have hloop := loop_ok (I := Placing p np s) hx (placing_start hs hvmas hnmp)
    fun i a b _ hi ih hbody => ih.step hne (by omega) hs.toArranged hstate hbody
  rwa [Nat.zero_add] at hloop

end Regions

section Spawn

variable {p np : ℕ} {s s1 s2 s3 : Kernel}

/-- A process without regions may be set up at will. -/
theorem Kernel.Layout.newProc (h : s.Layout) (hvac : ∀ k, (s.proc np).vmas k = none)
    (hother : ∀ q, q ≠ np → s1.proc q = s.proc q) (hvm : s1.vmas = s.vmas)
    (hnp : (s1.proc np).vmas = (s.proc np).vmas)
    (hset : (s1.proc np).state ≠ .unused → (s1.proc np).nmp = Xv6.trapframe) :
    s1.Layout ∧ s1.slot = s.slot := by
  have hvmas : ∀ q, (s1.proc q).vmas = (s.proc q).vmas := by
    intro q
    by_cases hq : q = np
    · rw [hq, hnp]
    · rw [hother q hq]
  have hslot : s1.slot = s.slot := by
    funext q k
    simp [slot, hvmas, hvm]
  have hnone : ∀ k, s.slot np k = none := fun k => by simp [slot, hvac k]
  have hmin : ∀ q, s1.minVma q = s.minVma q := fun q => minVma_congr fun k => by rw [hslot]
  refine ⟨⟨⟨?_, ?_, ?_, ?_, ?_⟩, ?_, ?_⟩, hslot⟩ <;> try simp only [hvmas, hslot, hvm]
  · exact h.slots
  · intro q hq k
    by_cases hqn : q = np
    · rw [hqn]
      exact hvac k
    · rw [hother q hqn] at hq
      exact h.vacant q hq k
  · exact h.distinct
  · exact h.placed
  · exact h.disjoint
  · exact h.used
  · intro q hq
    rw [hmin]
    by_cases hqn : q = np
    · rw [hqn] at hq ⊢
      rw [hset hq]
      rcases s.minVma_mem np with he | ⟨k, v, hv, -⟩
      · exact he.symm
      · simp [hnone k] at hv
    · rw [hother q hqn] at hq ⊢
      exact h.next q hq

theorem Kernel.Layout.discarded (h : s.Layout) (hd : Discarded np s s1) :
    s1.Layout ∧ s1.slot = s.slot := by
  obtain ⟨hblank, -, hn, hblank', hvmas, -⟩ := hd
  exact h.newProc (h.vacant _ hblank.1) hn.aside.others hn.aside.vmas hvmas
    fun hc => absurd hblank'.1 hc

theorem Spawned.layout (hs : Spawned p np s s1) (h : s.Layout) :
    s1.Layout ∧ s1.slot = s.slot := by
  obtain ⟨pa, hproc⟩ := hs.proc
  apply h.newProc (h.vacant np hs.blank.1)
  · intro q hq
    exact hs.nascent.aside.others q hq
  · exact hs.nascent.aside.vmas
  · rw [hproc]
  · intro _
    rw [hproc]

/-- Opening files does not concern regions. -/
theorem Openings.layout (ho : Openings np s1 s2) (h : s1.Layout) :
    s2.Layout ∧ s2.slot = s1.slot ∧ s2.table = s1.table ∧
      ∀ q, ∃ o, s2.proc q = { s1.proc q with ofile := o } := by
  induction ho with
  | refl => exact ⟨h, rfl, rfl, fun q => ⟨(s1.proc q).ofile, rfl⟩⟩
  | @tail a b _ hab ih =>
    obtain ⟨hlay, hslot, htable, hproc⟩ := ih
    cases hab with
    | setFile f file => exact ⟨hlay.of_unmoved (.setFile f file), hslot, htable, hproc⟩
    | setOfile fd o =>
      obtain ⟨hlay', hsame⟩ := hlay.setProc (p := np)
        (f := fun q => { q with ofile := update q.ofile fd o }) Iff.rfl rfl rfl
      refine ⟨hlay', hsame.trans hslot, htable, fun q => ?_⟩
      obtain ⟨o', ho'⟩ := hproc q
      by_cases hq : q = np
      · subst hq
        exact ⟨update o' fd o, by simp [setProc, ho']⟩
      · exact ⟨o', by simp [setProc, hq, ho']⟩

theorem Spawned.ready (hs : Spawned p np s s1) (ho : Openings np s1 s2) (h : s.Layout) :
    s2.Layout ∧ s2.slot = s.slot ∧ (s2.proc np).state = .used ∧
      (∀ k, (s2.proc np).vmas k = none) ∧ (s2.proc np).nmp = Xv6.trapframe := by
  obtain ⟨pa, hnp⟩ := hs.proc
  obtain ⟨hlay1, hslot1⟩ := hs.layout h
  obtain ⟨hlay, hslot, -, hproc⟩ := ho.layout hlay1
  obtain ⟨o, hnp2⟩ := hproc np
  refine ⟨hlay, hslot.trans hslot1, ?_, ?_, ?_⟩
  · simp [hnp2, hnp]
  · intro k
    rw [hnp2, hnp]
    exact h.vacant np hs.blank.1 k
  · simp [hnp2, hnp]

theorem placing_of_spawned (h : s.Layout) (hs : Spawned p np s s1) (ho : Openings np s1 s2)
    (hl : loop (inheritVma p np) 0 perProcessVmas s2 = .ok ⟨⟩ s3) :
    Placing p np s2 perProcessVmas s3 := by
  obtain ⟨hlay, -, hstate, hvmas, hnmp⟩ := hs.ready ho h
  exact placing_of_loop hs.ne hlay (by simp [hstate]) hvmas hnmp hl

/-- `fork` keeps the regions of all processes apart. -/
theorem Kernel.Layout.forked {s' : Kernel} (h : s.Layout) (hf : Forked p s s') : s'.Layout := by
  cases hf with
  | failed => exact h
  | discarded _ hd =>
    exact (h.discarded hd).1
  | @child s1 s2 s3 np hs ho hl =>
    have hi := placing_of_spawned h hs ho hl
    have hused : (s3.proc np).state = .used := by
      rw [hi.state]
      exact (hs.ready ho h).2.2.1
    exact (hi.layout.setProc (by simp [hused]) rfl rfl).1

end Spawn

/-- Each `mmap` that is accepted finds room above `low`. -/
def MapsAbove (low : Kernel → ℕ → ℕ) (s : Kernel) : Event → Prop
  | .mmap p length prot flags fd offset => ∀ a t,
      sysMmap p (i32 length) (i32 prot) (i32 flags) (i32 fd) (i32 offset) s = .ok (some a) t →
      s.Roomy p (low s p) (i32 length)
  | _ => True

theorem MapsAbove.weaken {low : Kernel → ℕ → ℕ} {s : Kernel} {e : Event} (h : MapsAbove low s e) :
    MapsAbove (fun _ _ => 0) s e := by
  cases e with
  | mmap p length prot flags fd offset =>
    intro a t hx
    obtain ⟨h1, h2⟩ := h a t hx
    exact ⟨h1, (Nat.add_le_add_right (Nat.zero_le _) _).trans h2⟩
  | _ => trivial

/-- Whatever processes do keeps regions apart. -/
theorem Kernel.Layout.step {s t : Kernel} {e : Event} (h : s.Layout) (hs : s.Sane)
    (hroom : MapsAbove (fun _ _ => 0) s e) (hstep : Step s e t) : t.Layout := by
  have hrun := hstep.used
  have ho := hstep.outcome hs
  cases e with
  | mmap p length prot flags fd offset =>
    rcases ho with rfl | ⟨⟨a, ha⟩, hm⟩
    · exact h
    · exact h.mapped hrun (hroom a t ha) hm
  | munmap p addr size =>
    obtain ⟨bound, b, hx⟩ := hstep.munmap_ok
    exact h.munmap (hs.special p hrun) (i32_lt size) hx
  | fork p => exact h.forked ho
  | exit p =>
    obtain ⟨-, bound, hx⟩ := hstep.performed
    exact h.exit hrun (hs.special p hrun) hx
  | _ => exact h.of_unmoved (ho.unmoved trivial)

end Xv6.Vm
