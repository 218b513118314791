import Xv6.Vm.MmapLayout
import Xv6.Vm.Teardown

/-!
# The address space of a child

`fork` lays the regions of the child out anew, in the order of the slots, from the trapframe
downwards. Where the regions of the parent lie in this order and without gaps, and `vmas[]` has
room for all of them, the child has the same regions with the same bytes.
-/
namespace Xv6.Vm

open Library Relation Kernel List Option

/-- The regions of `p` lie in the order of their slots, from the trapframe downwards. -/
def Kernel.InOrder (s : Kernel) (p : ℕ) : Prop :=
  ∀ k v, s.slot p k = some v → v.addr + ∑ i ∈ Finset.range (k + 1), s.spanAt p i = Xv6.trapframe

/-- No page of a region of `p` is free. -/
def Kernel.RegionsKept (s : Kernel) (p : ℕ) : Prop :=
  ∀ k v u pte, s.slot p k = some v → v.Covers u → s.trans p u = some pte → pte.ppn ∉ s.freelist

def Kernel.freeEntries (s : Kernel) : Finset ℕ :=
  {j ∈ Finset.range nVmas | (s.vmas j).used = false}

/-- The slots of `p` from `i` on that have a region. -/
def Kernel.slotsFrom (s : Kernel) (p i : ℕ) : Finset ℕ :=
  {k ∈ Finset.range perProcessVmas | i ≤ k ∧ (s.proc p).vmas k ≠ none}

def Kernel.byteAt (s : Kernel) (q a : ℕ) : Option UInt8 :=
  (s.walkaddr q a).map fun pa => s.mem pa (a % pgSize)

section Entries

variable {s : Kernel} {p i j : ℕ} {v : Vma}

theorem Kernel.freeVma_mem (h : s.freeVma = some j) : j ∈ s.freeEntries := by
  have hlt : j < nVmas := mem_range.mp (mem_of_find?_eq_some h)
  have hfree : (s.vmas j).used = false := by simpa using find?_some h
  exact Finset.mem_filter.mpr ⟨Finset.mem_range.mpr hlt, hfree⟩

theorem Kernel.freeEntries_of_freeVma (h : s.freeVma = none) : s.freeEntries = ∅ := by
  apply Finset.filter_eq_empty_iff.mpr
  intro j hj
  simpa using find?_eq_none.mp h j (mem_range.mpr (Finset.mem_range.mp hj))

theorem Kernel.freeEntries_addVma (hu : v.used = true) :
    (s.addVma p i j v).freeEntries = s.freeEntries.erase j := by
  ext k
  rw [Finset.mem_erase, freeEntries, freeEntries, Finset.mem_filter,
    Finset.mem_filter, vmas_addVma]
  by_cases hk : k = j
  · simp [hk, hu]
  · simp [hk]

theorem Kernel.slotsFrom_succ (h : (s.proc p).vmas i = none) :
    s.slotsFrom p (i + 1) = s.slotsFrom p i := by
  apply Finset.filter_congr
  intro k _
  constructor
  · rintro ⟨hk, hne⟩
    exact ⟨by omega, hne⟩
  · rintro ⟨hk, hne⟩
    refine ⟨Nat.lt_of_le_of_ne hk ?_, hne⟩
    rintro rfl
    exact hne h

theorem Kernel.slotsFrom_erase (hi : i < perProcessVmas) (h : (s.proc p).vmas i ≠ none) :
    i ∈ s.slotsFrom p i ∧ s.slotsFrom p (i + 1) = (s.slotsFrom p i).erase i := by
  refine ⟨Finset.mem_filter.mpr ⟨Finset.mem_range.mpr hi, le_rfl, h⟩, ?_⟩
  ext k
  simp only [slotsFrom, Finset.mem_erase, Finset.mem_filter]
  constructor
  · rintro ⟨hk, hle, hne⟩
    exact ⟨by omega, hk, by omega, hne⟩
  · rintro ⟨hki, hk, hle, hne⟩
    exact ⟨hk, by omega, hne⟩

end Entries

section Slots

variable {p np : ℕ} {s t t' : Kernel} {u : PUnit}

/-- The child's region for that in slot `k`: the same, in the order of the slots. -/
def Kernel.relaid (s : Kernel) (p k : ℕ) : Option Vma :=
  (s.slot p k).map fun v => { v with
    used := true
    addr := Xv6.trapframe - ∑ i ∈ Finset.range (k + 1), s.spanAt p i }

/-- What the loop over the slots has done before slot `i` while there are free entries: the
child has all the parent's regions, packed. -/
structure Packing (p np : ℕ) (s : Kernel) (i : ℕ) (t : Kernel) : Prop
    extends Placing p np s i t where
  packed : (t.proc np).nmp + ∑ k ∈ Finset.range i, s.spanAt p k = Xv6.trapframe
  done : ∀ k < i, t.slot np k = s.relaid p k
  entries : (s.slotsFrom p i).card ≤ t.freeEntries.card

namespace Packing

variable {i j0 j : ℕ}

variable (h : Packing p np s i t)
include h

theorem of_frame (hproc : t'.proc = t.proc) (hvmas : t'.vmas = t.vmas) : Packing p np s i t' := by
  have hslot : t'.slot = t.slot := by
    funext q k
    simp [slot, hproc, hvmas]
  refine ⟨h.toPlacing.of_frame hproc hvmas, ?_, ?_, ?_⟩
  · rw [hproc]
    exact h.packed
  · rw [hslot]
    exact h.done
  · have hsame : t'.freeEntries = t.freeEntries := by simp [freeEntries, hvmas]
    rw [hsame]
    exact h.entries

theorem skip (hnone : (s.proc p).vmas i = none) : Packing p np s (i + 1) t := by
  have hslot : s.slot p i = none := by simp [slot, hnone]
  have hspan : s.spanAt p i = 0 := by simp [spanAt, hslot]
  refine ⟨h.toPlacing.skip, ?_, ?_, ?_⟩
  · rw [Finset.sum_range_succ, hspan, add_zero]
    exact h.packed
  · intro k hk
    by_cases hki : k = i
    · subst hki
      simp [slot, h.later k le_rfl, relaid, hnone]
    · exact h.done k (by omega)
  · rw [slotsFrom_succ hnone]
    exact h.entries

theorem add (hne : p ≠ np) (hi : i < perProcessVmas) (hs : s.Arranged)
    (hstate : (s.proc np).state ≠ .unused) (hr : (t.proc p).vmas i = some j0)
    (hj : t.freeVma = some j) :
    Packing p np s (i + 1) (t.addVma np i j (t.heir np (t.vmas j0))) := by
  have hplace := h.toPlacing.add hne hi hs hstate hr hj
  have hfree := h.layout.unreferenced hj
  have hslot : s.slot p i = some (t.vmas j0) := by
    rw [← h.slots p i hne]
    exact slot_eq_some.mpr ⟨j0, hr, rfl⟩
  have hspan : s.spanAt p i = (t.heir np (t.vmas j0)).span := by
    simp only [spanAt, hslot]
    rfl
  obtain ⟨-, hstop⟩ := h.heir_placed hs (by rw [h.state]; exact hstate) hslot
  have hpacked := h.packed
  unfold Vma.stop at hstop
  refine ⟨hplace, ?_, ?_, ?_⟩
  · rw [Finset.sum_range_succ, hspan, proc_addVma]
    simp only
    omega
  · intro k hk
    rw [slot_addVma hfree]
    by_cases hki : k = i
    · subst hki
      rw [if_pos ⟨rfl, rfl⟩, relaid, hslot]
      have haddr : (t.heir np (t.vmas j0)).addr =
          Xv6.trapframe - ∑ i ∈ Finset.range (k + 1), s.spanAt p i := by
        rw [Finset.sum_range_succ, hspan]
        omega
      rw [map_some, ← haddr]
      rfl
    · rw [if_neg fun hc => hki hc.2]
      exact h.done k (by omega)
  · have hregion : (s.proc p).vmas i ≠ none := by
      rw [← h.parent, hr]
      simp
    obtain ⟨hmem, herase⟩ := slotsFrom_erase hi hregion
    rw [herase, freeEntries_addVma rfl, Finset.card_erase_of_mem hmem,
      Finset.card_erase_of_mem (freeVma_mem hj)]
    have hroom := h.entries
    omega

theorem step (hne : p ≠ np) (hi : i < perProcessVmas) (hs : s.Arranged)
    (hstate : (s.proc np).state ≠ .unused) (hx : inheritVma p np i t = .ok u t') :
    Packing p np s (i + 1) t' := by
  rcases inheritVma_cases hx with ⟨rfl, hskip⟩ | ⟨j0, j, hr, hj, hloop⟩
  · apply h.skip
    rcases hskip with hnone | hfull
    · rw [← h.parent]
      exact hnone
    · by_contra hregion
      have hmem := (slotsFrom_erase hi hregion).1
      have hroom := h.entries
      rw [freeEntries_of_freeVma hfull, Finset.card_empty, Nat.le_zero,
        Finset.card_eq_zero] at hroom
      simp [hroom] at hmem
  · obtain ⟨hproc, hvmas, -⟩ := sharePages_frame hloop
    exact (h.add hne hi hs hstate hr hj).of_frame hproc hvmas

end Packing

theorem packing_of_loop (hne : p ≠ np) (hs : s.Layout) (hstate : (s.proc np).state ≠ .unused)
    (hvmas : ∀ k, (s.proc np).vmas k = none) (hnmp : (s.proc np).nmp = Xv6.trapframe)
    (hroom : (s.slotsFrom p 0).card ≤ s.freeEntries.card)
    (hx : loop (inheritVma p np) 0 perProcessVmas s = .ok u t) :
    Packing p np s perProcessVmas t := by
  have hstart : Packing p np s 0 s :=
    ⟨placing_start hs hvmas hnmp, by simp [hnmp], fun k hk => absurd hk (Nat.not_lt_zero k), hroom⟩
  have hloop := loop_ok (I := Packing p np s) hx hstart
    fun i a b _ hi ih hbody => ih.step hne (by omega) hs.toArranged hstate hbody
  rwa [Nat.zero_add] at hloop

theorem Kernel.InOrder.relaid_eq (h : s.InOrder p) (hs : s.Layout) (k : ℕ) :
    s.relaid p k = s.slot p k := by
  cases hv : s.slot p k with
  | none => simp [relaid, hv]
  | some v =>
    obtain ⟨j, hj, hjv⟩ := slot_eq_some.mp hv
    have hused : v.used = true := hjv ▸ hs.used p k j hj
    have haddr : Xv6.trapframe - ∑ i ∈ Finset.range (k + 1), s.spanAt p i = v.addr := by
      have hsum := h k v hv
      omega
    simp only [relaid, hv, map_some, haddr, ← hused]

end Slots

section Bytes

variable {p np : ℕ} {s s' : Kernel}

/-- What is inherited leaves the pages alone that are in use. -/
theorem Inherits.mem (h : Inherits p np s s') {pa : ℕ} (hpa : pa ∉ s.freelist) :
    s'.mem pa = s.mem pa ∧ pa ∉ s'.freelist := by
  induction h with
  | refl => exact ⟨rfl, hpa⟩
  | tail _ hact ih =>
    obtain ⟨hmem, hfree⟩ := ih
    cases hact with
    | opening ho =>
      cases ho with
      | setFile f file => exact ⟨hmem, hfree⟩
      | setOfile fd o => exact ⟨hmem, hfree⟩
    | region _ _ => exact ⟨hmem, hfree⟩
    | @page _ _ _ _ _ _ _ _ hsh =>
      obtain ⟨s1, s2, pte, hq, -, -, -, -, -, -, -, -, rfl, rfl⟩ := hsh
      have hsame := hq.mem pa hfree
      have hstill : pa ∉ s1.freelist := fun hf => hfree (hq.free pa hf)
      split_ifs <;> exact ⟨hsame.trans hmem, hstill⟩

theorem Inherits.walkaddr_parent (h : Inherits p np s s') (hne : p ≠ np) (a : ℕ) :
    s'.walkaddr p a = s.walkaddr p a := by
  induction h with
  | refl => rfl
  | tail _ hact ih =>
    rw [← ih]
    cases hact with
    | opening ho =>
      cases ho with
      | setFile f file => rfl
      | setOfile fd o => rfl
    | region _ _ => rfl
    | page _ _ _ hsh =>
      rw [hsh.walkaddr hne (forkPerm_user _ _), if_neg fun hc => hne hc.1]

end Bytes

section Fork

variable {s₀ s t : Kernel} {p np : ℕ}

/-- The child `np` has the parent's regions, and what is resident there reads the same. -/
structure Reproduced (s t : Kernel) (p np : ℕ) : Prop where
  slots : ∀ k, t.slot np k = s.slot p k
  bytes : ∀ k v a b, s.slot p k = some v → v.Contains a → s.byteAt p a = some b →
    t.byteAt np a = some b

/-- The process that a `fork` has created. -/
theorem Forked.created (h : Forked p s t) (hlay : s.Layout) (hold : (s.proc np).state = .unused)
    (hnew : (t.proc np).state ≠ .unused) : ∃ s1 s2 s3, Spawned p np s s1 ∧ Openings np s1 s2 ∧
      loop (inheritVma p np) 0 perProcessVmas s2 = .ok ⟨⟩ s3 ∧
      t = s3.setProc np fun q => { q with state := .runnable } := by
  cases h with
  | failed => exact absurd hold hnew
  | @discarded _ np' _ hd =>
    obtain ⟨-, -, hn, hblank, -⟩ := hd
    by_cases hq : np = np'
    · rw [hq] at hnew
      exact absurd hblank.1 hnew
    · rw [hn.aside.others np hq] at hnew
      exact absurd hold hnew
  | @child s1 s2 s3 np' hs ho hl =>
    by_cases hq : np = np'
    · subst hq
      exact ⟨s1, s2, s3, hs, ho, hl, rfl⟩
    · refine absurd ?_ hnew
      have h1 : s1.proc np = s.proc np := hs.nascent.aside.others np hq
      have h3 : s3.proc np = s2.proc np := (placing_of_spawned hlay hs ho hl).others np hq
      obtain ⟨-, -, -, hproc⟩ := ho.layout (hs.layout hlay).1
      obtain ⟨o, h2⟩ := hproc np
      simp [setProc, hq, h3, h2, h1, hold]

theorem Spawned.entries {s1 s2 : Kernel} (hs : Spawned p np s s1) (ho : Openings np s1 s2)
    (hlay : s.Layout) : s2.slotsFrom p 0 = s.slotsFrom p 0 ∧ s2.freeEntries = s.freeEntries := by
  have hvmas : s2.vmas = s1.vmas := by
    induction ho with
    | refl => rfl
    | tail _ hact ih =>
      rw [← ih]
      cases hact with
      | setFile f file => rfl
      | setOfile fd o => rfl
  obtain ⟨-, -, -, hproc⟩ := ho.layout (hs.layout hlay).1
  obtain ⟨o, h2⟩ := hproc p
  have h1 : s1.proc p = s.proc p := hs.nascent.aside.others p hs.ne
  constructor
  · simp [slotsFrom, h2, h1]
  · simp [freeEntries, hvmas, hs.nascent.aside.vmas]

/-- A successful `fork` by a process whose regions are in order. -/
theorem reproduced_of_forked (hlay : s.Layout) (ha : s.AboveImage)
    (hp : (s.proc p).state ≠ .unused) (hord : s.InOrder p) (hkept : s.RegionsKept p)
    (hroom : (s.slotsFrom p 0).card ≤ s.freeEntries.card) (hf : Forked p s t)
    (hold : (s.proc np).state = .unused) (hnew : (t.proc np).state ≠ .unused) :
    Reproduced s t p np := by
  obtain ⟨s1, s2, s3, hsp, ho, hl, rfl⟩ := hf.created hlay hold hnew
  have hne := hsp.ne
  obtain ⟨hlay2, hslot2, hstate, hvmas, hnmp⟩ := hsp.ready ho hlay
  obtain ⟨-, hinh⟩ := inheriting_of_spawned hlay ha hp hsp ho hl
  obtain ⟨hslots, hentries⟩ := hsp.entries ho hlay
  have hpack : Packing p np s2 perProcessVmas s3 := by
    apply packing_of_loop hne hlay2 (by simp [hstate]) hvmas hnmp _ hl
    rw [hslots, hentries]
    exact hroom
  have hspan : ∀ k, s2.spanAt p k = s.spanAt p k := fun k => by simp [spanAt, hslot2]
  have hord2 : s2.InOrder p := by
    intro k v hv
    rw [hslot2] at hv
    simp only [hspan]
    exact hord k v hv
  have hchild : ∀ k, s3.slot np k = s.slot p k := by
    intro k
    by_cases hk : k < perProcessVmas
    · rw [hpack.done k hk, hord2.relaid_eq hlay2, hslot2]
    · have hnone : s.slot p k = none := by
        simp [slot, hlay.slots p k (by omega)]
      rw [hnone, slot, hpack.later k (by omega), map_none]
  constructor
  · intro k
    rw [← hchild k]
    simp [slot, setProc]
  · intro k v a b hv hin hb
    obtain ⟨pa, hw, hbyte⟩ := map_eq_some_iff.mp hb
    have hchain := inherits_of_loop hne ho hl
    have hw1 : s1.walkaddr p a = s.walkaddr p a := by
      simp only [walkaddr, hsp.nascent.aside.apart p _ hne]
    have hw3 : s3.walkaddr p a = some pa := by
      rw [hchain.walkaddr_parent hne, hw1, hw]
    have hused : pa ∉ s.freelist := by
      obtain ⟨-, pte, ht, hu, rfl⟩ := walkaddr_some hw
      exact hkept k v _ pte hv ((hlay.placed p k v hv).covers hin) ht
    have hmem : s3.mem pa = s.mem pa := by
      have hfree1 : pa ∉ s1.freelist := fun hf => hused (hsp.nascent.aside.free pa hf)
      rw [(hchain.mem hfree1).1, hsp.nascent.aside.mem pa hused]
    have hwnp : s3.walkaddr np a = some pa := by
      have hpl := hlay.placed p k v hv
      obtain ⟨m, hm, hpage⟩ := hpl.exists_page (hpl.covers hin)
      have hround : pgRoundDown a = v.addr + m * pgSize := hpage
      have hparent : s3.slot p k = some v := by rw [hinh.slots p k hne, hslot2, hv]
      have hmirror := hinh.mirrors k v v hparent (by rw [hchild k, hv]) m hm
      unfold Kernel.Mirrors at hmirror
      rwa [← hround, walkaddr_pgRoundDown, walkaddr_pgRoundDown, hw3] at hmirror
    have hwt : (s3.setProc np fun q => { q with state := .runnable }).walkaddr np a = some pa :=
      hwnp
    simp only [byteAt, hwt, map_some, ← hbyte]
    rw [← hmem]
    rfl

/-- In every run of this kind, a `fork` by a process whose regions lie in the order of their
slots and have kept their pages, with enough free entries in the table, gives the child the
regions of the parent. -/
theorem fork_reproduces_regions {K : ℕ} {σ₀ σ τ : System} (hK : 0 < K) (h : σ₀.kernel.Ordered K)
    (hr : Reach SysStep Careful σ₀ σ) (hord : σ.kernel.InOrder p) (hkept : σ.kernel.RegionsKept p)
    (hroom : (σ.kernel.slotsFrom p 0).card ≤ σ.kernel.freeEntries.card)
    (hstep : SysStep σ (.event (.fork p)) τ) (hold : (σ.kernel.proc np).state = .unused)
    (hnew : (τ.kernel.proc np).state ≠ .unused) : Reproduced σ.kernel τ.kernel p np := by
  have hinv := h.reach hK hr
  have hp : (σ.kernel.proc p).state ≠ .unused := hstep.used
  have hfork : Step σ.kernel (.fork p) τ.kernel := hstep.outcome hinv.sane
  exact reproduced_of_forked hinv.accounted.layout hinv.above hp hord hkept hroom
    (hfork.outcome hinv.sane) hold hnew

end Fork

section Runs

theorem Kernel.Layout.inOrder {s : Kernel} {p : ℕ} (h : s.Layout)
    (hord : ∀ k < perProcessVmas, ∀ v ∈ s.slot p k,
      v.addr + ∑ i ∈ Finset.range (k + 1), s.spanAt p i = Xv6.trapframe) : s.InOrder p := by
  intro k v hv
  apply hord k _ v hv
  by_contra hk
  simp [slot, h.slots p k (by omega)] at hv

/-- The parent has reaped its child. -/
def slotFreed : System := sysNext childExited (.wait 0 0 fun _ => 0)

def forkedAgain : System := sysNext slotFreed (.event (.fork 0))

/-- The next child takes the place of the one that has been reaped. The private page of the parent
is resident. -/
theorem fork_reproduces_regions_again : (childExited.kernel.proc 1).state = .zombie ∧
    slotFreed.kernel.byteAt 0 (mapBase + 7) = some 7 ∧
    Reproduced slotFreed.kernel forkedAgain.kernel 0 1 := by
  obtain ⟨hwait, hfork, hz, hbyte, hroom, hold, hnew, hpages⟩ :
      sysHappens childExited (.wait 0 0 fun _ => 0) = true ∧
      sysHappens slotFreed (.event (.fork 0)) = true ∧ (childExited.kernel.proc 1).state = .zombie ∧
      slotFreed.kernel.byteAt 0 (mapBase + 7) = some 7 ∧
      (slotFreed.kernel.slotsFrom 0 0).card ≤ slotFreed.kernel.freeEntries.card ∧
      (slotFreed.kernel.proc 1).state = .unused ∧ (forkedAgain.kernel.proc 1).state ≠ .unused ∧
      ∀ k < perProcessVmas, ∀ v ∈ slotFreed.kernel.slot 0 k,
        v.addr + ∑ i ∈ Finset.range (k + 1), slotFreed.kernel.spanAt 0 i = Xv6.trapframe ∧
        v.span = 4096 ∧ v.addr = mapBase ∧ ∀ pte ∈ slotFreed.kernel.trans 0 (mapBase / pgSize),
          pte.ppn ∉ slotFreed.kernel.freelist := by decide +kernel
  have hok : Careful childExited (.wait 0 0 fun _ => 0) :=
    ⟨⟨trivial, trivial⟩, (fun e he => by cases he), trivial⟩
  have hr : Reach SysStep Careful programSystem slotFreed :=
    childExited_reach.tail hok (sysStep_next hwait)
  have hlay := (programSystem_ordered.reach (by decide) hr).accounted.layout
  refine ⟨hz, hbyte, fork_reproduces_regions (by decide) programSystem_ordered hr
    (hlay.inOrder fun k hk v hv => (hpages k hk v hv).1) ?_ hroom (sysStep_next hfork) hold hnew⟩
  intro k v u pte hv hcov ht
  by_cases hk : k < perProcessVmas
  · obtain ⟨-, hspan, haddr, hfree⟩ := hpages k hk v hv
    have hu : u = mapBase / pgSize := by
      have hpg : pgSize = 4096 := rfl
      have hmod : mapBase % 4096 = 0 := by decide
      have hlow := hcov.1
      have hhigh := hcov.2
      rw [Vma.stop, hspan] at hhigh
      rw [haddr, hpg] at *
      omega
    exact hfree pte (hu ▸ ht)
  · simp [slot, hlay.slots 0 k (by omega)] at hv

def holeForked : Kernel := next holeMapped (.fork 0)

/-- The child's region does not lie where the parent has it. -/
theorem fork_moves_region : Reach Step (fun _ _ => True) boot holeForked ∧
    (holeMapped.slot 0 1).map (·.addr) = some (mapBase - 8192) ∧
    (holeForked.slot 1 1).map (·.addr) = some (mapBase - 4096) ∧
    ¬ Reproduced holeMapped holeForked 0 1 := by
  have h1 : Step boot _ privateMapped := step_next (by decide +kernel)
  have h2 : Step privateMapped _ (next privateMapped (.mmap 0 5000 1 5 3 0)) :=
    step_next (by decide +kernel)
  have h3 : Step _ (.munmap 0 mapBase 4096) holeMapped := step_next (by decide +kernel)
  have h4 : Step holeMapped (.fork 0) holeForked := step_next (by decide +kernel)
  have hparent : (holeMapped.slot 0 1).map (·.addr) = some (mapBase - 8192) := by decide +kernel
  have hchild : (holeForked.slot 1 1).map (·.addr) = some (mapBase - 4096) := by decide +kernel
  refine ⟨?_, hparent, hchild, fun h => ?_⟩
  · exact (((Reach.refl.tail trivial h1).tail trivial h2).tail trivial h3).tail trivial h4
  · rw [h.slots 1, hparent] at hchild
    exact absurd hchild (by decide)

end Runs

end Xv6.Vm
