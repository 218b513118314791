import Xv6.Vm.Boot

/-!
# Permissions of mapped pages

A page of a region is writable only if the protection of the region allows writing.
This holds in every run in which no process stores to a resident page of a read-only
region, which the copy-on-write code would make writable, and each new region is put
where the process maps nothing, which `sys_mmap` does not check.
-/
namespace Xv6.Vm

open Library Relation Kernel

def Kernel.Guarded (s : Kernel) : Prop :=
  ∀ q i v w pte, s.slot q i = some v → v.Covers w → s.trans q w = some pte →
    pte.perm.u = true → pte.perm.w = true → v.prot ≠ .read

section Backing

variable {s s' : Kernel} {p i va w : ℕ} {v : Vma} {r : Region} {perm : Perm}

theorem Kernel.slot_of_findVma (h : s.findVma p va = some v) :
    ∃ i, s.slot p i = some v ∧ v.Contains va := by
  unfold findVma at h
  obtain ⟨i, hi, hv⟩ := Option.bind_eq_some_iff.mp h
  have hany := List.find?_some hi
  rw [hv] at hany
  exact ⟨i, hv, by simpa using hany⟩

/-- The address of a fault on a page of a region lies in no other region or segment. -/
theorem Kernel.Arranged.backing_of_covers (h : s.Arranged) (ha : s.AboveImage)
    (hp : (s.proc p).state ≠ .unused) (hv : s.slot p i = some v) (hw : v.Covers (va / pgSize))
    (hb : s.backing p va = some (r, perm)) : r = v.toRegion ∧ perm = v.prot.perm := by
  have habove := ha.above p i v hv
  have hva : pgRoundUp (s.proc p).sz ≤ va := by
    have h1 := hw.1
    have h2 := Nat.div_mul_le_self va pgSize
    omega
  have himg := ha.image p hp va
  unfold backing at hb
  simp only at hb
  split_ifs at hb with ht hd
  · exact absurd (himg (Or.inl ht)) (by omega)
  · exact absurd (himg (Or.inr hd)) (by omega)
  · obtain ⟨v', hv', he⟩ := Option.map_eq_some_iff.mp hb
    obtain ⟨i', hs', hin⟩ := slot_of_findVma hv'
    obtain ⟨-, rfl⟩ := h.covers_unique hv hs' hw ((h.placed p i' v' hs').covers hin)
    cases he
    exact ⟨rfl, rfl⟩

end Backing

theorem Prot.perm_writable {prot : Prot} (h : prot.perm.w = true) : prot ≠ .read := by
  rintro rfl
  cases h

theorem forkPerm_writable {prot : Prot} {flags : MapFlags} (h : (forkPerm prot flags).w = true) :
    prot ≠ .read := by
  rintro rfl
  cases h

namespace Kernel.Guarded

variable {L : Prop} {s s' : Kernel} {p : ℕ}

theorem cut_prot {v v' : Vma} {addr : ℕ} {size off : ℤ} {complete : Bool}
    (h : v.cut addr size = some (v', complete, off)) : v'.prot = v.prot := by
  unfold Vma.cut at h
  split_ifs at h <;> cases h <;> rfl

variable (h : s.Guarded)
include h

theorem of_local (hl : Local p s s')
    (hnew : ∀ w pte, s'.trans p w = some pte → pte.perm.u = true → pte.perm.w = true →
      (∃ y, s.trans p w = some y ∧ y.perm.u = true ∧ y.perm.w = true) ∨
        ∀ i v, s.slot p i = some v → v.Covers w → v.prot ≠ .read) : s'.Guarded := by
  intro q i v w pte hv hw ht hu hpw
  rw [hl.slot] at hv
  by_cases hq : q = p
  · subst hq
    rcases hnew w pte ht hu hpw with ⟨y, hy, hyu, hyw⟩ | hok
    · exact h q i v w y hv hw hy hyu hyw
    · exact hok i v hv hw
  · rw [hl.tables q w hq] at ht
    exact h q i v w pte hv hw ht hu hpw

theorem unmapped {va : ℕ} (hu : Unmapped p va s s') : s'.Guarded := by
  refine h.of_local hu.toLocal fun w pte ht hpu hpw => .inl ⟨pte, ?_, hpu, hpw⟩
  rw [hu.trans] at ht
  split_ifs at ht
  exact ht

theorem setPage {pa : ℕ} {bytes : Bytes} : (s.setPage pa bytes).Guarded := h

theorem shrink (htable : s'.table = s.table) (hslot : ∀ q i v', s'.slot q i = some v' →
      ∃ v, s.slot q i = some v ∧ v'.Within v ∧ v'.prot = v.prot) : s'.Guarded := by
  intro q i v' w pte hv' hw ht hu hpw
  obtain ⟨v, hv, hin, hprot⟩ := hslot q i v' hv'
  have ht' : s.trans q w = some pte := by simpa [Kernel.trans, htable] using ht
  rw [hprot]
  exact h q i v w pte hv (hin.covers hw) ht' hu hpw

theorem setProc {f : Proc → Proc}
    (hv : ∀ i j, (f (s.proc p)).vmas i = some j → (s.proc p).vmas i = some j) :
    (s.setProc p f).Guarded := by
  refine h.shrink rfl fun q i v hs => ⟨v, ?_, Vma.Within.refl v, rfl⟩
  obtain ⟨j, hj, rfl⟩ := Kernel.slot_eq_some.mp hs
  refine Kernel.slot_eq_some.mpr ⟨j, ?_, rfl⟩
  by_cases hq : q = p
  · subst hq
    exact hv i j (by simpa [Kernel.setProc] using hj)
  · simpa [Kernel.setProc, hq] using hj

theorem setVma {j : ℕ} {v' : Vma} (hin : v'.Within (s.vmas j))
    (hprot : v'.prot = (s.vmas j).prot) : (s.setVma j v').Guarded := by
  refine h.shrink rfl fun q i v hs => ?_
  obtain ⟨j', hj', rfl⟩ := Kernel.slot_eq_some.mp hs
  refine ⟨s.vmas j', Kernel.slot_eq_some.mpr ⟨j', hj', rfl⟩, ?_⟩
  by_cases hjj : j' = j
  · subst hjj
    simpa [Kernel.setVma] using ⟨hin, hprot⟩
  · simpa [Kernel.setVma, hjj] using Vma.Within.refl (s.vmas j')

/-- The entry of `va`, and no other, becomes writable. -/
theorem of_rewrite {va : ℕ} {y : Pte} (hl : Local p s s')
    (htrans : ∀ t w, s'.trans t w = if t = p ∧ w = va / pgSize then some y else s.trans t w)
    (hok : ∀ i v, s.slot p i = some v → v.Covers (va / pgSize) → v.prot ≠ .read) : s'.Guarded := by
  refine h.of_local hl fun w pte ht hu hpw => ?_
  rw [htrans] at ht
  split_ifs at ht with hc
  · right
    intro i v hv hw
    rw [hc.2] at hw
    exact hok i v hv hw
  · exact .inl ⟨pte, ht, hu, hpw⟩

section

variable (ha : s.Arranged) (hi : s.AboveImage) (hp : (s.proc p).state ≠ .unused)
include ha hi hp

theorem demand (hd : Demand p s s') : s'.Guarded := by
  refine h.of_local hd.steady.toLocal fun w pte ht hu hpw => ?_
  rcases hd.trans_cases ht with hold | ⟨r, va, hb, rfl, -⟩
  · exact .inl ⟨pte, hold, hu, hpw⟩
  · right
    intro i v hv hw
    obtain ⟨-, hperm⟩ := ha.backing_of_covers hi hp hv hw hb
    exact Prot.perm_writable (hperm ▸ hpw)

theorem act (hact : Act L p s s') : s'.Guarded := by
  cases hact with
  | transfer ht =>
    cases ht with
    | demand hd => exact h.demand ha hi hp hd
    | files ino fb => exact h
    | locked l => exact h
  | freed hf => exact h.unmapped hf.unmapped
  | dropped hf => exact h.unmapped hf.unmapped
  | leaked _ hf => exact h.unmapped hf.unmapped
  | setFile f file => exact h
  | setOfile fd o => exact h.setProc fun _ _ hj => hj
  | cut hslot hin hsize hr hcut =>
    exact h.setVma (ha.cut hslot hin hsize hr hcut) (cut_prot hcut)
  | offset j off => exact h.setVma (Vma.Within.of_eq rfl rfl) rfl
  | dropSlot i =>
    refine h.setProc fun k j hj => ?_
    by_cases hk : k = i
    · simp [hk] at hj
    · simpa [hk] using hj
  | nmp => exact h.setProc fun _ _ hj => hj

theorem acts (hacts : Acts L p s s') : s'.Guarded := by
  induction hacts with
  | refl => exact h
  | tail hs hact ih => exact ih.act (ha.acts hs) (hi.acts ha hs) (Acts.state hs hp) hact

theorem copiedOut {src : Bytes} {va k m : ℕ} (hc : CopiedOut p src va k m s s') : s'.Guarded := by
  have hend : s'.Guarded ∧ Unmoved s s' := by
    apply hc.preserve
    · rintro t t' ⟨ht, hu⟩ hd
      exact ⟨ht.demand (ha.of_unmoved hu) (hi.of_unmoved hu) (by rwa [hu.state]) hd,
        hu.andThen hd.steady.toLocal.unmoved⟩
    · exact fun t pa bytes ⟨ht, hu⟩ => ⟨ht.setPage, hu.andThen (.of_eq rfl rfl)⟩
    · exact ⟨h, .of_eq rfl rfl⟩
  exact hend.1

theorem trapped {cause : Cause} {va : ℕ}
    (hro : cause = .store → ∀ i v, s.slot p i = some v → v.Contains va → v.prot = .read →
      s.walkaddr p va = none) (ht : Trapped p cause va s s') : s'.Guarded := by
  have hok : cause = .store → (s.findVma p va).isSome → s.walkaddr p va ≠ none →
      ∀ i v, s.slot p i = some v → v.Covers (va / pgSize) → v.prot ≠ .read := by
    intro hc hf hw i v hv hcov hread
    obtain ⟨v', hv'⟩ := Option.isSome_iff_exists.mp hf
    obtain ⟨i', hs', hin⟩ := slot_of_findVma hv'
    obtain ⟨-, rfl⟩ := ha.covers_unique hv hs' hcov ((ha.placed p i' v' hs').covers hin)
    exact hw (hro hc i' v hs' hin hread)
  cases ht with
  | ignored => exact h
  | demand hd => exact h.demand ha hi hp hd
  | split hc hf hw hs =>
    obtain ⟨new, pte, -, -, htrans⟩ := hs.trans_eq
    exact h.of_rewrite hs.toLocal htrans (hok hc hf hw)
  | granted hc hf hw hg =>
    obtain ⟨pte, -, -, htrans⟩ := hg.trans_eq
    exact h.of_rewrite hg.toLocal htrans (hok hc hf hw)

end

theorem of_slots (hslot : ∀ q i v, s'.slot q i = some v → s.slot q i = some v)
    (htrans : ∀ q w i v pte, s'.slot q i = some v → s'.trans q w = some pte →
      s.trans q w = some pte) : s'.Guarded := by
  intro q i v w pte hv hw ht hu hpw
  exact h q i v w pte (hslot q i v hv) hw (htrans q w i v pte hv ht) hu hpw

theorem nascent {np : ℕ} (hn : Nascent np s s') (hslot : s'.slot = s.slot)
    (hnone : ∀ k, s.slot np k = none) : s'.Guarded := by
  apply h.of_slots
  · intro q i v hv
    rwa [hslot] at hv
  · intro q w i v pte hv ht
    have hq : q ≠ np := by
      rintro rfl
      rw [hslot, hnone] at hv
      cases hv
    rwa [hn.aside.apart q w hq] at ht

/-- The page that is inherited gets the permissions of the region on both sides. -/
theorem pageShared {np i j0 j k : ℕ} (hne : p ≠ np) (hs : s.Settled p np)
    (hi : (s.proc p).vmas i = some j0) (hi' : (s.proc np).vmas i = some j)
    (hk : k < pageCount (s.vmas j0).size)
    (hsh : PageShared p np (u64 ((s.vmas j0).addr + (k * pgSize : ℕ)))
      (u64 ((s.vmas j).addr + (k * pgSize : ℕ))) (forkPerm (s.vmas j0).prot (s.vmas j0).flags)
      ((s.vmas j0).flags = .mapPrivate) s s') : s'.Guarded := by
  obtain ⟨hv, hv', hprot, hcov, hcov'⟩ := hs.pages hi hi' hk
  obtain ⟨hproc, hvmas, -⟩ := hsh.frame
  obtain ⟨pte0, -, htrans⟩ := hsh.trans_eq hne
  intro q l v w pte hvl hw ht hu hpw
  have hvl' : s.slot q l = some v := by simpa [slot, hproc, hvmas] using hvl
  rw [htrans] at ht
  split_ifs at ht with h1 h2
  · obtain ⟨rfl, rfl⟩ := h1
    cases ht
    obtain ⟨-, rfl⟩ := hs.layout.toArranged.covers_unique hvl' hv' hw hcov'
    rw [hprot]
    exact forkPerm_writable hpw
  · obtain ⟨-, rfl, rfl⟩ := h2
    cases ht
    obtain ⟨-, rfl⟩ := hs.layout.toArranged.covers_unique hvl' hv hw hcov
    exact forkPerm_writable hpw
  · exact h q l v w pte hvl' hw ht hu hpw

/-- The region that is inherited takes pages that are not mapped yet. -/
theorem inherited {np i j : ℕ} {v' : Vma} (hs : s.Settled p np)
    (ht : (s.addVma np i j v').Settled p np) (hj : s.freeVma = some j)
    (hgrows : ∀ k v, s.slot np k = some v → (s.addVma np i j v').slot np k = some v) :
    (s.addVma np i j v').Guarded := by
  have hslot : ∀ q k, (s.addVma np i j v').slot q k =
      if q = np ∧ k = i then some v' else s.slot q k :=
    fun q k => slot_addVma (hs.layout.unreferenced hj)
  intro q k v w pte hv hw htr hu hpw
  have hv1 := hv
  rw [hslot] at hv
  split_ifs at hv with hc
  · obtain ⟨rfl, rfl⟩ := hc
    rcases hs.housed w pte htr hu with himg | ⟨l, x, hx, hxw⟩
    · have habove := ht.above.above q k v hv1
      rw [proc_addVma] at habove
      have hstart := hw.1
      simp only at habove
      omega
    · obtain ⟨-, rfl⟩ := ht.layout.toArranged.covers_unique (hgrows l x hx) hv1 hxw hw
      exact h q l x w pte hx hxw htr hu hpw
  · exact h q k v w pte hv hw htr hu hpw

theorem settles {np : ℕ} (hne : p ≠ np) (hs : Settles p np s s') : s'.Guarded := by
  obtain ⟨hin, hbefore, hafter, hgrows⟩ := hs
  cases hin with
  | opening ho =>
    cases ho with
    | setFile f file => exact h
    | setOfile fd o => exact h.setProc fun _ _ hj => hj
  | region hi hj => exact h.inherited hbefore hafter hj hgrows
  | page hi hi' hk hsh => exact h.pageShared hne hbefore hi hi' hk hsh

theorem settling {np : ℕ} (hne : p ≠ np) (hs : Settling p np s s') : s'.Guarded := by
  induction hs with
  | refl => exact h
  | tail _ hstep ih => exact ih.settles hne hstep

theorem forked (hl : s.Layout) (hi : s.AboveImage)
    (hp : (s.proc p).state ≠ .unused) (hf : Forked p s s') : s'.Guarded := by
  cases hf with
  | failed => exact h
  | @discarded _ np _ hd =>
    apply h.nascent hd.2.2.1 (hl.discarded hd).2
    intro k
    simp [slot, hl.vacant np hd.1.1 k]
  | @child s1 s2 s3 np hs ho hloop =>
    obtain ⟨-, hin⟩ := inheriting_of_spawned hl hi hp hs ho hloop
    obtain ⟨hlay1, hslot1⟩ := hs.layout hl
    obtain ⟨-, hslot2, htable, -⟩ := ho.layout hlay1
    have h1 : s1.Guarded := h.nascent hs.nascent hslot1 fun k => by
      simp [slot, hl.vacant np hs.blank.1 k]
    have h2 : s2.Guarded := by
      apply h1.of_slots
      · intro q i v hv
        rwa [hslot2] at hv
      · intro q w i v pte _ ht
        simpa [Kernel.trans, htable] using ht
    exact (h2.settling hs.ne hin.trail).setProc fun _ _ hj => hj

end Kernel.Guarded

/-- The process maps nothing where `mmap` puts a region of the given length. -/
def Kernel.Unmapped (s : Kernel) (p : ℕ) (length : ℤ) : Prop :=
  ∀ w pte, s.trans p w = some pte → pte.perm.u = true →
    (s.proc p).nmp ≤ w * pgSize + pgRoundUp length.toNat → (s.proc p).nmp ≤ w * pgSize

/-- No store to a resident page of a read-only region, and each `mmap` that is accepted
finds room above the image where nothing is mapped. -/
def Permitted (s : Kernel) : Event → Prop
  | .store p va _ => ∀ i v, s.slot p i = some v → v.Contains va → v.prot = .read →
      s.walkaddr p va = none
  | .mmap p length prot flags fd offset =>
      MapsRoomily s (.mmap p length prot flags fd offset) ∧ ∀ a t,
        sysMmap p (i32 length) (i32 prot) (i32 flags) (i32 fd) (i32 offset) s = .ok (some a) t →
        s.Unmapped p (i32 length)
  | _ => True

section Steps

variable {s s₀ t : Kernel} {p : ℕ} {e : Event}

theorem Permitted.roomily (h : Permitted s e) : MapsRoomily s e := by
  cases e with
  | mmap p length prot flags fd offset => exact h.1
  | _ => trivial

theorem Kernel.Guarded.mapped (h : s.Guarded) (hl : s.Layout) {length : ℤ}
    (hp : (s.proc p).state ≠ .unused) (hroom : s.Roomy p 0 length) (hun : s.Unmapped p length)
    (hm : Mapped p length s t) : t.Guarded := by
  obtain ⟨i, j, v, -, -, hj, -, rfl, h0, haddr, rfl⟩ := hm
  have hn := hl.next p hp
  obtain ⟨-, hstop⟩ := Vma.Placed.of_lower (hn ▸ hl.minVma_aligned)
    (hn ▸ minVma_le_trapframe) h0 hroom.1 ((Nat.zero_add _).symm.le.trans hroom.2) haddr
  intro q k x w pte hx hw ht hu hpw
  rw [slot_addVma (hl.unreferenced hj)] at hx
  split_ifs at hx with hc
  · obtain ⟨rfl, rfl⟩ := hc
    cases hx
    obtain ⟨hw1, hw2⟩ := hw
    have hspan : v.span = pgRoundUp v.size.toNat := rfl
    have hle := hun w pte ht hu
    unfold Vma.stop at hstop hw2
    omega
  · exact h q k x w pte hx hw ht hu hpw

theorem Kernel.Guarded.step (h : s.Guarded) (hs : s.Sane) (hl : s.Layout) (hi : s.AboveImage)
    (hok : Permitted s e) (hstep : Step s e t) : t.Guarded := by
  have hrun := hstep.used
  have ho := hstep.outcome hs
  cases e with
  | fetch p va => exact h.trapped hl.toArranged hi hrun (fun hc => by cases hc) ho
  | load p va => exact h.trapped hl.toArranged hi hrun (fun hc => by cases hc) ho
  | store p va b =>
    rcases ho with ⟨pte, -, -, -, -, rfl⟩ | ht
    · exact h.setPage
    · exact h.trapped hl.toArranged hi hrun (fun _ => hok) ht
  | copyout p va src len =>
    obtain ⟨m, -, hc⟩ := ho
    exact h.copiedOut hl.toArranged hi hrun hc
  | write p fd va n =>
    have hw : Writes p s t := ho
    exact h.acts (L := True) hl.toArranged hi hrun hw.acts
  | mmap p length prot flags fd offset =>
    rcases ho with rfl | ⟨⟨a, hx⟩, hm⟩
    · exact h
    · exact h.mapped hl hrun (hok.1.weaken a t hx) (hok.2 a t hx) hm
  | munmap p addr size => exact h.acts hl.toArranged hi hrun ho
  | fork p => exact h.forked hl hi hrun ho
  | exit p =>
    obtain ⟨s1, hacts, rfl⟩ := ho
    exact (h.acts hl.toArranged hi hrun hacts).setProc fun _ _ hj => hj

/-- Well laid out states in which read-only regions have no writable page. -/
structure Kernel.Protected (s : Kernel) : Prop where
  sane : s.Sane
  layout : s.Layout
  above : s.AboveImage
  guarded : s.Guarded

theorem Kernel.Protected.step (h : s.Protected) (hok : Permitted s e) (hstep : Step s e t) :
    t.Protected where
  sane := h.sane.step hstep
  layout := h.layout.step h.sane hok.roomily.weaken hstep
  above := h.above.step h.layout h.sane hok.roomily hstep
  guarded := h.guarded.step h.sane h.layout h.above hok hstep

/-- From a state without regions on, the pages of a region are writable only if its
protection says so. -/
theorem writable_page_prot (hs : s₀.Sane) (hl : s₀.Layout) (hi : s₀.AboveImage)
    (hnone : ∀ q k, s₀.slot q k = none) (hr : Reach Step Permitted s₀ s) (p i va : ℕ) (v : Vma)
    (pte : Pte) (hv : s.slot p i = some v) (hin : v.Contains va)
    (ht : s.trans p (va / pgSize) = some pte) (hu : pte.perm.u = true)
    (hw : pte.perm.w = true) : v.prot = .write ∨ v.prot = .rw := by
  have h0 : s₀.Protected := by
    refine ⟨hs, hl, hi, ?_⟩
    intro q k x w y hx
    simp [hnone q k] at hx
  have h : s.Protected := hr.invariant h0 fun a e b ha hok hstep => ha.step hok hstep
  have hcov := (h.layout.placed p i v hv).covers hin
  have hne := h.guarded p i v _ pte hv hcov ht hu hw
  cases hprot : v.prot with
  | read => exact absurd hprot hne
  | write => exact .inl rfl
  | rw => exact .inr rfl

end Steps

theorem permitted_boot (prot flags : ℤ) : Permitted boot (.mmap 0 4096 prot flags 3 0) := by
  refine ⟨fun a t _ => ?_, fun a t _ w pte ht hu => ?_⟩
  · have hroom : 4096 ≤ (2 : ℤ) ^ 31 - pgSize ∧
        pgRoundUp (boot.proc 0).sz + pgRoundUp 4096 ≤ (boot.proc 0).nmp := by decide +kernel
    exact hroom
  · rw [boot_no_user_page ht] at hu
    cases hu

theorem writable_page_prot_loaded : ∃ v pte, privateLoaded.slot 0 0 = some v ∧
    v.Contains mapBase ∧ privateLoaded.trans 0 (mapBase / pgSize) = some pte ∧
    pte.perm.u = true ∧ pte.perm.w = true ∧ (v.prot = .write ∨ v.prot = .rw) := by
  have h1 : Step boot _ privateMapped := step_next (by decide +kernel)
  have h2 : Step privateMapped (.load 0 mapBase) privateLoaded := step_next (by decide +kernel)
  have hload : Permitted privateMapped (.load 0 mapBase) := trivial
  have hr : Reach Step Permitted boot privateLoaded :=
    (Reach.refl.tail (permitted_boot 3 5) h1).tail hload h2
  have hv : privateLoaded.slot 0 0 =
      some ⟨⟨some 1, mapBase, 4096, 4096, 0⟩, true, 0, 3, .rw, .mapPrivate⟩ := by decide +kernel
  have ht : privateLoaded.trans 0 (mapBase / pgSize) = some ⟨true, ⟨true, true, false, true⟩,
      (privateLoaded.walkaddr 0 mapBase).getD 0⟩ := by decide +kernel
  obtain ⟨hl, hi, hnone⟩ := boot_layout
  refine ⟨_, _, hv, by decide, ht, rfl, rfl, ?_⟩
  exact writable_page_prot boot_start.sane hl hi hnone hr 0 0 mapBase _ _ hv (by decide) ht rfl rfl

/-- The process has mapped one page of the file with `PROT_READ` and touched it. -/
def readLoaded : Kernel := next (next boot (.mmap 0 4096 1 5 3 0)) (.load 0 mapBase)

def readStored : Kernel := next readLoaded (.store 0 mapBase 7)

/-- The store fault makes the page writable. -/
theorem store_fault_exceeds_prot : boot.Start ∧ Reach Step (fun _ _ => True) boot readStored ∧
    ∃ v pte, readStored.slot 0 0 = some v ∧ v.Contains mapBase ∧ v.prot = .read ∧
      readStored.trans 0 (mapBase / pgSize) = some pte ∧ pte.perm.u = true ∧
      pte.perm.w = true := by
  have h1 : Step boot _ (next boot (.mmap 0 4096 1 5 3 0)) := step_next (by decide +kernel)
  have h2 : Step (next boot (.mmap 0 4096 1 5 3 0)) _ readLoaded := step_next (by decide +kernel)
  have h3 : Step readLoaded _ readStored := step_next (by decide +kernel)
  have hr : Reach Step (fun _ _ => True) boot readStored :=
    ((Reach.refl.tail trivial h1).tail trivial h2).tail trivial h3
  have hv : readStored.slot 0 0 =
      some ⟨⟨some 1, mapBase, 4096, 4096, 0⟩, true, 0, 3, .read, .mapPrivate⟩ := by decide +kernel
  have ht : readStored.trans 0 (mapBase / pgSize) = some ⟨true, ⟨true, true, false, true⟩,
      (readStored.walkaddr 0 mapBase).getD 0⟩ := by decide +kernel
  exact ⟨boot_start, hr, _, _, hv, by decide, rfl, ht, rfl, rfl⟩

end Xv6.Vm
