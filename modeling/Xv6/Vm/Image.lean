import Xv6.Vm.Layout

/-!
# The program image and the regions

The text and data of a process lie below its size, its regions above. Regions that
`mmap` places where there is room stay there, since unmapping only shrinks them.
-/
namespace Xv6.Vm

open Library Relation

/-- Text and data lie below the size of the process, the regions above. -/
structure Kernel.AboveImage (s : Kernel) : Prop where
  image : ∀ q, (s.proc q).state ≠ .unused → ∀ va,
    (s.proc q).text.Contains va ∨ (s.proc q).data.Contains va → va < pgRoundUp (s.proc q).sz
  above : ∀ q i v, s.slot q i = some v → pgRoundUp (s.proc q).sz ≤ v.addr

namespace Kernel.AboveImage

variable {L : Prop} {s s' : Kernel} {p : ℕ}

variable (h : s.AboveImage)
include h

theorem shrink (hproc : ∀ q, ((s'.proc q).state = .unused ↔ (s.proc q).state = .unused) ∧
      (s'.proc q).text = (s.proc q).text ∧ (s'.proc q).data = (s.proc q).data ∧
      (s'.proc q).sz = (s.proc q).sz)
    (hslot : ∀ q i v', s'.slot q i = some v' → ∃ v, s.slot q i = some v ∧ v'.Within v) :
    s'.AboveImage := by
  constructor
  · intro q hq va hva
    obtain ⟨h1, h2, h3, h4⟩ := hproc q
    rw [h2, h3] at hva
    rw [h4]
    exact h.image q (fun hc => hq (h1.mpr hc)) va hva
  · intro q i v' hv'
    obtain ⟨v, hv, hw⟩ := hslot q i v' hv'
    rw [(hproc q).2.2.2]
    exact (h.above q i v hv).trans hw.start

theorem of_unmoved (hu : Unmoved s s') : s'.AboveImage := by
  apply h.shrink
  · intro q
    obtain ⟨b, o, hb⟩ := hu.procs q
    simp [hb]
  · intro q i v hv
    rw [hu.slot] at hv
    exact ⟨v, hv, Vma.Within.refl v⟩

/-- Fields of a process that concern neither its image nor its regions. -/
theorem setProc {f : Proc → Proc} (hs : (f (s.proc p)).state = .unused ↔ (s.proc p).state = .unused)
    (ht : (f (s.proc p)).text = (s.proc p).text) (hd : (f (s.proc p)).data = (s.proc p).data)
    (hz : (f (s.proc p)).sz = (s.proc p).sz)
    (hv : ∀ i j, (f (s.proc p)).vmas i = some j → (s.proc p).vmas i = some j) :
    (s.setProc p f).AboveImage := by
  apply h.shrink
  · intro q
    by_cases hq : q = p
    · subst hq
      simp [Kernel.setProc, hs, ht, hd, hz]
    · simp [Kernel.setProc, hq]
  · intro q i v hs
    obtain ⟨j, hj, rfl⟩ := Kernel.slot_eq_some.mp hs
    refine ⟨s.vmas j, Kernel.slot_eq_some.mpr ⟨j, ?_, rfl⟩, Vma.Within.refl _⟩
    by_cases hq : q = p
    · subst hq
      exact hv i j (by simpa [Kernel.setProc] using hj)
    · simpa [Kernel.setProc, hq] using hj

theorem setVma {j : ℕ} {v' : Vma} (hv' : v'.Within (s.vmas j)) : (s.setVma j v').AboveImage := by
  apply h.shrink
  · intro q
    simp [Kernel.setVma]
  · intro q i v hs
    obtain ⟨j', hj', rfl⟩ := Kernel.slot_eq_some.mp hs
    refine ⟨s.vmas j', Kernel.slot_eq_some.mpr ⟨j', hj', rfl⟩, ?_⟩
    by_cases hjj : j' = j
    · subst hjj
      simpa [Kernel.setVma] using hv'
    · simpa [Kernel.setVma, hjj] using Vma.Within.refl (s.vmas j')

theorem act (ha : s.Arranged) (hact : Act L p s s') : s'.AboveImage := by
  cases hact with
  | transfer hd => exact h.of_unmoved hd.steady.toLocal.unmoved
  | freed hf => exact h.of_unmoved hf.unmapped.toLocal.unmoved
  | dropped hf => exact h.of_unmoved hf.unmapped.toLocal.unmoved
  | leaked _ hf => exact h.of_unmoved hf.unmapped.toLocal.unmoved
  | setFile f file => exact h.of_unmoved (.setFile f file)
  | setOfile fd o => exact h.of_unmoved (.setOfile fd o)
  | cut hslot hin hsize hr hcut => exact h.setVma (ha.cut hslot hin hsize hr hcut)
  | offset j off => exact h.setVma (Vma.Within.of_eq rfl rfl)
  | dropSlot i =>
    apply h.setProc Iff.rfl rfl rfl rfl
    intro k j hj
    by_cases hk : k = i
    · simp [hk] at hj
    · simpa [hk] using hj
  | nmp => exact h.setProc Iff.rfl rfl rfl rfl fun _ _ hj => hj

theorem acts (ha : s.Arranged) (hacts : Acts L p s s') : s'.AboveImage := by
  induction hacts with
  | refl => exact h
  | tail hs hact ih => exact ih.act (ha.acts hs) hact

/-- A new region above the image, in an entry that no slot refers to. -/
theorem addVma {i j : ℕ} {v : Vma} (hj : ∀ q k, (s.proc q).vmas k ≠ some j)
    (hv : pgRoundUp (s.proc p).sz ≤ v.addr) : (s.addVma p i j v).AboveImage := by
  have hproc : ∀ q, ((s.addVma p i j v).proc q).state = (s.proc q).state ∧
      ((s.addVma p i j v).proc q).text = (s.proc q).text ∧
      ((s.addVma p i j v).proc q).data = (s.proc q).data ∧
      ((s.addVma p i j v).proc q).sz = (s.proc q).sz := by
    intro q
    by_cases hq : q = p
    · subst hq
      simp [Kernel.proc_addVma]
    · simp [Kernel.proc_addVma_of_ne hq]
  constructor
  · intro q hq va hva
    obtain ⟨h1, h2, h3, h4⟩ := hproc q
    rw [h1] at hq
    rw [h2, h3] at hva
    rw [h4]
    exact h.image q hq va hva
  · intro q k w hw
    rw [(hproc q).2.2.2]
    rw [Kernel.slot_addVma hj] at hw
    split_ifs at hw with hc
    · cases hw
      rw [hc.1]
      exact hv
    · exact h.above q k w hw

theorem mapped (hl : s.Layout) {length : ℤ} (hp : (s.proc p).state ≠ .unused)
    (hroom : s.Roomy p (pgRoundUp (s.proc p).sz) length) (hm : Mapped p length s s') :
    s'.AboveImage := by
  obtain ⟨i, j, v, -, -, hj, -, rfl, h0, haddr, rfl⟩ := hm
  apply h.addVma (hl.unreferenced hj)
  obtain ⟨hsmall, hfit⟩ := hroom
  have hn := hl.next p hp
  have hle : pgRoundUp v.size.toNat ≤ (s.proc p).nmp := by omega
  rw [haddr, lowerNmp_eq h0 hsmall hle (hn ▸ Kernel.minVma_le_trapframe)]
  omega

end Kernel.AboveImage

end Xv6.Vm
