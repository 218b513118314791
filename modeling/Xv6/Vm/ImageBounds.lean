import Xv6.Vm.ExecRoom
import Xv6.Vm.Lifetimes

/-!
# The end of the image over whole runs

`sbrk` and `exec` move the end of the image and look neither at the regions above it nor at
the text and data below it. As long as the new end lies between text and data and the lowest
region, the image and the regions stay apart, whatever else processes do.
-/
namespace Xv6.Vm

open Library Kernel

def ImageBelow (text data : Region) (sz : ℕ) : Prop :=
  ∀ va, text.Contains va ∨ data.Contains va → va < pgRoundUp sz

/-- Each `mmap` that is accepted finds room above the image. A size that `sbrk` asks for and
the size of an image that `exec` makes lie between text and data and the regions. `exec` has the
memory for the image and room for its arguments, or text and data lie in the old image. -/
def KeepsImage (σ : System) : Call → Prop
  | .event e => MapsRoomily σ.kernel e
  | .sbrk p n => ∀ sz : ℕ, (sz : ℤ) = (σ.kernel.proc p).sz + i32 n →
      ImageBelow (σ.kernel.proc p).text (σ.kernel.proc p).data sz ∧
        pgRoundUp sz ≤ (σ.kernel.proc p).nmp
  | .exec p ip argv => ∀ i g, ip = some i → σ.kernel.headers i = some g →
      ImageBelow (g.text i) (g.data i) (g.size + 2 * pgSize) ∧
        g.size + 2 * pgSize ≤ (σ.kernel.proc p).nmp ∧
        (Fits argv ∧ argv.length < maxArg ∧ 9 ≤ σ.kernel.freelist.length ∨
          ImageBelow (g.text i) (g.data i) (σ.kernel.proc p).sz)
  | _ => True

def Orderly (σ : System) (c : Call) : Prop := MapsSome σ c ∧ KeepsImage σ c

section Sizes

variable {p : ℕ} {s s' : Kernel}

theorem Kernel.Layout.le_addr (h : s.Layout) (hp : (s.proc p).state ≠ .unused) {n i : ℕ} {v : Vma}
    (hn : n ≤ (s.proc p).nmp) (hv : s.slot p i = some v) : n ≤ v.addr := by
  rw [h.next p hp] at hn
  exact hn.trans (h.minVma_le hv)

namespace Kernel.AboveImage

/-- The image of one process changed, within its bounds. -/
theorem reimage (h : s.AboveImage) (hother : ∀ q, q ≠ p → s'.proc q = s.proc q)
    (hvmas : s'.vmas = s.vmas)
    (hslots : (s'.proc p).vmas = (s.proc p).vmas)
    (himage : ImageBelow (s'.proc p).text (s'.proc p).data (s'.proc p).sz)
    (habove : ∀ i v, s.slot p i = some v → pgRoundUp (s'.proc p).sz ≤ v.addr) :
    s'.AboveImage := by
  have hslot : ∀ q i, s'.slot q i = s.slot q i := by
    intro q i
    by_cases hq : q = p
    · subst hq
      simp [slot, hvmas, hslots]
    · simp [slot, hvmas, hother q hq]
  constructor
  · intro q hq
    by_cases hqp : q = p
    · subst hqp
      exact himage
    · rw [hother q hqp] at hq ⊢
      exact h.image q hq
  · intro q i v hv
    rw [hslot] at hv
    by_cases hqp : q = p
    · subst hqp
      exact habove i v hv
    · rw [hother q hqp]
      exact h.above q i v hv

theorem reaped {pp : ℕ} (h : s.AboveImage) (ha : s.Accounted) (hz : (s.proc pp).state = .zombie)
    (hr : Reaped pp s s') : s'.AboveImage := by
  have hvac := ha.emptied pp hz
  have hother : ∀ q, q ≠ pp → s'.proc q = s.proc q := fun q hq => by simp [hr.procs, hq]
  have hslot : s'.slot = s.slot := by
    funext q k
    by_cases hq : q = pp
    · simp [slot, hq, hr.procs, hr.vmas]
    · simp [slot, hother q hq, hr.vmas]
  have hnone : ∀ k, s'.slot pp k = none := fun k => by
    rw [hslot]
    simp [slot, hvac k]
  apply h.newProc hnone hother hslot
  intro hc
  simp [hr.procs] at hc

end Kernel.AboveImage

end Sizes

section Runs

variable {σ σ0 τ : System} {c : Call}

theorem Kernel.AboveImage.sbrk {p : ℕ} {n : ℤ} (h : σ.kernel.AboveImage) (hl : σ.kernel.Layout)
    (hs : σ.kernel.Sane) (hok : KeepsImage σ (.sbrk p n)) (hstep : SysStep σ (.sbrk p n) τ) :
    τ.kernel.AboveImage := by
  have hp : (σ.kernel.proc p).state ≠ .unused := hstep.used
  obtain ⟨-, ⟨bound, hx⟩, -⟩ := hstep.called
  simp only [call, bind_ok, pure_ok] at hx
  obtain ⟨b, _, hx, -, rfl⟩ := hx
  obtain ⟨⟨s1, sz, hw, ht, -, -⟩, hsize⟩ :=
    growproc_resized (i32_bounds n) (hs.size p hp) (hs.special p hp) hx
  have hother : ∀ q, q ≠ p → τ.kernel.proc q = σ.kernel.proc q := by
    intro q hq
    simp [ht, Kernel.setProc, hq, hw.proc]
  have hself : τ.kernel.proc p = { σ.kernel.proc p with sz := (τ.kernel.proc p).sz } := by
    simp [ht, Kernel.setProc, hw.proc]
  have hvmas : τ.kernel.vmas = σ.kernel.vmas := by
    rw [ht]
    exact hw.vmas
  rcases hsize with hsame | hnew
  · rw [hsame] at hself
    apply h.of_unmoved (.of_eq _ hvmas)
    funext q
    by_cases hq : q = p
    · rw [hq, hself]
    · exact hother q hq
  · obtain ⟨himage, hnmp⟩ := hok _ hnew
    apply h.reimage hother hvmas
    · rw [hself]
    · rw [hself]
      exact himage
    · exact fun i v hv => hl.le_addr hp hnmp hv

theorem pgRoundUp_of_aligned {n : ℕ} (h : n % pgSize = 0) : pgRoundUp n = n := by
  unfold pgRoundUp pgSize at *
  omega

theorem Kernel.AboveImage.exec {p K : ℕ} {ip : Option ℕ} {argv : List (List UInt8)}
    (h : σ.kernel.AboveImage) (hl : σ.kernel.Layout) (hs : σ.kernel.Sane)
    (ht : σ.kernel.Tidy K []) (hK : 0 < K) (hok : KeepsImage σ (.exec p ip argv))
    (hstep : SysStep σ (.exec p ip argv) τ) :
    τ.kernel.AboveImage := by
  have hp : (σ.kernel.proc p).state ≠ .unused := hstep.used
  have hother : ∀ g i q, q ≠ p →
      (σ.kernel.setSegments p g i).proc q = σ.kernel.proc q := by
    intro g i q hq
    simp [Kernel.setSegments, Kernel.setProc, hq]
  have he : Execed p ip argv σ.kernel τ.kernel := hstep.outcome hs
  cases he with
  | kept hb _ => exact h.of_unmoved (.of_eq hb.proc hb.vmas)
  | failed i g hip hg hb _ hx =>
    obtain ⟨-, -, hfail⟩ := hok i g hip hg
    have hold : ImageBelow (g.text i) (g.data i) (σ.kernel.proc p).sz := by
      rcases hfail with ⟨hfits, hcount, hpages⟩ | hold
      · subst hip
        cases exec_true ht hK (hs.spare_none p) hg hfits hcount hpages hx
      · exact hold
    have hself : τ.kernel.proc p = { σ.kernel.proc p with
        text := g.text i, data := g.data i } := by
      simp [hb.proc, Kernel.setSegments, Kernel.setProc]
    apply h.reimage (fun q hq => (congrFun hb.proc q).trans (hother g i q hq)) hb.vmas
    · rw [hself]
    · rw [hself]
      exact hold
    · intro k v hv
      rw [hself]
      exact h.above p k v hv
  | done i g hip hg hr =>
    obtain ⟨himage, hnmp, -⟩ := hok i g hip hg
    have hself : τ.kernel.proc p = { σ.kernel.proc p with
        text := g.text i, data := g.data i, sz := g.size + 2 * pgSize } := by
      simp [hr.procs, Kernel.setSegments, Kernel.setProc]
    have hal : (g.size + 2 * pgSize) % pgSize = 0 := hr.stacked.aligned
    apply h.reimage (p := p)
    · intro q hq
      simp [hr.procs, hq, hother]
    · exact hr.vmas
    · rw [hself]
    · rw [hself]
      exact himage
    · intro k v hv
      rw [hself]
      simp only
      rw [pgRoundUp_of_aligned hal]
      exact hl.le_addr hp hnmp hv

/-- Every call keeps regions and image apart. -/
theorem Kernel.AboveImage.sysStep {K : ℕ} (h : σ.kernel.AboveImage) (ha : σ.kernel.Accounted)
    (hs : σ.kernel.Sane) (ht : σ.kernel.Tidy K []) (hK : 0 < K) (hok : KeepsImage σ c)
    (hstep : SysStep σ c τ) : τ.kernel.AboveImage := by
  have ho := hstep.outcome hs
  cases c with
  | event e => exact h.step ha.layout hs hok ho
  | wait p addr status =>
    rcases Waited.cases ho with hl | ⟨pp, s1, hz, hl, hr⟩
    · exact h.of_unmoved hl.unmoved
    · exact (h.of_unmoved hl.unmoved).reaped (ha.of_unmoved hl.unmoved) hz hr
  | sbrk p n => exact h.sbrk ha.layout hs hok hstep
  | exec p ip argv => exact h.exec ha.layout hs ht hK hok hstep
  | _ => exact h.of_unmoved (FdActs.unmoved ho)

end Runs

end Xv6.Vm
