import Xv6.Vm.ExecReturns
import Xv6.Vm.ExecFails

/-!
# Files that `exec` survives

Sizes and addresses in the program headers of a file are arbitrary numbers, and `exec` does
not compare them with anything. It returns, and lays out text, data, guard page and stack apart
from each other, just if the numbers happen to describe such an image and no page of a region of
the process is mapped, unless it fails before all this matters.
-/
namespace Xv6.Vm

open Library Function Kernel List Option

/-- The parts of the image that `exec` lays out. -/
inductive Part
  | text
  | data
  | guard
  | stack
  deriving DecidableEq

def Proc.At (q : Proc) (va : ℕ) : Part → Prop
  | .text => q.text.Contains va
  | .data => q.data.Contains va
  | .guard => q.sz - 2 * pgSize ≤ va ∧ va < q.sz - pgSize
  | .stack => q.sz - pgSize ≤ va ∧ va < q.sz

/-- The parts lie apart from each other in the image, which ends below the regions. -/
structure Proc.LaidOut (q : Proc) : Prop where
  apart : ∀ a b va, a ≠ b → q.At va a → ¬ q.At va b
  inside : ∀ a va, q.At va a → va < q.sz
  room : q.sz ≤ q.nmp

/-- Process `p` with the image that the headers of file `i` describe. -/
def Kernel.image (s : Kernel) (p i : ℕ) (g : Segments) : Proc :=
  { s.proc p with text := g.text i, data := g.data i, sz := g.size + 2 * pgSize }

section Returns

variable {p K : ℕ} {path : List UInt8} {ip : Option ℕ} {argv : List (List UInt8)} {w w' : World}
  {s s' : Kernel} {g : Segments} {pool : ℕ → Prop}

/-- What `exec` starts from. Free pages lie in memory. If `exec` gets past the headers, they
describe an image that can be laid out, and the page table of the process can be given up. -/
structure Kernel.Executes (K : ℕ) (s : Kernel) (p : ℕ) (ip : Option ℕ) : Prop where
  pos : 0 < K
  tidy : s.Tidy K []
  none : s.table (spare p) = none
  stock : s.Stocks (· ∈ s.freelist)
  apart : ∀ x pa, s.held p x = some pa → pa ∉ s.freelist
  nmp : (s.proc p).nmp ≤ Xv6.trapframe
  regions : ∀ i v va, s.slot p i = some v → v.Contains va → va < maxVa
  late : ¬ s.FailsEarly ip → Freeable p (s.proc p).sz s ∧
    ∀ i g, ip = some i → s.headers i = some g → (s.image p i g).LaidOut

theorem building_of_new {s0 : Kernel} {l : List ℕ} {t : ℕ} (hl : Lent t pool s0 [] s)
    (hstock : s0.Stocks pool) (hkend : 0 < s0.kend) (hn : s.table t = none) (ht : s'.Tidy K l)
    (hx : procPagetableIn t p s = .ok true s') : Building t pool s0 s' := by
  obtain ⟨-, -, hhollow⟩ := procPagetableIn_spec hn hx
  refine ⟨procPagetableIn_lent hl hn hx, hstock, hkend, ?_, ht.inside t, (hhollow rfl).1⟩
  intro v pte hv
  rw [procPagetableIn_trans hn hx] at hv
  split_ifs at hv
  · cases hv
    simp
  · cases hv
    simp

/-- `exec` has read the ELF header and made a page table. -/
theorem Kernel.Executes.created {i n : ℕ} {r : Bytes × ℕ} {s1 : Kernel} (h : s.Executes K p ip)
    (hread : readKernel i 0 n { s with ilocked := i :: s.ilocked } = .ok r s1)
    (hx : procPagetableIn (spare p) p s1 = .ok true s') :
    Building (spare p) (· ∈ s.freelist) s s' ∧ s'.Hollow (spare p) ∧ Beside p s s' ∧
      s'.Tidy K [i] := by
  have ht : Kernel.Tidy K [i] { s with ilocked := i :: s.ilocked } :=
    { h.tidy with locks := by rw [h.tidy.locks] }
  have ht1 := readKernel_tends.of_ok ht hread
  obtain ⟨ino, fb, rfl, -⟩ := FilesOnly.readKernel _ _ _ hread
  have hl1 : Lent (spare p) (· ∈ s.freelist) s []
      (withFiles { s with ilocked := i :: s.ilocked } ino fb) := by
    apply (Lent.start h.none).congr <;> rfl
  have ht' := procPagetableIn_restores.of_ok ht1 hx
  obtain ⟨hr, -, hhollow⟩ := procPagetableIn_spec (by exact h.none) hx
  have hbeside : Beside p s (withFiles { s with ilocked := i :: s.ilocked } ino fb) :=
    Beside.ilocked.andThen .withFiles
  refine ⟨?_, hhollow rfl, hbeside.andThen (.of_reworked hr), ht'⟩
  exact building_of_new hl1 h.stock (h.tidy.kend ▸ h.pos) (by exact h.none) ht' hx

theorem Building.withFiles {s0 : Kernel} {t fb : ℕ} {ino : ℕ → Inode}
    (h : Building t pool s0 s) : Building t pool s0 (s.withFiles ino fb) :=
  ⟨h.lent.congr rfl rfl rfl rfl rfl, h.stocks, h.kend, h.leaves, h.reachable, h.special⟩

/-- The headers of file `i` have been accepted. -/
theorem Kernel.Executes.ready {i : ℕ} {s1 : Kernel} (h : s.Executes K p (some i))
    (hrun : HeadRun p i g { s with ilocked := i :: s.ilocked } s')
    (hun : iunlock i (s'.setSegments p g i) = .ok ⟨⟩ s1) :
    Ready p g (· ∈ s.freelist) s s1 ∧ s1.RegionsLow p := by
  obtain ⟨hold, hlaid⟩ := h.late (hrun.not_failsEarly h.none)
  have hg := hlaid i g rfl (headers_of_run h.none hrun)
  obtain ⟨bytes, n, s2, s3, hread, -, hpt, hload⟩ := hrun.run
  obtain ⟨hb3, hh, hs3, -⟩ := h.created hread hpt
  obtain ⟨ino, fb, rfl, -⟩ := FilesOnly.loadSegments _ _ _ hload
  have hb : Building (spare p) (· ∈ s.freelist) s (s3.withFiles ino fb) := hb3.withFiles
  have hs : Beside p s (s3.withFiles ino fb) := hs3.andThen .withFiles
  have hmax := trapframe_le
  have hroom : g.size + 2 * pgSize ≤ Xv6.trapframe := hg.room.trans h.nmp
  obtain rfl := modify_ok.mp hun
  have hheld : ∀ x, (s3.withFiles ino fb).held p x = s.held p x := fun x => by
    simp [held, hs.table p (spare_ne p).symm]
  refine ⟨⟨⟨hb.lent.congr rfl rfl rfl rfl rfl, hb.stocks, hb.kend, hb.leaves, hb.reachable,
    hb.special⟩, hh, hroom, ?_, ?_⟩, ⟨?_, ?_⟩⟩
  · have hsz : (((s3.withFiles ino fb).setSegments p g i).proc p).sz = (s.proc p).sz := by
      simp [setSegments, setProc, hs.proc]
    show Freeable p (((s3.withFiles ino fb).setSegments p g i).proc p).sz _
    rw [hsz]
    exact hold.move (hs.table p (spare_ne p).symm)
      (fun x pa hx => hb.lent.ref pa (h.apart x pa hx)) hb.lent.kend
  · intro x pa hx
    apply h.apart x pa
    rw [← hheld]
    exact hx
  · intro va hva
    simp only [setSegments, setProc, update_self] at hva
    have hlt : va < g.size + 2 * pgSize := hva.elim (hg.inside .text va) (hg.inside .data va)
    omega
  · intro k v va hk hva
    apply h.regions k v va _ hva
    simpa [setSegments, setProc, slot, hs.proc, hs.vmas] using hk

end Returns

section Survival

variable {p K : ℕ} {path : List UInt8} {ip : Option ℕ} {argv : List (List UInt8)} {w w' : World}
  {s s' : Kernel} {g : Segments} {q : Proc}

/-- Pages that the page table of process `p` holds are its own and lie in memory, as free
pages do. -/
structure Kernel.Sole (s : Kernel) (p : ℕ) : Prop where
  stock : s.Stocks (· ∈ s.freelist)
  held : ∀ x pa, s.held p x = some pa → s.InRange pa ∧ s.ref pa = 1 ∧ pa ∉ s.freelist
  leaves : s.Leaves p

theorem Kernel.Sole.setInode {i : ℕ} {inode : Inode} (h : s.Sole p) :
    (s.setInode i inode).Sole p :=
  ⟨h.stock, h.held, h.leaves⟩

theorem Vma.Placed.contains_lt {v : Vma} {va : ℕ} (h : v.Placed) (hva : v.Contains va) :
    va < maxVa := by
  have hmax := trapframe_le
  have hspan := h.size_le_span
  have hbelow := h.below
  have hnonneg := h.nonneg
  have hlt := hva.2
  unfold u64 at hlt
  unfold Vma.stop at hbelow
  omega

theorem Kernel.Ordered.executes (hK : 0 < K) (h : s.Ordered K) (hp : (s.proc p).state ≠ .unused)
    (hsole : s.Sole p) (hlate : ¬ s.FailsEarly ip →
      (∀ i g, ip = some i → s.headers i = some g → (s.image p i g).LaidOut) ∧
        ∀ i v u pte, s.slot p i = some v → v.Covers u → s.trans p u ≠ some pte) :
    s.Executes K p ip where
  pos := hK
  tidy := h.tidy
  none := h.sane.spare_none p
  stock := hsole.stock
  apart x pa hx := (hsole.held x pa hx).2.2
  nmp := by
    rw [h.accounted.layout.next p hp]
    exact minVma_le_trapframe
  regions i v va hv hva := (h.accounted.layout.placed p i v hv).contains_lt hva
  late hno := ⟨⟨(h.sane.special p hp).has,
    fun x pa hx => ⟨(hsole.held x pa hx).1, (hsole.held x pa hx).2.1⟩, hsole.leaves,
    h.tidy.inside p, h.sane.bounded.shallow p, h.sane.size p hp, h.covered.confined (hlate hno).2⟩,
    (hlate hno).1⟩

theorem boot_table : boot.table 0 = some (((((⟨0x87001, fun _ => none, fun _ => none,
    fun _ => .zero⟩ : PageTable).withDir 255 0x87002).withTab 131071 0x87003).withLeaf (trapVpn + 1)
      ⟨true, ⟨true, false, true, false⟩, 0x80007⟩).withLeaf trapVpn
      ⟨true, ⟨true, true, false, false⟩, 0x87000⟩) := by
  with_unfolding_all rfl

theorem boot_trans (v : ℕ) : boot.trans 0 v =
    if v = trapVpn then some ⟨true, ⟨true, true, false, false⟩, 0x87000⟩
    else if v = trapVpn + 1 then some ⟨true, ⟨true, false, true, false⟩, 0x80007⟩ else none := by
  simp only [Kernel.trans, boot_table, bind_some]
  by_cases h1 : v = trapVpn
  · rw [if_pos h1, h1]
    rfl
  by_cases h2 : v = trapVpn + 1
  · rw [if_neg h1, if_pos h2, h2]
    rfl
  · simp [PageTable.trans, PageTable.lookup, PageTable.withLeaf, PageTable.withTab,
      PageTable.withDir, update_apply, h1, h2, Pte.zero]

theorem boot_sole : boot.Sole 0 := by
  have hpages : ∀ pa ∈ [0x87001, 0x87002, 0x87003],
      boot.InRange pa ∧ boot.ref pa = 1 ∧ pa ∉ boot.freelist := by decide +kernel
  have hstock : ∀ pa ∈ boot.freelist, boot.InRange pa := by decide +kernel
  refine ⟨hstock, fun x pa hx => ?_, ?_⟩
  · apply hpages
    cases x with
    | root =>
      simp only [held, boot_table, bind_some, PageTable.holds, PageTable.withLeaf,
        PageTable.withTab, PageTable.withDir] at hx
      cases hx
      simp
    | dir i =>
      simp only [held, boot_table, bind_some, PageTable.holds, PageTable.withLeaf,
        PageTable.withTab, PageTable.withDir, update_apply] at hx
      split_ifs at hx
      cases hx
      simp
    | tab i =>
      simp only [held, boot_table, bind_some, PageTable.holds, PageTable.withLeaf,
        PageTable.withTab, PageTable.withDir, update_apply] at hx
      split_ifs at hx <;> cases hx
      all_goals simp
    | leaf v =>
      have hnone : v < trapVpn → boot.trans 0 v = none := by
        intro hv
        rw [boot_trans, if_neg (by omega), if_neg (by omega)]
      simp only [held, boot_table, bind_some, PageTable.holds] at hx
      split_ifs at hx with hv
      rw [Kernel.trans, boot_table, bind_some] at hnone
      simp [hnone hv] at hx
  · intro v pte hv
    rw [boot_trans] at hv
    split_ifs at hv
    · cases hv
      simp
    · cases hv
      simp

theorem programWorld_laidOut (i : ℕ) (g : Segments) (hi : some 2 = some i)
    (hg : programWorld.kernel.headers i = some g) : (programWorld.kernel.image 0 i g).LaidOut := by
  have hheaders : programWorld.kernel.headers 2 = some ⟨4096, 4096, 0, 0, 0, 0, -1⟩ := by
    decide +kernel
  have hnmp : (programWorld.kernel.proc 0).nmp = Xv6.trapframe := by decide +kernel
  cases hi
  rw [hheaders] at hg
  cases hg
  have hat : ∀ va part, (programWorld.kernel.image 0 2 ⟨4096, 4096, 0, 0, 0, 0, -1⟩).At va part →
      (part = .text ∧ va < 4096) ∨ (part = .guard ∧ 4096 ≤ va ∧ va < 8192) ∨
        (part = .stack ∧ 8192 ≤ va ∧ va < 12288) := by
    intro va part h
    cases part with
    | text => exact .inl ⟨rfl, h.2⟩
    | data => exact absurd (h.1.trans_lt h.2) (by decide +kernel)
    | guard => exact .inr (.inl ⟨rfl, h⟩)
    | stack => exact .inr (.inr ⟨rfl, h⟩)
  refine ⟨fun a b va hne ha hb => ?_, fun a va ha => ?_, ?_⟩
  · have h1 := hat va a ha
    have h2 := hat va b hb
    rcases h1 with ⟨rfl, h1⟩ | ⟨rfl, h1⟩ | ⟨rfl, h1⟩ <;>
      rcases h2 with ⟨rfl, h2⟩ | ⟨rfl, h2⟩ | ⟨rfl, h2⟩ <;> first | omega | exact hne rfl
  · have h1 := hat va a ha
    change va < 12288
    omega
  · change 12288 ≤ (programWorld.kernel.proc 0).nmp
    rw [hnmp]
    decide

theorem programWorld_bare (i : ℕ) (v : Vma) (u : ℕ) (pte : Pte)
    (hv : programWorld.kernel.slot 0 i = some v) (_ : v.Covers u) :
    programWorld.kernel.trans 0 u ≠ some pte := by
  have hnone : programWorld.kernel.slot 0 i = none := boot_layout.2.2 0 i
  simp [hnone] at hv

end Survival

end Xv6.Vm
