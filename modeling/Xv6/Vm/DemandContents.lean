import Xv6.Vm.ExecLoads
import Xv6.Vm.Lifetimes

/-!
# The contents of pages faulted in

Regions start on page boundaries. So the page that a fault brings in holds the bytes of the file
that the region prescribes for it, and cutting a region does not move what remains of it in the
file.
-/
namespace Xv6.Vm

open Library Relation Function Kernel

/-- What the region says about the byte at `va`, when its file is `i`. -/
def Region.byte (r : Region) (i : Inode) (va : ℕ) : UInt8 :=
  let k := va - r.addr
  if k < r.filesize ∧ r.offset + k < i.size then i.data (r.offset + k).toNat else 0

/-- The bounds that keep the arithmetic of the fault handler from wrapping around. -/
structure Region.Small (r : Region) : Prop where
  size : 0 ≤ r.size ∧ r.size < 2 ^ 31 - pgSize
  filesize : 0 ≤ r.filesize ∧ r.filesize < 2 ^ 31 - pgSize
  offset : 0 ≤ r.offset ∧ r.offset < 2 ^ 31 - pgSize

def Kernel.RegionOf (s : Kernel) (p : ℕ) (r : Region) : Prop :=
  r = (s.proc p).text ∨ r = (s.proc p).data ∨ ∃ i v, s.slot p i = some v ∧ v.toRegion = r

/-- All regions start on page boundaries, also the next one. -/
structure Kernel.PageAligned (s : Kernel) : Prop where
  nmp : ∀ q, (s.proc q).state ≠ .unused → (s.proc q).nmp % pgSize = 0
  text : ∀ q, (s.proc q).state ≠ .unused → (s.proc q).text.addr % pgSize = 0
  data : ∀ q, (s.proc q).state ≠ .unused → (s.proc q).data.addr % pgSize = 0
  vmas : ∀ j, (s.vmas j).addr % pgSize = 0

section Content

variable {f : Inode} {r : Region} {va va' : ℕ}

theorem Region.content_congr (hal : r.addr % pgSize = 0) (h : r.addr ≤ va) (h' : r.addr ≤ va')
    (hva : va < maxVa) (hpage : va' / pgSize = va / pgSize) :
    r.content f va' = r.content f va := by
  have hdown : pgRoundDown va' = pgRoundDown va := by rw [pgRoundDown, hpage, pgRoundDown]
  have hoff : pgRoundDown (u64 ((va' : ℤ) - r.addr)) = pgRoundDown (u64 ((va : ℤ) - r.addr)) := by
    unfold pgRoundDown u64
    unfold pgSize maxVa at *
    omega
  unfold Region.content Region.readSize Region.readOff
  rw [hdown, hoff]

/-- What a page holds at an address of the region. -/
theorem Region.content_eq_byte (hal : r.addr % pgSize = 0) (hsmall : r.Small)
    (hin : r.Contains va) (hin' : r.Contains va') (hva : va < maxVa)
    (hpage : va' / pgSize = va / pgSize) :
    r.content f va (va' % pgSize) = r.byte f va' := by
  obtain ⟨⟨hs0, hs1⟩, ⟨hf0, hf1⟩, ho0, ho1⟩ := hsmall
  obtain ⟨k, rfl⟩ := Nat.exists_eq_add_of_le hin'.1
  obtain ⟨fz, hfz⟩ := Int.eq_ofNat_of_zero_le hf0
  obtain ⟨off, hoff⟩ := Int.eq_ofNat_of_zero_le ho0
  have hva' : r.addr + k < maxVa := by
    unfold pgSize maxVa at *
    omega
  have hk : k < 2 ^ 31 - pgSize := by
    have hend := hin'.2
    unfold u64 at hend
    unfold pgSize maxVa at *
    omega
  have hdown : pgRoundDown k ≤ k := Nat.div_mul_le_self _ _
  have hsum : r.addr < 2 ^ 38 ∧ k < 2 ^ 31 ∧ fz < 2 ^ 31 := by
    unfold pgSize maxVa at *
    omega
  have hlimit : off + pgRoundDown k + pgSize < 2 ^ 32 := by
    unfold pgSize at *
    omega
  rw [← Region.content_congr hal hin.1 hin'.1 hva hpage,
    Region.content_at rfl hal hfz hoff hsum hlimit]
  have hidx : (r.offset + (k : ℤ)).toNat = off + k := by omega
  have hiff : ((k : ℤ) < r.filesize ∧ r.offset + (k : ℤ) < f.size) ↔ k < fz ∧ off + k < f.size := by
    omega
  simp only [Region.byte, Nat.add_sub_cancel_left, hiff, hidx]

end Content

section Faults

variable {s s' : Kernel} {p va ip : ℕ} {r : Region} {perm : Perm} {u : PUnit}

/-- A page that is faulted in holds what the region prescribes; otherwise nothing is mapped
and the process is killed. -/
theorem allocPhysicalVMA_content (hsp : s.Special p) (hal : r.addr % pgSize = 0)
    (hsmall : r.Small) (hin : r.Contains va) (hn : s.trans p (va / pgSize) = none)
    (hnd : s.freelist.Nodup) (hip : r.ip = some ip) (hF : (s.inode ip).Full)
    (hx : allocPhysicalVMA r p va perm s = .ok u s') :
    (s'.trans p (va / pgSize) = none ∧ (s'.proc p).killed = true) ∨
      ∃ pa, s'.trans p (va / pgSize) = some ⟨true, perm, pa⟩ ∧
        ∀ va', va' / pgSize = va / pgSize → r.Contains va' →
          s'.mem pa (va' % pgSize) = r.byte (s.inode ip) va' := by
  rcases (allocPhysicalVMA_ok hsp hx).2 with hfault | hkilled
  · obtain ⟨s1, pa, -, -, hva, -, hl, -, hcontent, rfl⟩ := hfault
    refine .inr ⟨pa, ?_, fun va' hpage hin' => ?_⟩
    · rw [trans_mark, trans_withPte hl]
      simp
    · have hmem := hcontent hnd ip hip hF
      exact (congrFun hmem _).trans (Region.content_eq_byte hal hsmall hin hin' hva hpage)
  · obtain ⟨s1, hq, -, rfl⟩ := hkilled
    refine .inl ⟨?_, by simp [setProc]⟩
    exact (hq.trans p _).trans hn

end Faults

section Cuts

variable {v v' : Vma} {addr va : ℕ} {size off : ℤ} {complete : Bool}

/-- What remains of a region is where it was, in memory and in the file. -/
theorem Vma.cut_backing (hfits : v.Fits) (hin : v.Contains addr) (hsize : 0 ≤ size)
    (hcut : v.cut addr size = some (v', complete, off)) (hoff : 0 ≤ v.offset ∧ v.offset < 2 ^ 31)
    (hoff' : 0 ≤ off) (hva : v'.Contains va) :
    v'.ip = v.ip ∧ v.Contains va ∧ off + ((va : ℤ) - v'.addr) = v.offset + ((va : ℤ) - v.addr) := by
  have hend := hfits.end_eq hin
  obtain ⟨hf1, hf2, hf3⟩ := hfits
  obtain ⟨hlo, hhi⟩ := hin
  unfold Vma.cut at hcut
  split_ifs at hcut with hall hfront htail
  · cases hcut
    exact ⟨rfl, hva, rfl⟩
  · cases hcut
    have haddr : (u64 ((v.addr : ℤ) + size) : ℤ) = v.addr + size := by
      unfold u64 at *
      omega
    have hmoved : i32 (v.offset + size) = v.offset + size := by
      unfold i32 at *
      omega
    obtain ⟨h1, h2⟩ := hva
    simp only [haddr] at h1 h2
    rw [show (v.addr : ℤ) + size + (v.size - size) = v.addr + v.size by ring] at h2
    refine ⟨rfl, ⟨by omega, h2⟩, ?_⟩
    simp only [haddr, hmoved]
    ring
  · cases hcut
    obtain ⟨hgt, heq⟩ := htail
    obtain ⟨h1, h2⟩ := hva
    refine ⟨rfl, ⟨h1, ?_⟩, rfl⟩
    have hle : (u64 ((v.addr : ℤ) + (v.size - size)) : ℤ) ≤ v.addr + v.size := by
      rw [← Int.ofNat_inj, hend] at heq
      unfold u64 at *
      omega
    simp only at h2
    omega

end Cuts

section Aligned

theorem lowerNmp_mod {nmp : ℕ} {size : ℤ} (h : nmp % pgSize = 0) :
    lowerNmp nmp size % pgSize = 0 := by
  unfold lowerNmp pgRoundUpInt u64
  unfold pgSize at *
  omega

theorem Vma.cut_mod {v v' : Vma} {addr : ℕ} {size off : ℤ} {complete : Bool}
    (h : v.addr % pgSize = 0) (hsize : size % pgSize = 0)
    (hcut : v.cut addr size = some (v', complete, off)) : v'.addr % pgSize = 0 := by
  unfold Vma.cut at hcut
  split_ifs at hcut <;> cases hcut
  · exact h
  · simp only [u64]
    unfold pgSize at *
    omega
  · exact h

theorem Segments.add_mod {g : Segments} {ph : ProgHdr} (hg : g.textinit % pgSize = 0)
    (hph : ph.Loadable) : (g.add ph).textinit % pgSize = 0 := by
  have hv : i32 ph.vaddr % pgSize = 0 := by
    have := hph.2.2
    unfold i32
    unfold pgSize at *
    omega
  unfold Segments.add
  by_cases htext : ph.flags % 4 = 1
  · rw [if_pos htext]
    by_cases hfirst : g.textoff = -1
    · simpa [hfirst] using hv
    · simpa [hfirst] using hg
  · rw [if_neg htext]
    by_cases hdata : ph.flags % 4 = 2
    · rw [if_pos hdata]
      by_cases hfirst : g.dataoff = -1 <;> simpa [hfirst] using hg
    · rw [if_neg hdata]
      exact hg

theorem loadSegments_mod {i k : ℕ} {off : ℤ} {g g' : Segments} {s s' : Kernel}
    (hg : g.textinit % pgSize = 0) (hx : loadSegments i k off g s = .ok (some g') s') :
    g'.textinit % pgSize = 0 := by
  induction k generalizing off g s with
  | zero =>
    obtain ⟨he, -⟩ := pure_ok.mp hx
    exact Option.some.inj he ▸ hg
  | succ k ih =>
    unfold loadSegments at hx
    obtain ⟨⟨b, n⟩, s1, -, hx⟩ := bind_ok.mp hx
    rcases ite_ok hx with ⟨-, hx⟩ | ⟨-, hx⟩
    · simp at hx
    · rcases ite_ok hx with ⟨-, hx⟩ | ⟨-, hx⟩
      · exact ih hg hx
      · rcases ite_ok hx with ⟨hload, hx⟩ | ⟨-, hx⟩
        · exact ih (Segments.add_mod hg hload) hx
        · simp at hx

theorem headers_mod {s : Kernel} {i : ℕ} {g : Segments} (h : s.headers i = some g) :
    g.textinit % pgSize = 0 := by
  unfold headers at h
  split at h
  · rename_i o s1 hx
    subst h
    obtain ⟨r, s2, -, hload⟩ := bind_ok.mp hx
    rcases ite_ok hload with ⟨-, hbad⟩ | ⟨-, hload⟩
    · cases (pure_ok.mp hbad).1
    · exact loadSegments_mod rfl hload
  · cases h

end Aligned

namespace Kernel.PageAligned

variable {L : Prop} {s s' : Kernel} {p np : ℕ}

variable (h : s.PageAligned)
include h

theorem of_procs (hproc : ∀ q, (s'.proc q).state ≠ .unused → (s.proc q).state ≠ .unused ∧
      (s'.proc q).nmp = (s.proc q).nmp ∧ (s'.proc q).text = (s.proc q).text ∧
      (s'.proc q).data = (s.proc q).data) (hv : s'.vmas = s.vmas) : s'.PageAligned where
  nmp q hq := by
    obtain ⟨hq', hn, -, -⟩ := hproc q hq
    exact hn ▸ h.nmp q hq'
  text q hq := by
    obtain ⟨hq', -, ht, -⟩ := hproc q hq
    exact ht ▸ h.text q hq'
  data q hq := by
    obtain ⟨hq', -, -, hd⟩ := hproc q hq
    exact hd ▸ h.data q hq'
  vmas j := hv ▸ h.vmas j

theorem of_unmoved (hu : Unmoved s s') : s'.PageAligned := by
  apply h.of_procs _ hu.vmas
  intro q hq
  obtain ⟨b, o, hb⟩ := hu.procs q
  rw [hb] at hq ⊢
  exact ⟨hq, rfl, rfl, rfl⟩

/-- One process changes. -/
theorem of_update (hother : ∀ q, q ≠ p → s'.proc q = s.proc q)
    (hself : (s'.proc p).state ≠ .unused → (s'.proc p).nmp % pgSize = 0 ∧
      (s'.proc p).text.addr % pgSize = 0 ∧ (s'.proc p).data.addr % pgSize = 0)
    (hv : s'.vmas = s.vmas) : s'.PageAligned := by
  have hproc : ∀ q, (s'.proc q).state ≠ .unused → (s'.proc q).nmp % pgSize = 0 ∧
      (s'.proc q).text.addr % pgSize = 0 ∧ (s'.proc q).data.addr % pgSize = 0 := by
    intro q hq
    by_cases hqp : q = p
    · subst hqp
      exact hself hq
    · rw [hother q hqp] at hq ⊢
      exact ⟨h.nmp q hq, h.text q hq, h.data q hq⟩
  exact ⟨fun q hq => (hproc q hq).1, fun q hq => (hproc q hq).2.1, fun q hq => (hproc q hq).2.2,
    fun j => hv ▸ h.vmas j⟩

theorem setProc {f : Proc → Proc}
    (hf : (f (s.proc p)).state ≠ .unused → (f (s.proc p)).nmp % pgSize = 0 ∧
      (f (s.proc p)).text.addr % pgSize = 0 ∧ (f (s.proc p)).data.addr % pgSize = 0) :
    (s.setProc p f).PageAligned := by
  refine h.of_update (p := p) (fun q hq => ?_) ?_ rfl
  · simp only [Kernel.setProc, update_of_ne hq]
  · simpa only [Kernel.setProc, update_self] using hf

theorem setVma {j : ℕ} {v : Vma} (hv : v.addr % pgSize = 0) : (s.setVma j v).PageAligned where
  nmp := h.nmp
  text := h.text
  data := h.data
  vmas k := by
    by_cases hk : k = j
    · simpa [Kernel.setVma, hk] using hv
    · simpa [Kernel.setVma, hk] using h.vmas k

omit h in
theorem minVma_mod (h : ∀ j, (s.vmas j).addr % pgSize = 0) : s.minVma p % pgSize = 0 := by
  rcases s.minVma_mem p with he | ⟨i, v, hv, he⟩
  · rw [he]
    decide
  · obtain ⟨j, -, rfl⟩ := slot_eq_some.mp hv
    rw [← he]
    exact h j

theorem munmap (hsp : s.Special p) {bound addr : ℕ} {size : ℤ} {b : Bool}
    (hx : sysMunmap bound p addr size s = .ok b s') : s'.PageAligned := by
  rcases sysMunmap_cases hx with rfl | ⟨-, -, hsize, hx⟩
  · exact h
  rcases deallocvma_cases hx with ⟨rfl, -⟩ | ⟨i, j, v, complete, off, s1, s2, hd⟩
  · exact h
  obtain ⟨hvmas, hproc⟩ := hd.regions hsp
  have hmod := Vma.cut_mod (h.vmas j) hsize hd.cut
  have hv : ∀ k, (s'.vmas k).addr % pgSize = 0 := by
    rw [hvmas]
    exact (h.setVma (v := { v with offset := off }) hmod).vmas
  refine ⟨fun q hq => ?_, fun q hq => ?_, fun q hq => ?_, hv⟩ <;>
    obtain ⟨c, o, hc⟩ := hproc q <;> rw [hc] at hq ⊢
  · simp only
    split_ifs
    · exact minVma_mod hv
    · exact h.nmp q hq
  · exact h.text q hq
  · exact h.data q hq

theorem reaped {pp : ℕ} (hr : Reaped pp s s') : s'.PageAligned := by
  refine h.of_update (p := pp) (fun q hq => ?_) (fun hq => ?_) hr.vmas
  · rw [hr.procs, update_of_ne hq]
  · simp [hr.procs] at hq

variable (hp : (s.proc p).state ≠ .unused)
include hp

theorem addVma {i j : ℕ} {v : Vma}
    (hv : v.addr = lowerNmp (s.proc p).nmp v.size) : (s.addVma p i j v).PageAligned := by
  have haddr : v.addr % pgSize = 0 := hv ▸ lowerNmp_mod (h.nmp p hp)
  refine ((h.setVma haddr).of_unmoved (.setFile _ _)).setProc fun _ =>
    ⟨haddr, h.text p hp, h.data p hp⟩

omit hp in
theorem inherits (hnp : (s.proc np).state ≠ .unused)
    (hi : Inherits p np s s') : s'.PageAligned ∧ (s'.proc np).state ≠ .unused := by
  induction hi with
  | refl => exact ⟨h, hnp⟩
  | tail _ ha ih =>
    obtain ⟨hal, hstate⟩ := ih
    cases ha with
    | opening ho =>
      cases ho with
      | setFile f file => exact ⟨hal.of_unmoved (.setFile f file), hstate⟩
      | setOfile fd o =>
        refine ⟨hal.of_unmoved (.setOfile fd o), ?_⟩
        simpa [Kernel.setProc] using hstate
    | region hi hj =>
      refine ⟨hal.addVma hstate rfl, ?_⟩
      rw [Kernel.proc_addVma]
      exact hstate
    | page hi hi' hk hpage =>
      obtain ⟨hp, hv, -, -, -⟩ := hpage.frame
      refine ⟨hal.of_unmoved (.of_eq hp hv), ?_⟩
      rw [hp]
      exact hstate

/-- The child starts with the segments of its parent and no regions. -/
theorem forked (hf : Forked p s s') : s'.PageAligned := by
  cases hf with
  | failed => exact h
  | discarded hne hd =>
    obtain ⟨-, -, hn, hblank, -, -⟩ := hd
    refine h.of_update (fun q hq => ?_) (fun hq => absurd hblank.1 hq) hn.aside.vmas
    exact hn.aside.others q hq
  | @child s1 s2 s3 np hs ho hl hopen =>
    obtain ⟨pa, hnew⟩ := hs.proc
    have h1 : s1.PageAligned := by
      refine h.of_update (p := np) (fun q hq => ?_) (fun _ => ?_) hs.nascent.aside.vmas
      · exact hs.nascent.aside.others q hq
      · rw [hnew]
        exact ⟨show Xv6.trapframe % pgSize = 0 by decide, h.text p hp, h.data p hp⟩
    have hnp : (s1.proc np).state ≠ .unused := by simp [hnew]
    obtain ⟨h3, hstate⟩ := h1.inherits hnp (inherits_of_loop hs.ne ho hl)
    exact h3.setProc fun _ => ⟨h3.nmp np hstate, h3.text np hstate, h3.data np hstate⟩

theorem segments {i : ℕ} {g : Segments}
    (hg : s.headers i = some g) : (s.setSegments p g i).PageAligned := by
  refine h.setProc fun _ => ⟨h.nmp p hp, ?_, ?_⟩
  · have hmod := headers_mod hg
    simp only [Segments.text, u64]
    unfold pgSize at *
    omega
  · exact pgRoundUp64_mod _

theorem execed {ip : Option ℕ}
    {argv : List (List UInt8)} (he : Execed p ip argv s s') : s'.PageAligned := by
  cases he with
  | kept hb _ => exact h.of_unmoved (.of_eq hb.proc hb.vmas)
  | failed i g _ hg hb _ _ => exact (h.segments hp hg).of_unmoved (.of_eq hb.proc hb.vmas)
  | done i g _ hg hr =>
    have hseg := h.segments hp hg
    refine hseg.of_update (p := p) (fun q hq => ?_) ?_ hr.vmas
    · rw [hr.procs, update_of_ne hq]
    · rw [hr.procs, update_self]
      exact fun hq => ⟨hseg.nmp p hq, hseg.text p hq, hseg.data p hq⟩

omit hp in
theorem step (hs : s.Sane) {e : Event} (he : ∀ q, e ≠ .exit q)
    (hstep : Step s e s') : s'.PageAligned := by
  have hrun := hstep.used
  have ho := hstep.outcome hs
  cases e with
  | mmap p length prot flags fd offset =>
    rcases ho with rfl | ⟨-, i, j, v, -, -, -, -, hsize, -, haddr, rfl⟩
    · exact h
    · exact h.addVma hrun (hsize ▸ haddr)
  | munmap p addr size =>
    obtain ⟨bound, b, hun⟩ := hstep.munmap_ok
    exact h.munmap (hs.special p hrun) hun
  | fork p => exact h.forked hrun ho
  | exit p => exact absurd rfl (he p)
  | _ => exact h.of_unmoved (ho.unmoved trivial)

omit hp in
omit h in
theorem sysStep {σ τ : System} {c : Call} (h : σ.kernel.PageAligned) (hs : σ.kernel.Sane)
    (hc : ∀ q, c ≠ .event (.exit q)) (hstep : SysStep σ c τ) : τ.kernel.PageAligned := by
  have hp := hstep.used
  have ho := hstep.outcome hs
  cases c with
  | event e => exact h.step hs (fun q he => hc q (he ▸ rfl)) ho
  | wait p addr status =>
    rcases Waited.cases ho with hl | ⟨pp, s1, -, hl, hr⟩
    · exact h.of_unmoved hl.unmoved
    · exact (h.of_unmoved hl.unmoved).reaped hr
  | sbrk p n =>
    obtain ⟨s1, sz, hw, hres, -, -⟩ := ho
    have h1 := h.of_unmoved (.of_eq hw.proc hw.vmas)
    rw [hres]
    exact h1.setProc fun hq => ⟨h1.nmp p hq, h1.text p hq, h1.data p hq⟩
  | exec p ip argv => exact h.execed hp ho
  | _ => exact h.of_unmoved (FdActs.unmoved ho)

theorem region {r : Region} (hr : s.RegionOf p r) : r.addr % pgSize = 0 := by
  rcases hr with rfl | rfl | ⟨i, v, hv, rfl⟩
  · exact h.text p hp
  · exact h.data p hp
  · obtain ⟨j, -, rfl⟩ := slot_eq_some.mp hv
    exact h.vmas j

end Kernel.PageAligned

/-- What `munmap` leaves in a slot is where it was, in memory and in the file. -/
theorem sysMunmap_backing {s s' : Kernel} {bound p addr q i va : ℕ} {size : ℤ} {b : Bool}
    {v v' : Vma} (hs : s.Sane) (hp : (s.proc p).state ≠ .unused)
    (hx : sysMunmap bound p addr size s = .ok b s') (hv : s.slot q i = some v)
    (hv' : s'.slot q i = some v') (hoff : 0 ≤ v.offset ∧ v.offset < 2 ^ 31) (hoff' : 0 ≤ v'.offset)
    (hva : v'.Contains va) : v'.ip = v.ip ∧ v.Contains va ∧
      v'.offset + ((va : ℤ) - v'.addr) = v.offset + ((va : ℤ) - v.addr) := by
  have hsame : v' = v → v'.ip = v.ip ∧ v.Contains va ∧
      v'.offset + ((va : ℤ) - v'.addr) = v.offset + ((va : ℤ) - v.addr) := by
    rintro rfl
    exact ⟨rfl, hva, rfl⟩
  have hkept : s' = s → v' = v := by
    rintro rfl
    exact Option.some.inj (hv'.symm.trans hv)
  rcases sysMunmap_cases hx with he | ⟨hsize, -, -, hx⟩
  · exact hsame (hkept he)
  rcases deallocvma_cases hx with ⟨he, -⟩ | ⟨k, j, w, complete, off, s1, s2, hd⟩
  · exact hsame (hkept he)
  obtain ⟨hvmas, hproc⟩ := hd.regions (hs.special p hp)
  obtain ⟨n, hn, hnv⟩ := slot_eq_some.mp hv'
  -- the slot still refers to the entry that it referred to
  have hslot : (s.proc q).vmas i = some n := by
    obtain ⟨c, o, hc⟩ := hproc q
    simp only [hc] at hn
    split_ifs at hn
    exact hn
  have hold : s.vmas n = v := by
    obtain ⟨m, hm, rfl⟩ := slot_eq_some.mp hv
    rw [hslot] at hm
    cases hm
    rfl
  rw [hvmas] at hnv
  by_cases hnj : n = j
  · subst hnj
    rw [update_self] at hnv
    subst hnv hold
    have hin : w.Contains va := hva
    have hback := Vma.cut_backing (hs.fits n) hd.inside hsize.le hd.cut hoff hoff' hin
    exact hback
  · rw [update_of_ne hnj, hold] at hnv
    exact hsame hnv.symm

def NoExit (_ : System) (c : Call) : Prop := ∀ p, c ≠ .event (.exit p)

/-- The page that a fault installs for a region holds, at each address of the region, the
byte of the file that belongs there, and zero beyond the stored part and the end of the file.
Unmapping part of a region leaves the file offset of the addresses that remain. -/
theorem demand_paged_contents {σ₀ σ : System} (hs : σ₀.kernel.Sane)
    (ha : σ₀.kernel.PageAligned) (hr : Reach SysStep NoExit σ₀ σ) :
    (∀ p r va perm ip t u, (σ.kernel.proc p).state ≠ .unused → σ.kernel.RegionOf p r → r.Small →
      r.Contains va → σ.kernel.trans p (va / pgSize) = none → σ.kernel.freelist.Nodup →
      r.ip = some ip → (σ.kernel.inode ip).Full →
      allocPhysicalVMA r p va perm σ.kernel = .ok u t →
      (t.trans p (va / pgSize) = none ∧ (t.proc p).killed = true) ∨
        ∃ pa, t.trans p (va / pgSize) = some ⟨true, perm, pa⟩ ∧
          ∀ va', va' / pgSize = va / pgSize → r.Contains va' →
            t.mem pa (va' % pgSize) = r.byte (σ.kernel.inode ip) va') ∧
      ∀ p addr size τ, SysStep σ (.event (.munmap p addr size)) τ → ∀ q i v v',
        σ.kernel.slot q i = some v → τ.kernel.slot q i = some v' →
        v.toRegion.Small → v'.toRegion.Small → ∀ va, v'.Contains va →
          v'.ip = v.ip ∧ v.Contains va ∧
            v'.offset + ((va : ℤ) - v'.addr) = v.offset + ((va : ℤ) - v.addr) := by
  have hinv : σ.kernel.Sane ∧ σ.kernel.PageAligned := by
    apply hr.invariant (I := fun a => a.kernel.Sane ∧ a.kernel.PageAligned) ⟨hs, ha⟩
    intro a c b hI hc hstep
    exact ⟨hI.1.sysStep hstep, hI.2.sysStep hI.1 hc hstep⟩
  obtain ⟨hsane, hal⟩ := hinv
  constructor
  · intro p r va perm ip t u hp hreg hsmall hin hn hnd hip hF hx
    exact allocPhysicalVMA_content (hsane.special p hp) (hal.region hp hreg) hsmall hin hn hnd hip
      hF hx
  · intro p addr size τ hstep q i v v' hv hv' hsmall hsmall' va hva
    have hp : (σ.kernel.proc p).state ≠ .unused := by
      have hrun := hstep.runnable.2
      simp only [Call.proc, Event.proc] at hrun
      simp [hrun]
    have hev : Step σ.kernel (.munmap p addr size) τ.kernel := hstep.outcome hsane
    obtain ⟨-, bound, hx⟩ := hev.performed
    simp only [perform, bind_ok, pure_ok] at hx
    obtain ⟨b, _, hun, -, rfl⟩ := hx
    have hoff := hsmall.offset
    refine sysMunmap_backing hsane hp hun hv hv' ⟨hoff.1, ?_⟩ hsmall'.offset.1 hva
    unfold pgSize at hoff
    omega

theorem boot_pageAligned : boot.PageAligned := by
  have hbare : bare.PageAligned :=
    ⟨fun _ _ => rfl, fun _ _ => rfl, fun _ _ => rfl, fun _ => rfl⟩
  obtain ⟨s, ⟨-, -, hn, -, -, -, pa, hp⟩, hboot⟩ := boot_allocated
  have hs : s.PageAligned := by
    refine hbare.of_update (p := 0) (fun q hq => ?_) (fun _ => ?_) hn.aside.vmas
    · exact hn.aside.others q hq
    · rw [hp]
      exact ⟨show Xv6.trapframe % pgSize = 0 by decide, rfl, rfl⟩
  have hused : (s.proc 0).state ≠ .unused := by simp [hp]
  have hset := hs.setProc (p := 0)
    (f := fun q => { q with ofile := fun fd => if fd = 3 then some 0 else none })
    fun hq => ⟨hs.nmp 0 hq, hs.text 0 hq, hs.data 0 hq⟩
  rw [hboot]
  refine hset.setProc fun _ => ?_
  have hused' : ((s.setProc 0 fun q =>
      { q with ofile := fun fd => if fd = 3 then some 0 else none }).proc 0).state ≠ .unused := by
    simpa [setProc] using hused
  exact ⟨hset.nmp 0 hused', hset.text 0 hused', hset.data 0 hused'⟩

def mappedPart : System := sysNext bootSystem (.event (.mmap 0 5000 1 5 3 100))

def partRegion : Region := ⟨some 1, Xv6.trapframe - 8192, 5000, 5000, 100⟩

def mappedRest : System := sysNext mappedPart (.event (.munmap 0 (Xv6.trapframe - 8192) 4096))

/-- The second page of the mapping is faulted in with the bytes of the file from 4196 on, and
stays at that offset when the first page is unmapped. -/
theorem demand_paged_contents_part :
    (∃ t pa, allocPhysicalVMA partRegion 0 (Xv6.trapframe - 4096) Prot.read.perm
        mappedPart.kernel = .ok ⟨⟩ t ∧
      t.trans 0 ((Xv6.trapframe - 4096) / pgSize) = some ⟨true, Prot.read.perm, pa⟩ ∧
      t.mem pa 7 = UInt8.ofNat 4203) ∧
    ∃ v, mappedRest.kernel.slot 0 0 = some v ∧
      v.offset + (((Xv6.trapframe - 4096 : ℕ) : ℤ) - v.addr) = 4196 := by
  have hreach : Reach SysStep NoExit bootSystem mappedPart :=
    Reach.refl.tail (fun p => by simp) (sysStep_next (by decide +kernel))
  have hthm := demand_paged_contents boot_start.sane boot_pageAligned hreach
  have hslot : (mappedPart.kernel.slot 0 0).map (·.toRegion) = some partRegion := by decide +kernel
  obtain ⟨v, hv, hreg⟩ := Option.map_eq_some_iff.mp hslot
  have hsmall : partRegion.Small := by
    constructor <;> decide
  constructor
  · have hrun : passes (fun _ t => (t.proc 0).killed == false) (allocPhysicalVMA partRegion 0
        (Xv6.trapframe - 4096) Prot.read.perm mappedPart.kernel) = true := by decide +kernel
    obtain ⟨u, t, hx, hkilled⟩ := of_passes hrun
    rw [beq_iff_eq] at hkilled
    have hF : (mappedPart.kernel.inode 1).Full := by
      have hsize : (mappedPart.kernel.inode 1).size = 8192 := by decide +kernel
      exact .of_direct (n := 8) (by rw [hsize]; decide) (by decide) (by decide +kernel)
    rcases hthm.1 0 partRegion _ _ 1 t u (by decide +kernel) (.inr (.inr ⟨0, v, hv, hreg⟩))
      hsmall (by decide +kernel) (by decide +kernel) (by decide +kernel) rfl hF hx with
      ⟨-, hk⟩ | ⟨pa, ht, hmem⟩
    · simp [hk] at hkilled
    · refine ⟨t, pa, hx, ht, ?_⟩
      have hbyte := hmem (Xv6.trapframe - 4089) (by decide) (by decide)
      have hdata : partRegion.byte (mappedPart.kernel.inode 1) (Xv6.trapframe - 4089) =
          UInt8.ofNat 4203 := by decide +kernel
      exact hbyte.trans hdata
  · have hrest : SysStep mappedPart _ mappedRest := sysStep_next (by decide +kernel)
    have hslot' : (mappedRest.kernel.slot 0 0).map (·.toRegion) =
        some ⟨some 1, Xv6.trapframe - 4096, 904, 5000, 4196⟩ := by decide +kernel
    obtain ⟨v', hv', hreg'⟩ := Option.map_eq_some_iff.mp hslot'
    have hsmall' : v'.toRegion.Small := by
      rw [hreg']
      constructor <;> decide
    obtain ⟨-, -, hsame⟩ := hthm.2 0 _ _ mappedRest hrest 0 0 v v' hv hv' (hreg ▸ hsmall) hsmall'
      (Xv6.trapframe - 4096) (by rw [hreg']; decide)
    refine ⟨v', hv', hsame.trans ?_⟩
    rw [hreg]
    decide

end Xv6.Vm
