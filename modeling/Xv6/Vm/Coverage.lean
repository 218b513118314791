import Xv6.Vm.ImageBounds
import Xv6.Vm.WriteBack
import Xv6.Vm.TidyCalls
import Xv6.Vm.Permissions
import Xv6.Vm.RefCounts

/-!
# Which pages a process maps

Below the trapframe a process maps pages of its image and of its regions, and no others, in every
run in which the bounds of the image are kept and pages are written back inside their files.
Otherwise the write-back faults pages in again that it has unmapped.
-/
namespace Xv6.Vm

open Library Relation Kernel Option

/-- Page `w` belongs to the image of process `q`, or to one of its regions. -/
def Kernel.Belongs (s : Kernel) (q w : ℕ) : Prop :=
  w * pgSize < pgRoundUp (s.proc q).sz ∨ ∃ i v, s.slot q i = some v ∧ v.Covers w

/-- Every page that is mapped below the trapframe belongs to its process, and user code can
access those of regions. -/
def Kernel.Covered (s : Kernel) : Prop :=
  ∀ q w pte, s.trans q w = some pte → w < trapVpn →
    s.Belongs q w ∧ (pgRoundUp (s.proc q).sz ≤ w * pgSize → pte.perm.u = true)

section Cut

variable {v v' : Vma} {addr w : ℕ} {size off : ℤ} {complete : Bool}

theorem Vma.Placed.cut_size (h : v.Placed) (hin : v.Contains addr)
    (hsize : 0 ≤ size ∧ size < 2 ^ 31) (hcut : v.cut addr size = some (v', complete, off)) :
    (addr : ℤ) + size ≤ v.addr + v.size := by
  have hend := h.fits.end_eq hin
  have hlt := hin.2
  have hlo := hin.1
  unfold Vma.cut at hcut
  split_ifs at hcut with hall hfront htail
  · omega
  · omega
  · have hb := h.below
    have hs := h.size_le_span
    unfold Vma.stop at hb
    rw [trapframe_eq] at hb
    obtain ⟨-, htail⟩ := htail
    rw [← Int.ofNat_inj, hend] at htail
    unfold u64 at htail
    omega

/-- A page of a region is still one of what remains, or lies in the range that is cut off. -/
theorem Vma.Placed.cut_covers (h : v.Placed) (hin : v.Contains addr)
    (hsize : 0 ≤ size ∧ size < 2 ^ 31)
    (hr : (addr % pgSize = 0 ∧ size % pgSize = 0) ∨ (addr = v.addr ∧ size = v.size))
    (hcut : v.cut addr size = some (v', complete, off)) (hw : v.Covers w) :
    (complete = false ∧ v'.Covers w) ∨
      (addr ≤ w * pgSize ∧ w * pgSize < addr + Vm.pageCount size * pgSize) := by
  have hle := h.cut_size hin hsize hcut
  have hlo := hin.1
  have hsmall := h.small
  rw [pageCount_mul hsize.1 (by omega)]
  obtain ⟨hw1, hw2⟩ := hw
  unfold Vma.stop Vma.span at hw2
  have hal := h.aligned
  have hb := h.below
  have hs := h.size_le_span
  unfold Vma.stop at hb
  rw [trapframe_eq] at hb
  unfold Vma.cut at hcut
  split_ifs at hcut with hall hfront htail
  · right
    obtain ⟨rfl, rfl⟩ := hall
    exact ⟨hw1, hw2⟩
  · cases hcut
    obtain ⟨rfl, hlt⟩ := hfront
    have hpages : size % pgSize = 0 := by
      rcases hr with hr | hr
      · exact hr.2
      · omega
    have hu : u64 (v.addr + size) = v.addr + size.toNat := by
      unfold u64
      omega
    unfold Vma.Covers Vma.stop Vma.span
    simp only [hu, true_and]
    simp only [pgRoundUp_eq] at *
    unfold pgSize at *
    omega
  · cases hcut
    obtain ⟨hgt, htail⟩ := htail
    have hr' : addr % pgSize = 0 ∧ size % pgSize = 0 := by
      rcases hr with hr | hr
      · exact hr
      · omega
    have hend := h.fits.end_eq hin
    rw [← Int.ofNat_inj, hend] at htail
    have hsum : (addr : ℤ) + size = v.addr + v.size := by
      unfold u64 at htail
      omega
    unfold Vma.Covers Vma.stop Vma.span
    simp only [true_and]
    simp only [pgRoundUp_eq] at *
    unfold pgSize at *
    omega

end Cut

namespace Kernel.Covered

variable {L : Prop} {K p : ℕ} {l : List ℕ} {s s' : Kernel}

/-- What a fault brings in belongs to the process. -/
theorem belongs_of_backing (ha : s.Arranged) (hi : s.AboveImage)
    (hp : (s.proc p).state ≠ .unused) {va : ℕ} {r : Region} {perm : Perm}
    (hb : s.backing p va = some (r, perm)) : s.Belongs p (va / pgSize) := by
  have himage : ((s.proc p).text.Contains va ∨ (s.proc p).data.Contains va) →
      s.Belongs p (va / pgSize) := by
    intro hin
    have hlt := hi.image p hp va hin
    exact .inl ((Nat.div_mul_le_self va pgSize).trans_lt hlt)
  unfold backing at hb
  dsimp only at hb
  split_ifs at hb with htext hdata
  · exact himage (.inl htext)
  · exact himage (.inr hdata)
  · obtain ⟨v, hv, -⟩ := map_eq_some_iff.mp hb
    obtain ⟨i, hs, hin⟩ := slot_of_findVma hv
    exact .inr ⟨i, v, hs, (ha.placed p i v hs).covers hin⟩

variable (h : s.Covered)
include h

theorem grow (htrans : ∀ q w pte, s'.trans q w = some pte → s.trans q w = some pte)
    (hsz : ∀ q, (s'.proc q).sz = (s.proc q).sz)
    (hslot : ∀ q i v, s.slot q i = some v → s'.slot q i = some v) : s'.Covered := by
  intro q w pte ht hw
  obtain ⟨hb, hu⟩ := h q w pte (htrans q w pte ht) hw
  unfold Kernel.Belongs
  rw [hsz q]
  exact ⟨hb.imp_right fun ⟨i, v, hv, hc⟩ => ⟨i, v, hslot q i v hv, hc⟩, hu⟩

/-- Work on the page table of one process: only its new entries matter. -/
theorem of_local (hl : Local p s s') (hnew : ∀ w pte, s'.trans p w = some pte → w < trapVpn →
      (∃ y, s.trans p w = some y ∧ (y.perm.u = true → pte.perm.u = true)) ∨
        (s.Belongs p w ∧ pte.perm.u = true)) : s'.Covered := by
  have hsz : ∀ q, (s'.proc q).sz = (s.proc q).sz := by
    intro q
    obtain ⟨b, hb⟩ := hl.procs q
    rw [hb]
  intro q w pte ht hw
  unfold Kernel.Belongs
  simp only [hsz q, hl.slot]
  by_cases hq : q = p
  · subst hq
    rcases hnew w pte ht hw with ⟨y, hy, hyu⟩ | ⟨hb, hu⟩
    · obtain ⟨hb, hu⟩ := h q w y hy hw
      exact ⟨hb, fun hge => hyu (hu hge)⟩
    · exact ⟨hb, fun _ => hu⟩
  · rw [hl.tables q w hq] at ht
    exact h q w pte ht hw

theorem pruned (hpr : Pruned s s') : s'.Covered := by
  apply h.grow hpr.only
  · intro q
    rw [hpr.proc]
  · intro q i v hv
    simpa [slot, hpr.proc, hpr.vmas] using hv

theorem setPage {pa : ℕ} {bytes : Bytes} : (s.setPage pa bytes).Covered := h

theorem setFile {f : ℕ} {file : File} : (s.setFile f file).Covered :=
  h.grow (fun _ _ _ ht => ht) (fun _ => rfl) fun _ _ _ hv => hv

theorem setProc {f : Proc → Proc} (hz : (f (s.proc p)).sz = (s.proc p).sz)
    (hv : (f (s.proc p)).vmas = (s.proc p).vmas) : (s.setProc p f).Covered := by
  apply h.grow
  · exact fun _ _ _ ht => ht
  · intro q
    by_cases hq : q = p
    · simp [Kernel.setProc, hq, hz]
    · simp [Kernel.setProc, hq]
  · intro q i v hs
    by_cases hq : q = p
    · subst hq
      simpa [Kernel.slot, Kernel.setProc, hv] using hs
    · simpa [Kernel.slot, Kernel.setProc, hq] using hs

/-- The entry of `va` gets another frame or other permissions. -/
theorem of_rewrite {va : ℕ} {pte y : Pte} (hl : Local p s s')
    (hold : s.trans p (va / pgSize) = some pte) (hu : pte.perm.u = true → y.perm.u = true)
    (htrans : ∀ t w, s'.trans t w = if t = p ∧ w = va / pgSize then some y else s.trans t w) :
    s'.Covered := by
  refine h.of_local hl fun w x ht hw => .inl ?_
  rw [htrans] at ht
  split_ifs at ht with hc
  · cases ht
    exact ⟨pte, hc.2 ▸ hold, hu⟩
  · exact ⟨x, ht, id⟩

section

variable (ha : s.Arranged) (hi : s.AboveImage) (hp : (s.proc p).state ≠ .unused)
include ha hi hp

theorem demand (hd : Demand p s s') : s'.Covered := by
  refine h.of_local hd.steady.toLocal fun w pte ht hw => ?_
  rcases hd.trans_cases ht with hold | ⟨r, va, hb, rfl, -⟩
  · exact .inl ⟨pte, hold, id⟩
  · exact .inr ⟨belongs_of_backing ha hi hp hb, Kernel.Exact.backing_user hb⟩

theorem write (hw : Writes p s s') : s'.Covered := by
  induction hw with
  | refl => exact h
  | @tail s1 s2 hw1 hw ih =>
    have hacts : Acts True p s s1 := Writes.acts hw1
    cases hw with
    | setFile f file href => exact ih
    | transfer ht =>
      cases ht with
      | demand hd => exact ih.demand (ha.acts hacts) (hi.acts ha hacts) (hacts.state hp) hd
      | files ino fb => exact ih
      | locked l => exact ih

theorem copiedOut {src : Bytes} {va k m : ℕ} (hc : CopiedOut p src va k m s s') : s'.Covered := by
  have hend : s'.Covered ∧ Unmoved s s' := by
    apply hc.preserve
    · rintro t t' ⟨ht, hu⟩ hd
      exact ⟨ht.demand (ha.of_unmoved hu) (hi.of_unmoved hu) (by rwa [hu.state]) hd,
        hu.andThen hd.steady.toLocal.unmoved⟩
    · exact fun t pa bytes ⟨ht, hu⟩ => ⟨ht.setPage, hu.andThen (.of_eq rfl rfl)⟩
    · exact ⟨h, .of_eq rfl rfl⟩
  exact hend.1

theorem trapped {cause : Cause} {va : ℕ} (ht : Trapped p cause va s s') :
    s'.Covered := by
  cases ht with
  | ignored => exact h
  | demand hd => exact h.demand ha hi hp hd
  | split _ _ _ hs =>
    obtain ⟨new, pte, -, hold, htrans⟩ := hs.trans_eq
    refine h.of_rewrite hs.toLocal hold ?_ htrans
    exact id
  | granted _ _ _ hg =>
    obtain ⟨pte, hold, -, htrans⟩ := hg.trans_eq
    refine h.of_rewrite hg.toLocal hold ?_ htrans
    exact id

end

theorem addVma {i j : ℕ} {v : Vma} (hnone : (s.proc p).vmas i = none)
    (hj : ∀ q k, (s.proc q).vmas k ≠ some j) : (s.addVma p i j v).Covered := by
  apply h.grow
  · exact fun _ _ _ ht => ht
  · intro q
    by_cases hq : q = p
    · rw [hq, proc_addVma]
    · rw [proc_addVma_of_ne hq]
  · intro q k x hx
    rw [slot_addVma hj, if_neg]
    · exact hx
    · rintro ⟨rfl, rfl⟩
      simp [slot, hnone] at hx

end Kernel.Covered

section Unmap

variable {K bound p addr i j : ℕ} {l : List ℕ} {size off : ℤ} {v : Vma} {complete : Bool}
  {s s1 s2 s' : Kernel}

theorem Vma.cut_source {v v' : Vma} (h : v.cut addr size = some (v', complete, off)) :
    v'.ip = v.ip ∧ v'.offset = v.offset := by
  unfold Vma.cut at h
  split_ifs at h <;> cases h <;> exact ⟨rfl, rfl⟩

/-- Where a range of a region lies. -/
theorem Kernel.Arranged.range_bounds (ha : s.Arranged) {w w' : Vma} (hv : s.slot p i = some w)
    (hin : w.Contains addr) (hsize : 0 ≤ size ∧ size < 2 ^ 31)
    (hr : (addr % pgSize = 0 ∧ size % pgSize = 0) ∨ (addr = w.addr ∧ size = w.size))
    (hcut : w.cut addr size = some (w', complete, off)) :
    addr % pgSize = 0 ∧ size ≤ 2 ^ 31 - pgSize ∧ addr + pageCount size * pgSize < maxVa := by
  have hpl := ha.placed p i w hv
  have hle := hpl.cut_size hin hsize hcut
  have hsmall := hpl.small
  have hlo := hin.1
  have hb := hpl.below
  have hal := hpl.aligned
  unfold Vma.stop Vma.span at hb
  rw [trapframe_eq] at hb
  have hva : maxVa = 274877906944 := by decide
  rw [pageCount_mul hsize.1 (by omega)]
  simp only [pgRoundUp_eq] at *
  unfold pgSize at *
  omega

/-- A page that is mapped and that user code can access is found by `walkaddr`. -/
theorem Kernel.Tidy.walkaddr_of_trans {w : ℕ} {pte : Pte} (h : s.Tidy K l) (hK : 0 < K)
    (ht : s.trans p w = some pte) (hu : pte.perm.u = true) (hw : w * pgSize < maxVa) :
    s.walkaddr p (w * pgSize) = some pte.ppn := by
  have hne : pte.ppn ≠ 0 := by
    have := h.mapped p w pte ht (.inr hu)
    omega
  have hdiv : w * pgSize / pgSize = w := Nat.mul_div_cancel w (by decide)
  simp [Kernel.walkaddr, hw, hdiv, ht, hu, hne]

theorem Kernel.Backed.mono {x : Vma} (h : s.Backed p x addr size)
    (hwalk : ∀ a pa, s'.walkaddr p a = some pa → s.walkaddr p a = some pa)
    (hgrown : ∀ k, (s.inode k).size ≤ (s'.inode k).size) : s'.Backed p x addr size := by
  intro hf k hk pa hw m hm
  obtain ⟨h0, h1, h2⟩ := h hf k hk pa (hwalk _ _ hw) m hm
  have := hgrown m
  exact ⟨h0, by omega, h2⟩

section

variable (hd : Deallocated bound p addr size i j v complete off s s1 s2 s')
include hd

/-- The slots after a range of the region in slot `i` was unmapped. -/
theorem Deallocated.slot_eq (hsp : s.Special p) (ha : s.Arranged) (q k : ℕ) : s'.slot q k =
      if q = p ∧ k = i then (if complete = true then none else some { v with offset := off })
      else s.slot q k := by
  obtain ⟨hvmas, hproc⟩ := hd.regions hsp
  obtain ⟨c, o, hq⟩ := hproc q
  unfold Kernel.slot
  rw [hq, hvmas]
  by_cases hki : q = p ∧ k = i
  · obtain ⟨rfl, rfl⟩ := hki
    cases complete with
    | true => simp
    | false => simp [hd.slot]
  · rw [if_neg hki]
    simp only [if_neg fun hc : q = p ∧ k = i ∧ complete = true => hki ⟨hc.1, hc.2.1⟩]
    cases hr : (s.proc q).vmas k with
    | none => rfl
    | some j' =>
      have hne : j' ≠ j := by
        rintro rfl
        exact hki (ha.distinct q k p i j' hr hd.slot)
      simp [hne]

theorem Deallocated.size_eq (hsp : s.Special p) (q : ℕ) : (s'.proc q).sz = (s.proc q).sz := by
  obtain ⟨-, hproc⟩ := hd.regions hsp
  obtain ⟨c, o, hq⟩ := hproc q
  rw [hq]

/-- What `deallocvma` unmaps: all resident pages of the range, and no others. -/
theorem Deallocated.swept
    (ha : s.Arranged) (hsize : 0 ≤ size ∧ size < 2 ^ 31) (hr : s.Ranges p addr size)
    (hback : s.Backed p (s.vmas j) addr size) :
    Swept p addr (pageCount size) (s.setVma j v) s1 := by
  have hv : s.slot p i = some (s.vmas j) := slot_eq_some.mpr ⟨j, hd.slot, rfl⟩
  obtain ⟨hal, hsmall, hend⟩ :=
    ha.range_bounds hv hd.inside hsize (ha.range hv hd.inside hr) hd.cut
  refine unmapRange_swept hal ⟨hsize.1, hsmall⟩ hend (fun hf => ?_) hd.range
  obtain ⟨hip, hoff⟩ := Vma.cut_source hd.cut
  rw [hip, hoff]
  exact hback (Vma.cut_flags hd.cut ▸ hf)

theorem Deallocated.trans_eq (q w : ℕ) : s'.trans q w = s1.trans q w := by
  have htable : s2.table = s1.table := by
    cases hc : complete with
    | true => exact (dropSlot_regions (hd.dropped hc)).1
    | false =>
      rw [hd.kept hc]
      rfl
  rw [hd.result]
  simp [Kernel.trans, setProc, htable]

omit hd in
/-- After `deallocvma`, the pages of the range are gone, so the others still belong to their
processes. -/
theorem Kernel.Covered.deallocated (h : s.Covered) (htidy : s.Tidy K l) (hK : 0 < K)
    (hsp : s.Special p) (ha : s.Arranged) (hi : s.AboveImage)
    (hsize : 0 ≤ size ∧ size < 2 ^ 31) (hr : s.Ranges p addr size)
    (hback : s.Backed p (s.vmas j) addr size)
    (hd : Deallocated bound p addr size i j v complete off s s1 s2 s') : s'.Covered := by
  have hsw := hd.swept ha hsize hr hback
  have ht : s1.Tidy K l := unmapRange_tends.of_ok htidy.setVma hd.range
  intro q w pte htr hw
  rw [hd.trans_eq] at htr
  obtain ⟨hb, hu⟩ := h q w pte (hsw.only q w pte htr) hw
  unfold Kernel.Belongs
  rw [hd.size_eq hsp q]
  refine ⟨?_, hu⟩
  rcases hb with himage | ⟨k, x, hx, hcov⟩
  · exact .inl himage
  right
  by_cases hki : q = p ∧ k = i
  · obtain ⟨rfl, rfl⟩ := hki
    have hv : s.slot q k = some (s.vmas j) := slot_eq_some.mpr ⟨j, hd.slot, rfl⟩
    cases hv.symm.trans hx
    have hpl := ha.placed q k _ hv
    rcases hpl.cut_covers hd.inside hsize (ha.range hv hd.inside hr) hd.cut hcov with
      ⟨rfl, hcov'⟩ | ⟨hlo, hhi⟩
    · refine ⟨k, { v with offset := off }, ?_, hcov'⟩
      simp [hd.slot_eq hsp ha]
    · exfalso
      have habove := hi.above q k _ hv
      have hpu := hu (habove.trans hcov.1)
      obtain ⟨hal, -, hend⟩ :=
        ha.range_bounds hv hd.inside hsize (ha.range hv hd.inside hr) hd.cut
      have hgone := hsw.gone (w - addr / pgSize) (by unfold pgSize at *; omega)
      have hpage : addr + (w - addr / pgSize) * pgSize = w * pgSize := by
        unfold pgSize at *
        omega
      rw [hpage, ht.walkaddr_of_trans hK htr hpu (by omega)] at hgone
      cases hgone
  · refine ⟨k, x, ?_, hcov⟩
    rw [hd.slot_eq hsp ha, if_neg hki]
    exact hx

omit hd in
theorem Kernel.Covered.deallocvma {b : Bool} (h : s.Covered) (htidy : s.Tidy K l) (hK : 0 < K)
    (hsp : s.Special p) (ha : s.Arranged) (hi : s.AboveImage)
    (hsize : 0 ≤ size ∧ size < 2 ^ 31) (hr : s.Ranges p addr size)
    (hback : ∀ k x, s.usedSlot p addr = some k → s.slot p k = some x → s.Backed p x addr size)
    (hx : deallocvma bound p addr size s = .ok b s') : s'.Covered := by
  rcases deallocvma_cases hx with ⟨rfl, -⟩ | ⟨i, j, v, complete, off, s1, s2, hd⟩
  · exact h
  · have hv : s.slot p i = some (s.vmas j) := slot_eq_some.mpr ⟨j, hd.slot, rfl⟩
    exact h.deallocated htidy hK hsp ha hi hsize hr (hback i _ hd.found hv) hd

theorem Deallocated.inode_eq : s'.inode = s1.inode := by
  have hsame : s2.inode = s1.inode := by
    cases hc : complete with
    | true =>
      obtain ⟨_, -, rfl⟩ := dropSlot_spec (hd.dropped hc)
      rfl
    | false =>
      rw [hd.kept hc]
      rfl
  rw [hd.result]
  exact hsame

theorem Deallocated.backed
    (ha : s.Arranged) (hsize : 0 ≤ size ∧ size < 2 ^ 31) (hr : s.Ranges p addr size)
    (hback : s.Backed p (s.vmas j) addr size) {x : Vma} {a : ℕ} {z : ℤ}
    (hx : s.Backed p x a z) : s'.Backed p x a z := by
  have hsw := hd.swept ha hsize hr hback
  apply hx.mono
  · intro b pa hw
    refine walkaddr_of_only (fun w pte ht => hsw.only p w pte ?_) hw
    rw [← hd.trans_eq]
    exact ht
  · intro k
    rw [hd.inode_eq]
    exact hsw.grown k

end

/-- What holds of the running process while it exits. -/
structure Leaving (K p : ℕ) (s : Kernel) : Prop where
  covered : s.Covered
  tidy : s.Tidy K []
  accounted : s.Accounted
  above : s.AboveImage
  special : s.Special p
  running : (s.proc p).state = .runnable
  backed : ∀ i v, s.slot p i = some v → s.Backed p v v.addr v.size

variable (h : Leaving K p s)
include h

theorem Leaving.deallocvma {b : Bool} (hK : 0 < K) (hv : s.slot p i = some v)
    (hx : Vm.deallocvma bound p v.addr v.size s = .ok b s') : Leaving K p s' := by
  have ha := h.accounted.layout.toArranged
  have hpl := ha.placed p i v hv
  have hsize := hpl.fits.2
  have hr : s.Ranges p v.addr v.size := .inr ⟨i, v, hv, rfl, rfl⟩
  have hacts : Acts True p s s' := deallocvma_ok h.special hsize hr (.inl trivial) hx
  have hfound : ∀ k x, s.usedSlot p v.addr = some k → s.slot p k = some x → x = v := by
    intro k x hk hxs
    obtain ⟨-, y, hy, -, hin⟩ := slot_of_usedSlot hk
    cases hxs.symm.trans hy
    have hself := hpl.covers (hpl.contains_start (h.accounted.positive p i v hv))
    exact (ha.covers_unique hxs hv ((ha.placed p k x hxs).covers hin) hself).2
  have hback : ∀ k x, s.usedSlot p v.addr = some k → s.slot p k = some x →
      s.Backed p x v.addr v.size := by
    intro k x hk hxs
    rw [hfound k x hk hxs]
    exact h.backed i v hv
  obtain ⟨hacc, -, hstate⟩ := h.accounted.deallocvma_whole h.special hv hx
  refine ⟨h.covered.deallocvma h.tidy hK h.special ha h.above hsize hr hback hx,
    deallocvma_tends.of_ok h.tidy hx, hacc, h.above.acts ha hacts, hacts.special h.special,
    (hstate p).trans h.running, ?_⟩
  intro k x hxs
  rcases deallocvma_cases hx with ⟨rfl, -⟩ | ⟨i', j, w, complete, off, s1, s2, hd⟩
  · exact h.backed k x hxs
  · have hv' : s.slot p i' = some (s.vmas j) := slot_eq_some.mpr ⟨j, hd.slot, rfl⟩
    have hwhole : complete = true := by
      have hcut := hd.cut
      rw [hfound i' _ hd.found hv'] at hcut
      simp only [Vma.cut, and_self, if_true, some.injEq, Prod.mk.injEq] at hcut
      exact hcut.2.1.symm
    rw [hd.slot_eq h.special ha] at hxs
    split_ifs at hxs with hc
    exact hd.backed ha hsize hr (hback i' _ hd.found hv') (h.backed k x hxs)

theorem Leaving.pruned (hpr : Pruned s s') (hl : Local p s s')
    (htidy : s'.Tidy K []) (hsp : s'.Special p) : Leaving K p s' := by
  refine ⟨h.covered.pruned hpr, htidy, h.accounted.of_unmoved hl.unmoved,
    h.above.of_unmoved hl.unmoved, hsp, ?_, ?_⟩
  · rw [hpr.proc]
    exact h.running
  · intro i v hv
    rw [hl.slot] at hv
    exact (h.backed i v hv).mono (fun a pa => walkaddr_of_only fun w pte => hpr.only p w pte)
      hpr.grown

theorem Leaving.setFile {f : ℕ} {file : File} : Leaving K p (s.setFile f file) :=
  ⟨h.covered.setFile, h.tidy.setFile, h.accounted.of_unmoved (.setFile f file),
    h.above.of_unmoved (.setFile f file), h.special, h.running, h.backed⟩

theorem Leaving.setOfile {ofile : ℕ → Option ℕ} :
    Leaving K p (s.setProc p fun q => { q with ofile := ofile }) := by
  have hproc : ∀ q, ∃ o, (s.setProc p fun q => { q with ofile := ofile }).proc q =
      { s.proc q with ofile := o } := by
    intro q
    by_cases hq : q = p
    · exact ⟨ofile, by simp [setProc, hq]⟩
    · exact ⟨(s.proc q).ofile, by simp [setProc, hq]⟩
  obtain ⟨o, hp⟩ := hproc p
  refine ⟨h.covered.setProc rfl rfl, h.tidy.setFields rfl rfl, h.accounted.setProc rfl rfl rfl,
    h.above.setProc Iff.rfl rfl rfl rfl fun _ _ hj => hj, h.special, ?_, ?_⟩
  · rw [hp]
    exact h.running
  · intro i v hv
    obtain ⟨j, hj, rfl⟩ := slot_eq_some.mp hv
    rw [hp] at hj
    exact h.backed i _ (slot_eq_some.mpr ⟨j, hj, rfl⟩)

/-- `exit` unmaps the pages of all regions. -/
theorem Leaving.exit {u : PUnit} (hK : 0 < K) (hx : Vm.exit bound p s = .ok u s') : s'.Covered := by
  have hend := exit_induction (I := fun _ => Leaving K p) (J := fun _ => Leaving K p) h
    (fun _ _ ih _ => ih) (fun _ _ _ _ ih _ _ => ih.setFile.setOfile) ?_ (fun _ _ _ ih _ => ih)
    (fun _ _ _ _ _ _ ih hv hde => ih.deallocvma hK hv hde) hx
  · obtain ⟨t, ht, rfl⟩ := hend
    exact ht.covered.setProc rfl rfl
  · intro t t1 t' ih htext hdata hc
    exact ih.pruned ((deallocSegment_ok htext).2.andThen (deallocSegment_ok hdata).2) hc.toLocal
      (deallocSegment_tends.of_ok (deallocSegment_tends.of_ok ih.tidy htext) hdata)
      (hc.special ih.special)

end Unmap

section Fork

variable {p np : ℕ} {s s' : Kernel}

theorem Kernel.Covered.spawned (h : s.Covered) (hl : s.Layout) (hs : Spawned p np s s') :
    s'.Covered := by
  obtain ⟨-, hslot⟩ := hs.layout hl
  intro q w pte ht hw
  by_cases hq : q = np
  · subst hq
    obtain ⟨hlt, -⟩ := hs.copied w pte hw ht
    obtain ⟨pa, hp⟩ := hs.proc
    have himage : w * pgSize < pgRoundUp (s'.proc q).sz := by
      rw [hp]
      simp only
      unfold pgRoundUp pgSize at *
      omega
    exact ⟨.inl himage, fun hge => by omega⟩
  · rw [hs.nascent.aside.apart q w hq] at ht
    unfold Kernel.Belongs
    rw [hs.nascent.aside.others q hq, hslot]
    exact h q w pte ht hw

theorem Kernel.Covered.pageShared (h : s.Covered) {i j0 j k : ℕ} (hne : p ≠ np)
    (hs : s.Settled p np) (hi : (s.proc p).vmas i = some j0) (hi' : (s.proc np).vmas i = some j)
    (hk : k < pageCount (s.vmas j0).size)
    (hsh : PageShared p np (u64 ((s.vmas j0).addr + (k * pgSize : ℕ)))
      (u64 ((s.vmas j).addr + (k * pgSize : ℕ))) (forkPerm (s.vmas j0).prot (s.vmas j0).flags)
      ((s.vmas j0).flags = .mapPrivate) s s') : s'.Covered := by
  obtain ⟨hv, hv', -, hcov, hcov'⟩ := hs.pages hi hi' hk
  obtain ⟨hproc, hvmas, -⟩ := hsh.frame
  obtain ⟨pte0, -, htrans⟩ := hsh.trans_eq hne
  have hslot : s'.slot = s.slot := by
    funext q m
    simp [slot, hproc, hvmas]
  intro q w pte ht hw
  unfold Kernel.Belongs
  rw [hproc, hslot]
  rw [htrans] at ht
  split_ifs at ht with h1 h2
  · obtain ⟨rfl, rfl⟩ := h1
    cases ht
    exact ⟨.inr ⟨i, _, hv', hcov'⟩, fun _ => forkPerm_user _ _⟩
  · obtain ⟨-, rfl, rfl⟩ := h2
    cases ht
    exact ⟨.inr ⟨i, _, hv, hcov⟩, fun _ => forkPerm_user _ _⟩
  · exact h q w pte ht hw

theorem Kernel.Covered.settles (h : s.Covered) (hne : p ≠ np) (hs : Settles p np s s') :
    s'.Covered := by
  obtain ⟨hin, hbefore, hafter, hgrows⟩ := hs
  cases hin with
  | opening ho =>
    cases ho with
    | setFile f file => exact h
    | setOfile fd o => exact h.setProc rfl rfl
  | @region i j0 j hi hj =>
    refine h.grow (fun _ _ _ ht => ht) (fun q => ?_) fun q k v hv => ?_
    · by_cases hq : q = np
      · rw [hq, proc_addVma]
      · rw [proc_addVma_of_ne hq]
    · by_cases hq : q = np
      · subst hq
        exact hgrows k v hv
      · rw [slot_addVma (hbefore.layout.unreferenced hj), if_neg fun hc => hq hc.1]
        exact hv
  | page hi hi' hk hsh => exact h.pageShared hne hbefore hi hi' hk hsh

theorem Kernel.Covered.forked (h : s.Covered) (hl : s.Layout) (hi : s.AboveImage)
    (hp : (s.proc p).state ≠ .unused) (hf : Forked p s s') : s'.Covered := by
  cases hf with
  | failed => exact h
  | @discarded _ np _ hd =>
    obtain ⟨-, hslot⟩ := hl.discarded hd
    obtain ⟨-, -, hn, hblank', -⟩ := hd
    intro q w pte ht hw
    have hq : q ≠ np := by
      rintro rfl
      simp [Kernel.trans, hblank'.2.1] at ht
    rw [hn.aside.apart q w hq] at ht
    unfold Kernel.Belongs
    rw [hn.aside.others q hq, hslot]
    exact h q w pte ht hw
  | @child s1 s2 s3 np hs ho hloop =>
    obtain ⟨-, hin⟩ := inheriting_of_spawned hl hi hp hs ho hloop
    obtain ⟨hlay1, -⟩ := hs.layout hl
    obtain ⟨-, hslot2, htable, hproc⟩ := ho.layout hlay1
    have h2 : s2.Covered := by
      refine (h.spawned hl hs).grow (fun q w pte ht => ?_) (fun q => ?_) fun q k v hv => ?_
      · simpa [Kernel.trans, htable] using ht
      · obtain ⟨o, hq⟩ := hproc q
        rw [hq]
      · rw [hslot2]
        exact hv
    have h3 : s3.Covered := by
      have htrail := hin.trail
      clear hin hloop
      induction htrail with
      | refl => exact h2
      | tail _ hstep ih => exact ih.settles hs.ne hstep
    exact h3.setProc rfl rfl

end Fork

section Image

variable {p : ℕ} {s s' : Kernel}

variable (h : s.Covered)
include h

/-- One process has a new page table, and the others are as before. -/
theorem Kernel.Covered.retable (hvmas : s'.vmas = s.vmas)
    (hslots : ∀ q, (s'.proc q).vmas = (s.proc q).vmas)
    (hsz : ∀ q, q ≠ p → (s'.proc q).sz = (s.proc q).sz)
    (htrans : ∀ q w pte, q ≠ p → s'.trans q w = some pte → s.trans q w = some pte)
    (hself : ∀ w pte, s'.trans p w = some pte → w < trapVpn →
      (w * pgSize < pgRoundUp (s'.proc p).sz ∨
        (∃ i v, s.slot p i = some v ∧ v.Covers w) ∧ pte.perm.u = true)) : s'.Covered := by
  have hslot : s'.slot = s.slot := by
    funext q i
    simp [slot, hvmas, hslots]
  intro q w pte ht hw
  unfold Kernel.Belongs
  rw [hslot]
  by_cases hq : q = p
  · subst hq
    rcases hself w pte ht hw with hin | ⟨hin, hu⟩
    · exact ⟨.inl hin, fun hge => by omega⟩
    · exact ⟨.inr hin, fun _ => hu⟩
  · rw [hsz q hq]
    exact h q w pte (htrans q w pte hq ht) hw

theorem Kernel.Covered.resized (hr : Resized p s s') : s'.Covered := by
  obtain ⟨s1, sz, hw, rfl, hle, hcase⟩ := hr
  have hcases : ∀ w pte, s1.trans p w = some pte → w * pgSize < pgRoundUp sz ∨
      (s.trans p w = some pte ∧ pgRoundUp (s.proc p).sz ≤ w * pgSize) ∨
      (s.trans p w = some pte ∧ (s.proc p).sz ≤ sz) := by
    intro w pte ht
    rcases hcase with ⟨hge, hext⟩ | ⟨hle', hshrink⟩
    · by_cases hin : pgRoundUp (s.proc p).sz / pgSize ≤ w ∧
          w < pgRoundUp (s.proc p).sz / pgSize +
            (pgRoundUp sz / pgSize - pgRoundUp (s.proc p).sz / pgSize)
      · left
        simp only [pgRoundUp_eq] at hin ⊢
        unfold pgSize at *
        omega
      · rw [hext.old w hin] at ht
        exact .inr (.inr ⟨ht, hge⟩)
    · rw [hshrink] at ht
      split_ifs at ht with hin
      by_cases hlow : w * pgSize < pgRoundUp sz
      · exact .inl hlow
      · refine .inr (.inl ⟨ht, ?_⟩)
        simp only [pgRoundUp_eq] at hin hlow ⊢
        unfold pgSize at *
        omega
  refine h.retable (p := p) hw.vmas ?_ ?_ ?_ ?_
  · intro q
    by_cases hq : q = p <;> simp [Kernel.setProc, hq, hw.proc]
  · intro q hq
    simp [Kernel.setProc, hq, hw.proc]
  · intro q w pte hq ht
    change s1.trans q w = some pte at ht
    rwa [hw.trans_of_ne hq] at ht
  · intro w pte ht hlt
    have hsz : ((s1.setProc p fun q => { q with sz }).proc p).sz = sz := by
      simp [Kernel.setProc]
    rw [hsz]
    rcases hcases w pte ht with hin | ⟨hold, hge⟩ | ⟨hold, hge⟩
    · exact .inl hin
    · obtain ⟨hb, hu⟩ := h p w pte hold hlt
      rcases hb with hb | hb
      · omega
      · exact .inr ⟨hb, hu hge⟩
    · obtain ⟨hb, hu⟩ := h p w pte hold hlt
      by_cases hin : w * pgSize < pgRoundUp sz
      · exact .inl hin
      · have hmono : pgRoundUp (s.proc p).sz ≤ pgRoundUp sz := by
          unfold pgRoundUp pgSize
          omega
        rcases hb with hb | hb
        · omega
        · exact .inr ⟨hb, hu (by omega)⟩

theorem Kernel.Covered.beside (hb : Beside p s s')
    (hn : s'.table (spare p) = none) : s'.Covered := by
  have hslot : s'.slot = s.slot := by
    funext q i
    simp [slot, hb.proc, hb.vmas]
  apply h.grow
  · intro q w pte ht
    by_cases hq : q = spare p
    · simp [Kernel.trans, hq, hn] at ht
    · simpa [Kernel.trans, hb.table q hq] using ht
  · intro q
    rw [hb.proc]
  · intro q i v hv
    rwa [hslot]

theorem Kernel.Covered.setSegments {g : Segments} {i : ℕ} : (s.setSegments p g i).Covered :=
  h.setProc rfl rfl

/-- A new image is mapped below its size. -/
theorem Kernel.Covered.replaced {sz : ℕ} (hr : Replaced p sz s s') : s'.Covered := by
  apply h.retable (p := p) hr.vmas
  · intro q
    by_cases hq : q = p <;> simp [hr.procs, hq]
  · intro q hq
    simp [hr.procs, hq]
  · intro q w pte hq ht
    by_cases hspare : q = spare p
    · simp [Kernel.trans, hspare, hr.cleared] at ht
    · simpa [Kernel.trans, hr.table q hq hspare] using ht
  · intro w pte ht hlt
    left
    have hal := hr.stacked.aligned
    have hsz : (s'.proc p).sz = sz := by simp [hr.procs]
    rw [hsz, pgRoundUp_of_aligned hal]
    have hpage : w + 1 ≤ sz / pgSize := by
      rcases hr.stacked.pages w pte ht with ⟨hge, -⟩ | ⟨hv, -⟩ | ⟨hv, -⟩
      · omega
      · omega
      · omega
    unfold pgSize at *
    omega

theorem Kernel.Covered.execed {ip : Option ℕ} {argv : List (List UInt8)}
    (he : Execed p ip argv s s') : s'.Covered := by
  cases he with
  | kept hb hn => exact h.beside hb hn
  | failed i g _ _ hb hn _ => exact h.setSegments.beside hb hn
  | done i g _ _ hr => exact h.setSegments.replaced hr

theorem Kernel.Covered.reaped (hr : Reaped p s s') : s'.Covered := by
  apply h.retable (p := p) hr.vmas
  · intro q
    by_cases hq : q = p <;> simp [hr.procs, hq]
  · intro q hq
    simp [hr.procs, hq]
  · intro q w pte hq ht
    simpa [Kernel.trans, hr.table q hq] using ht
  · intro w pte ht
    simp [Kernel.trans, hr.cleared] at ht

theorem Kernel.Covered.fdActs (ha : s.Arranged) (hi : s.AboveImage)
    (hp : (s.proc p).state ≠ .unused) (hf : FdActs p s s') : s'.Covered := by
  induction hf with
  | refl => exact h
  | tail hf hact ih =>
    have hu := FdActs.unmoved hf
    cases hact with
    | setFile f file => exact ih.setFile
    | setOfile fd o => exact ih.setProc rfl rfl
    | files ino fb => exact ih
    | copied hco =>
      exact ih.copiedOut (ha.of_unmoved hu) (hi.of_unmoved hu) (by rwa [hu.state]) hco

end Image

section Runs

variable {σ σ0 τ : System} {c : Call} {K : ℕ}

/-- The pages that `munmap` and `exit` write back lie inside their files. -/
def WritesInside (s : Kernel) : Event → Prop
  | .munmap p addr size => ∀ i v, s.usedSlot p addr = some i → s.slot p i = some v →
      s.Backed p v addr (i32 size)
  | .exit p => ∀ i v, s.slot p i = some v → s.Backed p v v.addr v.size
  | _ => True

/-- `exec` is called when no page of a region of the process is mapped. -/
def ExecsBare (σ : System) : Call → Prop
  | .exec p _ _ => ∀ i v w pte, σ.kernel.slot p i = some v → v.Covers w →
      σ.kernel.trans p w ≠ some pte
  | _ => True

/-- Regions and images keep apart, nothing is written back beyond the end of a file, and no page
of a region is left to `exec`. -/
def Careful (σ : System) (c : Call) : Prop :=
  Orderly σ c ∧ (∀ e, c = .event e → WritesInside σ.kernel e) ∧ ExecsBare σ c

/-- What holds of the memory of all processes between calls. -/
structure Kernel.Ordered (K : ℕ) (s : Kernel) : Prop where
  sane : s.Sane
  accounted : s.Accounted
  above : s.AboveImage
  tidy : s.Tidy K []
  covered : s.Covered

theorem Kernel.Ordered.covered_step {e : Event} {t : Kernel} (h : σ.kernel.Ordered K) (hK : 0 < K)
    (hin : WritesInside σ.kernel e) (hstep : Step σ.kernel e t) : t.Covered := by
  have hrun := hstep.runnable
  have hne := hstep.used
  have ha := h.accounted.layout.toArranged
  have ho := hstep.outcome h.sane
  cases e with
  | fetch p va => exact h.covered.trapped ha h.above hne ho
  | load p va => exact h.covered.trapped ha h.above hne ho
  | store p va b =>
    rcases ho with ⟨pte, -, -, -, -, rfl⟩ | ht
    · exact h.covered.setPage
    · exact h.covered.trapped ha h.above hne ht
  | copyout p va src len =>
    obtain ⟨m, -, hc⟩ := ho
    exact h.covered.copiedOut ha h.above hne hc
  | write p fd va n => exact h.covered.write ha h.above hne ho
  | mmap p length prot flags fd offset =>
    rcases ho with rfl | ⟨-, i, j, v, -, hnone, hj, -, -, -, -, rfl⟩
    · exact h.covered
    · exact h.covered.addVma hnone (h.accounted.layout.unreferenced hj)
  | munmap p addr size =>
    obtain ⟨bound, b, hx⟩ := hstep.munmap_ok
    rcases sysMunmap_cases hx with rfl | ⟨hpos, haddr, hpages, hx⟩
    · exact h.covered
    · exact h.covered.deallocvma h.tidy hK (h.sane.special p hne) ha h.above
        ⟨hpos.le, i32_lt size⟩ (.inl ⟨haddr, hpages⟩) hin hx
  | fork p => exact h.covered.forked h.accounted.layout h.above hne ho
  | exit p =>
    obtain ⟨-, bound, hx⟩ := hstep.performed
    have hleave : Leaving K p σ.kernel :=
      ⟨h.covered, h.tidy, h.accounted, h.above, h.sane.special p hne, hrun, hin⟩
    exact hleave.exit hK hx

theorem Kernel.Ordered.covered_sysStep (h : σ.kernel.Ordered K) (hK : 0 < K) (hok : Careful σ c)
    (hstep : SysStep σ c τ) : τ.kernel.Covered := by
  have hne := hstep.used
  have ha := h.accounted.layout.toArranged
  have ho := hstep.outcome h.sane
  cases c with
  | event e => exact h.covered_step hK (hok.2.1 e rfl) ho
  | wait p addr status =>
    cases ho with
    | none hsame => exact hsame ▸ h.covered
    | copied src va m hc => exact h.covered.copiedOut ha h.above hne hc
    | reaped pp hz s1 hc hr =>
      rcases hc with rfl | ⟨src, va, m, hc⟩
      · exact h.covered.reaped hr
      · exact (h.covered.copiedOut ha h.above hne hc).reaped hr
  | sbrk p n => exact h.covered.resized ho
  | exec p ip argv => exact h.covered.execed ho
  | _ => exact h.covered.fdActs ha h.above hne ho

theorem Kernel.Ordered.sysStep (h : σ.kernel.Ordered K) (hK : 0 < K) (hok : Careful σ c)
    (hstep : SysStep σ c τ) : τ.kernel.Ordered K :=
  ⟨h.sane.sysStep hstep, h.accounted.sysStep h.sane hok.1.1 hstep,
    h.above.sysStep h.accounted h.sane h.tidy hK hok.1.2 hstep, h.tidy.sysStep hstep,
    h.covered_sysStep hK hok hstep⟩

theorem Kernel.Ordered.reach (h : σ0.kernel.Ordered K) (hK : 0 < K)
    (hr : Reach SysStep Careful σ0 σ) : σ.kernel.Ordered K := by
  apply hr.invariant (I := fun a => a.kernel.Ordered K) h
  intro a c b ha hok hstep
  exact ha.sysStep hK hok hstep

end Runs

end Xv6.Vm
