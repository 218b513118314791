import Xv6.Vm.Rework
import Xv6.Vm.Sane

/-!
# What `sbrk`, `exec` and `wait` do

`sbrk` moves the end of the image, `exec` replaces the page table or leaves it as it was,
and `wait` gives up the page table of a child. Each is described by the page tables and
process entries before and after.
-/
namespace Xv6.Vm

open Library Relation Kernel

section Frames

variable {t p q ip va : ℕ} {s s' : Kernel} {b : Bool} {u : PUnit}

/-- A program that works on the files and does not depend on anything else. -/
def FilesOnly {α : Type} (x : KernelM α) : Prop :=
  ∀ s r s', x s = .ok r s' → ∃ ino fb, s' = s.withFiles ino fb ∧
    ∀ y : Kernel, y.inode = s.inode → y.freeBlocks = s.freeBlocks →
      x y = .ok r (y.withFiles ino fb)

namespace FilesOnly

variable {α β : Type} {x y : KernelM α}

theorem pure (a : α) : FilesOnly (Pure.pure a : KernelM α) := by
  intro s r s' hx
  obtain ⟨rfl, rfl⟩ := pure_ok.mp hx
  refine ⟨s.inode, s.freeBlocks, rfl, fun y hi hf => ?_⟩
  rw [← hi, ← hf]
  rfl

theorem throw (e : Stop) : FilesOnly (MonadExcept.throw e : KernelM α) := by
  intro s r s' hx
  cases hx

theorem bind {f : α → KernelM β} (hx : FilesOnly x) (hf : ∀ a, FilesOnly (f a)) :
    FilesOnly (x >>= f) := by
  intro s r s' h
  obtain ⟨a, s₁, h1, h2⟩ := bind_ok.mp h
  obtain ⟨ino, fb, rfl, hsame1⟩ := hx s a s₁ h1
  obtain ⟨ino', fb', rfl, hsame2⟩ := hf a _ r s' h2
  refine ⟨ino', fb', rfl, fun y hi hb => ?_⟩
  exact bind_ok.mpr ⟨a, _, hsame1 y hi hb, hsame2 (y.withFiles ino fb) rfl rfl⟩

theorem ite {c : Prop} [Decidable c] (hx : FilesOnly x) (hy : FilesOnly y) :
    FilesOnly (if c then x else y) := by
  split_ifs
  · exact hx
  · exact hy

theorem inode {f : Inode → KernelM α} (hf : ∀ i, FilesOnly (f i)) :
    FilesOnly (get >>= fun s => f (s.inode ip)) := by
  intro s r s' hx
  rw [get_run] at hx
  obtain ⟨ino, fb, rfl, hsame⟩ := hf _ s r s' hx
  refine ⟨ino, fb, rfl, fun y hi hb => bind_ok.mpr ⟨y, y, rfl, ?_⟩⟩
  rw [hi]
  exact hsame y hi hb

theorem setInode (k : ℕ) (f : Inode → Inode) :
    FilesOnly (modify fun s => s.setInode k (f (s.inode k)) : KernelM PUnit) := by
  intro s r s' hx
  obtain rfl := modify_ok.mp hx
  refine ⟨_, s.freeBlocks, rfl, fun y hi hb => modify_ok.mpr ?_⟩
  rw [← hb]
  simp [Kernel.setInode, Kernel.withFiles, hi]

theorem balloc : FilesOnly balloc := by
  intro s r s' hx
  unfold Vm.balloc at hx
  rw [get_run] at hx
  rcases pure_ite_ok hx with ⟨hz, rfl, rfl⟩ | ⟨hz, hx⟩
  · refine ⟨s.inode, s.freeBlocks, rfl, fun y hi hb => ?_⟩
    have hrun : (Vm.balloc y) = .ok false y := by
      unfold Vm.balloc
      exact bind_ok.mpr ⟨y, y, rfl, by rw [if_pos (by omega)]; rfl⟩
    rw [hrun, ← hi, ← hb]
    rfl
  · simp only [bind_ok, set_ok, pure_ok] at hx
    obtain ⟨_, _, rfl, rfl, rfl⟩ := hx
    refine ⟨s.inode, s.freeBlocks - 1, rfl, fun y hi hb => ?_⟩
    unfold Vm.balloc
    refine bind_ok.mpr ⟨y, y, rfl, ?_⟩
    rw [if_neg (by omega), ← hi, ← hb]
    rfl

theorem bmapEntry {bn : ℕ} : FilesOnly (bmapEntry ip bn) := by
  apply inode (f := fun i => if i.blocks bn then _ else _)
  intro i
  have hset := setInode ip fun i =>
    { i with blocks := Function.update i.blocks bn true, data := i.data.fill (bn * bSize) 0 bSize }
  exact ite (pure true) (bind balloc fun _ => ite (bind hset fun _ => pure true) (pure false))

theorem bmap {bn : ℕ} : FilesOnly (bmap ip bn) := by
  unfold Vm.bmap
  apply ite bmapEntry
  apply ite _ (throw _)
  apply inode (f := fun i => if i.indirect then _ else _)
  intro i
  have hset := setInode ip fun i => { i with indirect := true }
  exact ite bmapEntry (bind balloc fun _ => ite (bind hset fun _ => bmapEntry) (pure false))

theorem readLoop {n fuel tot off : ℕ} {dst : Bytes} :
    FilesOnly (readLoop ip n fuel dst tot off) := by
  induction fuel generalizing dst tot off with
  | zero => exact pure _
  | succ fuel ih =>
    unfold Vm.readLoop
    apply ite _ (pure _)
    apply bind bmap
    intro b
    apply ite _ (pure _)
    exact inode (f := fun i => Vm.readLoop ip n fuel
      (dst.blit tot (fun k => i.data (off + k)) _) _ _)
      fun _ => ih

theorem readKernel {off n : ℕ} : FilesOnly (readKernel ip off n) := by
  apply inode (f := fun i =>
    if off > i.size ∨ u32 (off + n) < off then Pure.pure (fun _ => 0, 0)
    else
      let n := if u32 (off + n) > i.size then i.size - off else n
      Vm.readLoop ip n n (fun _ => 0) 0 off)
  intro i
  exact ite (pure _) readLoop

theorem loadSegments {k : ℕ} {off : ℤ} {g : Segments} : FilesOnly (loadSegments ip k off g) := by
  induction k generalizing off g with
  | zero => exact pure _
  | succ k ih =>
    unfold Vm.loadSegments
    apply bind readKernel
    intro r
    exact ite (pure _) (ite ih (ite ih (pure _)))

end FilesOnly

theorem allocPhysicalVMA_apart {r : Region} {perm : Perm} (hq : q ≠ p)
    (hx : allocPhysicalVMA r p va perm s = .ok u s') (v : ℕ) : s'.trans q v = s.trans q v := by
  obtain ⟨pa, rest, -, bytes, ino, fb, b, s₁, -, -, -, -, hmap, hcase⟩ := allocPhysicalVMA_run hx
  have h1 : s₁.trans q v = s.trans q v := (mappages_spec hmap).1.trans_of_ne hq v
  rcases hcase with ⟨-, rfl⟩ | ⟨-, rfl⟩ <;> exact h1

/-- `check_vmas` works on the page table of its process, and refuses without doing anything. -/
theorem checkVmas_apart (hq : q ≠ p) (hx : checkVmas p va s = .ok b s') :
    (∀ v, s'.trans q v = s.trans q v) ∧ (b = false → s' = s) := by
  unfold checkVmas at hx
  rw [get_run] at hx
  rcases ite_ok hx with ⟨-, hx⟩ | ⟨-, hx⟩
  · simp only [bind_ok, pure_ok] at hx
    obtain ⟨_, _, halloc, rfl, rfl⟩ := hx
    exact ⟨allocPhysicalVMA_apart hq halloc, by simp⟩
  rcases ite_ok hx with ⟨-, hx⟩ | ⟨-, hx⟩
  · simp only [bind_ok, pure_ok] at hx
    obtain ⟨_, _, halloc, rfl, rfl⟩ := hx
    exact ⟨allocPhysicalVMA_apart hq halloc, by simp⟩
  cases hv : s.findVma p va with
  | none =>
    simp only [hv, pure_ok] at hx
    obtain ⟨-, rfl⟩ := hx
    exact ⟨fun _ => rfl, fun _ => rfl⟩
  | some v =>
    cases hw : s.walkaddr p va with
    | none =>
      simp only [hv, hw, bind_ok, pure_ok] at hx
      obtain ⟨_, _, halloc, rfl, rfl⟩ := hx
      exact ⟨allocPhysicalVMA_apart hq halloc, by simp⟩
    | some phy =>
      simp only [hv, hw, bind_ok, pure_ok] at hx
      obtain ⟨_, _, hcow, rfl, rfl⟩ := hx
      refine ⟨fun v => ?_, by simp⟩
      rcases cow_ok hw hcow with rfl | hs | hg
      · rfl
      · exact hs.toLocal.tables q v hq
      · exact hg.toLocal.tables q v hq

/-- A page missing from the table under construction stays missing. -/
theorem userPageIn_ok {o : Option ℕ} (ht : t ≠ p) (hx : userPageIn t p va s = .ok o s') :
    s' = s ∧ o = s.walkaddr t va := by
  unfold userPageIn at hx
  rw [get_run] at hx
  cases hw : s.walkaddr t va with
  | some pa =>
    simp only [hw, pure_ok] at hx
    exact ⟨hx.2.symm, hx.1.symm⟩
  | none =>
    simp only [hw] at hx
    obtain ⟨b, s₁, hc, hx⟩ := bind_ok.mp hx
    obtain ⟨htab, hsame⟩ := checkVmas_apart ht hc
    rcases ite_ok hx with ⟨-, hx⟩ | ⟨hb, hx⟩
    · rw [get_run] at hx
      have hw' : s₁.walkaddr t va = none := by
        simpa [walkaddr, htab] using hw
      simp [hw'] at hx
    · obtain ⟨rfl, rfl⟩ := pure_ok.mp hx
      exact ⟨hsame (by simpa using hb), rfl⟩

/-- Only the contents of user pages of page table `t` changed. -/
def Scribbled (t : ℕ) (s s' : Kernel) : Prop :=
  ∃ mm, s' = { s with mem := mm } ∧ ∀ pa, (∀ va, s.walkaddr t va ≠ some pa) → mm pa = s.mem pa

theorem Scribbled.refl (s : Kernel) : Scribbled t s s := ⟨s.mem, rfl, fun _ _ => rfl⟩

theorem Scribbled.andThen {s₁ : Kernel} (h : Scribbled t s s₁) (h' : Scribbled t s₁ s') :
    Scribbled t s s' := by
  obtain ⟨_, rfl, h1⟩ := h
  obtain ⟨mm, rfl, h2⟩ := h'
  exact ⟨mm, rfl, fun pa hpa => (h2 pa hpa).trans (h1 pa hpa)⟩

theorem Scribbled.setPage {pa : ℕ} (h : s.walkaddr t va = some pa) (bytes : Bytes) :
    Scribbled t s (s.setPage pa bytes) := by
  refine ⟨_, rfl, fun a ha => ?_⟩
  have hne : a ≠ pa := fun he => ha va (he ▸ h)
  exact Function.update_of_ne hne _ _

theorem copyoutIn_ok {src : Bytes} {dstva len : ℕ} (ht : t ≠ p)
    (hx : copyoutIn t p dstva src len s = .ok b s') : Scribbled t s s' := by
  have hloop : ∀ fuel dstva done len (s : Kernel),
      copyoutInLoop t p src fuel dstva done len s = .ok b s' → Scribbled t s s' := by
    intro fuel
    induction fuel with
    | zero =>
      intro dstva done len s hx
      obtain ⟨-, rfl⟩ := pure_ok.mp hx
      exact Scribbled.refl s
    | succ fuel ih =>
      intro dstva done len s hx
      unfold copyoutInLoop at hx
      rcases pure_ite_ok hx with ⟨-, -, rfl⟩ | ⟨-, hx⟩
      · exact Scribbled.refl s
      obtain ⟨o, s₁, hpage, hx⟩ := bind_ok.mp hx
      obtain ⟨hsame, ho⟩ := userPageIn_ok ht hpage
      rw [hsame] at hx
      cases o with
      | none =>
        obtain ⟨-, rfl⟩ := pure_ok.mp hx
        exact Scribbled.refl s
      | some pa =>
        simp only [bind_ok, modify_ok] at hx
        obtain ⟨_, _, rfl, hx⟩ := hx
        exact (Scribbled.setPage ho.symm _).andThen (ih _ _ _ _ hx)
  exact hloop _ _ _ _ _ hx

theorem push_ok {stackbase sp len : ℕ} {src : Bytes} {o : Option ℕ} (ht : t ≠ p)
    (hx : push t p stackbase sp src len s = .ok o s') : Scribbled t s s' := by
  unfold push at hx
  rcases pure_ite_ok hx with ⟨-, -, rfl⟩ | ⟨-, hx⟩
  · exact Scribbled.refl s
  obtain ⟨b, s₁, hcopy, hx⟩ := bind_ok.mp hx
  have h1 := copyoutIn_ok ht hcopy
  rcases ite_ok hx with ⟨-, hx⟩ | ⟨-, hx⟩ <;>
  · obtain ⟨-, rfl⟩ := pure_ok.mp hx
    exact h1

theorem pushArgs_ok {stackbase sp : ℕ} {argv : List (List UInt8)} {ustack : List ℕ}
    {o : Option (ℕ × List ℕ)} (ht : t ≠ p)
    (hx : pushArgs t p stackbase argv sp ustack s = .ok o s') : Scribbled t s s' := by
  induction argv generalizing sp ustack s with
  | nil =>
    obtain ⟨-, rfl⟩ := pure_ok.mp hx
    exact Scribbled.refl s
  | cons arg argv ih =>
    unfold pushArgs at hx
    rcases pure_ite_ok hx with ⟨-, -, rfl⟩ | ⟨-, hx⟩
    · exact Scribbled.refl s
    obtain ⟨o1, s₁, hpush, hx⟩ := bind_ok.mp hx
    have h1 := push_ok ht hpush
    cases o1 with
    | none =>
      obtain ⟨-, rfl⟩ := pure_ok.mp hx
      exact h1
    | some sp => exact h1.andThen (ih hx)

theorem pushStack_ok {sz : ℕ} {argv : List (List UInt8)} (ht : t ≠ p)
    (hx : pushStack t p sz argv s = .ok b s') : Scribbled t s s' := by
  unfold pushStack at hx
  obtain ⟨o, s₁, hargs, hx⟩ := bind_ok.mp hx
  have h1 := pushArgs_ok ht hargs
  cases o with
  | none =>
    obtain ⟨-, rfl⟩ := pure_ok.mp hx
    exact h1
  | some r =>
    obtain ⟨o2, s2, hpush, hx⟩ := bind_ok.mp hx
    have h2 := push_ok ht hpush
    cases o2 <;>
    · obtain ⟨-, rfl⟩ := pure_ok.mp hx
      exact h1.andThen h2

end Frames

section Sbrk

variable {p : ℕ} {s s' : Kernel}

/-- The end of the image moved, and the pages between the old and the new end came or went. -/
def Resized (p : ℕ) (s s' : Kernel) : Prop :=
  ∃ s₁ sz, Reworked p s s₁ ∧ s' = s₁.setProc p (fun q => { q with sz }) ∧ sz ≤ Xv6.trapframe ∧
    (((s.proc p).sz ≤ sz ∧ Extended p dataPerm (pgRoundUp (s.proc p).sz / pgSize)
        (pgRoundUp sz / pgSize - pgRoundUp (s.proc p).sz / pgSize) s s₁) ∨
      (sz ≤ (s.proc p).sz ∧ ∀ v, s₁.trans p v =
        if pgRoundUp sz / pgSize ≤ v ∧ v < pgRoundUp (s.proc p).sz / pgSize then none
        else s.trans p v))

theorem trapframe_le : Xv6.trapframe ≤ maxVa := by decide

theorem Resized.of_same {s₁ : Kernel} (h : Reworked p s s₁) (hsz : (s.proc p).sz ≤ Xv6.trapframe)
    (ht : ∀ v, s₁.trans p v = s.trans p v) : Resized p s s₁ := by
  refine ⟨s₁, (s.proc p).sz, h, ?_, hsz, .inl ⟨le_rfl, ⟨fun w _ _ => by omega, fun w _ => ht w⟩⟩⟩
  rw [← h.proc]
  simp [setProc]

theorem pagesTo_eq {oldsz newsz : ℕ} (hold : oldsz ≤ maxVa) :
    pagesTo oldsz newsz = pgRoundUp newsz / pgSize - pgRoundUp oldsz / pgSize := by
  rw [pagesTo, pgRoundUp64_eq hold]
  unfold pgRoundUp pgSize
  omega

theorem Extended.le_trapframe {t n v : ℕ} {perm : Perm} (h : Extended t perm v n s s')
    (hsp : s.Special t) (hv : v ≤ trapVpn) : v + n ≤ trapVpn := by
  by_contra hgt
  obtain ⟨hlt, hnone, -⟩ := h.fresh trapVpn hv (by omega)
  obtain ⟨pte, ht, -⟩ := hsp trapVpn le_rfl hlt
  rw [hnone] at ht
  cases ht

/-- `sbrk` sets the size that is asked for, or leaves it. -/
theorem growproc_resized {n : ℤ} {b : Bool} (hn : -2 ^ 31 ≤ n ∧ n < 2 ^ 31)
    (hsz : (s.proc p).sz ≤ Xv6.trapframe) (hsp : s.Special p) (hx : growproc p n s = .ok b s') :
    Resized p s s' ∧
      ((s'.proc p).sz = (s.proc p).sz ∨ ((s'.proc p).sz : ℤ) = (s.proc p).sz + n) := by
  have htf := trapframe_mul
  have hsmall : Xv6.trapframe < 2 ^ 38 := by decide
  have hmax : (s.proc p).sz ≤ maxVa := hsz.trans trapframe_le
  unfold growproc at hx
  rw [get_run] at hx
  rcases ite_ok hx with ⟨hpos, hx⟩ | ⟨-, hx⟩
  · obtain ⟨r, s₁, halloc, hx⟩ := bind_ok.mp hx
    obtain ⟨h1, hcase⟩ := uvmalloc_spec halloc
    have hnew : u64 ((s.proc p).sz + n) = (s.proc p).sz + n.toNat := by
      unfold u64
      omega
    rw [hnew] at hcase
    rcases hcase with ⟨hlt, -⟩ | ⟨-, rfl, hext⟩ | ⟨-, rfl, hsame⟩
    · omega
    · rw [pgRoundUp64_eq hmax, pagesTo_eq hmax] at hext
      have hstart : pgRoundUp (s.proc p).sz / pgSize ≤ trapVpn := by
        unfold pgRoundUp pgSize at *
        omega
      have hend := hext.le_trapframe hsp hstart
      rcases ite_ok hx with ⟨hz, hx⟩ | ⟨-, hx⟩
      · omega
      simp only [bind_ok, modify_ok, pure_ok] at hx
      obtain ⟨_, _, rfl, -, rfl⟩ := hx
      have hle : (s.proc p).sz + n.toNat ≤ Xv6.trapframe := by
        unfold pgRoundUp pgSize at *
        omega
      refine ⟨⟨s₁, _, h1, rfl, hle, .inl ⟨by omega, hext⟩⟩, .inr ?_⟩
      simp only [setProc, Function.update_self]
      omega
    · rw [if_pos rfl] at hx
      obtain ⟨-, rfl⟩ := pure_ok.mp hx
      exact ⟨Resized.of_same h1 hsz hsame, .inl (by rw [h1.proc])⟩
  rcases ite_ok hx with ⟨hneg, hx⟩ | ⟨-, hx⟩
  · simp only [bind_ok, modify_ok, pure_ok] at hx
    obtain ⟨r, s₁, hdealloc, _, _, rfl, -, rfl⟩ := hx
    obtain ⟨h1, rfl, ht⟩ := uvmdealloc_spec hmax hdealloc
    refine ⟨⟨s₁, _, h1, rfl, (Nat.min_le_right _ _).trans hsz, .inr ⟨Nat.min_le_right _ _, ?_⟩⟩, ?_⟩
    · intro v
      rw [ht]
      by_cases hle : u64 ((s.proc p).sz + n) ≤ (s.proc p).sz
      · rw [Nat.min_eq_left hle]
      · have hmono := pgRoundUp_div_mono (Nat.le_of_not_le hle)
        rw [Nat.min_eq_right (Nat.le_of_not_le hle), if_neg (by omega), if_neg (by omega)]
    · simp only [setProc, Function.update_self]
      unfold u64
      omega
  · obtain ⟨-, rfl⟩ := pure_ok.mp hx
    exact ⟨Resized.of_same (Reworked.refl s) hsz fun _ => rfl, .inl rfl⟩

end Sbrk

section Image

variable {t p : ℕ} {s s₁ s' : Kernel} {b : Bool}

def Kernel.Hollow (s : Kernel) (t : ℕ) : Prop :=
  s.Special t ∧ ∀ v pte, s.trans t v = some pte → trapVpn ≤ v ∧ pte.perm.u = false

theorem procPagetableIn_trans (hn : s.table t = none) (hx : procPagetableIn t p s = .ok true s')
    (v : ℕ) : s'.trans t v =
      if v = trapVpn then some ⟨true, ⟨true, true, false, false⟩, (s.proc p).trapframe.getD 0⟩
      else if v = trapVpn + 1 then some ⟨true, ⟨true, false, true, false⟩, s.trampolinePage⟩
      else none := by
  rcases procPagetableIn_cases hx with ⟨hb, -⟩ |
    ⟨s₁, hcreate, ⟨hb, -⟩ | ⟨s2, hmap2, ⟨hb, -⟩ | ⟨-, hmap3⟩⟩⟩
  · cases hb
  · cases hb
  · cases hb
  obtain ⟨h1, -, hok⟩ := uvmcreate_spec hn hcreate
  obtain ⟨-, hempty⟩ := hok rfl
  obtain ⟨-, -, -, ht2⟩ := mappages_spec hmap2
  obtain ⟨-, -, -, ht3⟩ := mappages_spec hmap3
  have hvpn : Xv6.trapframe / pgSize = trapVpn ∧ trampoline / pgSize = trapVpn + 1 := by decide
  obtain ⟨_, _, _, _, _, rfl⟩ := h1.frame
  rw [ht3, ht2, hvpn.1, hvpn.2, hempty]
  simp

theorem procPagetableIn_spec (hn : s.table t = none) (hx : procPagetableIn t p s = .ok b s') :
    Reworked t s s' ∧ (b = false → s'.table t = none) ∧ (b = true → s'.Hollow t) := by
  have htrans := fun hb : b = true => procPagetableIn_trans hn (hb ▸ hx)
  rcases procPagetableIn_cases hx with ⟨rfl, hcreate⟩ | ⟨s₁, hcreate, hx⟩
  · obtain ⟨h1, hfail, -⟩ := uvmcreate_spec hn hcreate
    exact ⟨h1, hfail, by simp⟩
  have h1 := (uvmcreate_spec hn hcreate).1
  rcases hx with ⟨rfl, s2, hmap2, hfree⟩ | ⟨s2, hmap2, hx⟩
  · obtain ⟨h3, hnone⟩ := uvmfree_spec hfree
    exact ⟨(h1.andThen (mappages_spec hmap2).1).andThen h3, fun _ => hnone, by simp⟩
  have h2 := h1.andThen (mappages_spec hmap2).1
  rcases hx with ⟨rfl, s3, s4, hmap3, hun, hfree⟩ | ⟨rfl, hmap3⟩
  · obtain ⟨h5, hnone⟩ := uvmfree_spec hfree
    exact ⟨((h2.andThen (mappages_spec hmap3).1).andThen (uvmunmap_spec hun).1).andThen h5,
      fun _ => hnone, by simp⟩
  have hframe := h2.andThen (mappages_spec hmap3).1
  have hvpn : maxVa / pgSize = trapVpn + 2 := by decide
  refine ⟨hframe, by simp, fun _ => ⟨fun v hv hlt => ?_, fun v pte ht => ?_⟩⟩
  · rw [htrans rfl]
    by_cases hv' : v = trapVpn
    · rw [if_pos hv']
      exact ⟨_, rfl, rfl⟩
    · rw [if_neg hv', if_pos (by omega)]
      exact ⟨_, rfl, rfl⟩
  · rw [htrans rfl] at ht
    split_ifs at ht with hv' hv''
    · cases ht
      exact ⟨hv'.ge, rfl⟩
    · cases ht
      exact ⟨by omega, rfl⟩

/-- A new image: besides the trampoline and the trapframe, the stack and the page below it. -/
structure Stacked (t sz : ℕ) (s : Kernel) : Prop where
  special : s.Special t
  pages : ∀ v pte, s.trans t v = some pte →
    (trapVpn ≤ v ∧ pte.perm.u = false) ∨ (v + 2 = sz / pgSize ∧ pte.perm.u = false) ∨
      (v + 1 = sz / pgSize ∧ pte.perm = dataPerm)
  stack : ∀ v, v < sz / pgSize → sz / pgSize ≤ v + 2 → s.trans t v ≠ none
  aligned : sz % pgSize = 0
  room : sz ≤ Xv6.trapframe

theorem Stacked.of_trans {sz : ℕ} (h : Stacked t sz s) {t' : ℕ}
    (ht : ∀ v, s'.trans t' v = s.trans t v) : Stacked t' sz s' where
  special v hv hlt := by
    rw [ht]
    exact h.special v hv hlt
  pages v pte hv := h.pages v pte ((ht v).symm.trans hv)
  stack v := by
    rw [ht]
    exact h.stack v
  aligned := h.aligned
  room := h.room

theorem Stacked.low {sz v : ℕ} {pte : Pte} (h : Stacked t sz s) (ht : s.trans t v = some pte)
    (hu : pte.perm.u = true) : v < trapVpn := by
  have htf := trapframe_mul
  have hle := Nat.div_le_div_right (c := pgSize) h.room
  rw [htf, Nat.mul_div_cancel _ (by decide)] at hle
  rcases h.pages v pte ht with ⟨-, hno⟩ | ⟨-, hno⟩ | ⟨hlast, -⟩
  · simp [hno] at hu
  · simp [hno] at hu
  · omega

theorem uvmclear_trans {va : ℕ} {pte : Pte} {u : PUnit} (hpte : s.trans t (va / pgSize) = some pte)
    (hx : uvmclear t va s = .ok u s') (v : ℕ) : s'.trans t v =
      if v = va / pgSize then some { pte with perm := { pte.perm with u := false } }
      else s.trans t v := by
  unfold uvmclear at hx
  rw [get_run] at hx
  obtain ⟨-, hx⟩ := throw_ite_ok hx
  have hl := lookup_isSome_of_trans hpte
  obtain ⟨pte0, hpte0⟩ := Option.isSome_iff_exists.mp hl
  simp only [hpte0, set_ok] at hx
  subst hx
  have hsame : pte0 = pte ∧ pte.valid = true := by
    have htr : s.trans t (va / pgSize) = (s.lookup t (va / pgSize)).filter (·.valid) := by
      unfold Kernel.trans lookup PageTable.trans
      cases s.table t <;> rfl
    rw [hpte0, hpte, eq_comm, Option.filter_eq_some_iff] at htr
    obtain ⟨he, hval⟩ := htr
    cases he
    exact ⟨rfl, hval⟩
  rw [trans_withPte hl, hsame.1]
  simp [hsame.2]

/-- Two pages for the stack, one of them out of reach of user code. -/
theorem stacked_of_alloc {size : ℕ} {u : PUnit} (hal : size % pgSize = 0) (hh : s.Hollow t)
    (hext : Extended t dataPerm (size / pgSize) 2 s s₁)
    (hclear : uvmclear t size s₁ = .ok u s') : Stacked t (size + 2 * pgSize) s' := by
  obtain ⟨hsp, hhigh⟩ := hh
  have htf := trapframe_mul
  have hvpn : maxVa / pgSize = trapVpn + 2 := by decide
  obtain ⟨hlt, -, pa, hpa⟩ := hext.fresh (size / pgSize) le_rfl (by omega)
  have hstart : size / pgSize ≤ trapVpn := by
    by_contra hgt
    obtain ⟨hlt', -⟩ := hext.fresh (size / pgSize + 1) (by omega) (by omega)
    omega
  have hend := hext.le_trapframe hsp hstart
  have ht := uvmclear_trans hpa hclear
  have hsz : (size + 2 * pgSize) / pgSize = size / pgSize + 2 :=
    Nat.add_mul_div_right _ _ (by decide)
  constructor
  · intro v hv hlt
    rw [ht, if_neg (by omega), hext.old v (by omega)]
    exact hsp v hv hlt
  · intro v pte hv
    rw [ht] at hv
    rw [hsz]
    split_ifs at hv with hvs
    · cases hv
      exact .inr (.inl ⟨by omega, rfl⟩)
    · by_cases hv1 : v = size / pgSize + 1
      · obtain ⟨-, -, pa', hpa'⟩ := hext.fresh v (by omega) (by omega)
        rw [hpa'] at hv
        cases hv
        exact .inr (.inr ⟨by omega, rfl⟩)
      · rw [hext.old v (by omega)] at hv
        exact .inl (hhigh v pte hv)
  · intro v hlo hhi
    rw [ht]
    split_ifs with hvs
    · simp
    · obtain ⟨-, -, pa', hpa'⟩ := hext.fresh v (by omega) (by omega)
      simp [hpa']
  · unfold pgSize at *
    omega
  · unfold pgSize at *
    omega

/-- What `exec` does to the rest of the kernel: pages, files and the page table it builds. -/
structure Beside (p : ℕ) (s s' : Kernel) : Prop where
  proc : s'.proc = s.proc
  vmas : s'.vmas = s.vmas
  file : s'.file = s.file
  table : ∀ q, q ≠ spare p → s'.table q = s.table q

namespace Beside

theorem andThen (h : Beside p s s₁) (h' : Beside p s₁ s') : Beside p s s' where
  proc := h'.proc.trans h.proc
  vmas := h'.vmas.trans h.vmas
  file := h'.file.trans h.file
  table q hq := (h'.table q hq).trans (h.table q hq)

theorem of_reworked (h : Reworked (spare p) s s') : Beside p s s' :=
  ⟨h.proc, h.vmas, h.file, fun _ hq => h.table hq⟩

theorem withFiles {ino : ℕ → Inode} {fb : ℕ} : Beside p s (s.withFiles ino fb) :=
  ⟨rfl, rfl, rfl, fun _ _ => rfl⟩

theorem of_scribbled (h : Scribbled t s s') : Beside p s s' := by
  obtain ⟨mm, rfl, -⟩ := h
  exact ⟨rfl, rfl, rfl, fun _ _ => rfl⟩

theorem ilocked {l : List ℕ} : Beside p s { s with ilocked := l } :=
  ⟨rfl, rfl, rfl, fun _ _ => rfl⟩

theorem of_iunlock {i : ℕ} {u : PUnit} (hx : iunlock i s = .ok u s') : Beside p s s' := by
  unfold iunlock at hx
  rw [← modify_ok.mp hx]
  exact ilocked

end Beside

structure Replaced (p sz : ℕ) (s s' : Kernel) : Prop where
  procs : s'.proc = Function.update s.proc p { s.proc p with sz }
  vmas : s'.vmas = s.vmas
  file : s'.file = s.file
  table : ∀ q, q ≠ p → q ≠ spare p → s'.table q = s.table q
  cleared : s'.table (spare p) = none
  shallow : s.Shallow (spare p) → s'.Shallow p
  stacked : Stacked p sz s'
  freed : ∃ u s₀, s₀.table (spare p) = s.table p ∧
    procFreepagetable (spare p) (s.proc p).sz s₀ = .ok u s'

theorem Segments.size_mod (g : Segments) : g.size % pgSize = 0 := pgRoundUp64_mod _

theorem spare_ne (p : ℕ) : spare p ≠ p := by
  have hpos : nProc ≠ 0 := by decide
  unfold spare
  omega

theorem Replaced.after {sz : ℕ} (h : Beside p s s₁)
    (hs : s.Shallow (spare p) → s₁.Shallow (spare p))
    (hr : Replaced p sz s₁ s') : Replaced p sz s s' where
  procs := by rw [hr.procs, h.proc]
  vmas := hr.vmas.trans h.vmas
  file := hr.file.trans h.file
  table q hq hq' := (hr.table q hq hq').trans (h.table q hq')
  cleared := hr.cleared
  shallow hsp := hr.shallow (hs hsp)
  stacked := hr.stacked
  freed := by
    obtain ⟨u, s₀, htab, hx⟩ := hr.freed
    rw [h.table p (spare_ne p).symm] at htab
    rw [h.proc] at hx
    exact ⟨u, s₀, htab, hx⟩

/-- The swap of page tables in `exec`. -/
theorem replaced_of_swap {sz : ℕ} {u : PUnit} (hst : Stacked (spare p) sz s)
    (hx : procFreepagetable (spare p) (s.proc p).sz
    (((s.setTable p (s.table (spare p))).setTable (spare p)
      (s.table p)).setProc p fun q => { q with sz }) = .ok u s') : Replaced p sz s s' := by
  have hne := spare_ne p
  obtain ⟨h, hnone⟩ := procFreepagetable_spec hx
  have htab : s'.table p = s.table (spare p) := by
    rw [h.table hne.symm]
    simp [setTable, setProc, hne.symm]
  constructor
  · rw [h.proc]
    rfl
  · rw [h.vmas]
    rfl
  · rw [h.file]
    rfl
  · intro q hq hq'
    rw [h.table hq']
    simp [setTable, setProc, hq, hq']
  · exact hnone
  · intro hs pt hpt
    exact hs pt (htab ▸ hpt)
  · apply hst.of_trans
    intro v
    simp [Kernel.trans, htab]
  · exact ⟨u, _, by simp [setTable, setProc], hx⟩

theorem pgRoundUp64_lt (n : ℕ) : pgRoundUp64 n < 2 ^ 64 :=
  (Nat.div_mul_le_self _ _).trans_lt (u64_lt _)

/-- Without room above the image, `uvmclear` panics. -/
theorem uvmclear_lt {va : ℕ} {u : PUnit} (hx : uvmclear t va s = .ok u s') :
    va < maxVa ∧ Reworked t s s' := by
  unfold uvmclear at hx
  rw [get_run] at hx
  obtain ⟨hlt, hx⟩ := throw_ite_ok hx
  cases hl : s.lookup t (va / pgSize) with
  | none => simp [hl] at hx
  | some pte =>
    simp only [hl, set_ok] at hx
    subst hx
    exact ⟨Nat.lt_of_not_le hlt, Reworked.withPte⟩

/-- The pages of the stack are new, and the lower one is cleared. -/
theorem extended_of_image {g : Segments} {sz : ℕ} {u : PUnit}
    (halloc : uvmalloc t g.size (u64 (g.size + 2 * pgSize)) dataPerm s = .ok sz s₁) (hsz : sz ≠ 0)
    (hclear : uvmclear t (u64 (sz - 2 * pgSize)) s₁ = .ok u s') :
    sz = g.size + 2 * pgSize ∧ Extended t dataPerm (g.size / pgSize) 2 s s₁ ∧
      uvmclear t g.size s₁ = .ok u s' := by
  have hsmall : g.size < 2 ^ 64 := pgRoundUp64_lt _
  obtain ⟨-, hcase⟩ := uvmalloc_spec halloc
  obtain ⟨hva, -⟩ := uvmclear_lt hclear
  have hroom : sz = g.size + 2 * pgSize ∧
      Extended t dataPerm (pgRoundUp64 g.size / pgSize) (pagesTo g.size sz) s s₁ := by
    rcases hcase with ⟨hlt, hsz', -⟩ | ⟨hge, hsz', hext⟩ | ⟨-, hsz', -⟩
    · unfold u64 maxVa pgSize at *
      omega
    · refine ⟨?_, hsz' ▸ hext⟩
      unfold u64 pgSize at *
      omega
    · exact absurd hsz' hsz
  obtain ⟨rfl, hext⟩ := hroom
  have hsub : u64 ((g.size + 2 * pgSize : ℕ) - 2 * pgSize) = g.size := by
    unfold u64
    omega
  have hround := pgRoundUp64_of_aligned g.size_mod hsmall
  have hpages : pagesTo g.size (g.size + 2 * pgSize) = 2 := by
    rw [pagesTo, hround, Nat.add_sub_cancel_left]
    rfl
  rw [hround, hpages] at hext
  rw [hsub] at hclear
  exact ⟨rfl, hext, hclear⟩

theorem stacked_of_image {g : Segments} {sz : ℕ} {u : PUnit} (hh : s.Hollow t)
    (halloc : uvmalloc t g.size (u64 (g.size + 2 * pgSize)) dataPerm s = .ok sz s₁) (hsz : sz ≠ 0)
    (hclear : uvmclear t (u64 (sz - 2 * pgSize)) s₁ = .ok u s') :
    sz = g.size + 2 * pgSize ∧ Stacked t sz s' := by
  obtain ⟨rfl, hext, hclear'⟩ := extended_of_image halloc hsz hclear
  exact ⟨rfl, stacked_of_alloc g.size_mod hh hext hclear'⟩

theorem execImage_ok {g : Segments} {argv : List (List UInt8)} (hh : s.Hollow (spare p))
    (hx : execImage p g argv s = .ok b s') :
    (b = false ∧ Beside p s s' ∧ s'.table (spare p) = none) ∨
      (b = true ∧ Replaced p (g.size + 2 * pgSize) s s') := by
  unfold execImage at hx
  rw [get_run] at hx
  obtain ⟨sz, s₁, halloc, hx⟩ := bind_ok.mp hx
  obtain ⟨h1, -⟩ := uvmalloc_spec halloc
  rcases ite_ok hx with ⟨-, hx⟩ | ⟨hsz, hx⟩
  · simp only [bind_ok, pure_ok] at hx
    obtain ⟨_, _, hfree, rfl, rfl⟩ := hx
    obtain ⟨h2, hnone⟩ := procFreepagetable_spec hfree
    exact .inl ⟨rfl, .of_reworked (h1.andThen h2), hnone⟩
  obtain ⟨_, s2, hclear, hx⟩ := bind_ok.mp hx
  obtain ⟨-, h2⟩ := uvmclear_lt hclear
  obtain ⟨rfl, hst⟩ := stacked_of_image hh halloc hsz hclear
  obtain ⟨b3, s3, hpush, hx⟩ := bind_ok.mp hx
  have h3 := pushStack_ok (spare_ne p) hpush
  have hframe : Beside p s s3 :=
    (Beside.of_reworked (h1.andThen h2)).andThen (Beside.of_scribbled h3)
  have hshallow : s.Shallow (spare p) → s3.Shallow (spare p) := by
    intro hs
    obtain ⟨mm, rfl, -⟩ := h3
    exact (h1.andThen h2).shallow hs
  have hst3 : Stacked (spare p) (g.size + 2 * pgSize) s3 := by
    obtain ⟨mm, rfl, -⟩ := h3
    exact hst.of_trans fun _ => rfl
  rcases ite_ok hx with ⟨-, hx⟩ | ⟨-, hx⟩
  · simp only [bind_ok, modify_ok, pure_ok] at hx
    obtain ⟨_, _, rfl, _, _, rfl, _, _, hfree, rfl, rfl⟩ := hx
    rw [← hframe.proc] at hfree
    exact .inr ⟨rfl, Replaced.after hframe hshallow (replaced_of_swap hst3 hfree)⟩
  · simp only [bind_ok, pure_ok] at hx
    obtain ⟨_, _, hfree, rfl, rfl⟩ := hx
    obtain ⟨h4, hnone⟩ := procFreepagetable_spec hfree
    exact .inl ⟨rfl, hframe.andThen (.of_reworked h4), hnone⟩

def Kernel.setSegments (s : Kernel) (p : ℕ) (g : Segments) (i : ℕ) : Kernel :=
  s.setProc p fun q => { q with text := g.text i, data := g.data i }

/-- What the headers of file `i` say, if `exec` accepts them. -/
def Kernel.headers (s : Kernel) (i : ℕ) : Option Segments :=
  match (do
    let (b, n) ← readKernel i 0 elfhdrSize
    if n ≠ elfhdrSize ∨ (ElfHdr.ofBytes b).magic ≠ elfMagic then return none
    else loadSegments i (ElfHdr.ofBytes b).phnum (i32 (ElfHdr.ofBytes b).phoff) .start :
      KernelM _) s with
  | .ok g _ => g
  | .error _ _ => none

theorem headers_of_read {i : ℕ} {r : Bytes × ℕ} {o : Option Segments}
    (hr : readKernel i 0 elfhdrSize s = .ok r s₁)
    (hl : (if r.2 ≠ elfhdrSize ∨ (ElfHdr.ofBytes r.1).magic ≠ elfMagic then pure none
      else loadSegments i (ElfHdr.ofBytes r.1).phnum (i32 (ElfHdr.ofBytes r.1).phoff) .start) s₁ =
        .ok o s') : s.headers i = o := by
  have hrun : (readKernel i 0 elfhdrSize >>= fun r =>
      if r.2 ≠ elfhdrSize ∨ (ElfHdr.ofBytes r.1).magic ≠ elfMagic then pure none
      else loadSegments i (ElfHdr.ofBytes r.1).phnum (i32 (ElfHdr.ofBytes r.1).phoff) .start) s =
        .ok o s' := bind_ok.mpr ⟨_, _, hr, hl⟩
  unfold headers
  change (match (readKernel i 0 elfhdrSize >>= fun r =>
      if r.2 ≠ elfhdrSize ∨ (ElfHdr.ofBytes r.1).magic ≠ elfMagic then pure none
      else loadSegments i (ElfHdr.ofBytes r.1).phnum (i32 (ElfHdr.ofBytes r.1).phoff)
        .start) s with
    | .ok g _ => g
    | .error _ _ => none) = o
  rw [hrun]

/-- What `exec` comes to: nothing, new regions with the old pages, or a new image. -/
inductive Execed (p : ℕ) (ip : Option ℕ) (argv : List (List UInt8)) (s s' : Kernel) : Prop
  | kept (h : Beside p s s') (hn : s'.table (spare p) = none)
  | failed (i : ℕ) (g : Segments) (hip : ip = some i) (hg : s.headers i = some g)
      (h : Beside p (s.setSegments p g i) s') (hn : s'.table (spare p) = none)
      (hx : exec p ip argv s = .ok false s')
  | done (i : ℕ) (g : Segments) (hip : ip = some i) (hg : s.headers i = some g)
      (h : Replaced p (g.size + 2 * pgSize) (s.setSegments p g i) s')

/-- The part of `exec` up to the program headers, with the inode locked at the end; `none`
stands for `goto bad`. -/
def execHead (p : ℕ) (ip : Option ℕ) : KernelM (Option (ℕ × Segments)) := do
  if ip = none then return none
  else
    let i ← ilock ip
    let (b, n) ← readKernel i 0 elfhdrSize
    let elf := ElfHdr.ofBytes b
    if n ≠ elfhdrSize ∨ elf.magic ≠ elfMagic then
      iunlock i
      return none
    else if ← procPagetableIn (spare p) p then
      match ← loadSegments i elf.phnum (i32 elf.phoff) .start with
      | none =>
        procFreepagetable (spare p) 0
        iunlock i
        return none
      | some g => return some (i, g)
    else
      iunlock i
      return none

theorem exec_eq (p : ℕ) (ip : Option ℕ) (argv : List (List UInt8)) :
    exec p ip argv = (do
      match ← execHead p ip with
      | none => return false
      | some (i, g) =>
        modify (·.setSegments p g i)
        iunlock i
        execImage p g argv) := by
  unfold exec execHead
  by_cases hip : ip = none
  · rw [if_pos hip, if_pos hip, pure_bind]
  rw [if_neg hip, if_neg hip]
  simp only [bind_assoc]
  congr 1
  funext i
  congr 1
  funext r
  by_cases hbad : r.2 ≠ elfhdrSize ∨ (ElfHdr.ofBytes r.1).magic ≠ elfMagic
  · simp only [if_pos hbad, bind_assoc, pure_bind]
  simp only [if_neg hbad, bind_assoc]
  congr 1
  funext b
  cases b with
  | false => simp only [Bool.false_eq_true, if_false, bind_assoc, pure_bind]
  | true =>
    simp only [if_true, bind_assoc]
    congr 1
    funext o
    cases o with
    | none => simp only [bind_assoc, pure_bind]
    | some g => rfl

/-- How `exec` gets through the headers of file `i`, from the state with the inode locked. -/
structure HeadRun (p i : ℕ) (g : Segments) (s s' : Kernel) : Prop where
  run : ∃ bytes n s₁ s₂, readKernel i 0 elfhdrSize s = .ok (bytes, n) s₁ ∧
    ¬(n ≠ elfhdrSize ∨ (ElfHdr.ofBytes bytes).magic ≠ elfMagic) ∧
    procPagetableIn (spare p) p s₁ = .ok true s₂ ∧
    loadSegments i (ElfHdr.ofBytes bytes).phnum (i32 (ElfHdr.ofBytes bytes).phoff) .start s₂ =
      .ok (some g) s'

/-- What `exec` that has accepted the headers of a file does to the page tables. -/
theorem execRest_ok {i : ℕ} {g : Segments} {argv : List (List UInt8)} {u : PUnit} {s2 : Kernel}
    (hb : Beside p s s₁) (hh : s₁.Hollow (spare p)) (hsh : s₁.Shallow (spare p))
    (hun : iunlock i (s₁.setSegments p g i) = .ok u s2)
    (hx : execImage p g argv s2 = .ok b s') :
    (b = false ∧ Beside p (s.setSegments p g i) s' ∧ s'.table (spare p) = none) ∨
      (b = true ∧ Replaced p (g.size + 2 * pgSize) (s.setSegments p g i) s') := by
  have hset : Beside p (s.setSegments p g i) (s₁.setSegments p g i) := by
    refine ⟨?_, hb.vmas, hb.file, hb.table⟩
    simp only [setSegments, setProc, hb.proc]
  have hbeside : Beside p (s.setSegments p g i) s2 := hset.andThen (.of_iunlock hun)
  unfold iunlock at hun
  obtain rfl := modify_ok.mp hun
  rcases execImage_ok (by exact hh) hx with ⟨hf, h2, hn2⟩ | ⟨ht, h2⟩
  · exact .inl ⟨hf, hbeside.andThen h2, hn2⟩
  · exact .inr ⟨ht, Replaced.after hbeside (fun _ => hsh) h2⟩

variable (hn : s.table (spare p) = none)
include hn

/-- Headers are read the same before and after the page table is made. -/
theorem headers_of_load {i n : ℕ} {bytes : Bytes} {o : Option Segments} {l : List ℕ} {s2 : Kernel}
    (hr : readKernel i 0 elfhdrSize { s with ilocked := l } = .ok (bytes, n) s₁)
    (hgood : ¬(n ≠ elfhdrSize ∨ (ElfHdr.ofBytes bytes).magic ≠ elfMagic))
    (hpt : procPagetableIn (spare p) p s₁ = .ok b s2)
    (hl : loadSegments i (ElfHdr.ofBytes bytes).phnum (i32 (ElfHdr.ofBytes bytes).phoff) .start
      s2 = .ok o s') : s.headers i = o := by
  obtain ⟨ino, fb, rfl, hsame⟩ := FilesOnly.readKernel _ _ _ hr
  obtain ⟨ino', fb', rfl, hsame'⟩ := FilesOnly.loadSegments _ _ _ hl
  obtain ⟨hw, -⟩ := procPagetableIn_spec (by exact hn) hpt
  obtain ⟨_, _, _, _, _, rfl⟩ := hw.frame
  have hload := hsame' (s.withFiles ino fb) rfl rfl
  exact headers_of_read (hsame s rfl rfl) ((congrFun (if_neg hgood) _).trans hload)

theorem headers_of_run {i : ℕ} {g : Segments} {l : List ℕ}
    (h : HeadRun p i g { s with ilocked := l } s') : s.headers i = some g := by
  obtain ⟨bytes, n, s₁, s2, hr, hgood, hpt, hl⟩ := h.run
  exact headers_of_load hn hr hgood hpt hl

/-- Until the headers are accepted, nothing but the page table under construction changes. -/
theorem execHead_ok {ip : Option ℕ} {o : Option (ℕ × Segments)} (hx : execHead p ip s = .ok o s') :
    Beside p s s' ∧ (o = none → s'.table (spare p) = none) ∧
      ∀ i g, o = some (i, g) → ip = some i ∧
        HeadRun p i g { s with ilocked := i :: s.ilocked } s' ∧
        s'.Hollow (spare p) ∧ s'.Shallow (spare p) := by
  unfold execHead at hx
  rcases pure_ite_ok hx with ⟨-, rfl, rfl⟩ | ⟨-, hx⟩
  · exact ⟨⟨rfl, rfl, rfl, fun _ _ => rfl⟩, fun _ => hn, by simp⟩
  obtain ⟨i, s0, hlock, hx⟩ := bind_ok.mp hx
  obtain ⟨hip, -, rfl⟩ := ilock_ok hlock
  obtain ⟨⟨bytes, n⟩, s₁, hread, hx⟩ := bind_ok.mp hx
  obtain ⟨ino, fb, hs1, -⟩ := FilesOnly.readKernel _ _ _ hread
  have h1 : Beside p s s₁ := hs1 ▸ Beside.ilocked.andThen Beside.withFiles
  have hn1 : s₁.table (spare p) = none := hs1 ▸ hn
  have hdone : ∀ {x x' : Kernel} {u : PUnit}, Beside p s x → x.table (spare p) = none →
      iunlock i x = .ok u x' → Beside p s x' ∧ x'.table (spare p) = none := by
    intro x x' u hb hnone hun
    refine ⟨hb.andThen (.of_iunlock hun), ?_⟩
    unfold iunlock at hun
    rw [← modify_ok.mp hun]
    exact hnone
  rcases ite_ok hx with ⟨-, hx⟩ | ⟨hgood, hx⟩
  · simp only [bind_ok, pure_ok] at hx
    obtain ⟨_, _, hun, rfl, rfl⟩ := hx
    obtain ⟨hb, hnone⟩ := hdone h1 hn1 hun
    exact ⟨hb, fun _ => hnone, by simp⟩
  obtain ⟨b2, s2, hcreate, hx⟩ := bind_ok.mp hx
  obtain ⟨h2, hfail, hok⟩ := procPagetableIn_spec hn1 hcreate
  have hframe : Beside p s s2 := h1.andThen (.of_reworked h2)
  rcases ite_ok hx with ⟨hb2, hx⟩ | ⟨hb2, hx⟩
  swap
  · simp only [bind_ok, pure_ok] at hx
    obtain ⟨_, _, hun, rfl, rfl⟩ := hx
    obtain ⟨hb, hnone⟩ := hdone hframe (hfail (by simpa using hb2)) hun
    exact ⟨hb, fun _ => hnone, by simp⟩
  obtain ⟨o3, s3, hload, hx⟩ := bind_ok.mp hx
  obtain ⟨ino', fb', hs3, -⟩ := FilesOnly.loadSegments _ _ _ hload
  have h3 : Beside p s s3 := hs3 ▸ hframe.andThen Beside.withFiles
  cases o3 with
  | none =>
    simp only [bind_ok, pure_ok] at hx
    obtain ⟨_, s4, hfree, _, _, hun, rfl, rfl⟩ := hx
    obtain ⟨h4, hnone⟩ := procFreepagetable_spec hfree
    obtain ⟨hb, hnone⟩ := hdone (h3.andThen (.of_reworked h4)) hnone hun
    exact ⟨hb, fun _ => hnone, by simp⟩
  | some g =>
    obtain ⟨rfl, rfl⟩ := pure_ok.mp hx
    refine ⟨h3, by simp, ?_⟩
    rintro _ _ ⟨⟩
    rw [hb2] at hcreate
    refine ⟨hip, ⟨⟨bytes, n, s₁, s2, hread, hgood, hcreate, hload⟩⟩, hs3 ▸ hok hb2, ?_⟩
    have hsh : s2.Shallow (spare p) := h2.shallow fun pt hpt => by
      rw [hn1] at hpt
      cases hpt
    rw [hs3]
    exact hsh

/-- Either the headers are not accepted, or the regions of the process are set first. -/
theorem exec_cases {ip : Option ℕ} {argv : List (List UInt8)} (hx : exec p ip argv s = .ok b s') :
    (b = false ∧ Beside p s s' ∧ s'.table (spare p) = none) ∨
      ∃ i g, ip = some i ∧ s.headers i = some g ∧
        ((b = false ∧ Beside p (s.setSegments p g i) s' ∧ s'.table (spare p) = none) ∨
          (b = true ∧ Replaced p (g.size + 2 * pgSize) (s.setSegments p g i) s')) := by
  rw [exec_eq] at hx
  obtain ⟨o, s₁, hhead, hx⟩ := bind_ok.mp hx
  obtain ⟨h1, hnone, hsome⟩ := execHead_ok hn hhead
  cases o with
  | none =>
    obtain ⟨rfl, rfl⟩ := pure_ok.mp hx
    exact .inl ⟨rfl, h1, hnone rfl⟩
  | some ig =>
    obtain ⟨i, g⟩ := ig
    obtain ⟨hip, hrun, hh, hsh⟩ := hsome i g rfl
    simp only [bind_ok, modify_ok] at hx
    obtain ⟨_, _, rfl, _, s2, hun, hx⟩ := hx
    exact .inr ⟨i, g, hip, headers_of_run hn hrun, execRest_ok h1 hh hsh hun hx⟩

theorem exec_ok {ip : Option ℕ} {argv : List (List UInt8)}
    (hx : exec p ip argv s = .ok b s') : Execed p ip argv s s' := by
  rcases exec_cases hn hx with ⟨-, hb, hnone⟩ | ⟨i, g, hip, hg, ⟨rfl, hb, hnone⟩ | ⟨-, hr⟩⟩
  · exact .kept hb hnone
  · exact .failed i g hip hg hb hnone hx
  · exact .done i g hip hg hr

/-- A failing `exec` leaves all page tables alone. -/
theorem exec_failed {ip : Option ℕ} {argv : List (List UInt8)}
    (hx : exec p ip argv s = .ok false s') : s'.table (spare p) = none ∧
      (Beside p s s' ∨ ∃ i g, Beside p (s.setSegments p g i) s') := by
  rcases exec_cases hn hx with ⟨-, hb, hnone⟩ | ⟨i, g, -, -, ⟨-, hb, hnone⟩ | ⟨hf, -⟩⟩
  · exact ⟨hnone, .inl hb⟩
  · exact ⟨hnone, .inr ⟨i, g, hb⟩⟩
  · cases hf

end Image

end Xv6.Vm
