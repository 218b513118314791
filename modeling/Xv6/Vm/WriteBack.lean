import Xv6.Vm.Layout

/-!
# Writing resident pages back

The write-back of `deallocvma` writes a page in pieces and adds what `writei` returns to its
position, also when that is `-1`. While the page starts inside the file and ends below the largest
size a file can have, each piece succeeds, and exactly the resident pages of the range are
unmapped.
-/
namespace Xv6.Vm

open Library

section Copy

variable {p ip pa base o : ℕ} {s s' : Kernel}

theorem pgRoundDown_add (hb : base % pgSize = 0) (ho : o < pgSize) :
    pgRoundDown (base + o) = base := by
  unfold pgRoundDown
  unfold pgSize at *
  omega

/-- `copyin` from a page that is mapped. -/
theorem copyin_resident {len : ℕ} (hb : base % pgSize = 0) (hw : s.walkaddr p base = some pa)
    (ho : o + len ≤ pgSize) : copyin p (base + o) len s =
      .ok (true, Bytes.blit (fun _ => 0) 0 (fun i => s.mem pa (o + i)) len, len) s := by
  cases len with
  | zero =>
    have hempty : Bytes.blit (fun _ => 0) 0 (fun i => s.mem pa (o + i)) 0 = fun _ => 0 := by
      funext a
      simp [Bytes.blit]
    rw [hempty]
    rfl
  | succ k =>
    have hround := pgRoundDown_add (o := o) hb (by omega)
    have hsub : base + o - base = o := by omega
    have hlen : min (pgSize - o) (k + 1) = k + 1 := by omega
    unfold copyin
    rw [copyinLoop, if_neg (by omega)]
    simp only [hround, hsub, hlen]
    rw [bind_run (userPage_of_walkaddr hw)]
    simp only [get_run]
    rw [copyinLoop, Nat.sub_self, if_pos rfl, Nat.zero_add]
    rfl

/-- What writing to file `ip` leaves alone. -/
structure Wrote (ip : ℕ) (s s' : Kernel) : Prop where
  frame : ∃ ino fb, s' = s.withFiles ino fb
  others : ∀ k, k ≠ ip → s'.inode k = s.inode k
  grown : (s.inode ip).size ≤ (s'.inode ip).size

namespace Wrote

variable {s1 : Kernel}

theorem refl (s : Kernel) : Wrote ip s s := ⟨⟨s.inode, s.freeBlocks, rfl⟩, fun _ _ => rfl, le_rfl⟩

theorem andThen (h : Wrote ip s s1) (h' : Wrote ip s1 s') : Wrote ip s s' where
  frame := by
    obtain ⟨_, _, rfl⟩ := h.frame
    obtain ⟨ino, fb, rfl⟩ := h'.frame
    exact ⟨ino, fb, rfl⟩
  others k hk := (h'.others k hk).trans (h.others k hk)
  grown := h.grown.trans h'.grown

theorem setInode {i : Inode} (hi : (s.inode ip).size ≤ i.size) : Wrote ip s (s.setInode ip i) where
  frame := ⟨Function.update s.inode ip i, s.freeBlocks, rfl⟩
  others k hk := by simp [Kernel.setInode, hk]
  grown := by simpa [Kernel.setInode] using hi

theorem of_bmap {bn : ℕ} {b : Bool} (hx : bmap ip bn s = .ok b s') : Wrote ip s s' := by
  obtain ⟨ino, fb, rfl, hother, hsize, -⟩ := bmap_ok hx
  exact ⟨⟨ino, fb, rfl⟩, hother, hsize.ge⟩

theorem walkaddr (h : Wrote ip s s') (q a : ℕ) : s'.walkaddr q a = s.walkaddr q a := by
  obtain ⟨ino, fb, rfl⟩ := h.frame
  rfl

end Wrote

/-- The loop of `writei` from a page that is mapped. -/
theorem writeiLoop_resident {fuel n tot off tot' off' : ℕ} (hb : base % pgSize = 0)
    (hend : base + pgSize < 2 ^ 64) (hw : s.walkaddr p base = some pa) (htot : tot ≤ n)
    (ho : o + (n - tot) ≤ pgSize)
    (hx : writeiLoop p ip n fuel (base + o) tot off s = .ok (tot', off') s') :
    Wrote ip s s' ∧ tot ≤ tot' ∧ tot' ≤ n ∧ off' = off + (tot' - tot) := by
  induction fuel generalizing s o tot off with
  | zero =>
    obtain ⟨hr, rfl⟩ := pure_ok.mp hx
    cases hr
    exact ⟨Wrote.refl s, le_rfl, htot, by omega⟩
  | succ fuel ih =>
    unfold writeiLoop at hx
    rcases ite_ok hx with ⟨hlt, hx⟩ | ⟨-, hx⟩
    swap
    · obtain ⟨hr, rfl⟩ := pure_ok.mp hx
      cases hr
      exact ⟨Wrote.refl s, le_rfl, htot, by omega⟩
    obtain ⟨b, s1, hbmap, hx⟩ := bind_ok.mp hx
    have h1 : Wrote ip s s1 := .of_bmap hbmap
    rcases ite_ok hx with ⟨-, hx⟩ | ⟨-, hx⟩
    swap
    · obtain ⟨hr, rfl⟩ := pure_ok.mp hx
      cases hr
      exact ⟨h1, le_rfl, htot, by omega⟩
    set m := min (n - tot) (bSize - off % bSize) with hm
    have hw1 : s1.walkaddr p base = some pa := by rw [h1.walkaddr, hw]
    obtain ⟨⟨ok, bytes, got⟩, s2, hcopy, hx⟩ := bind_ok.mp hx
    rw [copyin_resident hb hw1 (by omega)] at hcopy
    cases hcopy
    simp only [bind_ok, modify_ok, if_true] at hx
    obtain ⟨_, _, rfl, hx⟩ := hx
    have hstep : u64 ((base + o : ℕ) + (m : ℤ)) = base + (o + m) := by
      unfold u64
      omega
    rw [hstep] at hx
    have h2 : ∀ data, Wrote ip s (s1.setInode ip { s1.inode ip with data }) := fun data =>
      h1.andThen (Wrote.setInode le_rfl)
    obtain ⟨h3, hle, hn, hoff⟩ := ih (by rw [(h2 _).walkaddr, hw]) (by omega) (by omega) hx
    exact ⟨(h2 _).andThen h3, by omega, hn, by omega⟩

/-- `writei` from a page that is mapped, within the file and the largest size. -/
theorem writei_resident {n off : ℕ} {r : ℤ} (hb : base % pgSize = 0)
    (hend : base + pgSize < 2 ^ 64) (hw : s.walkaddr p base = some pa) (ho : o + n ≤ pgSize)
    (hsize : off ≤ (s.inode ip).size) (hmax : off + n ≤ maxFile * bSize)
    (hx : writei p ip (base + o) off n s = .ok r s') :
    Wrote ip s s' ∧ 0 ≤ r ∧ r ≤ n ∧ off + r ≤ (s'.inode ip).size := by
  have hu : u32 (off + n) = off + n := by
    unfold u32 maxFile nDirect nIndirect bSize at *
    omega
  unfold writei at hx
  rw [get_run] at hx
  rw [hu, if_neg (by omega), if_neg (by omega)] at hx
  obtain ⟨⟨tot, off'⟩, s1, hloop, hx⟩ := bind_ok.mp hx
  obtain ⟨h1, -, hn, hoff⟩ := writeiLoop_resident hb hend hw (Nat.zero_le n) (by omega) hloop
  simp only [bind_ok, modify_ok, pure_ok] at hx
  obtain ⟨_, _, rfl, rfl, rfl⟩ := hx
  split_ifs with hgt
  · refine ⟨h1.andThen (Wrote.setInode hgt.le), by omega, by omega, ?_⟩
    simp [Kernel.setInode, hoff]
  · exact ⟨h1, by omega, by omega, by omega⟩

theorem maxWrite_eq : (maxWrite : ℤ) = 3072 := by decide

/-- A page is written whole, in pieces, if it starts inside the file. -/
theorem writePage_resident {fuel : ℕ} {offset w n1 w' : ℤ} (hb : base % pgSize = 0)
    (hend : base + pgSize < 2 ^ 64) (hw : s.walkaddr p base = some pa)
    (hpos : 0 ≤ w ∧ w ≤ pgSize) (hn : 0 ≤ n1 ∧ w + n1 ≤ pgSize)
    (hoff : 0 ≤ offset ∧ offset + w ≤ (s.inode ip).size)
    (hmax : offset + pgSize ≤ (maxFile * bSize : ℕ))
    (hx : writePage p ip base offset fuel w n1 s = .ok w' s') : Wrote ip s s' ∧ w' = pgSize := by
  induction fuel generalizing s w n1 with
  | zero =>
    unfold writePage at hx
    obtain ⟨hge, hx⟩ := throw_ite_ok hx
    obtain ⟨rfl, rfl⟩ := pure_ok.mp hx
    exact ⟨Wrote.refl s, by omega⟩
  | succ fuel ih =>
    unfold writePage at hx
    rcases ite_ok hx with ⟨hlt, hx⟩ | ⟨hge, hx⟩
    swap
    · obtain ⟨rfl, rfl⟩ := pure_ok.mp hx
      exact ⟨Wrote.refl s, by omega⟩
    obtain ⟨r, s1, hwr, hx⟩ := bind_ok.mp hx
    have hlimit : (maxFile * bSize : ℕ) < 2 ^ 32 := by decide
    have hpg : pgSize = 4096 := rfl
    have hsrc : u64 (base + w) = base + w.toNat := by
      unfold u64
      omega
    have hoffset : u32 (offset + w) = (offset + w).toNat := by
      unfold u32
      omega
    have hlen : u32 n1 = n1.toNat := by
      unfold u32
      omega
    rw [hsrc, hoffset, hlen] at hwr
    obtain ⟨h1, hr0, hr1, hsz⟩ := writei_resident hb hend hw (by omega) (by omega) (by omega) hwr
    have hadd : i32 (w + r) = w + r := by
      unfold i32
      omega
    have hleft : i32 (pgSize - (w + r)) = pgSize - (w + r) := by
      unfold i32
      omega
    rw [hadd, hleft] at hx
    have hmw := maxWrite_eq
    obtain ⟨h2, rfl⟩ := ih (by rw [h1.walkaddr, hw]) (by omega) (by omega) (by omega) hx
    exact ⟨h1.andThen h2, rfl⟩

end Copy

section Sweep

variable {p addr n : ℕ} {s s1 s' : Kernel} {u : PUnit}

/-- The first `n` pages from `addr` on are unmapped as far as they were resident, and no
others. -/
structure Swept (p addr n : ℕ) (s s' : Kernel) : Prop extends Pruned s s' where
  gone : ∀ k < n, s'.walkaddr p (addr + k * pgSize) = none
  kept : ∀ t v, ¬(t = p ∧ addr ≤ v * pgSize ∧ v * pgSize < addr + n * pgSize) →
    s'.trans t v = s.trans t v

theorem walkaddr_of_only {t va pa : ℕ}
    (h : ∀ v pte, s'.trans t v = some pte → s.trans t v = some pte)
    (hw : s'.walkaddr t va = some pa) : s.walkaddr t va = some pa := by
  obtain ⟨hva, pte, ht, hu, rfl⟩ := walkaddr_some hw
  have hne := walkaddr_ne_zero hw
  simp [Kernel.walkaddr, hva, h _ _ ht, hu, hne]

namespace Swept

theorem start (s : Kernel) : Swept p addr 0 s s :=
  ⟨.refl s, by simp, fun _ _ _ => rfl⟩

theorem skip (h : Swept p addr n s s') (hnone : s'.walkaddr p (addr + n * pgSize) = none) :
    Swept p addr (n + 1) s s' := by
  refine { h with gone := fun k hk => ?_, kept := fun t v hv => h.kept t v fun hr => hv ?_ }
  · rcases Nat.lt_succ_iff_lt_or_eq.mp hk with hk | rfl
    · exact h.gone k hk
    · exact hnone
  · exact ⟨hr.1, hr.2.1, by linarith [hr.2.2, Nat.zero_le pgSize]⟩

theorem unmap (h : Swept p addr n s s1) (hal : addr % pgSize = 0)
    (hu : Unmapped p (addr + n * pgSize) s1 s') (hi : s'.inode = s1.inode) :
    Swept p addr (n + 1) s s' := by
  have hpage : (addr + n * pgSize) / pgSize * pgSize = addr + n * pgSize := by
    unfold pgSize at *
    omega
  have hpr : Pruned s1 s' := hu.pruned hi
  refine ⟨h.toPruned.andThen hpr, fun k hk => ?_, fun t v hv => ?_⟩
  · by_contra hne
    obtain ⟨pa, hw⟩ := Option.ne_none_iff_exists'.mp hne
    rcases Nat.lt_succ_iff_lt_or_eq.mp hk with hk | rfl
    · have := walkaddr_of_only (fun v pte => hpr.only p v pte) hw
      simp [h.gone k hk] at this
    · obtain ⟨-, pte, ht, -⟩ := walkaddr_some hw
      simp [hu.trans] at ht
  · rw [hu.trans, if_neg, h.kept]
    · intro hr
      exact hv ⟨hr.1, hr.2.1, by linarith [hr.2.2, Nat.zero_le pgSize]⟩
    · rintro ⟨rfl, rfl⟩
      refine hv ⟨rfl, by omega, ?_⟩
      rw [hpage]
      unfold pgSize
      omega

theorem wrote {ip : ℕ} (h : Swept p addr n s s1) (hw : Wrote ip s1 s') : Swept p addr n s s' := by
  have hgrown : ∀ k, (s1.inode k).size ≤ (s'.inode k).size := by
    intro k
    by_cases hk : k = ip
    · rw [hk]
      exact hw.grown
    · rw [hw.others k hk]
  obtain ⟨ino, fb, rfl⟩ := hw.frame
  exact { h with grown := fun k => (h.grown k).trans (hgrown k) }

theorem locked (h : Swept p addr n s s') (l : List ℕ) :
    Swept p addr n s { s' with ilocked := l } :=
  { h with }

end Swept

theorem unmapPrivate_swept (hal : addr % pgSize = 0) (hend : addr + n * pgSize < 2 ^ 64)
    (hx : loop (fun k => unmapPrivate p (u64 (addr + (k * pgSize : ℕ)))) 0 n s = .ok u s') :
    Swept p addr n s s' := by
  have hpage : ∀ k < n, u64 (addr + (k * pgSize : ℕ)) = addr + k * pgSize := by
    intro k hk
    unfold u64 pgSize at *
    omega
  have hinv := loop_ok (I := fun k t => Swept p addr k s t) hx (.start s) ?_
  · rwa [Nat.zero_add] at hinv
  rintro k t t' - hk ih hbody
  rw [hpage k (by omega)] at hbody
  rcases unmapPrivate_ok hbody with ⟨rfl, hw⟩ | hf | hl
  · exact ih.skip hw
  · exact ih.unmap hal hf.unmapped hf.inode
  · exact ih.unmap hal hl.unmapped hl.inode

theorem page_lt_iff {size : ℤ} (hsize : 0 ≤ size ∧ size ≤ 2 ^ 31 - pgSize) :
    ((n * pgSize : ℕ) : ℤ) < size ↔ n < pageCount size := by
  unfold pageCount pgRoundUpInt i32 pgSize at *
  omega

theorem next_page {size : ℤ} (hsize : 0 ≤ size ∧ size ≤ 2 ^ 31 - pgSize)
    (hn : n < pageCount size) : i32 ((n * pgSize : ℕ) + pgSize) = ((n + 1) * pgSize : ℕ) := by
  have hlt := (page_lt_iff hsize).mpr hn
  unfold i32 pgSize at *
  omega

/-- The pages of a range that are resident start inside the file and end below the largest
size a file can have. -/
def Kernel.Inside (s : Kernel) (p : ℕ) (ip : Option ℕ) (offset : ℤ) (addr n : ℕ) : Prop :=
  ∀ k < n, ∀ pa, s.walkaddr p (addr + k * pgSize) = some pa → ∀ i, ip = some i →
    0 ≤ offset + (k * pgSize : ℕ) ∧ offset + (k * pgSize : ℕ) ≤ (s.inode i).size ∧
      offset + (k * pgSize : ℕ) + pgSize ≤ (maxFile * bSize : ℕ)

/-- The loop that writes back and unmaps the pages of a shared region. -/
theorem writeBack_swept {bound fuel : ℕ} {ip : Option ℕ} {size offset : ℤ} {s0 : Kernel}
    (hal : addr % pgSize = 0) (hsize : 0 ≤ size ∧ size ≤ 2 ^ 31 - pgSize)
    (hend : addr + pageCount size * pgSize < maxVa)
    (hin : s0.Inside p ip offset addr (pageCount size)) (hn : n ≤ pageCount size)
    (h : Swept p addr n s0 s)
    (hx : writeBack bound p ip addr size offset fuel (n * pgSize : ℕ) s = .ok u s') :
    Swept p addr (pageCount size) s0 s' := by
  induction fuel generalizing s n with
  | zero =>
    unfold writeBack at hx
    obtain ⟨hge, hx⟩ := throw_ite_ok hx
    obtain ⟨-, rfl⟩ := pure_ok.mp hx
    rw [page_lt_iff hsize] at hge
    rwa [show pageCount size = n by omega]
  | succ fuel ih =>
    unfold writeBack at hx
    rcases ite_ok hx with ⟨hlt, hx⟩ | ⟨hge, hx⟩
    swap
    · obtain ⟨-, rfl⟩ := pure_ok.mp hx
      rw [page_lt_iff hsize] at hge
      rwa [show pageCount size = n by omega]
    have hlt' := (page_lt_iff hsize).mp hlt
    have hva : maxVa = 274877906944 := by decide
    have hpg : pgSize = 4096 := rfl
    have hle : n * pgSize + pgSize ≤ pageCount size * pgSize := by
      rw [← Nat.succ_mul]
      exact Nat.mul_le_mul_right _ hlt'
    have hu64 : u64 (addr + (n * pgSize : ℕ)) = addr + n * pgSize := by
      unfold u64
      omega
    replace hx := get_bind_ok hx
    rw [hu64] at hx
    cases hw : s.walkaddr p (addr + n * pgSize) with
    | none =>
      simp only [hw] at hx
      rw [next_page hsize hlt'] at hx
      exact ih hlt' (h.skip hw) hx
    | some pa =>
      simp only [hw] at hx
      obtain ⟨i, s1, hlock, hx⟩ := bind_ok.mp hx
      obtain ⟨hip, -, rfl⟩ := ilock_ok hlock
      obtain ⟨w, s2, hpage, hx⟩ := bind_ok.mp hx
      obtain ⟨_, s3, hunmap, hx⟩ := bind_ok.mp hx
      obtain ⟨_, s4, hunlock, hx⟩ := bind_ok.mp hx
      have hs4 := modify_ok.mp hunlock
      subst hs4
      obtain ⟨h0, hfile, hmax⟩ := hin n hlt' pa
        (walkaddr_of_only (fun v pte => h.only p v pte) hw) i hip
      have hbase : (addr + n * pgSize) % pgSize = 0 := by rw [Nat.add_mul_mod_self_right, hal]
      have hmw := maxWrite_eq
      have hgrown := h.grown i
      obtain ⟨hwrote, rfl⟩ : Wrote i { s with ilocked := i :: s.ilocked } s2 ∧ w = pgSize := by
        refine writePage_resident hbase ?_ (show Kernel.walkaddr _ p _ = some pa from hw) ?_ ?_ ?_
          hmax hpage
        · omega
        · omega
        · omega
        · exact ⟨h0, by simp only; omega⟩
      have h2 : Swept p addr n s0 s2 := (h.locked _).wrote hwrote
      rw [next_page hsize hlt'] at hx
      refine ih hlt' (Swept.locked ?_ _) hx
      have hw2 : s2.walkaddr p (addr + n * pgSize) = some pa := by
        rw [hwrote.walkaddr]
        exact hw
      rcases unmapShared_ok hw2 hunmap with hf | hd
      · exact h2.unmap hal hf.unmapped hf.inode
      · exact h2.unmap hal hd.unmapped hd.inode

/-- The resident pages of a range of a region can be written back. -/
def Kernel.Backed (s : Kernel) (p : ℕ) (v : Vma) (addr : ℕ) (size : ℤ) : Prop :=
  v.flags = .mapShared → s.Inside p v.ip v.offset addr (pageCount size)

theorem unmapRange_swept {bound : ℕ} {v : Vma} {size : ℤ} (hal : addr % pgSize = 0)
    (hsize : 0 ≤ size ∧ size ≤ 2 ^ 31 - pgSize) (hend : addr + pageCount size * pgSize < maxVa)
    (hback : s.Backed p v addr size) (hx : unmapRange bound p v addr size s = .ok u s') :
    Swept p addr (pageCount size) s s' := by
  unfold unmapRange at hx
  cases hf : v.flags with
  | mapShared =>
    simp only [hf] at hx
    apply writeBack_swept hal hsize hend (hback hf) (Nat.zero_le _) (Swept.start s)
    simpa using hx
  | mapPrivate =>
    simp only [hf] at hx
    have hva : maxVa = 274877906944 := by decide
    exact unmapPrivate_swept hal (by omega) hx

end Sweep

end Xv6.Vm
