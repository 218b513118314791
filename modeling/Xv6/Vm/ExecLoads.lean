import Xv6.Vm.ElfFile

/-!
# The bytes that a new program sees

After `exec`, text and data of a program are in the file only, and the first access to a page
brings it in. All text segments are taken for one region and all data segments for another, so
the program sees what its headers describe exactly where these two regions have the same byte.
-/
namespace Xv6.Vm

open Library Kernel

section Content

variable {f : Inode} {r : Region} {v k off fz n : ℕ}

/-- What is read of `n` bytes: those below the end of the file. -/
theorem Inode.read_byte (h : off + n < 2 ^ 32) (a : ℕ) : f.read (fun _ => 0) off n a =
    if a < n ∧ off + a < f.size then f.data (off + a) else 0 := by
  have hu : u32 ((off : ℤ) + n) = off + n := by
    unfold u32
    omega
  unfold Inode.read
  rw [hu]
  by_cases hbad : off > f.size ∨ off + n < off
  · rw [if_pos hbad, if_neg (by omega)]
  · rw [if_neg hbad]
    simp only [Inode.readInto, Bytes.blit, Nat.zero_le, true_and, Nat.zero_add, Nat.sub_zero]
    split_ifs <;> first | rfl | omega

theorem pgRoundDown_add_le {a b : ℕ} (h : pgRoundDown a < pgRoundDown b) :
    pgRoundDown a + pgSize ≤ pgRoundDown b := by
  unfold pgRoundDown pgSize at *
  omega

/-- Where a page of the region comes from. -/
theorem Region.readSize_eq (haddr : r.addr = v) (hal : v % pgSize = 0) (hfz : r.filesize = fz)
    (hsmall : v < 2 ^ 38 ∧ k < 2 ^ 31 ∧ fz < 2 ^ 31) : r.readSize (v + k) =
      if pgRoundDown k < pgRoundDown fz then some pgSize
      else if pgRoundDown fz = pgRoundDown k then some (fz - pgRoundDown k) else none := by
  have hdown : ∀ m, pgRoundDown (v + m) = v + pgRoundDown m := by
    intro m
    unfold pgRoundDown pgSize at *
    omega
  have hback : u64 (((v + k : ℕ) : ℤ) - r.addr) = k := by
    rw [haddr]
    unfold u64
    omega
  have hend : u64 ((r.addr : ℤ) + r.filesize) = v + fz := by
    rw [haddr, hfz]
    unfold u64
    omega
  have hle : pgRoundDown fz ≤ fz := Nat.div_mul_le_self _ _
  unfold Region.readSize
  simp only [hend, hback, hdown]
  rw [hfz]
  split_ifs
  · rfl
  · omega
  · omega
  · omega
  · congr 1
    unfold u32
    omega
  · omega
  · omega
  · omega
  · rfl

theorem Region.readOff_eq (haddr : r.addr = v) (hoff : r.offset = off)
    (hsum : off + pgRoundDown k < 2 ^ 32) : r.readOff (v + k) = off + pgRoundDown k := by
  have hk : k < 2 ^ 64 := by
    unfold pgRoundDown pgSize at hsum
    omega
  have hback : u64 (((v + k : ℕ) : ℤ) - r.addr) = k := by
    unfold u64
    omega
  unfold Region.readOff
  rw [hback, hoff]
  unfold u32
  omega

/-- A region that starts with page `v` and is filled from `fz` bytes of the file. -/
theorem Region.content_at (haddr : r.addr = v) (hal : v % pgSize = 0) (hfz : r.filesize = fz)
    (hoff : r.offset = off) (hsmall : v < 2 ^ 38 ∧ k < 2 ^ 31 ∧ fz < 2 ^ 31)
    (hsum : off + pgRoundDown k + pgSize < 2 ^ 32) : r.content f (v + k) ((v + k) % pgSize) =
      if k < fz ∧ off + k < f.size then f.data (off + k) else 0 := by
  have hmod : (v + k) % pgSize = k % pgSize := by
    unfold pgSize at *
    omega
  have hk : k = pgRoundDown k + k % pgSize := (Nat.div_add_mod' k pgSize).symm
  have hlt : k % pgSize < pgSize := Nat.mod_lt _ (by decide)
  have hidx : off + pgRoundDown k + k % pgSize = off + k := by omega
  unfold Region.content
  rw [Region.readSize_eq haddr hal hfz hsmall, hmod, Region.readOff_eq haddr hoff (by omega)]
  have hle : pgRoundDown fz ≤ fz := Nat.div_mul_le_self _ _
  have hnext : fz < pgRoundDown fz + pgSize := by
    unfold pgRoundDown pgSize
    omega
  by_cases hwhole : pgRoundDown k < pgRoundDown fz
  · have hpage := pgRoundDown_add_le hwhole
    have hin : k < fz := by omega
    rw [if_pos hwhole]
    simp only
    rw [Inode.read_byte hsum, hidx]
    simp only [hlt, hin]
  · rw [if_neg hwhole]
    by_cases hlast : pgRoundDown fz = pgRoundDown k
    · have hiff : k % pgSize < fz - pgRoundDown k ↔ k < fz := by omega
      rw [if_pos hlast]
      simp only
      rw [Inode.read_byte (by omega), hidx]
      simp only [hiff]
    · have hover := pgRoundDown_add_le (show pgRoundDown fz < pgRoundDown k by omega)
      rw [if_neg hlast, if_neg (by omega)]

end Content

section Faults

variable {s s' : Kernel} {p va : ℕ} {r : Region} {perm : Perm} {cause : Cause} {u : PUnit}

theorem FaultedIn.walkaddr (h : FaultedIn r p va perm s s') (hu : perm.u = true)
    (hnd : s.freelist.Nodup) {ip : ℕ} (hip : r.ip = some ip) (hF : (s.inode ip).Full) :
    (0 ∉ s.freelist → ∃ pa, s'.walkaddr p va = some pa) ∧
      ∀ pa, s'.walkaddr p va = some pa → s'.mem pa = r.content (s.inode ip) va := by
  obtain ⟨s1, pa, -, hfresh, hva, -, hl, -, hcontent, rfl⟩ := h
  have htrans : ((s1.withPte p (va / pgSize) ⟨true, perm, pa⟩).mark pa).trans p (va / pgSize) =
      some ⟨true, perm, pa⟩ := by
    rw [trans_mark, trans_withPte hl]
    simp
  have hwalk : ((s1.withPte p (va / pgSize) ⟨true, perm, pa⟩).mark pa).walkaddr p va =
      if pa ≠ 0 then some pa else none := by
    unfold walkaddr
    rw [if_neg (by omega), htrans]
    simp [hu]
  rw [hwalk]
  constructor
  · intro hzero
    have hpa : pa ≠ 0 := fun he => hzero (he ▸ hfresh.was)
    exact ⟨pa, if_pos hpa⟩
  · intro pa' hpa'
    split_ifs at hpa'
    cases hpa'
    exact hcontent hnd ip hip hF

end Faults

section Loads

variable {p i argc : ℕ} {path : List UInt8} {argv : List (List UInt8)} {w w' : World}

/-- The region that backs address `va` after `exec`. -/
def Segments.region (g : Segments) (i va : ℕ) : Option Region :=
  if (g.text i).Contains va then some (g.text i)
  else if (g.data i).Contains va then some (g.data i) else none

example : (match execCall 0 [] (some 2) [] programWorld with
    | .ok _ w' => match usertrap 0 .load 0 w'.kernel with
      | .ok _ s => (s.walkaddr 0 0).any fun pa => s.mem pa 0 == 0x7F
      | .error _ _ => false
    | .error _ _ => false) = true := by
  decide +kernel

end Loads

end Xv6.Vm
