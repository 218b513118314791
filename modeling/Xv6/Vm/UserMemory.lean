import Xv6.Vm.Serving

/-!
# User memory

What user code finds at an address does not depend on whether its page is resident already:
the kernel faults the page in when it copies from or to it. A copy is done in chunks, one for
each page.
-/
namespace Xv6.Vm

open Library Kernel

/-- The byte that process `p` finds at address `a`: in the page mapped there, or in the page
that a fault at its start would bring in. -/
def Kernel.userByte (s : Kernel) (p a : ℕ) : Option UInt8 :=
  match s.walkaddr p a with
  | some pa => some (s.mem pa (a % pgSize))
  | none => do
    let (r, _) ← s.backing p (pgRoundDown a)
    let ip ← r.ip
    return r.content (s.inode ip) (pgRoundDown a) (a % pgSize)

/-- The page of address `a` is not mapped for user code, and its first byte is in no region. -/
def Kernel.Unreachable (s : Kernel) (p a : ℕ) : Prop :=
  s.walkaddr p a = none ∧ s.backing p (pgRoundDown a) = none

/-- Distinct user pages are distinct physical pages, none of them free, and the files behind
the regions have all their blocks. -/
structure Kernel.Unaliased (s : Kernel) (p : ℕ) : Prop where
  distinct : ∀ a a' pa, s.walkaddr p a = some pa → s.walkaddr p a' = some pa →
    a / pgSize = a' / pgSize
  inUse : ∀ a pa, s.walkaddr p a = some pa → pa ∉ s.freelist
  nodup : s.freelist.Nodup
  full : ∀ a r perm ip, s.backing p a = some (r, perm) → r.ip = some ip → (s.inode ip).Full

/-- Pages may have been faulted in; user code finds the same bytes. -/
structure Seen (p : ℕ) (s s' : Kernel) : Prop where
  unaliased : s'.Unaliased p
  byte : ∀ a, s'.userByte p a = s.userByte p a
  unreachable : ∀ a, s'.Unreachable p a ↔ s.Unreachable p a
  kept : ∀ a pa, s.walkaddr p a = some pa → s'.walkaddr p a = some pa

section View

variable {p a a' va pa ip : ℕ} {s s' : Kernel} {r : Region} {perm : Perm}

theorem Seen.refl (h : s.Unaliased p) : Seen p s s :=
  ⟨h, fun _ => rfl, fun _ => .rfl, fun _ _ => id⟩

theorem pgRoundDown_congr (h : a / pgSize = a' / pgSize) : pgRoundDown a = pgRoundDown a' := by
  rw [pgRoundDown, h, pgRoundDown]

theorem walkaddr_congr (h : a / pgSize = a' / pgSize) : s.walkaddr p a = s.walkaddr p a' := by
  rw [← walkaddr_pgRoundDown, pgRoundDown_congr h, walkaddr_pgRoundDown]

theorem Kernel.Unreachable.congr (h : a / pgSize = a' / pgSize) :
    s.Unreachable p a ↔ s.Unreachable p a' := by
  rw [Kernel.Unreachable, walkaddr_congr h, pgRoundDown_congr h, Kernel.Unreachable]

theorem userByte_of_walkaddr (h : s.walkaddr p a = some pa) :
    s.userByte p a = some (s.mem pa (a % pgSize)) := by
  simp [userByte, h]

theorem userByte_of_backing (hw : s.walkaddr p a = none)
    (hb : s.backing p (pgRoundDown a) = some (r, perm)) (hip : r.ip = some ip) :
    s.userByte p a = some (r.content (s.inode ip) (pgRoundDown a) (a % pgSize)) := by
  simp [userByte, hw, hb, hip]

theorem backing_congr (hproc : s'.proc = s.proc) (hvmas : s'.vmas = s.vmas) :
    s'.backing p a = s.backing p a := by
  have hslot : s'.slot p = s.slot p := by
    funext i
    simp only [slot, hproc, hvmas]
  simp only [backing, findVma, findSlot, hslot, hproc]

theorem backing_user (h : s.backing p a = some (r, perm)) : perm.u = true := by
  unfold backing at h
  simp only at h
  split_ifs at h
  · cases h
    rfl
  · cases h
    rfl
  · obtain ⟨v, -, hv⟩ := Option.map_eq_some_iff.mp h
    cases hv
    cases v.prot <;> rfl

theorem userByte_congr_none (h : s.Unaliased p) (hw : s.walkaddr p a = none)
    (hw' : s'.walkaddr p a = none) (hb : s'.backing p (pgRoundDown a) = s.backing p (pgRoundDown a))
    (hino : ∀ ip, (s.inode ip).Full → s'.inode ip = s.inode ip) :
    s'.userByte p a = s.userByte p a := by
  cases hback : s.backing p (pgRoundDown a) with
  | none => simp [userByte, hw, hw', hb, hback]
  | some rp =>
    obtain ⟨r, perm⟩ := rp
    cases hip : r.ip with
    | none => simp [userByte, hw, hw', hb, hback, hip]
    | some ip =>
      rw [userByte_of_backing hw hback hip, userByte_of_backing hw' (hb.trans hback) hip,
        hino ip (h.full _ r perm ip hback hip)]

end View

section Installed

variable {p a va pa : ℕ} {s s' : Kernel} {r : Region} {perm : Perm}

theorem lt_maxVa_of_div (h : a / pgSize = va / pgSize) (hva : va < maxVa) : a < maxVa := by
  have hpg : pgSize = 4096 := rfl
  have hmax : maxVa = 4096 * (maxVa / 4096) := by decide
  rw [hpg] at h
  omega

theorem Installed.walkaddr (h : Installed r p va perm pa s s') (hu : perm.u = true) (hpa : pa ≠ 0) :
    s'.walkaddr p a = if a / pgSize = va / pgSize then some pa else s.walkaddr p a := by
  by_cases hpage : a / pgSize = va / pgSize
  · have hlow := lt_maxVa_of_div hpage h.low
    rw [if_pos hpage, Kernel.walkaddr, if_neg (by omega), hpage, h.now]
    simp [hu, hpa]
  · rw [if_neg hpage, Kernel.walkaddr, h.others p _ (.inr hpage), Kernel.walkaddr]

/-- Faulting a page in at its first address shows user code nothing new. -/
theorem Installed.seen (h : Installed r p (pgRoundDown va) perm pa s s') (hs : s.Unaliased p)
    (hb : s.backing p (pgRoundDown va) = some (r, perm)) (hpa : pa ≠ 0) : Seen p s s' := by
  have hu := backing_user hb
  have hnone : s.walkaddr p va = none := by
    rw [← walkaddr_pgRoundDown]
    unfold Kernel.walkaddr
    rw [h.was]
    simp
  have hback : ∀ a, s'.backing p a = s.backing p a := fun a => backing_congr h.proc h.vmas
  have hwalk : ∀ a, s'.walkaddr p a = if a / pgSize = va / pgSize then some pa
      else s.walkaddr p a := by
    intro a
    rw [h.walkaddr hu hpa, pgRoundDown_div]
  have hold : ∀ a pa', s.walkaddr p a = some pa' → pa' ≠ pa := by
    rintro a _ hw rfl
    exact hs.inUse a _ hw h.free
  refine ⟨⟨?_, ?_, ?_, ?_⟩, ?_, ?_, ?_⟩
  · intro a a' pa' hw hw'
    rw [hwalk] at hw hw'
    split_ifs at hw hw' with h1 h2 h2
    · rw [h1, h2]
    · cases hw
      exact (hold a' _ hw' rfl).elim
    · cases hw'
      exact (hold a _ hw rfl).elim
    · exact hs.distinct a a' pa' hw hw'
  · intro a pa' hw
    rw [hwalk] at hw
    split_ifs at hw with hpage
    · cases hw
      exact (h.taken hs.nodup).1
    · exact fun hmem => hs.inUse a pa' hw (h.suffix.subset hmem)
  · exact hs.nodup.sublist h.suffix.sublist
  · intro a r' perm' ip hb' hip
    have hF := hs.full a r' perm' ip (by rw [← hback]; exact hb') hip
    rwa [h.inode ip hF]
  · intro a
    by_cases hpage : a / pgSize = va / pgSize
    · have hw' : s'.walkaddr p a = some pa := by rw [hwalk, if_pos hpage]
      have hw : s.walkaddr p a = none := by rw [walkaddr_congr hpage, hnone]
      have hround := pgRoundDown_congr hpage
      obtain ⟨ip, hip⟩ := h.backed
      rw [userByte_of_walkaddr hw', userByte_of_backing hw (by rw [hround]; exact hb) hip,
        h.content hs.nodup ip hip (hs.full _ r perm ip hb hip), hround]
    · have hw' : s'.walkaddr p a = s.walkaddr p a := by rw [hwalk, if_neg hpage]
      cases hw : s.walkaddr p a with
      | some pa' =>
        rw [userByte_of_walkaddr (hw'.trans hw), userByte_of_walkaddr hw,
          h.mem pa' (hs.inUse a pa' hw)]
      | none => exact userByte_congr_none hs hw (hw'.trans hw) (hback _) h.inode
  · intro a
    unfold Kernel.Unreachable
    rw [hback, hwalk]
    split_ifs with hpage
    · simp [pgRoundDown_congr hpage, hb]
    · rfl
  · intro a pa' hw
    rw [hwalk, if_neg]
    · exact hw
    · intro hpage
      rw [walkaddr_congr hpage, hnone] at hw
      cases hw

end Installed

section Pages

variable {p a va pa : ℕ} {s s' : Kernel} {r : Region} {perm : Perm} {o : Option ℕ}

theorem checkVmas_of_none (hb : s.backing p va = none) :
    checkVmas p va s = .ok false s := by
  unfold backing at hb
  simp only at hb
  split_ifs at hb with ht hd
  unfold checkVmas
  rw [get_run]
  simp only
  rw [if_neg ht, if_neg hd, Option.map_eq_none_iff.mp hb]
  exact rfl

theorem checkVmas_of_some (hw : s.walkaddr p va = none) (hb : s.backing p va = some (r, perm)) :
    checkVmas p va s = (allocPhysicalVMA r p va perm >>= fun _ => pure true) s := by
  unfold backing at hb
  simp only at hb
  unfold checkVmas
  rw [get_run]
  split_ifs at hb with ht hd
  · cases hb
    simp [ht]
  · cases hb
    simp [ht, hd]
  · obtain ⟨v, hv, hrp⟩ := Option.map_eq_some_iff.mp hb
    cases hrp
    simp [ht, hd, hv, hw]

/-- The outcomes of the access to a page: it is resident, it is out of reach, or it is
faulted in. -/
theorem userPage_run (hx : userPage p va s = .ok o s') :
    (∃ pa, s.walkaddr p va = some pa ∧ o = some pa ∧ s' = s) ∨
      (s.walkaddr p va = none ∧ s.backing p va = none ∧ o = none ∧ s' = s) ∨
      ∃ r perm pa, s.walkaddr p va = none ∧ s.backing p va = some (r, perm) ∧ pa ≠ 0 ∧
        Installed r p va perm pa s s' ∧ o = some pa := by
  unfold userPage at hx
  rw [get_run] at hx
  cases hw : s.walkaddr p va with
  | some pa =>
    simp only [hw, pure_ok] at hx
    exact .inl ⟨pa, rfl, hx.1.symm, hx.2.symm⟩
  | none =>
    simp only [hw] at hx
    cases hb : s.backing p va with
    | none =>
      obtain ⟨b, s1, hcheck, hx⟩ := bind_ok.mp hx
      rw [checkVmas_of_none hb] at hcheck
      cases hcheck
      exact .inr (.inl ⟨rfl, rfl, (pure_ok.mp hx).1.symm, (pure_ok.mp hx).2.symm⟩)
    | some rp =>
      obtain ⟨r, perm⟩ := rp
      obtain ⟨b, s1, hcheck, hx⟩ := bind_ok.mp hx
      rw [checkVmas_of_some hw hb] at hcheck
      obtain ⟨_, s2, halloc, hpure⟩ := bind_ok.mp hcheck
      obtain ⟨rfl, rfl⟩ := pure_ok.mp hpure
      rw [if_pos rfl] at hx
      rw [get_run] at hx
      cases hw2 : s2.walkaddr p va with
      | none => simp [hw2] at hx
      | some pa =>
        simp only [hw2, pure_ok] at hx
        obtain ⟨rfl, rfl⟩ := hx
        rcases allocPhysicalVMA_installed halloc with ⟨pa', hin⟩ | ⟨-, hsame⟩
        · obtain ⟨-, pte, hpte, -, rfl⟩ := walkaddr_some hw2
          rw [hin.now] at hpte
          cases hpte
          exact .inr (.inr ⟨r, perm, pa', rfl, rfl, walkaddr_ne_zero hw2, hin, rfl⟩)
        · have hfail : s2.walkaddr p va = s.walkaddr p va := by
            simp only [walkaddr, hsame]
          rw [hfail, hw] at hw2
          cases hw2

/-- Accessing a page shows user code nothing new. -/
theorem userPage_seen (h : s.Unaliased p) (hx : userPage p (pgRoundDown va) s = .ok o s') :
    Seen p s s' ∧ (o = none → s.Unreachable p va) ∧
      ∀ pa, o = some pa → s'.walkaddr p va = some pa ∧ ¬s.Unreachable p va := by
  rcases userPage_run hx with ⟨pa, hw, rfl, rfl⟩ | ⟨hw, hb, rfl, rfl⟩ |
    ⟨r, perm, pa, hw, hb, hpa, hin, rfl⟩
  · rw [walkaddr_pgRoundDown] at hw
    refine ⟨.refl h, by simp, ?_⟩
    rintro _ ⟨⟩
    exact ⟨hw, fun hun => by simp [hun.1] at hw⟩
  · rw [walkaddr_pgRoundDown] at hw
    exact ⟨.refl h, fun _ => ⟨hw, hb⟩, by simp⟩
  · refine ⟨hin.seen h hb hpa, by simp, ?_⟩
    rintro _ ⟨⟩
    refine ⟨?_, fun hun => by simp [hun.2] at hb⟩
    rw [hin.walkaddr (backing_user hb) hpa, pgRoundDown_div, if_pos rfl]

end Pages

/-- The part of a copy of `len` bytes at `va` that lies on the first page: `n` bytes, and the
rest starts at `next`. -/
structure Chunk (va len n next : ℕ) : Prop where
  pos : 0 < n
  le : n ≤ len
  fits : va % pgSize + n ≤ pgSize
  top : va + n ≤ maxVa
  rest : n < len → next = va + n
  aligned : next % pgSize = 0

section Chunks

variable {p a va pa len n next i : ℕ} {s s' : Kernel}

theorem chunk_page (hva : va < maxVa) (hlen : len ≠ 0) :
    Chunk va len (min (pgSize - va % pgSize) len) (u64 (pgRoundDown va + pgSize)) := by
  have hpg : pgSize = 4096 := rfl
  have hmax : maxVa = 4096 * (maxVa / 4096) := by decide
  have htop : maxVa < 2 ^ 64 := by decide
  have hroll : pgRoundDown va + va % pgSize = va := Nat.div_add_mod' va pgSize
  have hmod : va % pgSize < pgSize := Nat.mod_lt _ (by decide)
  have hround : pgRoundDown va = va / 4096 * 4096 := rfl
  have hnext : u64 (pgRoundDown va + pgSize) = pgRoundDown va + pgSize := by
    unfold u64
    omega
  rw [hnext]
  rw [hpg] at hroll hmod ⊢
  constructor
  case fits =>
    rw [hpg]
    omega
  case aligned =>
    rw [hpg]
    omega
  all_goals omega

namespace Chunk

variable (h : Chunk va len n next)
include h

theorem div (hi : i < n) : (va + i) / pgSize = va / pgSize := by
  have hfits := h.fits
  unfold pgSize at hfits ⊢
  omega

theorem mod (hi : i < n) : (va + i) % pgSize = va % pgSize + i := by
  have hfits := h.fits
  unfold pgSize at hfits ⊢
  omega

theorem u64_add (hi : i < n) : u64 (va + i : ℕ) = va + i := by
  have hmax : maxVa < 2 ^ 64 := by decide
  have htop := h.top
  exact u64_of_lt (by omega)

theorem unreachable (hi : i < n) : s.Unreachable p (u64 (va + i : ℕ)) ↔ s.Unreachable p va := by
  rw [h.u64_add hi]
  exact Kernel.Unreachable.congr (h.div hi)

theorem userByte (hw : s.walkaddr p va = some pa) (hi : i < n) :
    s.userByte p (va + i) = some (s.mem pa (va % pgSize + i)) := by
  rw [userByte_of_walkaddr ((walkaddr_congr (h.div hi)).trans hw), h.mod hi]

theorem split (hi : i < len) (hn : ¬i < n) : i - n < len - n ∧ next + (i - n) = va + i := by
  have := h.rest (by omega)
  omega

theorem ite_joined {α : Type} (f : ℕ → α) (x : α) :
    (if next ≤ a ∧ a < next + (len - n) then f (n + (a - next))
      else if va ≤ a ∧ a < va + n then f (a - va) else x) =
      if va ≤ a ∧ a < va + len then f (a - va) else x := by
  have hle := h.le
  rcases hle.lt_or_eq with hlt | heq
  · rw [h.rest hlt]
    by_cases hrest : va + n ≤ a ∧ a < va + n + (len - n)
    · rw [if_pos hrest, if_pos (by omega)]
      congr 1
      omega
    · rw [if_neg hrest]
      exact if_congr (by omega) rfl rfl
  · rw [if_neg (by omega), heq]

end Chunk

theorem userByte_setPage (h : s.Unaliased p) (hw : s.walkaddr p va = some pa) {bytes : Bytes} :
    (s.setPage pa bytes).userByte p a =
      if a / pgSize = va / pgSize then some (bytes (a % pgSize)) else s.userByte p a := by
  have hwalk : (s.setPage pa bytes).walkaddr p a = s.walkaddr p a := rfl
  split_ifs with hpage
  · rw [userByte_of_walkaddr (hwalk.trans ((walkaddr_congr hpage).trans hw))]
    simp [setPage]
  · cases hwa : s.walkaddr p a with
    | none => exact userByte_congr_none h hwa (hwalk.trans hwa) rfl fun _ _ => rfl
    | some pa' =>
      have hne : pa' ≠ pa := by
        rintro rfl
        exact hpage (h.distinct a va _ hwa hw)
      rw [userByte_of_walkaddr (hwalk.trans hwa), userByte_of_walkaddr hwa]
      simp [setPage, Function.update_of_ne hne]

/-- The kernel stores the bytes of the chunk. -/
theorem Chunk.store (h : Chunk va len n next) (hs : s.Unaliased p)
    (hw : s.walkaddr p va = some pa) (src : Bytes) :
    (s.setPage pa ((s.mem pa).blit (va % pgSize) src n)).userByte p a =
      if va ≤ a ∧ a < va + n then some (src (a - va)) else s.userByte p a := by
  rw [userByte_setPage hs hw]
  by_cases hin : va ≤ a ∧ a < va + n
  · obtain ⟨i, rfl⟩ := Nat.exists_eq_add_of_le hin.1
    have hi : i < n := by omega
    rw [if_pos (h.div hi), if_pos hin, h.mod hi, Bytes.blit_apply_of_mem _ _ _ _ (by omega)
      (by omega)]
    simp
  · rw [if_neg hin]
    split_ifs with hpage
    · rw [userByte_of_walkaddr ((walkaddr_congr hpage).trans hw), Bytes.blit_apply_of_not_mem]
      have hpg : pgSize = 4096 := rfl
      rw [hpg] at hpage ⊢
      omega
    · rfl

theorem Kernel.Unaliased.setPage (h : s.Unaliased p) {bytes : Bytes} :
    (s.setPage pa bytes).Unaliased p :=
  ⟨h.distinct, h.inUse, h.nodup, h.full⟩

end Chunks

end Xv6.Vm
