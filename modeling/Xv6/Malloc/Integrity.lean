import Xv6.Malloc.Free

/-!
# Integrity of the heap

A search of `malloc` that finds a block takes what it needs from the end of it. One that comes
round without a block asks for more memory, which goes through `free` into the list. As long as
all the memory granted can be counted in a `uint`, the heap stays in order.
-/
namespace Xv6.Malloc

open Library Function List

variable {base : ℕ} {s t : State} {free live A B : List Block} {b x y : Block} {n : ℕ}

namespace Heap

variable (h : Heap base s free live)
include h

/-- A heap depends on memory, `freep` and what was granted. -/
theorem congr (hmem : t.mem = s.mem) (hfreep : t.freep = s.freep)
    (hgranted : granted t.sbrks = granted s.sbrks) : Heap base t free live where
  chained := hmem ▸ h.chained
  live_size := hmem ▸ h.live_size
  freep_mem := hfreep ▸ h.freep_mem
  tiled := hgranted ▸ h.tiled
  free_pos := h.free_pos
  base_lt := h.base_lt
  fits := hgranted ▸ h.fits

theorem perm {L : List Block} (hp : live.Perm L) : Heap base s free L where
  chained := h.chained
  live_size y hy := h.live_size y (hp.mem_iff.mpr hy)
  freep_mem := h.freep_mem
  tiled := h.tiled.perm hp
  free_pos := h.free_pos
  base_lt y hy := h.base_lt y (hp.mem_iff.mpr hy)
  fits := h.fits

/-- A block of the free list with some units, and the block before it. -/
theorem split_next {prevp : ℕ} (hprev : prevp ∈ (dummy base :: free).map Block.addr) (hn : 0 < n)
    (hfit : n ≤ (s.mem (s.mem prevp).ptr).size) :
    ∃ A V x B F, dummy base :: free = A ++ V :: x :: B ∧ V.addr = prevp ∧
      x.addr = (s.mem prevp).ptr ∧ n ≤ x.size ∧ A ++ [V] = dummy base :: F ∧
      free = F ++ x :: B := by
  obtain ⟨V, hV, rfl⟩ := mem_map.mp hprev
  obtain ⟨A, R, hl⟩ := append_of_mem hV
  have hnext := (hl ▸ h.chained).drop.next
  cases R with
  | nil =>
    obtain hptr : base = (s.mem V.addr).ptr := by simpa using hnext
    have hsize : (s.mem base).size = 0 := h.chained.sizes (dummy base) (by simp)
    rw [← hptr, hsize] at hfit
    omega
  | cons x B =>
    obtain hptr : x.addr = (s.mem V.addr).ptr := by simpa using hnext
    have hsize := h.chained.sizes x (by simp [hl])
    rw [← hptr, hsize] at hfit
    obtain ⟨F, hF, hfree⟩ : ∃ F, A ++ [V] = dummy base :: F ∧ free = F ++ x :: B := by
      cases A with
      | nil =>
        rw [nil_append, cons.injEq] at hl
        exact ⟨[], by rw [hl.1, nil_append], hl.2⟩
      | cons a A =>
        rw [cons_append, cons.injEq] at hl
        exact ⟨A ++ [V], by rw [hl.1, cons_append], by rw [hl.2, append_assoc]; rfl⟩
    exact ⟨A, V, x, B, F, hl, rfl, hptr, hfit, hF, hfree⟩

theorem unlink {V : Block} {F : List Block}
    (hl : dummy base :: free = A ++ V :: x :: B) (hF : A ++ [V] = dummy base :: F)
    (hfree : free = F ++ x :: B) (r : ℕ) :
    Heap base { s.setPtr V.addr (s.mem x.addr).ptr with freep := V.addr, ret := r } (F ++ B)
      (x :: live) := by
  have hx : x ∈ free := by simp [hfree]
  have hxpos := h.free_pos x hx
  have hVmem : V ∈ dummy base :: free := by simp [hl]
  have hnodes : dummy base :: (F ++ B) = A ++ V :: B := by
    rw [← cons_append, ← hF, append_assoc]
    rfl
  have hsorted := h.sorted
  rw [hl, map_append, map_cons, pairwise_append, pairwise_cons] at hsorted
  obtain ⟨-, ⟨hVB, -⟩, hAV⟩ := hsorted
  have hkeep : ∀ a, a ≠ V.addr → (s.setPtr V.addr (s.mem x.addr).ptr).mem a = s.mem a :=
    fun a ha => update_of_ne ha _ _
  have hself : (s.setPtr V.addr (s.mem x.addr).ptr).mem V.addr =
      { s.mem V.addr with ptr := (s.mem x.addr).ptr } := update_self _ _ _
  have hchain := hl ▸ h.chained
  have hafter : Chained s.mem (x :: B) base := (hchain.drop (A := A)).drop (A := [V])
  constructor
  · rw [hnodes]
    apply hchain.replace
    · have htail : Chained s.mem B base := hafter.drop (A := [x])
      have hB : Chained (s.setPtr V.addr (s.mem x.addr).ptr).mem B base := by
        apply htail.congr
        intro y hy
        exact hkeep y.addr (hVB y.addr (mem_cons_of_mem _ (mem_map_of_mem hy))).ne'
      apply hB.cons
      · rw [hself]
        exact h.chained.sizes V hVmem
      · rw [hself]
        exact hafter.next
    · rfl
    · intro y hy
      exact hkeep y.addr (hAV y.addr (mem_map_of_mem hy) V.addr (by simp)).ne
  · intro y hy
    rw [mem_cons] at hy
    cases hy with
    | inl heq =>
      rw [heq]
      refine (congrArg Header.size (hkeep x.addr (hVB x.addr (by simp)).ne')).trans ?_
      exact h.chained.sizes x (mem_cons_of_mem _ hx)
    | inr hmem =>
      refine (congrArg Header.size (hkeep y.addr (h.live_ne hVmem hmem).symm)).trans ?_
      exact h.live_size y hmem
  · rw [hnodes]
    simp
  · have htiled := h.tiled
    rw [hfree, ← cons_append] at htiled
    exact htiled.takeWhole hxpos
  · intro y hy
    apply h.free_pos y
    rw [hfree]
    simp only [mem_append, mem_cons] at hy ⊢
    tauto
  · intro y hy
    rw [mem_cons] at hy
    cases hy with
    | inl heq =>
      have hs := h.sorted
      rw [map_cons, pairwise_cons] at hs
      exact heq ▸ hs.1 x.addr (mem_map_of_mem hx)
    | inr hmem => exact h.base_lt y hmem
  · exact h.fits

/-- Units are cut off the end of a free block, which stays where it is. -/
theorem cut {F : List Block} (hfree : free = F ++ x :: B)
    (hn : 0 < n) (hlt : n < x.size) {prevp : ℕ}
    (hprev : prevp ∈ (dummy base :: free).map Block.addr) (r : ℕ) :
    Heap base { (s.setSize x.addr (x.size - n)).setSize (x.back unit n).addr n with
        freep := prevp, ret := r } (F ++ x.front n :: B) (x.back unit n :: live) := by
  have hx : x ∈ free := by simp [hfree]
  have htiled := h.tiled
  rw [hfree, ← cons_append] at htiled
  have hcut := htiled.cut hn hlt
  have hbx : base < x.addr := by
    have hs := h.sorted
    rw [map_cons, pairwise_cons] at hs
    exact hs.1 x.addr (mem_map_of_mem hx)
  have hxb : x.addr < (x.back unit n).addr := by
    have := Nat.mul_pos unit_pos (by omega : 0 < x.size - n)
    unfold Block.back
    dsimp only
    omega
  have haddrs : (dummy base :: (F ++ x.front n :: B)).map Block.addr =
      (dummy base :: free).map Block.addr := by
    rw [hfree]
    simp [Block.front]
  have hptr : ∀ a, (((s.setSize x.addr (x.size - n)).setSize (x.back unit n).addr n).mem a).ptr =
      (s.mem a).ptr := by
    intro a
    simp only [State.setSize, State.setMem, update_apply]
    split_ifs <;> simp_all
  have hsize : ∀ a, a ≠ (x.back unit n).addr → a ≠ x.addr →
      ((s.setSize x.addr (x.size - n)).setSize (x.back unit n).addr n).mem a = s.mem a := by
    intro a h1 h2
    simp only [State.setSize, State.setMem, update_of_ne h1, update_of_ne h2]
  have hpos : ∀ y ∈ F ++ x.front n :: B, 0 < y.size := by
    intro y hy
    simp only [mem_append, mem_cons] at hy
    rcases hy with hy | rfl | hy
    · exact h.free_pos y (by simp [hfree, hy])
    · exact Nat.sub_pos_of_lt hlt
    · exact h.free_pos y (by simp [hfree, hy])
  obtain ⟨-, hgap, hFx⟩ := pairwise_append.mp htiled.gap
  obtain ⟨hxB, -⟩ := pairwise_cons.mp hgap
  constructor
  · constructor
    · rw [haddrs]
      exact chain_congr h.chained.linked fun a _ => hptr a
    · intro y hy
      have hyb : y.addr ≠ (x.back unit n).addr := by
        rw [mem_cons] at hy
        cases hy with
        | inl heq => exact heq ▸ (hbx.trans hxb).ne
        | inr hmem =>
          exact (hcut.apart y (by simpa using mem_cons_of_mem _ hmem) _ (by simp)).ne unit_pos
            (hpos y hmem) hn
      have hy' : y ∈ dummy base :: F ∨ y = x.front n ∨ y ∈ B := by simpa [or_assoc] using hy
      rcases hy' with hy' | rfl | hy'
      · rw [hsize y.addr hyb (hFx y hy' x (by simp)).addr_lt.ne]
        apply h.chained.sizes
        rw [hfree, ← cons_append]
        exact mem_append_left _ hy'
      · change (((s.setSize x.addr (x.size - n)).setSize _ n).mem x.addr).size = x.size - n
        simp [State.setSize, State.setMem, update_of_ne hxb.ne]
      · rw [hsize y.addr hyb (hxB y hy').addr_lt.ne']
        apply h.chained.sizes
        simp [hfree, hy']
  · intro y hy
    rw [mem_cons] at hy
    cases hy with
    | inl heq =>
      rw [heq]
      simp [State.setSize, State.setMem, Block.back]
    | inr hmem =>
      have hyb := (pairwise_cons.mp hcut.live_apart).1 y hmem
      refine (congrArg Header.size (hsize y.addr ?_ ?_)).trans (h.live_size y hmem)
      · exact (hyb.ne unit_pos hn (h.tiled.live_pos y hmem)).symm
      · exact (h.live_ne (mem_cons_of_mem _ hx) hmem).symm
  · rw [haddrs]
    exact hprev
  · exact hcut
  · exact hpos
  · intro y hy
    rw [mem_cons] at hy
    cases hy with
    | inl heq => exact heq ▸ hbx.trans hxb
    | inr hmem => exact h.base_lt y hmem
  · exact h.fits

/-- `malloc` takes a block of just `n` units. -/
theorem carve {prevp : ℕ} (hprev : prevp ∈ (dummy base :: free).map Block.addr) (hn : 0 < n)
    (hfit : n ≤ (s.mem (s.mem prevp).ptr).size) :
    ∃ free' y, Heap base (carve s prevp (s.mem prevp).ptr n) free' (y :: live) ∧
      (Malloc.carve s prevp (s.mem prevp).ptr n).ret = y.addr + unit ∧ y.size = n := by
  obtain ⟨A, V, x, B, F, hl, rfl, hx, hle, hF, hfree⟩ := h.split_next hprev hn hfit
  have hsize := h.chained.sizes x (by simp [hl])
  rw [← hx]
  unfold Malloc.carve
  by_cases heq : (s.mem x.addr).size = n
  · rw [if_pos heq]
    exact ⟨F ++ B, x, h.unlink hl hF hfree _, rfl, hsize.symm.trans heq⟩
  · rw [if_neg heq]
    have hlt : n < x.size := by omega
    have hafter : (s.setSize x.addr ((s.mem x.addr).size - n)).after x.addr =
        (x.back unit n).addr := by
      rw [hsize]
      simp [State.after, State.setSize, State.setMem, Block.back]
    dsimp only
    rw [hafter, hsize]
    exact ⟨F ++ x.front n :: B, x.back unit n, h.cut hfree hn hlt hprev _, rfl, rfl⟩

theorem grant {a nu : ℕ} (hnu : 0 < nu) (hbase : base + unit ≤ a)
    (hnew : ∀ g ∈ granted s.sbrks, g.stop unit ≤ a)
    (hfits : units (granted s.sbrks) + nu < uintMod) :
    Heap base ({ s with sbrks := s.sbrks ++ [(nu * unit, some a)] }.setSize a nu) free
      (⟨a, nu⟩ :: live) := by
  have hgranted : granted (s.sbrks ++ [(nu * unit, some a)]) = granted s.sbrks ++ [⟨a, nu⟩] := by
    unfold granted
    rw [filterMap_append]
    simp [Nat.mul_div_cancel nu unit_pos]
  have hlt : base < a := by
    have := unit_pos
    omega
  have htiled : Tiled unit (granted s.sbrks ++ [⟨a, nu⟩]) (dummy base :: free)
    (⟨a, nu⟩ :: live) := by
    apply h.tiled.grant hnu hnew
    intro x hx hsize
    rw [mem_cons] at hx
    cases hx with
    | inl heq => exact heq ▸ hlt.le
    | inr hmem => exact absurd hsize (h.free_pos x hmem).ne'
  have hkeep : ∀ b : Block, b.addr ≠ a →
      ({ s with sbrks := s.sbrks ++ [(nu * unit, some a)] }.setSize a nu).mem b.addr =
        s.mem b.addr := fun b hb => update_of_ne hb _ _
  constructor
  · apply h.chained.congr
    intro x hx
    apply hkeep
    rw [mem_cons] at hx
    cases hx with
    | inl heq => exact heq ▸ hlt.ne
    | inr hmem =>
      exact (htiled.apart x (mem_cons_of_mem _ hmem) ⟨a, nu⟩ (by simp)).ne unit_pos
        (h.free_pos x hmem) hnu
  · intro y hy
    rw [mem_cons] at hy
    cases hy with
    | inl heq =>
      rw [heq]
      simp [State.setSize, State.setMem]
    | inr hmem =>
      have hya := (pairwise_cons.mp htiled.live_apart).1 y hmem
      rw [hkeep y (hya.ne unit_pos hnu (h.tiled.live_pos y hmem)).symm]
      exact h.live_size y hmem
  · exact h.freep_mem
  · change Tiled unit (granted (s.sbrks ++ [(nu * unit, some a)])) _ _
    rw [hgranted]
    exact htiled
  · exact h.free_pos
  · intro y hy
    rw [mem_cons] at hy
    cases hy with
    | inl heq => exact heq ▸ hlt
    | inr hmem => exact h.base_lt y hmem
  · change units (granted (s.sbrks ++ [(nu * unit, some a)])) < uintMod
    rw [hgranted, units_append]
    simpa using hfits

end Heap

section Search

variable {sbrk : List (ℕ × Option ℕ) → ℕ → Option ℕ}

/-- The loop of `malloc` goes past blocks that are too small. -/
theorem search_walk {k : ℕ} {q : ℕ}
    (h : ∀ i < k, ¬ n ≤ (s.mem ((fun a => (s.mem a).ptr)^[i + 1] q)).size ∧
      (fun a => (s.mem a).ptr)^[i + 1] q ≠ s.freep) (fuel : ℕ) :
    search sbrk n (k + fuel) s q = search sbrk n fuel s ((fun a => (s.mem a).ptr)^[k] q) := by
  induction k generalizing q with
  | zero => rw [Nat.zero_add, iterate_zero_apply]
  | succ k ih =>
    obtain ⟨hsize, hback⟩ := h 0 (by omega)
    rw [iterate_succ_apply, iterate_zero_apply] at hsize hback
    rw [Nat.succ_add, search, if_neg hsize, if_neg hback, iterate_succ_apply]
    apply ih
    intro i hi
    have := h (i + 1) (by omega)
    rwa [iterate_succ_apply] at this

/-- One round of the search: a block is found, or none is large enough. -/
theorem search_round (sbrk : List (ℕ × Option ℕ) → ℕ → Option ℕ) (h : Heap base s free live)
    (n : ℕ) :
    ∃ k, ∃ prevp ∈ (dummy base :: free).map Block.addr,
      (∀ fuel ≤ k, search sbrk n fuel s s.freep = none) ∧
      (∀ fuel, search sbrk n (k + fuel) s s.freep = search sbrk n fuel s prevp) ∧
      (n ≤ (s.mem (s.mem prevp).ptr).size ∨
        (¬ n ≤ (s.mem (s.mem prevp).ptr).size ∧ (s.mem prevp).ptr = s.freep ∧
          ∀ x ∈ free, x.size < n)) := by
  obtain ⟨k, hbefore, hend⟩ := h.ring.first h.freep_mem fun a => n ≤ (s.mem a).size
  have hmem : ∀ i, (fun a => (s.mem a).ptr)^[i] s.freep ∈ (dummy base :: free).map Block.addr := by
    intro i
    induction i with
    | zero => exact h.freep_mem
    | succ i ih =>
      rw [iterate_succ_apply']
      exact h.next_mem ih
  refine ⟨k, _, hmem k, ?_, search_walk hbefore, ?_⟩
  · intro fuel hle
    exact search_walk (fun i hi => hbefore i (Nat.lt_of_lt_of_le hi hle)) 0
  · rw [iterate_succ_apply'] at hend
    by_cases hfit : n ≤ (s.mem (s.mem ((fun a => (s.mem a).ptr)^[k] s.freep)).ptr).size
    · exact .inl hfit
    · obtain ⟨hback, hall⟩ := hend.resolve_left hfit
      refine .inr ⟨hfit, hback, fun x hx => ?_⟩
      have hnot := hall x.addr (mem_cons_of_mem _ (mem_map_of_mem hx))
      rw [h.chained.sizes x (mem_cons_of_mem _ hx)] at hnot
      omega

/-- What a call of `malloc` for `n` units can come to. -/
def Outcome (base : ℕ) (live : List Block) (n : ℕ) (t : State) : Prop :=
  (t.ret = 0 ∧ ∃ free, Heap base t free live) ∨
    ∃ free y, Heap base t free (y :: live) ∧ t.ret = y.addr + unit ∧ y.size = n

/-- The search makes no call of `sbrk`, or one, and returns null if that fails. -/
def Asked (sbrk : List (ℕ × Option ℕ) → ℕ → Option ℕ) (n : ℕ) (s t : State) : Prop :=
  (t.sbrks = s.sbrks ∧ t.ret ≠ 0) ∨
    (t.sbrks = s.sbrks ++ [(max n 4096 * unit, sbrk s.sbrks (max n 4096 * unit))] ∧
      (t.ret = 0 ↔ sbrk s.sbrks (max n 4096 * unit) = none))

theorem carve_calls (s : State) (prevp p n : ℕ) :
    (carve s prevp p n).sbrks = s.sbrks ∧ (carve s prevp p n).ret ≠ 0 := by
  unfold carve
  split_ifs <;> exact ⟨rfl, Nat.add_one_ne_zero _⟩

/-- The search returns when there is a large enough block. -/
theorem search_found (sbrk : List (ℕ × Option ℕ) → ℕ → Option ℕ) (h : Heap base s free live)
    (hn : 0 < n) (hx : x ∈ free) (hle : n ≤ x.size) :
    ∃ t, (Outcome base live n t ∧ t.sbrks = s.sbrks ∧ t.ret ≠ 0) ∧
      ∃ k, (∀ fuel ≤ k, search sbrk n fuel s s.freep = none) ∧
        ∀ fuel > k, search sbrk n fuel s s.freep = some t := by
  obtain ⟨k, prevp, hprev, hnone, hround, hend⟩ := search_round sbrk h n
  have hfit : n ≤ (s.mem (s.mem prevp).ptr).size := by
    rcases hend with hfit | ⟨-, -, hsmall⟩
    · exact hfit
    · exact absurd hle (Nat.not_le.mpr (hsmall x hx))
  refine ⟨carve s prevp (s.mem prevp).ptr n,
    ⟨.inr (h.carve hprev hn hfit), carve_calls s _ _ n⟩, k, hnone, ?_⟩
  intro fuel hf
  obtain ⟨f, rfl⟩ := Nat.exists_eq_add_of_lt hf
  rw [Nat.add_assoc, hround, search, if_pos hfit]

theorem morecore_units (nu : ℕ) : (if nu < 4096 then 4096 else nu) = max nu 4096 := by
  split_ifs <;> omega

/-- After the calls made so far, `sbrk` grants memory above the program and above all of theirs. -/
def FreshAt (base : ℕ) (sbrk : List (ℕ × Option ℕ) → ℕ → Option ℕ)
    (calls : List (ℕ × Option ℕ)) : Prop :=
  ∀ k a, sbrk calls k = some a → base + unit ≤ a ∧ ∀ g ∈ granted calls, g.stop unit ≤ a

/-- `morecore` fails, or there is a large enough block in the list. -/
theorem morecore_cases (hbase : 0 < base) (hfresh : FreshAt base sbrk s.sbrks)
    (h : Heap base s free live) (hfits : units (granted s.sbrks) + max n 4096 < uintMod)
    {fuel p : ℕ} (hx : morecore sbrk fuel s n = some (t, p)) :
    t.sbrks = s.sbrks ++ [(max n 4096 * unit, sbrk s.sbrks (max n 4096 * unit))] ∧
      ((sbrk s.sbrks (max n 4096 * unit) = none ∧ p = 0 ∧ Heap base t free live) ∨
        (sbrk s.sbrks (max n 4096 * unit) ≠ none ∧ p = t.freep ∧ p ≠ 0 ∧
          ∃ free', Heap base t free' live ∧ ∃ x ∈ free', n ≤ x.size)) := by
  unfold morecore at hx
  rw [morecore_units] at hx
  dsimp only at hx
  cases hanswer : sbrk s.sbrks (max n 4096 * unit) with
  | none =>
    rw [hanswer] at hx
    cases hx
    refine ⟨rfl, .inl ⟨rfl, rfl, h.congr rfl rfl ?_⟩⟩
    simp [granted]
  | some a =>
    rw [hanswer] at hx
    dsimp only at hx
    obtain ⟨hlow, hnew⟩ := hfresh _ _ hanswer
    have hgrant := h.grant (by omega : 0 < max n 4096) hlow hnew hfits
    split at hx
    · cases hx
    · next u hfree =>
      cases hx
      obtain ⟨hsbrks, -, free', hheap, x, hxf, hle⟩ := hgrant.release hfree
      refine ⟨hsbrks, .inr ⟨nofun, rfl, ?_, free', hheap, x, hxf, (le_max_left n 4096).trans hle⟩⟩
      obtain ⟨y, hy, hya⟩ := mem_map.mp hheap.freep_mem
      have := hheap.base_le hy
      omega

theorem morecore_returns (hfresh : FreshAt base sbrk s.sbrks) (h : Heap base s free live)
    (hfits : units (granted s.sbrks) + max n 4096 < uintMod) :
    ∃ k r, ∀ fuel > k, morecore sbrk fuel s n = some r := by
  unfold morecore
  rw [morecore_units]
  dsimp only
  cases hanswer : sbrk s.sbrks (max n 4096 * unit) with
  | none => exact ⟨0, _, fun fuel _ => rfl⟩
  | some a =>
    obtain ⟨hlow, hnew⟩ := hfresh _ _ hanswer
    have hgrant := h.grant (by omega : 0 < max n 4096) hlow hnew hfits
    obtain ⟨k, u, hu⟩ := hgrant.free_returns (b := ⟨a, max n 4096⟩) (by simp)
    refine ⟨k, (u, u.freep), fun fuel hf => ?_⟩
    dsimp only
    rw [hu fuel hf]

theorem search_sound (hbase : 0 < base) (hfresh : FreshAt base sbrk s.sbrks)
    (h : Heap base s free live) (hn : 0 < n)
    (hfits : units (granted s.sbrks) + max n 4096 < uintMod) {fuel : ℕ}
    (hx : search sbrk n fuel s s.freep = some t) :
    Outcome base live n t ∧ Asked sbrk n s t := by
  obtain ⟨k, prevp, hprev, hnone, hround, hend⟩ := search_round sbrk h n
  have hf : k < fuel := by
    by_contra hle
    rw [hnone fuel (by omega)] at hx
    cases hx
  obtain ⟨f, rfl⟩ := Nat.exists_eq_add_of_lt hf
  rw [Nat.add_assoc, hround, search] at hx
  rcases hend with hfit | ⟨hsmall, hback, -⟩
  · rw [if_pos hfit] at hx
    cases hx
    exact ⟨.inr (h.carve hprev hn hfit), .inl (carve_calls s _ _ n)⟩
  · rw [if_neg hsmall, if_pos hback] at hx
    split at hx
    · cases hx
    · next u p hmore =>
      obtain ⟨hsbrks, ⟨hfails, rfl, hheap⟩ | ⟨hgrants, rfl, hne, hheap⟩⟩ :=
        morecore_cases hbase hfresh h hfits hmore
      · rw [if_pos rfl] at hx
        cases hx
        exact ⟨.inl ⟨rfl, free, hheap.congr rfl rfl rfl⟩,
          .inr ⟨hsbrks, iff_of_true rfl hfails⟩⟩
      · rw [if_neg hne] at hx
        obtain ⟨free', hheap, x, hxf, hle⟩ := hheap
        obtain ⟨v, ⟨hout, hcalls, hret⟩, j, hbelow, habove⟩ := search_found sbrk hheap hn hxf hle
        by_cases hj : f ≤ j
        · rw [hbelow f hj] at hx
          cases hx
        · rw [habove f (by omega)] at hx
          cases hx
          exact ⟨hout, .inr ⟨hcalls.trans hsbrks, iff_of_false hret hgrants⟩⟩

theorem search_returns (hbase : 0 < base) (hfresh : FreshAt base sbrk s.sbrks)
    (h : Heap base s free live) (hn : 0 < n)
    (hfits : units (granted s.sbrks) + max n 4096 < uintMod) :
    ∃ k t, ∀ fuel > k, search sbrk n fuel s s.freep = some t := by
  obtain ⟨k, prevp, hprev, -, hround, hend⟩ := search_round sbrk h n
  rcases hend with hfit | ⟨hsmall, hback, -⟩
  · refine ⟨k, carve s prevp (s.mem prevp).ptr n, fun fuel hf => ?_⟩
    obtain ⟨f, rfl⟩ := Nat.exists_eq_add_of_lt hf
    rw [Nat.add_assoc, hround, search, if_pos hfit]
  · obtain ⟨i, ⟨u, p⟩, hmore⟩ := morecore_returns hfresh h hfits
    obtain ⟨-, ⟨-, rfl, -⟩ | ⟨-, rfl, hne, free', hheap, x, hxf, hle⟩⟩ :=
      morecore_cases hbase hfresh h hfits (hmore (i + 1) (by omega))
    · refine ⟨k + i + 1, { u with ret := 0 }, fun fuel hf => ?_⟩
      obtain ⟨f, rfl⟩ : ∃ f, fuel = k + (f + 1) := ⟨fuel - k - 1, by omega⟩
      rw [hround, search, if_neg hsmall, if_pos hback, hmore f (by omega)]
      rfl
    · obtain ⟨v, -, j, -, habove⟩ := search_found sbrk hheap hn hxf hle
      refine ⟨k + i + j + 1, v, fun fuel hf => ?_⟩
      obtain ⟨f, rfl⟩ : ∃ f, fuel = k + (f + 1) := ⟨fuel - k - 1, by omega⟩
      rw [hround, search, if_neg hsmall, if_pos hback, hmore f (by omega)]
      dsimp only
      rw [if_neg hne, habove f (by omega)]

end Search

/-- The heap is in order: the live blocks do not overlap and each holds what was asked for; the
free blocks form a circular list in the order of their addresses, do not touch each other and do
not overlap live ones; and every granted unit is in exactly one block. -/
def Integrity (base : ℕ) (s : State) (trace : List (ℕ × ℕ)) : Prop :=
  ∃ free live : List Block,
    (∀ x ∈ free ++ live, (s.mem x.addr).size = x.size) ∧
    live.map Block.addr = trace.map Prod.fst ∧
    live.Pairwise (Block.Apart unit) ∧
    (∀ e ∈ trace, e.2 + unit ≤ unit * (s.mem e.1).size) ∧
    ((s.freep = 0 ∧ free = []) ∨
      (LinkedRing (fun a => (s.mem a).ptr) base (free.map Block.addr) ∧
        s.freep ∈ base :: free.map Block.addr)) ∧
    (base :: free.map Block.addr).Pairwise (· < ·) ∧
    free.Pairwise (Block.Gap unit) ∧
    (∀ x ∈ free, ∀ y ∈ live, x.Apart unit y) ∧
    (∀ a, HasIn unit (granted s.sbrks) a → ∃! b, b ∈ free ++ live ∧ b.Has unit a) ∧
    ∀ a, HasIn unit (free ++ live) a → HasIn unit (granted s.sbrks) a

/-- The calls return when they are given enough fuel. -/
def Returns (sbrk : List (ℕ × Option ℕ) → ℕ → Option ℕ) (base : ℕ) (s : State) : Event → Prop
  | .malloc nbytes _ => ∃ k t, ∀ fuel > k, malloc sbrk base fuel s nbytes = some t
  | .free ap _ => ∃ k t, ∀ fuel > k, Malloc.free fuel s ap = some t
  | .store _ _ => True

/-- All units granted, with those that the call may ask for, can be counted in a `uint`. -/
def Countable (h : Traced State (List (ℕ × ℕ))) : Event → Prop
  | .malloc nbytes _ => units (granted h.state.sbrks) + demand nbytes < uintMod
  | _ => True

/-- Before the first call, or with a heap. -/
inductive Sound (base : ℕ) (h : Traced State (List (ℕ × ℕ))) : Prop
  | fresh : h.state.freep = 0 → h.trace = [] → granted h.state.sbrks = [] → Sound base h
  | heap (free live : List Block) : Heap base h.state free live →
      live.map Block.addr = h.trace.map Prod.fst →
      (∀ e ∈ h.trace, e.2 + unit ≤ unit * (h.state.mem e.1).size) → Sound base h

variable {sbrk : List (ℕ × Option ℕ) → ℕ → Option ℕ} {h h' : Traced State (List (ℕ × ℕ))}
  {trace : List (ℕ × ℕ)} {e : ℕ × ℕ}

theorem nunits_spec {nbytes : ℕ} (hlt : nbytes < uintMod) :
    0 < nunits nbytes ∧ nbytes + unit ≤ unit * nunits nbytes := by
  unfold nunits unit uintMod at *
  rw [Nat.mod_eq_of_lt (by omega)]
  omega

namespace Heap

theorem live_of_trace (h : Heap base s free live)
    (htrace : live.map Block.addr = trace.map Prod.fst) (he : e ∈ trace) :
    ∃ y ∈ live, y.addr = e.1 ∧ (s.mem e.1).size = y.size := by
  have hmem : e.1 ∈ live.map Block.addr := htrace ▸ mem_map_of_mem he
  obtain ⟨y, hy, hye⟩ := mem_map.mp hmem
  exact ⟨y, hy, hye, hye ▸ h.live_size y hy⟩

theorem size_eq {free' live' : List Block} (h : Heap base s free live)
    (h' : Heap base t free' live') (htrace : live.map Block.addr = trace.map Prod.fst)
    (he : e ∈ trace) (hsub : ∀ y ∈ live, y.addr = e.1 → y ∈ live') :
    (t.mem e.1).size = (s.mem e.1).size := by
  obtain ⟨y, hy, hye, hsize⟩ := h.live_of_trace htrace he
  rw [hsize, ← hye]
  exact h'.live_size y (hsub y hy hye)

theorem store (h : Heap base s free live) {a : ℕ} (hy : y ∈ live) (hlow : y.addr < a)
    (hhigh : a < y.stop unit) (hdr : Header) : Heap base (s.setMem a hdr) free live := by
  have hkeep : ∀ b : Block, b.addr ≠ a → (s.setMem a hdr).mem b.addr = s.mem b.addr :=
    fun b hb => update_of_ne hb _ _
  have hout : ∀ x : Block, x.Apart unit y → x.addr ≠ a := by
    intro x hx heq
    unfold Block.Apart Block.stop at *
    omega
  constructor
  · apply h.chained.congr
    intro x hx
    apply hkeep
    rw [mem_cons] at hx
    cases hx with
    | inl heq => exact heq ▸ ((h.base_lt y hy).trans hlow).ne
    | inr hmem => exact hout x (h.tiled.apart x (mem_cons_of_mem _ hmem) y hy)
  · intro z hz
    rw [hkeep]
    · exact h.live_size z hz
    · by_cases hzy : z = y
      · exact hzy ▸ hlow.ne
      · exact hout z (h.tiled.live_apart.forall hz hy hzy)
  · exact h.freep_mem
  · exact h.tiled
  · exact h.free_pos
  · exact h.base_lt
  · exact h.fits

end Heap

theorem init_heap (hbase : 0 < base) (hs : Sound base h) :
    ∃ free live, Heap base (init base h.state) free live ∧
      live.map Block.addr = h.trace.map Prod.fst ∧
      (∀ e ∈ h.trace, e.2 + unit ≤ unit * ((init base h.state).mem e.1).size) ∧
      (init base h.state).sbrks = h.state.sbrks := by
  unfold init
  cases hs with
  | fresh hfreep htrace hgranted =>
    rw [if_pos hfreep]
    refine ⟨[], [], ?_, by rw [htrace]; rfl, by simp [htrace], rfl⟩
    constructor
    · constructor <;> simp [dummy, State.setMem]
    · simp
    · simp [dummy]
    · constructor
      · exact pairwise_singleton _ _
      · exact List.Pairwise.nil
      · simp
      · simp
      · change _ = units (granted h.state.sbrks)
        rw [hgranted]
        rfl
      · intro a
        change HasIn unit (granted h.state.sbrks) a ↔ _
        rw [hgranted]
        simp [HasIn, Block.Has, dummy]
    · simp
    · simp
    · change units (granted h.state.sbrks) < uintMod
      rw [hgranted]
      decide
  | heap free live hheap htrace hsizes =>
    have hne : h.state.freep ≠ 0 := by
      obtain ⟨y, hy, hya⟩ := mem_map.mp hheap.freep_mem
      have := hheap.base_le hy
      omega
    rw [if_neg hne]
    exact ⟨free, live, hheap, htrace, hsizes, rfl⟩

theorem malloc_sound (hbase : 0 < base) (hfresh : FreshAt base sbrk h.state.sbrks)
    (hs : Sound base h) {nbytes fuel : ℕ} (hlt : nbytes < uintMod)
    (hfits : units (granted h.state.sbrks) + demand nbytes < uintMod)
    (hx : malloc sbrk base fuel h.state nbytes = some t) :
    Sound base ⟨t, if t.ret = 0 then h.trace else (t.ret - unit, nbytes) :: h.trace⟩ ∧
      Asked sbrk (nunits nbytes) h.state t := by
  obtain ⟨hpos, hroom⟩ := nunits_spec hlt
  obtain ⟨free, live, hheap, htrace, hsizes, hsbrks⟩ := init_heap hbase hs
  obtain ⟨hout, hasked⟩ := search_sound hbase (hsbrks.symm ▸ hfresh) hheap hpos
    (by rw [hsbrks]; exact hfits) hx
  refine ⟨?_, by unfold Asked at *; rwa [hsbrks] at hasked⟩
  rcases hout with ⟨hret, free', ht⟩ | ⟨free', y, ht, hret, hsize⟩
  · rw [if_pos hret]
    refine .heap free' live ht htrace fun e he => ?_
    rw [hheap.size_eq ht htrace he fun y hy _ => hy]
    exact hsizes e he
  · have hne : t.ret ≠ 0 := by
      have := unit_pos
      omega
    rw [if_neg hne, hret, Nat.add_sub_cancel]
    refine .heap free' (y :: live) ht (by rw [map_cons, map_cons, htrace]) fun e he => ?_
    rw [mem_cons] at he
    cases he with
    | inl heq =>
      rw [heq]
      change nbytes + unit ≤ unit * (t.mem y.addr).size
      rw [ht.live_size y (by simp), hsize]
      exact hroom
    | inr hmem =>
      rw [hheap.size_eq ht htrace hmem fun z hz _ => mem_cons_of_mem y hz]
      exact hsizes e hmem

theorem free_sound (hs : Sound base h) {ap fuel : ℕ} (hap : ∃ e ∈ h.trace, ap = e.1 + unit)
    (hx : Malloc.free fuel h.state ap = some t) :
    Sound base ⟨t, h.trace.eraseP fun e => e.1 = ap - unit⟩ := by
  obtain ⟨e, he, rfl⟩ := hap
  rw [Nat.add_sub_cancel]
  cases hs with
  | fresh _ htrace _ =>
    rw [htrace] at he
    cases he
  | heap free live hheap htrace hsizes =>
    obtain ⟨y, hy, hye, -⟩ := hheap.live_of_trace htrace he
    obtain ⟨b, l1, l2, -, hb, hlive, herase⟩ :=
      exists_of_eraseP (p := fun b : Block => decide (b.addr = e.1)) hy (by simpa using hye)
    have hbe : b.addr = e.1 := by simpa using hb
    have hperm : live.Perm (b :: (l1 ++ l2)) := hlive ▸ perm_middle
    have hheap' := hheap.perm hperm
    rw [← hbe] at hx
    obtain ⟨-, -, free', ht, -⟩ := hheap'.release hx
    have hmap : (l1 ++ l2).map Block.addr =
        (h.trace.eraseP fun e' => e'.1 = e.1).map Prod.fst := by
      have h1 := eraseP_map (f := Block.addr) (p := fun a => decide (a = e.1)) (l := live)
      have h2 := eraseP_map (f := Prod.fst) (p := fun a => decide (a = e.1)) (l := h.trace)
      rw [htrace] at h1
      rw [h1] at h2
      rw [← herase]
      exact h2
    refine .heap free' (l1 ++ l2) ht hmap fun e' he' => ?_
    obtain ⟨z, hz, hze, hsize⟩ := ht.live_of_trace hmap he'
    have hold : (h.state.mem e'.1).size = z.size :=
      hze ▸ hheap'.live_size z (mem_cons_of_mem b hz)
    change e'.2 + unit ≤ unit * (t.mem e'.1).size
    rw [hsize, ← hold]
    exact hsizes e' (mem_of_mem_eraseP he')

theorem store_sound (hs : Sound base h) {a : ℕ} (hdr : Header)
    (ha : ∃ e ∈ h.trace, e.1 < a ∧ a < e.1 + unit + e.2) :
    Sound base ⟨h.state.setMem a hdr, h.trace⟩ := by
  obtain ⟨e, he, hlow, hhigh⟩ := ha
  cases hs with
  | fresh _ htrace _ =>
    rw [htrace] at he
    cases he
  | heap free live hheap htrace hsizes =>
    obtain ⟨y, hy, hye, hsize⟩ := hheap.live_of_trace htrace he
    have hroom := hsizes e he
    have ht := hheap.store hy (a := a) (by omega) (by rw [Block.stop, ← hsize]; omega) hdr
    refine .heap free live ht htrace fun e' he' => ?_
    rw [hheap.size_eq ht htrace he' fun z hz _ => hz]
    exact hsizes e' he'

theorem step_sound (hbase : 0 < base) (hfresh : FreshAt base sbrk h.state.sbrks) {e : Event}
    (hs : Sound base h) (hok : Proper h e ∧ Countable h e)
    (hx : traced (step sbrk base) note h e = .ok h') : Sound base h' := by
  obtain ⟨hproper, hcount⟩ := hok
  obtain ⟨hstep, hnote⟩ := traced_ok hx
  obtain ⟨t, g⟩ := h'
  dsimp only at hstep hnote
  subst hnote
  cases e with
  | malloc nbytes fuel =>
    simp only [step] at hstep
    split at hstep
    · cases hstep
    · next u hu =>
      cases hstep
      exact (malloc_sound hbase hfresh hs hproper.1 hcount hu).1
  | free ap fuel =>
    simp only [step] at hstep
    split at hstep
    · cases hstep
    · next u hu =>
      cases hstep
      exact free_sound hs hproper hu
  | store a hdr =>
    cases hstep
    exact store_sound hs hdr hproper

theorem Sound.integrity (hs : Sound base h) : Integrity base h.state h.trace := by
  cases hs with
  | fresh hfreep htrace hgranted =>
    rw [htrace]
    refine ⟨[], [], by simp, rfl, List.Pairwise.nil, by simp, .inl ⟨hfreep, rfl⟩, by simp,
      List.Pairwise.nil, by simp, ?_, ?_⟩
    · intro a ha
      rw [hgranted] at ha
      simp [HasIn] at ha
    · intro a ha
      simp [HasIn] at ha
  | heap free live hheap htrace hsizes =>
    have htiled := hheap.tiled
    have hcover : ∀ a, HasIn unit (granted h.state.sbrks) a ↔ HasIn unit (free ++ live) a := by
      intro a
      have hdummy : ¬ (dummy base).Has unit a := by simp [Block.Has, dummy]
      rw [htiled.covered a, hasIn_append, hasIn_cons]
      tauto
    have happart : (free ++ live).Pairwise (Block.Apart unit) := by
      rw [pairwise_append]
      refine ⟨(pairwise_cons.mp htiled.gap).2.imp Block.Gap.apart, htiled.live_apart, ?_⟩
      exact fun x hx y hy => htiled.apart x (mem_cons_of_mem _ hx) y hy
    refine ⟨free, live, ?_, htrace, htiled.live_apart, hsizes, .inr ⟨hheap.ring, hheap.freep_mem⟩,
      hheap.sorted, (pairwise_cons.mp htiled.gap).2,
      fun x hx => htiled.apart x (mem_cons_of_mem _ hx), ?_, fun a => (hcover a).mpr⟩
    · intro x hx
      rw [mem_append] at hx
      cases hx with
      | inl hf => exact hheap.chained.sizes x (mem_cons_of_mem _ hf)
      | inr hl => exact hheap.live_size x hl
    · intro a ha
      obtain ⟨b, hb, hba⟩ := (hcover a).mp ha
      refine ⟨b, ⟨hb, hba⟩, ?_⟩
      rintro c ⟨hc, hca⟩
      by_contra hne
      exact hca.apart unit_pos hba (happart.forall hc hb hne)

theorem malloc_returns (hbase : 0 < base) (hfresh : FreshAt base sbrk h.state.sbrks)
    (hs : Sound base h) {nbytes : ℕ} (hlt : nbytes < uintMod)
    (hfits : units (granted h.state.sbrks) + demand nbytes < uintMod) :
    ∃ k t, ∀ fuel > k, malloc sbrk base fuel h.state nbytes = some t := by
  obtain ⟨free, live, hheap, -, -, hsbrks⟩ := init_heap hbase hs
  exact search_returns hbase (hsbrks.symm ▸ hfresh) hheap (nunits_spec hlt).1
    (by rw [hsbrks]; exact hfits)

theorem Sound.returns (hbase : 0 < base) (hfresh : FreshAt base sbrk h.state.sbrks)
    (hs : Sound base h) {e : Event} (hproper : Proper h e) (hcount : Countable h e) :
    Returns sbrk base h.state e := by
  cases e with
  | malloc nbytes fuel => exact malloc_returns hbase hfresh hs hproper.1 hcount
  | free ap fuel =>
    obtain ⟨e, he, rfl⟩ := hproper
    cases hs with
    | fresh _ htrace _ =>
      rw [htrace] at he
      cases he
    | heap free live hheap htrace _ =>
      obtain ⟨y, hy, hye, -⟩ := hheap.live_of_trace htrace he
      rw [← hye]
      exact hheap.free_returns hy
  | store a hdr => trivial

/-- Through any sequence of calls, with stores of the program into its blocks between them, the
heap is in order, and every further call returns, if all the units granted can be counted in a
`uint`. -/
theorem heap_integrity (hbase : 0 < base) (hfresh : Fresh base sbrk) {mem : ℕ → Header}
    (hr : Reach (stepRel (traced (step sbrk base) note)) (fun h e => Proper h e ∧ Countable h e)
      (start mem) h) :
    Integrity base h.state h.trace ∧
      ∀ e, Proper h e → Countable h e → Returns sbrk base h.state e := by
  have hs : Sound base h :=
    hr.invariant (.fresh rfl rfl rfl) fun _ _ _ => step_sound hbase (hfresh _)
  exact ⟨hs.integrity, fun e => hs.returns hbase (hfresh _)⟩

section Runs

instance (h : Traced State (List (ℕ × ℕ))) (e : Event) : Decidable (Proper h e) := by
  unfold Proper
  cases e <;> infer_instance

instance (h : Traced State (List (ℕ × ℕ))) (e : Event) : Decidable (Countable h e) := by
  unfold Countable
  cases e <;> infer_instance

/-- An `sbrk` that never fails: it grants what comes right after all it has granted. -/
def generous (calls : List (ℕ × Option ℕ)) (_ : ℕ) : Option ℕ :=
  some ((granted calls).foldr (fun g m => max (g.stop unit) m) 4096)

theorem generous_fresh : Fresh 16 generous := by
  intro calls k a ha
  obtain rfl : (granted calls).foldr (fun g m => max (g.stop unit) m) 4096 = a :=
    Option.some.inj ha
  induction granted calls with
  | nil => exact ⟨by decide, by simp⟩
  | cons g gs ih =>
    rw [foldr_cons]
    refine ⟨ih.1.trans (le_max_right _ _), fun x hx => ?_⟩
    rw [mem_cons] at hx
    cases hx with
    | inl heq => exact heq ▸ le_max_left _ _
    | inr hmem => exact (ih.2 x hmem).trans (le_max_right _ _)

/-- Three blocks are allocated, the program stores into the second, and they are given back in
another order. -/
def session : List Event :=
  [.malloc 100 9, .malloc 20 9, .malloc 5000 9, .store 69472 ⟨7, 7⟩, .free 69472 9, .free 69520 9,
    .free 64448 9]

theorem heap_integrity_session : ∃ h,
    Reach (stepRel (traced (step generous 16) note)) (fun h e => Proper h e ∧ Countable h e)
      (start fun _ => ⟨0, 0⟩) h ∧
    Integrity 16 h.state h.trace ∧ Returns generous 16 h.state (.malloc 100000 0) := by
  have hrun : (follow (traced (step generous 16) note) (fun h e => Proper h e ∧ Countable h e)
      (start fun _ => ⟨0, 0⟩) session).map (fun h => (h.trace, granted h.state.sbrks)) =
        some ([], [⟨4096, 4096⟩]) := by
    decide +kernel
  obtain ⟨h, hf, heq⟩ := Option.map_eq_some_iff.mp hrun
  have hr := reach_of_follow session Reach.refl hf
  obtain ⟨hint, hret⟩ := heap_integrity (by decide) generous_fresh hr
  refine ⟨h, hr, hint, hret _ ⟨by decide, by decide⟩ ?_⟩
  change units (granted h.state.sbrks) + demand 100000 < uintMod
  rw [(Prod.mk.inj heq).2]
  decide

/-- The largest request that fits the argument of `sbrk`, in units. -/
def largest : ℕ := 2 ^ 27 - 1

/-- 33 of the largest blocks are allocated, and then given back. -/
def hoard : List Event :=
  replicate 33 (.malloc (unit * (largest - 1)) 9) ++
    (range 33).map fun i => .free (4096 + unit * (i * largest) + unit) 9

/-- When free blocks of 2 ^ 32 units are joined, the sum does not fit the field `size`: most of the
memory that was granted is in no block. -/
theorem joined_size_overflows : Fresh 16 generous ∧ ∃ h,
    Reach (stepRel (traced (step generous 16) note)) Proper (start fun _ => ⟨0, 0⟩) h ∧
    ¬ Integrity 16 h.state h.trace := by
  have hrun : (follow (traced (step generous 16) note) Proper (start fun _ => ⟨0, 0⟩) hoard).map
      (fun h => (h.trace, h.state.freep, (h.state.mem 16).ptr, h.state.mem 4096,
        (granted h.state.sbrks).getLast?)) =
      some ([], 4096, 4096, ⟨16, 33 * largest % 2 ^ 32⟩,
        some ⟨4096 + unit * (32 * largest), largest⟩) := by
    decide +kernel
  obtain ⟨h, hf, heq⟩ := Option.map_eq_some_iff.mp hrun
  simp only [Prod.mk.injEq] at heq
  obtain ⟨htrace, hfreep, hfirst, hsecond, hlast⟩ := heq
  refine ⟨generous_fresh, h, reach_of_follow hoard Reach.refl hf, ?_⟩
  rintro ⟨free, live, hsizes, hlive, -, -, hring, hsorted, -, -, hcover, -⟩
  rw [htrace] at hlive
  obtain rfl : live = [] := List.map_eq_nil_iff.mp hlive
  have hlinked := (hring.resolve_left fun h0 => by rw [hfreep] at h0; cases h0.1).1
  unfold LinkedRing at hlinked
  -- the free list can only be the block at 4096
  cases free with
  | nil =>
    obtain ⟨hback, -⟩ := List.isChain_cons_cons.mp hlinked
    exact absurd (hfirst.symm.trans hback) (by decide)
  | cons x rest =>
    rw [List.map_cons, List.cons_append, List.isChain_cons_cons] at hlinked
    obtain ⟨hfront, hlinked⟩ := hlinked
    have hx : 4096 = x.addr := hfirst.symm.trans hfront
    cases rest with
    | cons y rest =>
      rw [List.map_cons, List.cons_append, List.isChain_cons_cons, ← hx] at hlinked
      have hy : 16 = y.addr := (congrArg Header.ptr hsecond).symm.trans hlinked.1
      have hlt := (List.pairwise_cons.mp hsorted).1 y.addr (by simp)
      exact absurd hy hlt.ne
    | nil =>
      have hsize := hsizes x (by simp)
      rw [← hx, hsecond] at hsize
      obtain ⟨b, ⟨hb, hba⟩, -⟩ := hcover (4096 + unit * (32 * largest))
        ⟨_, List.mem_of_getLast? hlast, 0, by decide, rfl⟩
      obtain rfl : b = x := by simpa using hb
      have hstop := hba.le_stop.2
      rw [Block.stop, ← hx, ← hsize] at hstop
      exact absurd hstop (by decide)

end Runs

end Xv6.Malloc
