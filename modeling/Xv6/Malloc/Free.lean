import Xv6.Malloc.Model

/-!
# Giving blocks back

The free blocks stand in a circular list that begins with `base`. The loop of `free` ends at
the last of them that is below the block given back, and the block is joined with its
neighbours as `Library.insertAfter` says.
-/
namespace Xv6.Malloc

open Library Function List

/-- The blocks of `l` are linked in memory, the last of them to `z`, and have their sizes there. -/
structure Chained (mem : ℕ → Header) (l : List Block) (z : ℕ) : Prop where
  linked : (l.map Block.addr ++ [z]).IsChain fun a b => (mem a).ptr = b
  sizes : ∀ x ∈ l, (mem x.addr).size = x.size

def dummy (base : ℕ) : Block := ⟨base, 0⟩

/-- The free list holds the blocks of `free`, and the other blocks are those of `live`. -/
structure Heap (base : ℕ) (s : State) (free live : List Block) : Prop where
  chained : Chained s.mem (dummy base :: free) base
  live_size : ∀ y ∈ live, (s.mem y.addr).size = y.size
  freep_mem : s.freep ∈ (dummy base :: free).map Block.addr
  tiled : Tiled unit (granted s.sbrks) (dummy base :: free) live
  free_pos : ∀ x ∈ free, 0 < x.size
  base_lt : ∀ y ∈ live, base < y.addr
  fits : units (granted s.sbrks) < uintMod

variable {base z : ℕ} {s t : State} {mem mem' : ℕ → Header} {free live A B l : List Block}
  {b x : Block}

theorem unit_pos : 0 < unit := by decide

namespace Chained

theorem congr (h : Chained mem l z) (heq : ∀ x ∈ l, mem' x.addr = mem x.addr) :
    Chained mem' l z where
  linked := by
    apply chain_congr h.linked
    intro a ha
    obtain ⟨x, hx, rfl⟩ := mem_map.mp ha
    rw [heq x hx]
  sizes x hx := by rw [heq x hx, h.sizes x hx]

theorem drop (h : Chained mem (A ++ l) z) : Chained mem l z where
  linked := by
    have := h.linked
    rw [map_append, append_assoc, isChain_append] at this
    exact this.2.1
  sizes x hx := h.sizes x (mem_append_right A hx)

theorem next (h : Chained mem (x :: l) z) :
    (l.map Block.addr ++ [z]).head? = some (mem x.addr).ptr := by
  have hl := h.linked
  rw [map_cons, cons_append, isChain_cons] at hl
  cases hhead : (l.map Block.addr ++ [z]).head? with
  | none => simp at hhead
  | some a => rw [hl.1 a hhead]

theorem cons (h : Chained mem l z) (hsize : (mem x.addr).size = x.size)
    (hnext : (l.map Block.addr ++ [z]).head? = some (mem x.addr).ptr) : Chained mem (x :: l) z where
  linked := by
    rw [map_cons, cons_append, isChain_cons, hnext]
    refine ⟨?_, h.linked⟩
    rintro _ ⟨⟩
    rfl
  sizes y hy := by
    rw [mem_cons] at hy
    cases hy with
    | inl heq => rw [heq, hsize]
    | inr hmem => exact h.sizes y hmem

/-- The blocks from `x` on are replaced by others, of which the first has the same address. -/
theorem replace (h : Chained mem (A ++ x :: B) z) (hl : Chained mem' l z)
    (hhead : (l.map Block.addr).head? = some x.addr) (hA : ∀ y ∈ A, mem' y.addr = mem y.addr) :
    Chained mem' (A ++ l) z where
  linked := by
    have hlinked := h.linked
    obtain ⟨c, m, rfl⟩ : ∃ c m, l = c :: m := by
      cases l with
      | nil => cases hhead
      | cons c m => exact ⟨c, m, rfl⟩
    have hc : c.addr = x.addr := by simpa using hhead
    rw [map_append, append_assoc, map_cons, cons_append,
      isChain_split] at hlinked ⊢
    refine ⟨?_, hl.linked⟩
    rw [hc]
    apply chain_congr hlinked.1
    intro a ha
    obtain ⟨y, hy, rfl⟩ := mem_map.mp ha
    rw [hA y hy]
  sizes y hy := by
    rw [mem_append] at hy
    cases hy with
    | inl hmem => rw [hA y hmem, h.sizes y (mem_append_left _ hmem)]
    | inr hmem => exact hl.sizes y hmem

end Chained

section Join

/-- Join the block at `x` with the one at `q`, if they touch, or else link it to `q`. -/
def joinWith (s : State) (x q : ℕ) : Header :=
  if s.after x = q then ⟨(s.mem q).ptr, ((s.mem x).size + (s.mem q).size) % uintMod⟩
  else ⟨q, (s.mem x).size⟩

theorem joinUpper_eq {bp p : ℕ} (hp : p ≠ bp) (hq : (s.mem p).ptr ≠ bp) :
    joinUpper s bp p = s.setMem bp (joinWith s bp (s.mem p).ptr) := by
  unfold joinUpper joinWith
  dsimp only
  split_ifs with hadj
  · simp [State.setSize, State.setPtr, State.setMem, update_of_ne hp,
      update_of_ne hq]
  · rfl

theorem joinLower_eq {bp p : ℕ} (hp : p ≠ bp) :
    joinLower s bp p = s.setMem p (joinWith s p bp) := by
  unfold joinLower joinWith
  dsimp only
  split_ifs with hadj
  · simp [State.setSize, State.setPtr, State.setMem, update_of_ne hp.symm]
  · rfl

/-- A block is put before the blocks of `l` and joined with the first. -/
theorem chained_joinWith {q : ℕ} (h : Chained s.mem l z) (hsize : (s.mem x.addr).size = x.size)
    (hx : x.addr ∉ l.map Block.addr) (hq : (l.map Block.addr ++ [z]).head? = some q)
    (hz : l = [] → x.stop unit ≠ z) (hfit : x.size + units l < uintMod) :
    Chained (s.setMem x.addr (joinWith s x.addr q)).mem (joinNext unit x l) z := by
  have hafter : s.after x.addr = x.stop unit := by rw [State.after, hsize, Block.stop]
  have hkeep : ∀ y ∈ l, (s.setMem x.addr (joinWith s x.addr q)).mem y.addr = s.mem y.addr := by
    intro y hy
    apply update_of_ne
    exact fun heq => hx (heq ▸ mem_map_of_mem hy)
  have hself : (s.setMem x.addr (joinWith s x.addr q)).mem x.addr = joinWith s x.addr q :=
    update_self _ _ _
  cases l with
  | nil =>
    obtain rfl : z = q := by simpa using hq
    have hne : ¬ s.after x.addr = z := by rw [hafter]; exact hz rfl
    apply (h.congr hkeep).cons
    · rw [hself, joinWith, if_neg hne, hsize]
    · rw [hself, joinWith, if_neg hne]
      rfl
  | cons c l =>
    obtain rfl : c.addr = q := by simpa using hq
    have hc := h.sizes c (by simp)
    rw [joinNext]
    split_ifs with hadj
    · have htail : Chained s.mem l z := h.drop (A := [c])
      have hfits : x.size + c.size < uintMod := by
        rw [units_cons] at hfit
        omega
      have hjoin : joinWith s x.addr c.addr = ⟨(s.mem c.addr).ptr, x.size + c.size⟩ := by
        rw [joinWith, hafter, if_pos hadj, hsize, hc, Nat.mod_eq_of_lt hfits]
      apply (htail.congr fun y hy => hkeep y (mem_cons_of_mem c hy)).cons
      · exact (congrArg Header.size (hself.trans hjoin))
      · rw [show (x.join c).addr = x.addr from rfl, hself, hjoin]
        exact h.next
    · have hjoin : joinWith s x.addr c.addr = ⟨c.addr, x.size⟩ := by
        rw [joinWith, hafter, if_neg hadj, hsize]
      apply (h.congr hkeep).cons
      · rw [hself, hjoin]
      · rw [hself, hjoin]
        rfl

end Join

section Place

def IsPlace (mem : ℕ → Header) (bp p : ℕ) : Prop :=
  (p < bp ∧ bp < (mem p).ptr) ∨ ((mem p).ptr ≤ p ∧ (p < bp ∨ bp < (mem p).ptr))

theorem place_some {P : ℕ → Prop} (hnext : ∀ a, P a → P (mem a).ptr) {bp p q fuel : ℕ} (hq : P q)
    (h : place mem bp fuel q = some p) : P p ∧ IsPlace mem bp p := by
  induction fuel generalizing q with
  | zero => cases h
  | succ fuel ih =>
    unfold place at h
    split_ifs at h with h1 h2
    · cases h
      exact ⟨hq, .inl h1⟩
    · cases h
      exact ⟨hq, .inr h2⟩
    · exact ih (hnext q hq) h

theorem place_stop {bp q : ℕ} (h : IsPlace mem bp q) (fuel : ℕ) :
    place mem bp (fuel + 1) q = some q := by
  unfold place
  split_ifs with h1 h2
  · rfl
  · rfl
  · exact absurd h (not_or.mpr ⟨h1, h2⟩)

/-- The loop ends if it can come to a place where it stops. -/
theorem place_ends {bp q k : ℕ} (h : IsPlace mem bp ((fun a => (mem a).ptr)^[k] q)) :
    ∃ p, ∀ fuel > k, place mem bp fuel q = some p := by
  induction k generalizing q with
  | zero =>
    refine ⟨q, fun fuel hf => ?_⟩
    obtain ⟨fuel, rfl⟩ := Nat.exists_eq_succ_of_ne_zero (by omega : fuel ≠ 0)
    exact place_stop h fuel
  | succ k ih =>
    rw [iterate_succ_apply] at h
    by_cases hstop : IsPlace mem bp q
    · refine ⟨q, fun fuel hf => ?_⟩
      obtain ⟨fuel, rfl⟩ := Nat.exists_eq_succ_of_ne_zero (by omega : fuel ≠ 0)
      exact place_stop hstop fuel
    · obtain ⟨p, hp⟩ := ih h
      obtain ⟨h1, h2⟩ := not_or.mp hstop
      refine ⟨p, fun fuel hf => ?_⟩
      obtain ⟨fuel, rfl⟩ := Nat.exists_eq_succ_of_ne_zero (by omega : fuel ≠ 0)
      rw [place, if_neg h1, if_neg h2]
      exact hp fuel (by omega)

/-- In a list in the order of addresses the loop stops only between the blocks below `bp` and
those above it. -/
theorem isPlace_iff {bp : ℕ} (h : Chained mem (A ++ x :: B) base)
    (hsorted : ((A ++ x :: B).map Block.addr).Pairwise (· < ·)) (hbase : base ≤ x.addr)
    (hbp : base < bp) (hne : ∀ y ∈ B, y.addr ≠ bp) :
    IsPlace mem bp x.addr ↔ x.addr < bp ∧ ∀ y ∈ B, bp < y.addr := by
  have hnext := h.drop.next
  rw [map_append, pairwise_append, map_cons, pairwise_cons] at hsorted
  obtain ⟨-, ⟨hx, hB⟩, -⟩ := hsorted
  unfold IsPlace
  cases B with
  | nil =>
    obtain hptr : base = (mem x.addr).ptr := by simpa using hnext
    rw [← hptr]
    simp only [not_mem_nil, IsEmpty.forall_iff, implies_true, and_true]
    omega
  | cons c B =>
    obtain hptr : c.addr = (mem x.addr).ptr := by simpa using hnext
    rw [← hptr]
    have hxc := hx c.addr (by simp)
    rw [map_cons, pairwise_cons] at hB
    constructor
    · intro hplace
      have hc : bp < c.addr := by omega
      refine ⟨by omega, fun y hy => ?_⟩
      rw [mem_cons] at hy
      cases hy with
      | inl heq => exact heq ▸ hc
      | inr hmem => exact hc.trans (hB.1 y.addr (mem_map_of_mem hmem))
    · rintro ⟨hlt, hgt⟩
      exact .inl ⟨hlt, hgt c (by simp)⟩

/-- A list in order that begins below `bp`, cut where `bp` belongs. -/
theorem exists_place {bp : ℕ} (hsorted : ((x :: l).map Block.addr).Pairwise (· < ·))
    (hx : x.addr < bp) (hne : ∀ y ∈ l, y.addr ≠ bp) :
    ∃ A p B, x :: l = A ++ p :: B ∧ p.addr < bp ∧ ∀ y ∈ B, bp < y.addr := by
  induction l generalizing x with
  | nil => exact ⟨[], x, [], rfl, hx, by simp⟩
  | cons c l ih =>
    rw [map_cons, pairwise_cons] at hsorted
    obtain ⟨hfirst, hrest⟩ := hsorted
    by_cases hc : c.addr < bp
    · obtain ⟨A, p, B, hl, hp, hB⟩ := ih hrest hc fun y hy => hne y (mem_cons_of_mem c hy)
      exact ⟨x :: A, p, B, by rw [hl, cons_append], hp, hB⟩
    · have hgt : bp < c.addr := by
        have := hne c (by simp)
        omega
      refine ⟨[], x, c :: l, rfl, hx, fun y hy => ?_⟩
      rw [mem_cons] at hy
      cases hy with
      | inl heq => exact heq ▸ hgt
      | inr hmem =>
        rw [map_cons, pairwise_cons] at hrest
        exact hgt.trans (hrest.1 y.addr (mem_map_of_mem hmem))

end Place

namespace Heap

section

variable (h : Heap base s free live)
include h

theorem sorted : ((dummy base :: free).map Block.addr).Pairwise (· < ·) := by
  rw [pairwise_map]
  exact h.tiled.gap.imp fun hgap => hgap.addr_lt

theorem base_le (hx : x ∈ dummy base :: free) : base ≤ x.addr := by
  rw [mem_cons] at hx
  cases hx with
  | inl heq => exact heq ▸ le_rfl
  | inr hmem =>
    have hs := h.sorted
    rw [map_cons, pairwise_cons] at hs
    exact (hs.1 x.addr (mem_map_of_mem hmem)).le

theorem live_ne (hx : x ∈ dummy base :: free) (hb : b ∈ live) : x.addr ≠ b.addr := by
  rw [mem_cons] at hx
  cases hx with
  | inl heq => exact heq ▸ (h.base_lt b hb).ne
  | inr hmem =>
    exact (h.tiled.apart x (mem_cons_of_mem _ hmem) b hb).ne unit_pos (h.free_pos x hmem)
      (h.tiled.live_pos b hb)

theorem ring : LinkedRing (fun a => (s.mem a).ptr) base (free.map Block.addr) := h.chained.linked

/-- Links lead from free block to free block. -/
theorem next_mem {a : ℕ} (ha : a ∈ (dummy base :: free).map Block.addr) :
    (s.mem a).ptr ∈ (dummy base :: free).map Block.addr := by
  obtain ⟨x, hx, rfl⟩ := mem_map.mp ha
  obtain ⟨A, B, hl⟩ := append_of_mem hx
  have hnext := (hl ▸ h.chained).drop.next
  have hmem := mem_of_mem_head? hnext
  rw [hl]
  simp only [mem_append, map_append, map_cons, mem_cons, not_mem_nil,
    or_false] at hmem ⊢
  cases hmem with
  | inl hB => exact .inr (.inr hB)
  | inr hbase =>
    rw [hbase]
    have hfirst : base ∈ (dummy base :: free).map Block.addr := by simp [dummy]
    rw [hl] at hfirst
    simpa only [mem_append, map_append, map_cons, mem_cons] using hfirst

theorem place_returns (hb : b ∈ live) :
    ∃ k p, ∀ fuel > k, place s.mem b.addr fuel s.freep = some p := by
  obtain ⟨A, p, B, hl, hp, hB⟩ := exists_place h.sorted (h.base_lt b hb)
    fun y hy => h.live_ne (mem_cons_of_mem _ hy) hb
  have hmem : p ∈ dummy base :: free := by simp [hl]
  have hplace : IsPlace s.mem b.addr p.addr :=
    (isPlace_iff (hl ▸ h.chained) (hl ▸ h.sorted) (h.base_le hmem) (h.base_lt b hb)
      fun y hy => h.live_ne (by simp [hl, hy]) hb).mpr ⟨hp, hB⟩
  by_cases hstart : s.freep = p.addr
  · exact ⟨0, place_ends (k := 0) (by rwa [hstart])⟩
  · have hp' : p.addr ∈ (dummy base :: free).map Block.addr := mem_map_of_mem hmem
    obtain ⟨k, hk⟩ := h.ring.reach h.freep_mem hp'
    have hreach : IsPlace s.mem b.addr ((fun a => (s.mem a).ptr)^[k + 1] s.freep) := by
      rw [iterate_succ_apply, hk]
      exact hplace
    exact ⟨k + 1, place_ends hreach⟩

/-- Where the loop of `free` ends. -/
theorem place_split (hb : b ∈ live) {fuel p : ℕ} (hp : place s.mem b.addr fuel s.freep = some p) :
    ∃ A P B, dummy base :: free = A ++ P :: B ∧ P.addr = p ∧ p < b.addr ∧
      ∀ y ∈ B, b.addr < y.addr := by
  obtain ⟨hmem, hplace⟩ := place_some (P := (· ∈ (dummy base :: free).map Block.addr))
    (fun a => h.next_mem) h.freep_mem hp
  obtain ⟨P, hP, rfl⟩ := mem_map.mp hmem
  obtain ⟨A, B, hl⟩ := append_of_mem hP
  have hiff := isPlace_iff (hl ▸ h.chained) (hl ▸ h.sorted) (h.base_le hP) (h.base_lt b hb)
      fun y hy => h.live_ne (by simp [hl, hy]) hb
  obtain ⟨hlt, hB⟩ := hiff.mp hplace
  exact ⟨A, P, B, hl, rfl, hlt, hB⟩

theorem free_returns (hb : b ∈ live) :
    ∃ k t, ∀ fuel > k, Malloc.free fuel s (b.addr + unit) = some t := by
  obtain ⟨k, p, hp⟩ := h.place_returns hb
  refine ⟨k, { joinLower (joinUpper s b.addr p) b.addr p with freep := p }, fun fuel hf => ?_⟩
  unfold Malloc.free
  dsimp only
  rw [Nat.add_sub_cancel, hp fuel hf]

end

/-- The free list with `b` between `P` and `B` begins with the dummy block, too. -/
theorem insert_head (h : Heap base s free (b :: live)) {P : Block}
    (hl : dummy base :: free = A ++ P :: B) :
    ∃ free', A ++ insertAfter unit P b B = dummy base :: free' ∧ ∀ x ∈ free', 0 < x.size := by
  have hb := h.tiled.live_pos b (by simp)
  have hlt := h.base_lt b (by simp)
  cases A with
  | nil =>
    rw [nil_append, cons.injEq] at hl
    obtain ⟨rfl, rfl⟩ := hl
    obtain ⟨c, m, heq, haddr, -⟩ := head_joinNext (u := unit) b free
    have hne : ¬ (dummy base).stop unit = c.addr := by
      rw [haddr]
      exact hlt.ne
    refine ⟨joinNext unit b free, ?_, pos_joinNext hb h.free_pos⟩
    rw [nil_append, insertAfter, heq, joinNext, if_neg hne]
  | cons a A =>
    rw [cons_append, cons.injEq] at hl
    obtain ⟨rfl, rfl⟩ := hl
    refine ⟨A ++ insertAfter unit P b B, rfl, fun x hx => ?_⟩
    rw [mem_append] at hx
    cases hx with
    | inl hA => exact h.free_pos x (by simp [hA])
    | inr hins =>
      apply pos_joinNext (h.free_pos P (by simp)) _ x hins
      exact pos_joinNext hb fun y hy => h.free_pos y (by simp [hy])

theorem release (h : Heap base s free (b :: live)) {fuel : ℕ}
    (hx : Malloc.free fuel s (b.addr + unit) = some t) :
    t.sbrks = s.sbrks ∧ t.ret = s.ret ∧
      ∃ free', Heap base t free' live ∧ ∃ x ∈ free', b.size ≤ x.size := by
  have hbl : b ∈ b :: live := by simp
  have hpos := h.tiled.live_pos b hbl
  unfold Malloc.free at hx
  dsimp only at hx
  rw [Nat.add_sub_cancel] at hx
  cases hp : place s.mem b.addr fuel s.freep with
  | none =>
    rw [hp] at hx
    cases hx
  | some p =>
    rw [hp] at hx
    cases hx
    obtain ⟨A, P, B, hl, rfl, hlt, hB⟩ := h.place_split hbl hp
    have hP : P ∈ dummy base :: free := by simp [hl]
    have hPb : P.addr ≠ b.addr := hlt.ne
    have hsorted := h.sorted
    rw [hl, map_append, map_cons, pairwise_append, pairwise_cons] at hsorted
    obtain ⟨-, ⟨hPB, -⟩, hAP⟩ := hsorted
    have hchain := hl ▸ h.chained
    have hnext := hchain.drop.next
    have hptr : (s.mem P.addr).ptr ≠ b.addr := by
      obtain ⟨y, hy, heq⟩ := mem_map.mp (h.next_mem (mem_map_of_mem hP))
      exact heq ▸ h.live_ne hy hbl
    have hunits := h.tiled.units_eq
    have hfits := h.fits
    rw [hl, units_append, units_cons, units_cons] at hunits
    rw [joinUpper_eq hPb hptr, joinLower_eq hPb]
    -- the block is put before `B`, and then what results after `P`
    have hupper : Chained (s.setMem b.addr (joinWith s b.addr (s.mem P.addr).ptr)).mem
        (joinNext unit b B) base := by
      have htail : Chained s.mem B base := (hchain.drop (A := A)).drop (A := [P])
      apply chained_joinWith htail (h.live_size b hbl) _ hnext
      · intro _ hstop
        have := h.base_lt b hbl
        unfold Block.stop at hstop
        omega
      · omega
      · intro hmem
        obtain ⟨y, hy, heq⟩ := mem_map.mp hmem
        exact (hB y hy).ne heq.symm
    generalize hs1 : s.setMem b.addr (joinWith s b.addr (s.mem P.addr).ptr) = s1 at hupper
    have hkeep1 : ∀ a, a ≠ b.addr → s1.mem a = s.mem a := by
      intro a ha
      rw [← hs1]
      exact update_of_ne ha _ _
    obtain ⟨c, m, heq, haddr, -⟩ := head_joinNext (u := unit) b B
    have hlower : Chained (s1.setMem P.addr (joinWith s1 P.addr b.addr)).mem
        (insertAfter unit P b B) base := by
      apply chained_joinWith hupper
      · rw [hkeep1 _ hPb]
        exact h.chained.sizes P hP
      · intro hmem
        obtain ⟨y, hy, hya⟩ := mem_map.mp hmem
        cases addr_joinNext y hy with
        | inl heqb => exact hPb (hya.symm.trans heqb)
        | inr hyB => exact (hPB y.addr (mem_map_of_mem hyB)).ne hya.symm
      · rw [heq]
        simp [haddr]
      · intro hnil
        rw [heq] at hnil
        cases hnil
      · have := (regroups_joinNext (u := unit) unit_pos b B).units_eq
        rw [units_cons] at this
        omega
    have hkeep : ∀ a, a ≠ b.addr → a ≠ P.addr →
        (s1.setMem P.addr (joinWith s1 P.addr b.addr)).mem a = s.mem a := by
      intro a ha hap
      rw [← hkeep1 a ha]
      exact update_of_ne hap _ _
    obtain ⟨free', hfree, hpos'⟩ := h.insert_head hl
    have hlist := hl ▸ h.tiled
    refine ⟨?_, ?_, free', ?_, ?_⟩
    · rw [← hs1]
      rfl
    · rw [← hs1]
      rfl
    · constructor
      · rw [← hfree]
        apply hchain.replace hlower
        · obtain ⟨d, n, hd, hda, -⟩ := head_joinNext (u := unit) P (joinNext unit b B)
          rw [insertAfter, hd, map_cons, head?_cons, hda]
        · intro y hy
          apply hkeep
          · exact h.live_ne (by simp [hl, hy]) hbl
          · exact (hAP y.addr (mem_map_of_mem hy) P.addr (by simp)).ne
      · intro y hy
        have hyb := (pairwise_cons.mp h.tiled.live_apart).1 y hy
        rw [hkeep]
        · exact h.live_size y (by simp [hy])
        · exact (hyb.ne unit_pos hpos (h.tiled.live_pos y (by simp [hy]))).symm
        · exact (h.live_ne hP (by simp [hy])).symm
      · obtain ⟨d, n, hd, hda, -⟩ := head_joinNext (u := unit) P (joinNext unit b B)
        rw [← hfree, insertAfter, hd]
        simp [hda]
      · rw [← hfree, ← hs1]
        exact hlist.release unit_pos hlt hB
      · exact hpos'
      · intro y hy
        exact h.base_lt y (by simp [hy])
      · rw [← hs1]
        exact hfits
    · obtain ⟨x, hx, hle⟩ := exists_le_insertAfter (u := unit) P b B
      have hmem : x ∈ dummy base :: free' := hfree ▸ mem_append_right A hx
      rw [mem_cons] at hmem
      cases hmem with
      | inl hdummy =>
        rw [hdummy, dummy] at hle
        exact absurd hpos (Nat.not_lt.mpr hle)
      | inr hx' => exact ⟨x, hx', hle⟩

end Heap

end Xv6.Malloc
