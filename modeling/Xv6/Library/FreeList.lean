import Mathlib.Tactic
import Mathlib.Data.List.Chain

/-!
# Blocks of memory, in use and free

Memory granted in pieces is cut into blocks of whole units of `u` bytes. `Tiled` says that the
free blocks stand in the order of their addresses with a gap between any two, that no two blocks
overlap, and that the blocks are together just what was granted.
-/
namespace Xv6.Library

structure Block where
  addr : ℕ
  size : ℕ
  deriving DecidableEq, Repr

namespace Block

variable (u : ℕ)

def stop (b : Block) : ℕ := b.addr + u * b.size

def Apart (x y : Block) : Prop := x.stop u ≤ y.addr ∨ y.stop u ≤ x.addr

/-- `x` comes before `y` and does not touch it. -/
def Gap (x y : Block) : Prop := x.stop u < y.addr

def Has (b : Block) (a : ℕ) : Prop := ∃ k < b.size, a = b.addr + u * k

def join (x y : Block) : Block := ⟨x.addr, x.size + y.size⟩

/-- What is left of a block when `n` units are cut off its end, and what is cut off. -/
def front (b : Block) (n : ℕ) : Block := ⟨b.addr, b.size - n⟩

def back (b : Block) (n : ℕ) : Block := ⟨b.addr + u * (b.size - n), n⟩

variable {u : ℕ} {x y z : Block}

theorem Apart.symm (h : x.Apart u y) : y.Apart u x := Or.symm h

theorem Gap.trans (h : x.Gap u y) (h' : y.Gap u z) : x.Gap u z := by
  unfold Gap stop at *
  omega

theorem Gap.apart (h : x.Gap u y) : x.Apart u y := .inl (Nat.le_of_lt h)

theorem Gap.addr_lt (h : x.Gap u y) : x.addr < y.addr := by
  unfold Gap stop at h
  omega

theorem stop_join (h : x.stop u = y.addr) : (x.join y).stop u = y.stop u := by
  unfold stop join at *
  dsimp only
  rw [Nat.mul_add, ← h]
  omega

theorem stop_front_le (n : ℕ) : (x.front n).stop u ≤ x.stop u := by
  have := Nat.mul_le_mul_left u (Nat.sub_le x.size n)
  unfold stop front
  dsimp only
  omega

theorem stop_back {n : ℕ} (hn : n ≤ x.size) : (x.back u n).stop u = x.stop u := by
  unfold stop back
  rw [Nat.add_assoc, ← Nat.mul_add, Nat.sub_add_cancel hn]

theorem stop_front (n : ℕ) : (x.front n).stop u = (x.back u n).addr := rfl

theorem addr_lt_stop (hu : 0 < u) (hx : 0 < x.size) : x.addr < x.stop u := by
  have := Nat.mul_pos hu hx
  unfold stop
  omega

theorem Apart.ne (hu : 0 < u) (h : x.Apart u y) (hx : 0 < x.size) (hy : 0 < y.size) :
    x.addr ≠ y.addr := by
  have h1 := addr_lt_stop hu hx
  have h2 := addr_lt_stop hu hy
  unfold Apart at h
  omega

theorem apart_join (hu : 0 < u) (hadj : x.stop u = y.addr) (hz : 0 < z.size) (h1 : x.Apart u z)
    (h2 : y.Apart u z) : (x.join y).Apart u z := by
  have h3 := addr_lt_stop hu hz
  unfold Apart at *
  rw [stop_join hadj]
  change y.stop u ≤ z.addr ∨ z.stop u ≤ x.addr
  omega

theorem Apart.front (h : x.Apart u y) (n : ℕ) : (x.front n).Apart u y := by
  have := stop_front_le (u := u) (x := x) n
  unfold Apart at *
  change (x.front n).stop u ≤ y.addr ∨ y.stop u ≤ x.addr
  omega

theorem Apart.back (h : x.Apart u y) {n : ℕ} (hn : n ≤ x.size) : (x.back u n).Apart u y := by
  unfold Apart at *
  rw [stop_back hn]
  change x.stop u ≤ y.addr ∨ y.stop u ≤ x.addr + u * (x.size - n)
  omega

theorem has_join {a : ℕ} (hadj : x.stop u = y.addr) :
    (x.join y).Has u a ↔ x.Has u a ∨ y.Has u a := by
  unfold Has stop join at *
  constructor
  · rintro ⟨k, hk, rfl⟩
    by_cases hlt : k < x.size
    · exact .inl ⟨k, hlt, rfl⟩
    · refine .inr ⟨k - x.size, by dsimp only at hk; omega, ?_⟩
      rw [← hadj, Nat.add_assoc, ← Nat.mul_add, Nat.add_sub_cancel' (Nat.le_of_not_lt hlt)]
  · rintro (⟨k, hk, rfl⟩ | ⟨k, hk, rfl⟩)
    · exact ⟨k, Nat.lt_add_right _ hk, rfl⟩
    · exact ⟨x.size + k, Nat.add_lt_add_left hk _, by rw [← hadj, Nat.mul_add, Nat.add_assoc]⟩

theorem has_front_back {a n : ℕ} (hn : n ≤ x.size) :
    (x.front n).Has u a ∨ (x.back u n).Has u a ↔ x.Has u a := by
  rw [← has_join (stop_front n)]
  unfold join front back
  simp only [Nat.sub_add_cancel hn]

theorem Has.le_stop {a : ℕ} (h : x.Has u a) : x.addr ≤ a ∧ a + u ≤ x.stop u := by
  obtain ⟨k, hk, rfl⟩ := h
  have hmul : u * (k + 1) ≤ u * x.size := Nat.mul_le_mul_left u hk
  rw [Nat.mul_add, Nat.mul_one] at hmul
  unfold stop
  omega

theorem has_last (hx : 0 < x.size) : ∃ a, x.Has u a ∧ a + u = x.stop u := by
  refine ⟨x.addr + u * (x.size - 1), ⟨x.size - 1, by omega, rfl⟩, ?_⟩
  unfold stop
  rw [Nat.add_assoc, ← Nat.mul_succ, Nat.succ_eq_add_one, Nat.sub_add_cancel hx]

theorem Has.apart {a : ℕ} (hu : 0 < u) (hx : x.Has u a) (hy : y.Has u a) : ¬ x.Apart u y := by
  have h1 := hx.le_stop
  have h2 := hy.le_stop
  unfold Apart
  omega

end Block

def units (l : List Block) : ℕ := (l.map Block.size).sum

@[simp] theorem units_nil : units [] = 0 := rfl

@[simp] theorem units_cons (b : Block) (l : List Block) : units (b :: l) = b.size + units l := by
  simp [units]

@[simp] theorem units_append (l m : List Block) : units (l ++ m) = units l + units m := by
  simp [units]

def HasIn (u : ℕ) (l : List Block) (a : ℕ) : Prop := ∃ x ∈ l, x.Has u a

theorem hasIn_cons {u a : ℕ} {b : Block} {l : List Block} :
    HasIn u (b :: l) a ↔ b.Has u a ∨ HasIn u l a := List.exists_mem_cons_iff _ _ _

theorem hasIn_append {u a : ℕ} {l m : List Block} :
    HasIn u (l ++ m) a ↔ HasIn u l a ∨ HasIn u m a := by
  unfold HasIn
  simp only [List.mem_append, or_and_right, exists_or]

/-- The free blocks and the blocks in use, of the memory that was granted. -/
structure Tiled (u : ℕ) (granted free live : List Block) : Prop where
  gap : free.Pairwise (Block.Gap u)
  live_apart : live.Pairwise (Block.Apart u)
  apart : ∀ x ∈ free, ∀ y ∈ live, x.Apart u y
  live_pos : ∀ y ∈ live, 0 < y.size
  units_eq : units free + units live = units granted
  covered : ∀ a, HasIn u granted a ↔ HasIn u free a ∨ HasIn u live a

/-- `m` is `l` with some neighbours joined. -/
structure Regroups (u : ℕ) (l m : List Block) : Prop where
  units_eq : units m = units l
  has : ∀ a, HasIn u m a ↔ HasIn u l a
  apart : ∀ z : Block, 0 < z.size → (∀ x ∈ l, x.Apart u z) → ∀ x ∈ m, x.Apart u z

section Release

variable (u : ℕ)

/-- Join `b` with the first of the blocks after it, if they touch. -/
def joinNext (b : Block) : List Block → List Block
  | [] => [b]
  | c :: rest => if b.stop u = c.addr then b.join c :: rest else b :: c :: rest

/-- Put `b` between `p` and the blocks after it, and join what touches it. -/
def insertAfter (p b : Block) (rest : List Block) : List Block := joinNext u p (joinNext u b rest)

variable {u : ℕ} {A B l m : List Block} {b p x y : Block}

theorem Regroups.refl : Regroups u l l := ⟨rfl, fun _ => Iff.rfl, fun _ _ h => h⟩

theorem Regroups.trans {n : List Block} (h : Regroups u l m) (h' : Regroups u m n) :
    Regroups u l n where
  units_eq := h'.units_eq.trans h.units_eq
  has a := (h'.has a).trans (h.has a)
  apart z hz hl := h'.apart z hz (h.apart z hz hl)

theorem Regroups.append_left (A : List Block) (h : Regroups u l m) :
    Regroups u (A ++ l) (A ++ m) where
  units_eq := by rw [units_append, units_append, h.units_eq]
  has a := by rw [hasIn_append, hasIn_append, h.has a]
  apart z hz hl x hx := by
    rw [List.mem_append] at hx
    cases hx with
    | inl hA => exact hl x (List.mem_append_left l hA)
    | inr hm => exact h.apart z hz (fun x hx => hl x (List.mem_append_right A hx)) x hm

theorem regroups_join (hu : 0 < u) (hadj : x.stop u = y.addr) :
    Regroups u (x :: y :: l) (x.join y :: l) where
  units_eq := by
    simp only [units_cons, Block.join]
    omega
  has a := by
    simp only [hasIn_cons, Block.has_join hadj, or_assoc]
  apart z hz hl w hw := by
    rw [List.mem_cons] at hw
    cases hw with
    | inl heq =>
      rw [heq]
      exact Block.apart_join hu hadj hz (hl x (by simp)) (hl y (by simp))
    | inr hmem => exact hl w (by simp [hmem])

theorem regroups_joinNext (hu : 0 < u) (b : Block) (l : List Block) :
    Regroups u (b :: l) (joinNext u b l) := by
  cases l with
  | nil => exact Regroups.refl
  | cons c rest =>
    rw [joinNext]
    split_ifs with hadj
    · exact regroups_join hu hadj
    · exact Regroups.refl

theorem regroups_insertAfter (hu : 0 < u) (p b : Block) (l : List Block) :
    Regroups u (p :: b :: l) (insertAfter u p b l) := by
  have hnext : Regroups u (p :: b :: l) (p :: joinNext u b l) :=
    (regroups_joinNext hu b l).append_left [p]
  exact hnext.trans (regroups_joinNext hu p _)

theorem head_joinNext (b : Block) (l : List Block) :
    ∃ c m, joinNext u b l = c :: m ∧ c.addr = b.addr ∧ b.size ≤ c.size := by
  cases l with
  | nil => exact ⟨b, [], rfl, rfl, le_rfl⟩
  | cons c rest =>
    rw [joinNext]
    split_ifs
    · exact ⟨_, _, rfl, rfl, Nat.le_add_right _ _⟩
    · exact ⟨_, _, rfl, rfl, le_rfl⟩

theorem addr_joinNext : ∀ x ∈ joinNext u b l, x.addr = b.addr ∨ x ∈ l := by
  cases l with
  | nil => simp [joinNext]
  | cons c rest =>
    intro x hx
    rw [joinNext] at hx
    split_ifs at hx
    · rw [List.mem_cons] at hx
      cases hx with
      | inl heq => exact .inl (heq ▸ rfl)
      | inr hmem => exact .inr (List.mem_cons_of_mem c hmem)
    · rw [List.mem_cons] at hx
      cases hx with
      | inl heq => exact .inl (heq ▸ rfl)
      | inr hmem => exact .inr hmem

theorem pos_joinNext (hb : 0 < b.size) (hl : ∀ x ∈ l, 0 < x.size) :
    ∀ x ∈ joinNext u b l, 0 < x.size := by
  cases l with
  | nil => simpa [joinNext] using hb
  | cons c rest =>
    rw [joinNext]
    split_ifs
    · intro x hx
      rw [List.mem_cons] at hx
      cases hx with
      | inl heq => exact heq ▸ Nat.add_pos_left hb _
      | inr hmem => exact hl x (List.mem_cons_of_mem c hmem)
    · intro x hx
      rw [List.mem_cons] at hx
      cases hx with
      | inl heq => exact heq ▸ hb
      | inr hmem => exact hl x hmem

theorem exists_le_insertAfter (p b : Block) (l : List Block) :
    ∃ x ∈ insertAfter u p b l, b.size ≤ x.size := by
  obtain ⟨c, m, heq, -, hle⟩ := head_joinNext (u := u) b l
  rw [insertAfter, heq, joinNext]
  split_ifs
  · exact ⟨p.join c, by simp, hle.trans (Nat.le_add_left _ _)⟩
  · exact ⟨c, by simp, hle⟩

theorem gap_joinNext (hl : l.IsChain (Block.Gap u)) (hb : ∀ c ∈ l.head?, b.stop u ≤ c.addr) :
    (joinNext u b l).IsChain (Block.Gap u) := by
  cases l with
  | nil => exact List.isChain_singleton b
  | cons c rest =>
    have hle := hb c rfl
    rw [joinNext]
    split_ifs with hadj
    · rw [List.isChain_cons] at hl ⊢
      refine ⟨fun y hy => ?_, hl.2⟩
      have := hl.1 y hy
      unfold Block.Gap at *
      rwa [Block.stop_join hadj]
    · exact List.isChain_cons_cons.mpr ⟨Nat.lt_of_le_of_ne hle hadj, hl⟩

theorem gap_insertAfter (hl : l.IsChain (Block.Gap u)) (hp : p.stop u ≤ b.addr)
    (hb : ∀ c ∈ l.head?, b.stop u ≤ c.addr) :
    (insertAfter u p b l).IsChain (Block.Gap u) := by
  have hnext := gap_joinNext hl hb
  obtain ⟨c, m, heq, haddr, -⟩ := head_joinNext (u := u) b l
  apply gap_joinNext hnext
  rw [heq]
  rintro _ ⟨⟩
  rw [haddr]
  exact hp

end Release

instance (u : ℕ) : Std.Symm (Block.Apart u) := ⟨fun _ _ => Block.Apart.symm⟩

instance (u : ℕ) : IsTrans Block (Block.Gap u) := ⟨fun _ _ _ => Block.Gap.trans⟩

namespace Tiled

variable {u : ℕ} {granted free live A B L : List Block} {b p x : Block}

theorem perm (h : Tiled u granted free live) (hp : live.Perm L) : Tiled u granted free L where
  gap := h.gap
  live_apart := (hp.pairwise_iff fun h => Block.Apart.symm h).mp h.live_apart
  apart x hx y hy := h.apart x hx y (hp.mem_iff.mpr hy)
  live_pos y hy := h.live_pos y (hp.mem_iff.mpr hy)
  units_eq := by
    rw [← h.units_eq]
    unfold units
    rw [(hp.map Block.size).sum_eq]
  covered a := by
    rw [h.covered a]
    simp only [HasIn, hp.mem_iff]

/-- A block is given back between its neighbours. -/
theorem release (hu : 0 < u) (h : Tiled u granted (A ++ p :: B) (b :: L)) (hp : p.addr < b.addr)
    (hB : ∀ c ∈ B, b.addr < c.addr) : Tiled u granted (A ++ insertAfter u p b B) L := by
  have hpos : 0 < b.size := h.live_pos b (by simp)
  have hlt := Block.addr_lt_stop hu hpos
  have hstop : p.stop u ≤ b.addr := by
    have := h.apart p (by simp) b (by simp)
    unfold Block.Apart at this
    omega
  have hnext : ∀ c ∈ B.head?, b.stop u ≤ c.addr := by
    intro c hc
    have hmem := List.mem_of_mem_head? hc
    have hafter := hB c hmem
    have := h.apart c (by simp [hmem]) b (by simp)
    unfold Block.Apart Block.stop at *
    omega
  have hgroup := (regroups_insertAfter hu p b B).append_left A
  obtain ⟨hfirst, hrest⟩ := List.pairwise_cons.mp h.live_apart
  constructor
  · rw [← List.isChain_iff_pairwise]
    have hchain := List.isChain_iff_pairwise.mpr h.gap
    rw [List.isChain_append] at hchain
    obtain ⟨hA, hpB, hseam⟩ := hchain
    obtain ⟨c, m, heq, haddr, -⟩ := head_joinNext (u := u) p (joinNext u b B)
    have hnew := gap_insertAfter (List.isChain_cons.mp hpB).2 hstop hnext
    rw [List.isChain_append]
    refine ⟨hA, hnew, fun y hy z hz => ?_⟩
    rw [insertAfter, heq] at hz
    cases hz
    unfold Block.Gap
    rw [haddr]
    exact hseam y hy p rfl
  · exact hrest
  · intro x hx y hy
    apply hgroup.apart y (h.live_pos y (by simp [hy])) _ x hx
    intro z hz
    have hz' : z ∈ A ++ p :: B ∨ z = b := by
      simp only [List.mem_append, List.mem_cons] at hz ⊢
      tauto
    cases hz' with
    | inl hmem => exact h.apart z hmem y (by simp [hy])
    | inr heq => exact heq ▸ hfirst y hy
  · intro y hy
    exact h.live_pos y (by simp [hy])
  · rw [hgroup.units_eq, ← h.units_eq]
    simp only [units_append, units_cons]
    omega
  · intro a
    rw [h.covered a, hgroup.has a]
    simp only [hasIn_append, hasIn_cons]
    tauto

theorem takeWhole (h : Tiled u granted (A ++ x :: B) L) (hx : 0 < x.size) :
    Tiled u granted (A ++ B) (x :: L) := by
  have hsub : (A ++ B).Sublist (A ++ x :: B) :=
    (List.Sublist.refl A).append (List.sublist_cons_self x B)
  constructor
  · exact h.gap.sublist hsub
  · exact List.pairwise_cons.mpr ⟨h.apart x (by simp), h.live_apart⟩
  · intro z hz y hy
    rw [List.mem_cons] at hy
    cases hy with
    | inl heq =>
      have hgap := h.gap
      rw [List.pairwise_append, List.pairwise_cons] at hgap
      rw [heq]
      rw [List.mem_append] at hz
      cases hz with
      | inl hA => exact (hgap.2.2 z hA x (by simp)).apart
      | inr hB => exact (hgap.2.1.1 z hB).apart.symm
    | inr hmem => exact h.apart z (hsub.subset hz) y hmem
  · intro y hy
    rw [List.mem_cons] at hy
    cases hy with
    | inl heq => exact heq ▸ hx
    | inr hmem => exact h.live_pos y hmem
  · rw [← h.units_eq]
    simp only [units_append, units_cons]
    omega
  · intro a
    rw [h.covered a]
    simp only [hasIn_append, hasIn_cons]
    tauto

theorem cut (h : Tiled u granted (A ++ x :: B) L) {n : ℕ} (hn : 0 < n)
    (hlt : n < x.size) : Tiled u granted (A ++ x.front n :: B) (x.back u n :: L) := by
  have hle := Nat.le_of_lt hlt
  have hwhole := h.takeWhole (by omega)
  obtain ⟨hx, -⟩ := List.pairwise_cons.mp hwhole.live_apart
  have hgap := h.gap
  rw [List.pairwise_append, List.pairwise_cons] at hgap
  obtain ⟨hA, ⟨hxB, hB⟩, hAB⟩ := hgap
  constructor
  · rw [List.pairwise_append, List.pairwise_cons]
    refine ⟨hA, ⟨fun y hy => Nat.lt_of_le_of_lt (Block.stop_front_le n) (hxB y hy), hB⟩, ?_⟩
    intro y hy z hz
    rw [List.mem_cons] at hz
    cases hz with
    | inl heq =>
      rw [heq]
      exact hAB y hy x (by simp)
    | inr hmem => exact hAB y hy z (by simp [hmem])
  · refine List.pairwise_cons.mpr ⟨fun y hy => (hx y hy).back hle, h.live_apart⟩
  · intro z hz y hy
    rw [List.mem_cons] at hy
    simp only [List.mem_append, List.mem_cons] at hz
    rcases hz with hz | rfl | hz <;> rcases hy with rfl | hy
    · exact ((hwhole.apart z (by simp [hz]) x (by simp)).symm.back hle).symm
    · exact h.apart z (by simp [hz]) y hy
    · exact .inl (Block.stop_front n).le
    · exact (hx y hy).front n
    · exact ((hwhole.apart z (by simp [hz]) x (by simp)).symm.back hle).symm
    · exact h.apart z (by simp [hz]) y hy
  · intro y hy
    rw [List.mem_cons] at hy
    cases hy with
    | inl heq => exact heq ▸ hn
    | inr hmem => exact h.live_pos y hmem
  · rw [← h.units_eq]
    simp only [units_append, units_cons, Block.front, Block.back]
    omega
  · intro a
    have hsplit := Block.has_front_back (u := u) (a := a) hle
    rw [h.covered a]
    simp only [hasIn_append, hasIn_cons, ← hsplit]
    tauto

theorem stop_le {t : ℕ} (h : Tiled u granted free live) (ht : ∀ g ∈ granted, g.stop u ≤ t)
    (hx : x ∈ free ∨ x ∈ live) (hpos : 0 < x.size) : x.stop u ≤ t := by
  obtain ⟨a, ha, hstop⟩ := Block.has_last (u := u) hpos
  have hcov : HasIn u granted a := by
    rw [h.covered a]
    cases hx with
    | inl hf => exact .inl ⟨x, hf, ha⟩
    | inr hl => exact .inr ⟨x, hl, ha⟩
  obtain ⟨g, hg, hga⟩ := hcov
  have h1 := hga.le_stop
  have h2 := ht g hg
  omega

theorem grant (h : Tiled u granted free live) (hb : 0 < b.size)
    (hnew : ∀ g ∈ granted, g.stop u ≤ b.addr)
    (hempty : ∀ x ∈ free, x.size = 0 → x.addr ≤ b.addr) :
    Tiled u (granted ++ [b]) free (b :: live) := by
  have hbelow : ∀ y ∈ live, y.Apart u b := fun y hy =>
    .inl (h.stop_le hnew (.inr hy) (h.live_pos y hy))
  constructor
  · exact h.gap
  · exact List.pairwise_cons.mpr ⟨fun y hy => (hbelow y hy).symm, h.live_apart⟩
  · intro x hx y hy
    rw [List.mem_cons] at hy
    cases hy with
    | inl heq =>
      rw [heq]
      by_cases hsize : x.size = 0
      · have := hempty x hx hsize
        unfold Block.Apart Block.stop
        rw [hsize]
        omega
      · exact .inl (h.stop_le hnew (.inl hx) (Nat.pos_of_ne_zero hsize))
    | inr hmem => exact h.apart x hx y hmem
  · intro y hy
    rw [List.mem_cons] at hy
    cases hy with
    | inl heq => exact heq ▸ hb
    | inr hmem => exact h.live_pos y hmem
  · rw [units_append, ← h.units_eq]
    simp only [units_cons, units_nil]
    omega
  · intro a
    have hnil : ¬ HasIn u [] a := by simp [HasIn]
    simp only [hasIn_append, hasIn_cons, h.covered a]
    tauto

end Tiled

end Xv6.Library
