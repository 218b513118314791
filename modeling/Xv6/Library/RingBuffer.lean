import Mathlib.Tactic

/-!
# Ring buffers with free-running counters

Elements put in and taken out are counted modulo `M`, and an element stands at its number
modulo the capacity `N`. When `N` divides `M`, positions stay in step with the counters also
where these wrap around, and the buffer is a queue.
-/
namespace Xv6.Library

structure RingBuffer (α : Type) where
  data : ℕ → α
  nread : ℕ
  nwrite : ℕ

namespace RingBuffer

variable {α : Type}

def count (M : ℕ) (r : RingBuffer α) : ℕ := (r.nwrite + (M - r.nread)) % M

def contents (N M : ℕ) (r : RingBuffer α) : List α :=
  (List.range (r.count M)).map fun k => r.data ((r.nread + k) % N)

def put (N M : ℕ) (r : RingBuffer α) (b : α) : RingBuffer α :=
  { r with data := Function.update r.data (r.nwrite % N) b, nwrite := (r.nwrite + 1) % M }

def front (N : ℕ) (r : RingBuffer α) : α := r.data (r.nread % N)

def drop (M : ℕ) (r : RingBuffer α) : RingBuffer α := { r with nread := (r.nread + 1) % M }

def unput (M : ℕ) (r : RingBuffer α) : RingBuffer α :=
  { r with nwrite := (r.nwrite + (M - 1)) % M }

def back (N M : ℕ) (r : RingBuffer α) : α := r.data ((r.nwrite + (M - 1)) % M % N)

def undrop (M : ℕ) (r : RingBuffer α) : RingBuffer α :=
  { r with nread := (r.nread + (M - 1)) % M }

structure Valid (N M : ℕ) (r : RingBuffer α) : Prop where
  nread_lt : r.nread < M
  nwrite_lt : r.nwrite < M
  count_le : r.count M ≤ N

variable {N M : ℕ} {r : RingBuffer α} {b : α}

theorem length_contents : (r.contents N M).length = r.count M := by
  rw [contents, List.length_map, List.length_range]

@[simp] theorem unput_nread : (r.unput M).nread = r.nread := rfl

variable (h : r.Valid N M)
include h

theorem nwrite_eq : r.nwrite = (r.nread + r.count M) % M := by
  have h1 := h.nread_lt
  have h2 := h.nwrite_lt
  have hsum : r.nread + (r.nwrite + (M - r.nread)) = r.nwrite + M := by omega
  rw [count, Nat.add_mod_mod, hsum, Nat.add_mod_right, Nat.mod_eq_of_lt h2]

theorem count_eq_zero : r.count M = 0 ↔ r.nread = r.nwrite := by
  constructor
  · intro hc
    rw [nwrite_eq h, hc, Nat.add_zero, Nat.mod_eq_of_lt h.nread_lt]
  · intro he
    have hlt := h.nread_lt
    rw [count, ← he, show r.nread + (M - r.nread) = M by omega, Nat.mod_self]

theorem count_eq_capacity (hN : N < M) : r.count M = N ↔ r.nwrite = (r.nread + N) % M := by
  constructor
  · intro hc
    rw [nwrite_eq h, hc]
  · intro he
    have hlt := h.nread_lt
    rw [count, he, Nat.mod_add_mod, show r.nread + N + (M - r.nread) = N + M by omega,
      Nat.add_mod_right, Nat.mod_eq_of_lt hN]

theorem count_put (hN : N < M) (hlt : r.count M < N) : (r.put N M b).count M = r.count M + 1 := by
  have hw := nwrite_eq h
  have h1 := h.nread_lt
  change ((r.nwrite + 1) % M + (M - r.nread)) % M = r.count M + 1
  generalize r.count M = c at hw hlt ⊢
  rw [hw, Nat.mod_add_mod, Nat.add_assoc, Nat.mod_add_mod,
    show r.nread + c + (1 + (M - r.nread)) = c + 1 + M by omega, Nat.add_mod_right]
  exact Nat.mod_eq_of_lt (by omega)

theorem Valid.put (hN : N < M) (hlt : r.count M < N) : (r.put N M b).Valid N M where
  nread_lt := h.nread_lt
  nwrite_lt := Nat.mod_lt _ (by omega)
  count_le := by
    rw [count_put h hN hlt]
    exact hlt

theorem contents_put (hdvd : N ∣ M) (hN : N < M) (hlt : r.count M < N) :
    (r.put N M b).contents N M = r.contents N M ++ [b] := by
  have hindex : r.nwrite % N = (r.nread + r.count M) % N := by
    rw [nwrite_eq h, Nat.mod_mod_of_dvd _ hdvd]
  rw [contents, count_put h hN hlt, List.range_succ, List.map_append, contents]
  congr 1
  · apply List.map_congr_left
    intro k hk
    have hkc : k < r.count M := List.mem_range.mp hk
    apply Function.update_of_ne
    rw [hindex]
    intro he
    have hmod : k % N = r.count M % N := Nat.ModEq.add_left_cancel' r.nread he
    rw [Nat.mod_eq_of_lt (by omega), Nat.mod_eq_of_lt hlt] at hmod
    omega
  · simp [RingBuffer.put, ← hindex]

section

variable (hpos : r.count M ≠ 0)
include hpos

theorem count_drop : (r.drop M).count M = r.count M - 1 := by
  have hw := nwrite_eq h
  have h1 := h.nread_lt
  have hc : r.count M < M := Nat.mod_lt _ (by omega)
  change (r.nwrite + (M - (r.nread + 1) % M)) % M = r.count M - 1
  generalize r.count M = c at hw hpos hc ⊢
  rw [hw, Nat.mod_add_mod]
  by_cases hwrap : r.nread + 1 = M
  · rw [hwrap, Nat.mod_self, Nat.sub_zero, show r.nread + c + M = c - 1 + M + M by omega,
      Nat.add_mod_right, Nat.add_mod_right]
    exact Nat.mod_eq_of_lt (by omega)
  · rw [Nat.mod_eq_of_lt (by omega : r.nread + 1 < M),
      show r.nread + c + (M - (r.nread + 1)) = c - 1 + M by omega, Nat.add_mod_right]
    exact Nat.mod_eq_of_lt (by omega)

theorem Valid.drop : (r.drop M).Valid N M where
  nread_lt := Nat.mod_lt _ (by have := h.nread_lt; omega)
  nwrite_lt := h.nwrite_lt
  count_le := by
    have hle := h.count_le
    rw [count_drop h hpos]
    omega

omit hpos in
theorem contents_drop (hdvd : N ∣ M) (hpos : r.count M ≠ 0) :
    r.contents N M = r.front N :: (r.drop M).contents N M := by
  obtain ⟨c, hc⟩ := Nat.exists_eq_succ_of_ne_zero hpos
  rw [contents, contents, count_drop h hpos, hc, Nat.succ_sub_one, List.range_succ_eq_map,
    List.map_cons, List.map_map]
  congr 1
  apply List.map_congr_left
  intro k _
  have hstep : (r.nread + (k + 1)) % N = ((r.nread + 1) % M + k) % N := by
    rw [← Nat.mod_add_mod, ← Nat.mod_add_mod ((r.nread + 1) % M) N k,
      Nat.mod_mod_of_dvd _ hdvd, Nat.mod_add_mod, Nat.mod_add_mod]
    congr 1
    omega
  simp [RingBuffer.drop, hstep]

theorem nwrite_pred : (r.nwrite + (M - 1)) % M = (r.nread + (r.count M - 1)) % M := by
  have hw := nwrite_eq h
  have h1 := h.nread_lt
  generalize r.count M = c at hw hpos ⊢
  rw [hw, Nat.mod_add_mod, show r.nread + c + (M - 1) = r.nread + (c - 1) + M by omega,
    Nat.add_mod_right]

theorem count_unput : (r.unput M).count M = r.count M - 1 := by
  have h1 := h.nread_lt
  have hc : r.count M < M := Nat.mod_lt _ (by omega)
  change ((r.nwrite + (M - 1)) % M + (M - r.nread)) % M = r.count M - 1
  rw [nwrite_pred h hpos, Nat.mod_add_mod,
    show r.nread + (r.count M - 1) + (M - r.nread) = r.count M - 1 + M by omega, Nat.add_mod_right]
  exact Nat.mod_eq_of_lt (by omega)

theorem Valid.unput : (r.unput M).Valid N M where
  nread_lt := h.nread_lt
  nwrite_lt := Nat.mod_lt _ (by have := h.nread_lt; omega)
  count_le := by
    have hle := h.count_le
    rw [count_unput h hpos]
    omega

end

theorem contents_unput (hdvd : N ∣ M) (hpos : r.count M ≠ 0) :
    r.contents N M = (r.unput M).contents N M ++ [r.back N M] := by
  obtain ⟨c, hc⟩ := Nat.exists_eq_succ_of_ne_zero hpos
  have hback : r.back N M = r.data ((r.nread + c) % N) := by
    rw [back, nwrite_pred h hpos, hc, Nat.succ_sub_one, Nat.mod_mod_of_dvd _ hdvd]
  rw [contents, contents, count_unput h hpos, hc, Nat.succ_sub_one, List.range_succ,
    List.map_append, hback]
  rfl

theorem undrop_drop : (r.drop M).undrop M = r := by
  have h1 := h.nread_lt
  have hread : ((r.nread + 1) % M + (M - 1)) % M = r.nread := by
    rw [Nat.mod_add_mod, show r.nread + 1 + (M - 1) = r.nread + M by omega, Nat.add_mod_right]
    exact Nat.mod_eq_of_lt h1
  simp only [RingBuffer.drop, undrop, hread]

end RingBuffer

end Xv6.Library
