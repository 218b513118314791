import Mathlib.Tactic

/-!
# Byte memories with little-endian fields

A memory is a function from offsets to bytes. Integers of any width are stored little-endian at an
offset, as a C structure laid over a buffer stores them.
-/
namespace Xv6.Library

open Function

/-- Contents of a buffer, page or disk block. -/
abbrev Bytes := ℕ → UInt8

namespace Bytes

/-- Unsigned little-endian integer of `w` bytes at offset `off`. -/
def getLE (m : Bytes) (off : ℕ) : ℕ → ℕ
  | 0 => 0
  | w + 1 => (m off).toNat + 256 * getLE m (off + 1) w

/-- Store the low `w` bytes of `v` at offset `off`. -/
def setLE (m : Bytes) (off : ℕ) : ℕ → ℕ → Bytes
  | 0, _ => m
  | w + 1, v => setLE (update m off (UInt8.ofNat v)) (off + 1) w (v / 256)

/-- `memmove` of `n` bytes of `src` to offset `off`. -/
def blit (m : Bytes) (off : ℕ) (src : Bytes) (n : ℕ) : Bytes :=
  fun a => if off ≤ a ∧ a < off + n then src (a - off) else m a

/-- `memset` of `n` bytes at offset `off`. -/
def fill (m : Bytes) (off : ℕ) (b : UInt8) (n : ℕ) : Bytes :=
  m.blit off (fun _ => b) n

theorem setLE_apply_of_lt (m : Bytes) (off w v : ℕ) {a : ℕ} (h : a < off) :
    m.setLE off w v a = m a := by
  induction w generalizing m off v with
  | zero => rfl
  | succ w ih =>
    rw [setLE, ih _ _ _ (by omega), update_of_ne (by omega)]

theorem setLE_apply_of_ge (m : Bytes) (off w v : ℕ) {a : ℕ} (h : off + w ≤ a) :
    m.setLE off w v a = m a := by
  induction w generalizing m off v with
  | zero => rfl
  | succ w ih =>
    rw [setLE, ih _ _ _ (by omega), update_of_ne (by omega)]

theorem getLE_congr {m m' : Bytes} {off w : ℕ}
    (h : ∀ a, off ≤ a → a < off + w → m a = m' a) : m.getLE off w = m'.getLE off w := by
  induction w generalizing off with
  | zero => rfl
  | succ w ih =>
    rw [getLE, getLE, h off le_rfl (by omega), ih fun a ha hw => h a (by omega) (by omega)]

theorem getLE_eq_zero {m : Bytes} {off w : ℕ} (h : ∀ a, off ≤ a → a < off + w → m a = 0) :
    m.getLE off w = 0 := by
  induction w generalizing off with
  | zero => rfl
  | succ w ih =>
    rw [getLE, h off le_rfl (by omega), ih fun a ha hw => h a (by omega) (by omega)]
    rfl

theorem getLE_setLE (m : Bytes) (off w v : ℕ) :
    (m.setLE off w v).getLE off w = v % 256 ^ w := by
  induction w generalizing m off v with
  | zero => simp [getLE, Nat.mod_one]
  | succ w ih =>
    rw [getLE, setLE, ih, setLE_apply_of_lt _ _ _ _ (by omega), update_self,
      pow_succ, Nat.mul_comm _ 256, Nat.mod_mul]
    simp

theorem getLE_setLE_of_lt (m : Bytes) (off w v : ℕ) (h : v < 256 ^ w) :
    (m.setLE off w v).getLE off w = v := by
  rw [getLE_setLE, Nat.mod_eq_of_lt h]

theorem getLE_setLE_of_disjoint (m : Bytes) (off w v off' w' : ℕ)
    (h : off + w ≤ off' ∨ off' + w' ≤ off) :
    (m.setLE off w v).getLE off' w' = m.getLE off' w' := by
  apply getLE_congr
  intro a ha ha'
  rcases h with h | h
  · exact setLE_apply_of_ge _ _ _ _ (by omega)
  · exact setLE_apply_of_lt _ _ _ _ (by omega)

theorem blit_apply_of_mem (m : Bytes) (off : ℕ) (src : Bytes) (n : ℕ) {a : ℕ}
    (h : off ≤ a) (h' : a < off + n) : m.blit off src n a = src (a - off) := by
  simp [blit, h, h']

theorem blit_apply_of_not_mem (m : Bytes) (off : ℕ) (src : Bytes) (n : ℕ) {a : ℕ}
    (h : a < off ∨ off + n ≤ a) : m.blit off src n a = m a := by
  rw [blit, if_neg (by omega)]

end Bytes

end Xv6.Library
