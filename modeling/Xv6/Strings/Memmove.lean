import Xv6.Library.Bytes
import Xv6.Vm.Kernel

/-!
# Moving bytes

The two functions `memmove`, of `kernel/string.c` and of `user/ulib.c`, over one memory of bytes.
They choose the direction of the copy by different tests. In both the loop that runs has not yet
overwritten the bytes it still has to read.
-/
namespace Xv6.Strings

open Library Function
open Vm (u64)

/-- `while(n-- > 0) *d++ = *s++`. -/
def copyUp : ℕ → ℕ → ℕ → Bytes → Bytes
  | 0, _, _, m => m
  | n + 1, d, s, m => copyUp n (u64 (d + 1)) (u64 (s + 1)) (update m d (m s))

/-- `while(n-- > 0) *--d = *--s`. -/
def copyDown : ℕ → ℕ → ℕ → Bytes → Bytes
  | 0, _, _, m => m
  | n + 1, d, s, m =>
    copyDown n (u64 (d - 1)) (u64 (s - 1)) (update m (u64 (d - 1)) (m (u64 (s - 1))))

namespace Kernel

/-- `memmove` of `kernel/string.c`: the pointer it returns and the memory. -/
def memmove (dst src n : ℕ) (m : Bytes) : ℕ × Bytes :=
  if n = 0 then (dst, m)
  else if src < dst ∧ dst < u64 (src + n) then
    (dst, copyDown n (u64 (dst + n)) (u64 (src + n)) m)
  else (dst, copyUp n dst src m)

end Kernel

namespace User

/-- `memmove` of `user/ulib.c`. The loops do nothing when `n` is negative. -/
def memmove (vdst vsrc : ℕ) (n : ℤ) (m : Bytes) : ℕ × Bytes :=
  if vdst < vsrc then (vdst, copyUp n.toNat vdst vsrc m)
  else (vdst, copyDown n.toNat (u64 (vdst + n)) (u64 (vsrc + n)) m)

end User

variable {m : Bytes} {d s n : ℕ}

theorem blit_zero {f : Bytes} : m.blit d f 0 = m := by
  funext a
  exact Bytes.blit_apply_of_not_mem _ _ _ _ (by omega)

/-- One byte first, then the rest from a memory in which that byte is written already. -/
theorem blit_head (h : d ≤ s ∨ s + (n + 1) ≤ d) :
    Bytes.blit (update m d (m s)) (d + 1)
      (fun i => update m d (m s) (s + 1 + i)) n = m.blit d (fun i => m (s + i)) (n + 1) := by
  funext a
  unfold Bytes.blit
  by_cases had : a = d
  · subst had
    simp
  · by_cases hin : d + 1 ≤ a ∧ a < d + 1 + n
    · have hne : s + 1 + (a - (d + 1)) ≠ d := by omega
      have hsrc : s + 1 + (a - (d + 1)) = s + (a - d) := by omega
      rw [if_pos hin, if_pos (by omega)]
      exact (update_of_ne hne _ _).trans (congrArg m hsrc)
    · rw [if_neg hin, if_neg (by omega), update_of_ne had]

/-- One byte at the end first. -/
theorem blit_last (h : s ≤ d ∨ d + (n + 1) ≤ s) :
    Bytes.blit (update m (d + n) (m (s + n))) d
      (fun i => update m (d + n) (m (s + n)) (s + i)) n =
        m.blit d (fun i => m (s + i)) (n + 1) := by
  funext a
  unfold Bytes.blit
  by_cases had : a = d + n
  · subst had
    simp
  · by_cases hin : d ≤ a ∧ a < d + n
    · rw [if_pos hin, if_pos (by omega)]
      exact update_of_ne (by omega) _ _
    · rw [if_neg hin, if_neg (by omega), update_of_ne had]

/-- Upwards nothing is lost when the destination lies below the source or beyond its end. -/
theorem copyUp_eq_blit (h : d ≤ s ∨ s + n ≤ d) (hd : d + n ≤ 2 ^ 64) (hs : s + n ≤ 2 ^ 64) :
    copyUp n d s m = m.blit d (fun i => m (s + i)) n := by
  induction n generalizing d s m with
  | zero => exact blit_zero.symm
  | succ n ih =>
    rw [← blit_head h, copyUp]
    rcases Nat.eq_zero_or_pos n with rfl | hn
    · exact blit_zero.symm
    · have hu : ∀ p, p + (n + 1) ≤ 2 ^ 64 → u64 (p + 1) = p + 1 := fun p hp => by
        unfold u64
        omega
      rw [hu d hd, hu s hs]
      exact ih (by omega) (by omega) (by omega)

theorem u64_end (h : d + (n + 1) ≤ 2 ^ 64) : u64 (u64 (d + (n + 1 : ℕ)) - 1) = d + n := by
  unfold u64
  omega

/-- Downwards nothing is lost when the destination lies above the source or before its start. -/
theorem copyDown_eq_blit (h : s ≤ d ∨ d + n ≤ s) (hd : d + n ≤ 2 ^ 64) (hs : s + n ≤ 2 ^ 64) :
    copyDown n (u64 (d + n)) (u64 (s + n)) m = m.blit d (fun i => m (s + i)) n := by
  induction n generalizing m with
  | zero => exact blit_zero.symm
  | succ n ih =>
    have hu : ∀ p, p + (n + 1) ≤ 2 ^ 64 → p + n = u64 (p + n) := fun p hp => by
      unfold u64
      omega
    rw [← blit_last h, copyDown, u64_end hd, u64_end hs]
    rw [← ih (by omega) (by omega) (by omega), ← hu d hd, ← hu s hs]

/-- The test of the kernel finds each overlap in which the destination lies above the source. -/
theorem Kernel.memmove_eq_blit (hd : d + n ≤ 2 ^ 64) (hs : s + n ≤ 2 ^ 64) :
    memmove d s n m = (d, m.blit d (fun i => m (s + i)) n) := by
  unfold memmove
  split_ifs with hn hover
  · rw [hn, blit_zero]
  · rw [copyDown_eq_blit (by omega) hd hs]
  · have hend : s < d → u64 (s + n) = s + n := fun hlt => by
      unfold u64
      omega
    have hapart : d ≤ s ∨ s + n ≤ d := by
      by_contra hnot
      obtain ⟨hlt, hin⟩ := not_or.mp hnot
      exact hover ⟨not_le.mp hlt, by rw [hend (not_le.mp hlt)]; exact not_le.mp hin⟩
    rw [copyUp_eq_blit hapart hd hs]

/-- The user library copies upwards exactly when the destination lies below the source. -/
theorem User.memmove_eq_blit {k : ℤ} (hd : d + k.toNat ≤ 2 ^ 64) (hs : s + k.toNat ≤ 2 ^ 64) :
    memmove d s k m = (d, m.blit d (fun i => m (s + i)) k.toNat) := by
  unfold memmove
  split_ifs with hlt
  · rw [copyUp_eq_blit (by omega) hd hs]
  · rw [← copyDown_eq_blit (by omega) hd hs]
    rcases le_total 0 k with hk | hk
    · rw [Int.toNat_of_nonneg hk]
    · rw [Int.toNat_of_nonpos hk]
      rfl

/-- Both move the bytes that the source had before the call, however the two ranges lie, and
change no byte outside the destination. -/
theorem memmove_overlap_safe (dst src : ℕ) (m : Bytes) :
    (∀ n, dst + n ≤ 2 ^ 64 → src + n ≤ 2 ^ 64 →
      (Kernel.memmove dst src n m).1 = dst ∧
      (∀ i < n, (Kernel.memmove dst src n m).2 (dst + i) = m (src + i)) ∧
      ∀ a, a < dst ∨ dst + n ≤ a → (Kernel.memmove dst src n m).2 a = m a) ∧
    ∀ n : ℤ, dst + n.toNat ≤ 2 ^ 64 → src + n.toNat ≤ 2 ^ 64 →
      (User.memmove dst src n m).1 = dst ∧
      (∀ i < n.toNat, (User.memmove dst src n m).2 (dst + i) = m (src + i)) ∧
      ∀ a, a < dst ∨ dst + n.toNat ≤ a → (User.memmove dst src n m).2 a = m a := by
  have hblit : ∀ n, (∀ i < n, m.blit dst (fun i => m (src + i)) n (dst + i) = m (src + i)) ∧
      ∀ a, a < dst ∨ dst + n ≤ a → m.blit dst (fun i => m (src + i)) n a = m a := by
    intro n
    refine ⟨fun i hi => ?_, fun a ha => Bytes.blit_apply_of_not_mem _ _ _ _ ha⟩
    rw [Bytes.blit_apply_of_mem _ _ _ _ (by omega) (by omega), Nat.add_sub_cancel_left]
  refine ⟨fun n hd hs => ?_, fun n hd hs => ?_⟩
  · rw [Kernel.memmove_eq_blit hd hs]
    exact ⟨rfl, hblit n⟩
  · rw [User.memmove_eq_blit hd hs]
    exact ⟨rfl, hblit n.toNat⟩

/-- Three bytes moved up by one and down by one. -/
theorem memmove_overlap_safe_three :
    (∀ i < 3, (Kernel.memmove 11 10 3 UInt8.ofNat).2 (11 + i) = UInt8.ofNat (10 + i)) ∧
      ∀ i < 3, (User.memmove 10 11 3 UInt8.ofNat).2 (10 + i) = UInt8.ofNat (11 + i) :=
  ⟨((memmove_overlap_safe 11 10 UInt8.ofNat).1 3 (by decide) (by decide)).2.1,
    ((memmove_overlap_safe 10 11 UInt8.ofNat).2 3 (by decide) (by decide)).2.1⟩

end Xv6.Strings
