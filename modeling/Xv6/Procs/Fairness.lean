import Xv6.Procs.Scheduler
import Mathlib.Data.Int.CardIntervalMod

/-!
# The fairness of the draw

Ten rounds of `random` with all their overflows and signs are, modulo a power of two up to
`32768`, ten rounds of one affine map with an odd factor, which permutes the residues. So every
ticket number comes from one residue of the seed, and consecutive seeds hit it in turn.
-/
namespace Xv6.Procs

open Vm (i32)

variable {k : ℕ}

/-- What a round of `random` does to residues. -/
def affine (k : ℕ) (x : ZMod (2 ^ k)) : ZMod (2 ^ k) := 1103515245 * x + 12345

theorem affine_injective (k : ℕ) : Function.Injective (affine k) := by
  have hunit : IsUnit ((1103515245 : ℕ) : ZMod (2 ^ k)) :=
    (ZMod.isUnit_iff_coprime _ _).mpr (Nat.Coprime.pow_right k (by decide))
  intro x y h
  have hmul : ((1103515245 : ℕ) : ZMod (2 ^ k)) * x = (1103515245 : ℕ) * y := by
    simpa [affine] using h
  exact hunit.mul_left_cancel hmul

section Residues

theorem cast_add_mul_pow {j : ℕ} (h : k ≤ j) (z q : ℤ) :
    ((z + 2 ^ j * q : ℤ) : ZMod (2 ^ k)) = z := by
  have hzero : ((2 : ZMod (2 ^ k)) ^ j) = 0 := by
    have hdvd : 2 ^ k ∣ 2 ^ j := pow_dvd_pow 2 h
    have hcast := (ZMod.natCast_eq_zero_iff (2 ^ j) (2 ^ k)).mpr hdvd
    simpa using hcast
  push_cast
  rw [hzero, zero_mul, add_zero]

theorem cast_i32 (h : k ≤ 32) (z : ℤ) : ((i32 z : ℤ) : ZMod (2 ^ k)) = z := by
  have hdef : i32 z = z + 2 ^ 32 * -((z + 2 ^ 31) / 2 ^ 32) := by
    unfold i32
    omega
  rw [hdef, cast_add_mul_pow h]

theorem cast_tmod (h : k ≤ 15) (z : ℤ) : ((z.tmod 32768 : ℤ) : ZMod (2 ^ k)) = z := by
  have hdef : z.tmod 32768 = z + 2 ^ 15 * -(z.tdiv 32768) := by
    have := Int.tmod_add_mul_tdiv z 32768
    omega
  rw [hdef, cast_add_mul_pow h]

theorem cast_randomNext (h : k ≤ 15) (x : ℤ) :
    ((randomNext x : ℤ) : ZMod (2 ^ k)) = affine k x := by
  rw [randomNext, cast_tmod h, cast_i32 (by omega), Int.cast_add, cast_i32 (by omega)]
  simp [affine]

theorem cast_iterate (h : k ≤ 15) (n : ℕ) (x : ℤ) :
    ((randomNext^[n] x : ℤ) : ZMod (2 ^ k)) = (affine k)^[n] x := by
  induction n generalizing x with
  | zero => rfl
  | succ n ih => rw [Function.iterate_succ_apply, ih, cast_randomNext h,
    Function.iterate_succ_apply]

theorem cast_random (h : k ≤ 15) (seed : ℤ) :
    ((random seed : ℤ) : ZMod (2 ^ k)) = (affine k)^[nRounds] seed := by
  have hdef : random seed =
      randomNext^[nRounds] seed + 2 ^ 32 * -(randomNext^[nRounds] seed / 2 ^ 32) := by
    unfold random
    omega
  rw [hdef, cast_add_mul_pow (by omega), cast_iterate h]

end Residues

section Fairness

/-- Among `2 ^ j` consecutive numbers, each residue modulo `2 ^ k` occurs equally often. -/
theorem card_residue {j : ℕ} (h : k ≤ j) (first v : ℤ) :
    ((Finset.Ico first (first + 2 ^ j)).filter fun x => x ≡ v [ZMOD 2 ^ k]).card =
      2 ^ j / 2 ^ k := by
  have hpos : (0 : ℤ) < 2 ^ k := by positivity
  have hpow : (2 : ℚ) ^ j = 2 ^ (j - k) * 2 ^ k := by rw [← pow_add, Nat.sub_add_cancel h]
  have hshift : ((first + 2 ^ j : ℤ) - v : ℚ) / ((2 ^ k : ℤ) : ℚ) =
      (first - v) / ((2 ^ k : ℤ) : ℚ) + ((2 ^ (j - k) : ℤ) : ℚ) := by
    push_cast
    rw [hpow]
    field_simp
    ring
  have hcard := Int.Ico_filter_modEq_card first (first + 2 ^ j) hpos v
  rw [hshift, Int.ceil_add_intCast, add_sub_cancel_left, max_eq_left (by positivity)] at hcard
  rw [Nat.pow_div h (by omega)]
  exact_mod_cast hcard

/-- A ticket number is drawn for the seeds of one residue. -/
theorem randomrange_eq_iff (hk : k ≤ 15) {t : ℤ} (ht : 1 ≤ t ∧ t ≤ 2 ^ k) :
    ∃ v : ℤ, ∀ seed, randomrange seed 1 (2 ^ k) = t ↔ seed ≡ v [ZMOD 2 ^ k] := by
  have hinj : Function.Injective (affine k)^[nRounds] := (affine_injective k).iterate nRounds
  have hle : (2 : ℤ) ^ k ≤ 2 ^ 15 := pow_le_pow_right₀ (by norm_num) hk
  have habs : |(2 : ℤ) ^ k - 1| = 2 ^ k - 1 := abs_of_nonneg (by omega)
  have hone : (-2 ^ 31 : ℤ) ≤ 1 ∧ (1 : ℤ) < 2 ^ 31 := by norm_num
  obtain ⟨x, hx⟩ := Finite.surjective_of_injective hinj ((t - 1 : ℤ) : ZMod (2 ^ k))
  obtain ⟨v, rfl⟩ := ZMod.intCast_surjective x
  refine ⟨v, fun seed => ?_⟩
  have hdraw : randomrange seed 1 (2 ^ k) = random seed % 2 ^ k + 1 := by
    rw [randomrange_eq seed hone (by omega) (by omega), habs, sub_add_cancel,
      min_eq_left (by omega)]
  have hticket : random seed % 2 ^ k + 1 = t ↔ random seed ≡ t - 1 [ZMOD 2 ^ k] := by
    unfold Int.ModEq
    rw [Int.emod_eq_of_lt (a := t - 1) (by omega) (by omega)]
    omega
  rw [hdraw, hticket]
  have hcast : ∀ a b : ℤ, a ≡ b [ZMOD 2 ^ k] ↔ (a : ZMod (2 ^ k)) = b := by
    intro a b
    rw [ZMod.intCast_eq_intCast_iff]
    push_cast
    rfl
  rw [hcast, hcast, cast_random hk, ← hx]
  exact hinj.eq_iff

/-- A draw lies between its bounds, and when the total is a power of two up to `2 ^ 15`, each
ticket number is drawn for equally many of any `2 ^ 15` consecutive seeds. -/
theorem lottery_fair {lo hi : ℤ} (hlo : -2 ^ 31 ≤ lo ∧ lo < 2 ^ 31)
    (hhi : -2 ^ 31 ≤ hi ∧ hi < 2 ^ 31) (hrange : |hi - lo| + 1 < 2 ^ 31) (hk : k ≤ 15) {t : ℤ}
    (ht : 1 ≤ t ∧ t ≤ 2 ^ k) :
    (∀ seed, min lo hi ≤ randomrange seed lo hi ∧ randomrange seed lo hi ≤ max lo hi) ∧
    ∀ first : ℤ, ((Finset.Ico first (first + 2 ^ 15)).filter
      fun seed => randomrange seed 1 (2 ^ k) = t).card = 2 ^ 15 / 2 ^ k := by
  refine ⟨fun seed => randomrange_between seed hlo hhi hrange, fun first => ?_⟩
  obtain ⟨v, hv⟩ := randomrange_eq_iff hk ht
  simp only [hv]
  exact card_residue hk first v

/-- Of the seeds from `-5` on, `4096` draw ticket 3 of 8, and a draw from `7` down to `-2` is
between them. -/
theorem lottery_fair_eight :
    (∀ seed, min 7 (-2) ≤ randomrange seed 7 (-2) ∧ randomrange seed 7 (-2) ≤ max 7 (-2)) ∧
    ((Finset.Ico (-5) (-5 + 2 ^ 15)).filter
      fun seed => randomrange seed 1 (2 ^ 3) = 3).card = 2 ^ 15 / 2 ^ 3 := by
  have hseven : (-2 ^ 31 : ℤ) ≤ 7 ∧ (7 : ℤ) < 2 ^ 31 := by norm_num
  have htwo : (-2 ^ 31 : ℤ) ≤ -2 ∧ (-2 : ℤ) < 2 ^ 31 := by norm_num
  have hthree : (1 : ℤ) ≤ 3 ∧ (3 : ℤ) ≤ 2 ^ 3 := by norm_num
  have h := lottery_fair hseven htwo (by norm_num) (by norm_num) hthree
  exact ⟨h.1, h.2 (-5)⟩

end Fairness

end Xv6.Procs
