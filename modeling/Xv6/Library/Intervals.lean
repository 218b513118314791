import Mathlib.Tactic
import Mathlib.Order.Interval.Finset.Nat

/-!
# Intervals side by side

Intervals that do not overlap and lie between two bounds are together no longer than
the distance of the bounds.
-/
namespace Xv6.Library

variable {ι : Type}

theorem sum_length_le {I : Finset ι} {start len : ι → ℕ} {lo hi : ℕ}
    (hin : ∀ i ∈ I, lo ≤ start i ∧ start i + len i ≤ hi)
    (hdisj : ∀ i ∈ I, ∀ j ∈ I, i ≠ j →
      start i + len i ≤ start j ∨ start j + len j ≤ start i) :
    ∑ i ∈ I, len i ≤ hi - lo := by
  have hpair : Set.PairwiseDisjoint ↑I fun i => Finset.Ico (start i) (start i + len i) := by
    intro i hi j hj hij
    rw [Function.onFun, Finset.disjoint_left]
    intro a ha hb
    rw [Finset.mem_Ico] at ha hb
    rcases hdisj i hi j hj hij with h | h <;> omega
  have hsub : I.biUnion (fun i => Finset.Ico (start i) (start i + len i)) ⊆ Finset.Ico lo hi := by
    intro a ha
    obtain ⟨i, hi, ha⟩ := Finset.mem_biUnion.mp ha
    obtain ⟨h1, h2⟩ := hin i hi
    rw [Finset.mem_Ico] at ha ⊢
    omega
  calc ∑ i ∈ I, len i = ∑ i ∈ I, (Finset.Ico (start i) (start i + len i)).card := by simp
    _ = (I.biUnion fun i => Finset.Ico (start i) (start i + len i)).card :=
      (Finset.card_biUnion hpair).symm
    _ ≤ (Finset.Ico lo hi).card := Finset.card_le_card hsub
    _ = hi - lo := Nat.card_Ico lo hi

end Xv6.Library
