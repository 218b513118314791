import Mathlib.Tactic
import Mathlib.Data.List.Chain

/-!
# Circular lists

`LinkedRing next head l`: following `next` from `head` gives the nodes of `l` and then `head` again.
From any node every node is reached, so that a search which goes round ends.
-/
namespace Xv6.Library

open Function List Option

variable {ι : Type}

def LinkedRing (next : ι → ι) (head : ι) (l : List ι) : Prop :=
  (head :: (l ++ [head])).IsChain fun a b => next a = b

variable {next next' : ι → ι} {head x y : ι} {l m A B : List ι}

theorem reach_of_chain (h : (x :: m).IsChain fun a b => next a = b) (hy : y ∈ m) :
    ∃ k, next^[k] (next x) = y := by
  induction m generalizing x with
  | nil => cases hy
  | cons z m ih =>
    obtain ⟨hz, hm⟩ := isChain_cons_cons.mp h
    rw [mem_cons] at hy
    cases hy with
    | inl heq => exact ⟨0, hz.trans heq.symm⟩
    | inr hmem =>
      obtain ⟨k, hk⟩ := ih hm hmem
      refine ⟨k + 1, ?_⟩
      rw [iterate_succ_apply, hz, hk]

namespace LinkedRing

theorem split (h : LinkedRing next head l) (hl : head :: l = A ++ x :: B) :
    (A ++ [x]).IsChain (fun a b => next a = b) ∧
      (x :: (B ++ [head])).IsChain fun a b => next a = b := by
  unfold LinkedRing at h
  rw [← cons_append, hl, append_assoc, cons_append] at h
  exact isChain_split.mp h

/-- The search from `x` comes to every node, and last to `x` itself. -/
theorem reach (h : LinkedRing next head l) (hx : x ∈ head :: l) (hy : y ∈ head :: l) :
    ∃ k, next^[k] (next x) = y := by
  obtain ⟨A, B, hl⟩ := append_of_mem hx
  obtain ⟨k, hk⟩ := reach_of_chain (h.split hl).2 (y := head) (by simp)
  have hround : y ∈ l ++ [head] := by
    simp only [mem_cons, mem_append, not_mem_nil, or_false] at hy ⊢
    tauto
  obtain ⟨j, hj⟩ := reach_of_chain h hround
  refine ⟨j + 1 + k, ?_⟩
  rw [iterate_add_apply, hk, iterate_succ_apply, hj]

/-- If `next` leads back to `x` after `k + 1` steps, then what it leads to it leads to at once. -/
theorem iterate_le {k j : ℕ} (hback : next^[k + 1] x = x) :
    ∃ i ≤ k, next^[i + 1] x = next^[j + 1] x := by
  induction j using Nat.strong_induction_on with
  | _ j ih =>
    by_cases hj : j ≤ k
    · exact ⟨j, hj, rfl⟩
    · obtain ⟨i, hi, heq⟩ := ih (j - (k + 1)) (by omega)
      refine ⟨i, hi, heq.trans ?_⟩
      have hround : next^[j - (k + 1) + 1 + (k + 1)] x = next^[j - (k + 1) + 1] x := by
        rw [iterate_add_apply next _ (k + 1), hback]
      rw [← hround, show j - (k + 1) + 1 + (k + 1) = j + 1 by omega]

/-- A search that goes round from `x` finds a node with the property `P`, or comes back to `x`
when it has seen all nodes. -/
theorem first (h : LinkedRing next head l) (hx : x ∈ head :: l) (P : ι → Prop) :
    ∃ k, (∀ i < k, ¬ P (next^[i + 1] x) ∧ next^[i + 1] x ≠ x) ∧
      (P (next^[k + 1] x) ∨ next^[k + 1] x = x ∧ ∀ y ∈ head :: l, ¬ P y) := by
  classical
  have hstop : ∃ k, P (next^[k + 1] x) ∨ next^[k + 1] x = x := by
    obtain ⟨k, hk⟩ := h.reach hx hx
    exact ⟨k, .inr hk⟩
  have hbefore : ∀ i < Nat.find hstop, ¬ P (next^[i + 1] x) ∧ next^[i + 1] x ≠ x :=
    fun i hi => not_or.mp (Nat.find_min hstop hi)
  refine ⟨Nat.find hstop, hbefore, ?_⟩
  by_cases hP : P (next^[Nat.find hstop + 1] x)
  · exact .inl hP
  · have hback : next^[Nat.find hstop + 1] x = x := (Nat.find_spec hstop).resolve_left hP
    refine .inr ⟨hback, fun y hy hPy => ?_⟩
    obtain ⟨j, hj⟩ := h.reach hx hy
    obtain ⟨i, hi, heq⟩ := iterate_le (j := j) hback
    have hyi : next^[i + 1] x = y := heq.trans hj
    rcases Nat.lt_or_eq_of_le hi with hlt | rfl
    · exact (hbefore i hlt).1 (hyi ▸ hPy)
    · exact hP (hyi ▸ hPy)

end LinkedRing

theorem chain_congr (h : (l ++ [x]).IsChain fun a b => next a = b)
    (heq : ∀ a ∈ l, next' a = next a) : (l ++ [x]).IsChain fun a b => next' a = b := by
  induction l with
  | nil => exact isChain_singleton x
  | cons a l ih =>
    rw [cons_append, isChain_cons] at h ⊢
    refine ⟨fun b hb => ?_, ih h.2 fun c hc => heq c (mem_cons_of_mem a hc)⟩
    rw [heq a (by simp)]
    exact h.1 b hb

end Xv6.Library
