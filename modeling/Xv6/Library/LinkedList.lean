import Mathlib.Tactic

/-!
# Linked lists with a null pointer

`Linked next o l`: from pointer `o`, the pointers `next` lead through the nodes of `l` and then
end. Such a list is determined by its first pointer, so no node comes twice and there is no cycle.
-/
namespace Xv6.Library

variable {α : Type}

inductive Linked (next : α → Option α) : Option α → List α → Prop
  | nil : Linked next none []
  | cons {a : α} {l : List α} : Linked next (next a) l → Linked next (some a) (a :: l)

namespace Linked

variable {next next' : α → Option α} {o : Option α} {a : α} {l m : List α}

theorem suffix (h : Linked next o (l ++ a :: m)) : Linked next (some a) (a :: m) := by
  induction l generalizing o with
  | nil =>
    cases h with
    | cons h => exact .cons h
  | cons b l ih =>
    cases h with
    | cons h => exact ih h

variable (h : Linked next o l)
include h

theorem unique (h' : Linked next o m) : l = m := by
  induction h generalizing m with
  | nil =>
    cases h'
    rfl
  | cons _ ih =>
    cases h' with
    | cons h' => rw [ih h']

theorem eq_nil_iff : o = none ↔ l = [] := by
  cases h <;> simp

theorem nodup : l.Nodup := by
  induction h with
  | nil => exact List.nodup_nil
  | @cons a l h ih =>
    apply List.nodup_cons.mpr ⟨?_, ih⟩
    intro ha
    obtain ⟨p, q, rfl⟩ := List.append_of_mem ha
    -- the list after the second `a` is the list after the first
    have heq := h.suffix.unique (.cons h)
    have hlen := congrArg List.length heq
    simp only [List.length_cons, List.length_append] at hlen
    omega

theorem congr (hn : ∀ a ∈ l, next' a = next a) : Linked next' o l := by
  induction h with
  | nil => exact .nil
  | cons h ih =>
    apply Linked.cons
    rw [hn _ List.mem_cons_self]
    exact ih fun b hb => hn b (List.mem_cons_of_mem _ hb)

theorem push [DecidableEq α] (ha : a ∉ l) :
    Linked (Function.update next a o) (some a) (a :: l) := by
  apply Linked.cons
  rw [Function.update_self]
  apply h.congr
  intro b hb
  have hne : b ≠ a := by
    rintro rfl
    exact ha hb
  exact Function.update_of_ne hne _ _

end Linked

end Xv6.Library
