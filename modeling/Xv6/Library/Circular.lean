import Mathlib.Tactic
import Mathlib.Data.List.Chain

/-!
# Circular doubly linked lists

Nodes are linked by two functions, `next` and `prev`. `Circular head l` says that following `next`
from `head` gives the nodes of `l`, each once, and then `head` again, and that `prev` goes the
other way. A search that starts at `head` looks through `l` or its reverse.
-/
namespace Xv6.Library

open Function List

variable {ι : Type}

structure Links (ι : Type) where
  next : ι → ι
  prev : ι → ι

namespace Links

/-- `b` comes after `a`. -/
def Adj (L : Links ι) (a b : ι) : Prop := L.next a = b ∧ L.prev b = a

structure Circular (L : Links ι) (head : ι) (l : List ι) : Prop where
  nodup : (head :: l).Nodup
  linked : (head :: (l ++ [head])).IsChain L.Adj

theorem circular_nil (head : ι) : (Links.mk (fun _ => head) fun _ => head).Circular head [] where
  nodup := by simp
  linked := by simp [Adj]

variable [DecidableEq ι]

instance (L : Links ι) : DecidableRel L.Adj := fun a b =>
  inferInstanceAs (Decidable (L.next a = b ∧ L.prev b = a))

def unlink (L : Links ι) (b : ι) : Links ι :=
  let L₁ : Links ι := { L with prev := update L.prev (L.next b) (L.prev b) }
  { L₁ with next := update L₁.next (L₁.prev b) (L₁.next b) }

def pushFront (L : Links ι) (head b : ι) : Links ι :=
  let L₁ : Links ι := { L with next := update L.next b (L.next head) }
  let L₂ : Links ι := { L₁ with prev := update L₁.prev b head }
  let L₃ : Links ι := { L₂ with prev := update L₂.prev (L₂.next head) b }
  { L₃ with next := update L₃.next head b }

/-- Follow `f` from `b` until `head`, for at most `n` nodes, to the first node with property
`p`. -/
def walk (f : ι → ι) (head : ι) (p : ι → Bool) : ℕ → ι → Option (Option ι)
  | 0, _ => none
  | n + 1, b => if b = head then some none else if p b then some (some b) else walk f head p n (f b)

variable {L : Links ι} {head a b c : ι} {l l1 l2 : List ι}

theorem unlink_next (hb : L.next b ≠ b) :
    (L.unlink b).next = update L.next (L.prev b) (L.next b) := by
  simp [unlink, update_of_ne hb.symm]

theorem Adj.unlink (hpb : L.Adj c b) (hbq : L.Adj b a) (ha : a ≠ b) {x y : ι} (hx : x ≠ b)
    (hy : y ≠ b) (h : L.Adj x y) : (L.unlink b).Adj x y := by
  obtain ⟨hcb, hbc⟩ := hpb
  obtain ⟨hba, hab⟩ := hbq
  obtain ⟨hxy, hyx⟩ := h
  have hxc : x ≠ c := fun hq => hy (by rw [← hxy, hq, hcb])
  have hya : y ≠ a := fun hq => hx (by rw [← hyx, hq, hab])
  constructor
  · rw [unlink_next (hba ▸ ha), hbc, update_of_ne hxc, hxy]
  · change update L.prev (L.next b) (L.prev b) y = x
    rw [hba, update_of_ne hya, hyx]

theorem Circular.unlink (h : L.Circular head (l1 ++ b :: l2)) :
    (L.unlink b).Circular head (l1 ++ l2) := by
  have hnot : b ∉ head :: (l1 ++ l2) := by
    have hn := h.nodup
    rw [← cons_append, nodup_append_comm, cons_append, nodup_cons] at hn
    intro hmem
    apply hn.1
    simp only [mem_append, mem_cons] at hmem ⊢
    tauto
  have hnodup : (head :: (l1 ++ l2)).Nodup := by
    have hsub := ((List.Sublist.refl l1).append (sublist_cons_self b l2)).cons_cons head
    exact List.Nodup.sublist hsub h.nodup
  refine ⟨hnodup, ?_⟩
  obtain ⟨m1, c, hm1⟩ : ∃ m c, head :: l1 = m ++ [c] :=
    ⟨_, _, (dropLast_append_getLast (cons_ne_nil head l1)).symm⟩
  obtain ⟨a, m2, hm2⟩ : ∃ a m, l2 ++ [head] = a :: m := by
    cases l2 with
    | nil => exact ⟨head, [], rfl⟩
    | cons a l2 => exact ⟨a, l2 ++ [head], rfl⟩
  have hbefore : head :: ((l1 ++ b :: l2) ++ [head]) = m1 ++ c :: b :: a :: m2 := by
    rw [append_assoc, cons_append, hm2, ← cons_append, hm1]
    simp
  have hafter : head :: ((l1 ++ l2) ++ [head]) = m1 ++ c :: a :: m2 := by
    rw [append_assoc, hm2, ← cons_append, hm1]
    simp
  have hchain := h.linked
  rw [hbefore, isChain_append_cons_cons, isChain_cons_cons] at hchain
  obtain ⟨hfirst, hcb, hba, hlast⟩ := hchain
  have hout : ∀ x ∈ m1 ++ c :: a :: m2, x ≠ b := by
    intro x hx hq
    rw [← hafter, hq] at hx
    apply hnot
    simp only [mem_cons, mem_append, not_mem_nil, or_false] at hx ⊢
    tauto
  have hab : a ≠ b := hout a (by simp)
  have hkeep : ∀ m, m ⊆ m1 ++ c :: a :: m2 → m.IsChain L.Adj → m.IsChain (L.unlink b).Adj :=
    fun m hsub hm => hm.imp_of_mem_imp fun x y hx hy hxy =>
      Adj.unlink hcb hba hab (hout x (hsub hx)) (hout y (hsub hy)) hxy
  rw [hafter, isChain_append_cons_cons]
  refine ⟨hkeep _ ?_ hfirst, ⟨?_, ?_⟩, hkeep _ ?_ hlast⟩
  · intro x hx
    simp only [mem_append, mem_cons, not_mem_nil, or_false] at hx ⊢
    tauto
  · rw [unlink_next (hba.1 ▸ hab), hcb.2, update_self, hba.1]
  · change update L.prev (L.next b) (L.prev b) a = c
    rw [hba.1, update_self, hcb.2]
  · intro x hx
    simp only [mem_append, mem_cons] at hx ⊢
    tauto

theorem Circular.pushFront (h : L.Circular head l) (hb : b ∉ head :: l) :
    (L.pushFront head b).Circular head (b :: l) := by
  have hbh : b ≠ head := fun hq => hb (by simp [hq])
  have hbl : b ∉ l := fun hq => hb (by simp [hq])
  have hnodup : (head :: b :: l).Nodup := by
    have hn := nodup_cons.mp h.nodup
    simp only [nodup_cons, mem_cons, not_or]
    exact ⟨⟨hbh.symm, hn.1⟩, hbl, hn.2⟩
  refine ⟨hnodup, ?_⟩
  obtain ⟨a, m, hm⟩ : ∃ a m, l ++ [head] = a :: m := by
    cases l with
    | nil => exact ⟨head, [], rfl⟩
    | cons a l => exact ⟨a, l ++ [head], rfl⟩
  have hbm : b ∉ a :: m := by
    rw [← hm]
    simp [hbl, hbh]
  have ham : a ∉ m := by
    have hn : (l ++ [head]).Nodup := by
      rw [nodup_append_comm]
      exact h.nodup
    rw [hm] at hn
    exact (nodup_cons.mp hn).1
  have hba : b ≠ a := fun hq => hbm (by simp [hq])
  have hlinked := h.linked
  rw [hm, isChain_cons_cons] at hlinked
  obtain ⟨⟨hnext, -⟩, hrest⟩ := hlinked
  have hn : (L.pushFront head b).next = update (update L.next b a) head b := by
    simp [Links.pushFront, hnext]
  have hp : (L.pushFront head b).prev = update (update L.prev b head) a b := by
    simp [Links.pushFront, hnext, update_of_ne hbh.symm]
  rw [cons_append, hm, isChain_cons_cons, isChain_cons_cons]
  refine ⟨⟨?_, ?_⟩, ⟨?_, ?_⟩, ?_⟩
  · rw [hn, update_self]
  · rw [hp, update_of_ne hba, update_self]
  · rw [hn, update_of_ne hbh, update_self]
  · rw [hp, update_self]
  · apply hrest.imp_of_mem_tail_imp
    intro x y hx hy hxy
    have hya : y ≠ a := fun hq => ham (hq ▸ hy)
    have hxh : x ≠ head := fun hq => hya (by rw [← hxy.1, hq, hnext])
    have hxb : x ≠ b := fun hq => hbm (hq ▸ hx)
    have hyb : y ≠ b := fun hq => hbm (hq ▸ mem_cons_of_mem a hy)
    constructor
    · rw [hn, update_of_ne hxh, update_of_ne hxb, hxy.1]
    · rw [hp, update_of_ne hya, update_of_ne hyb, hxy.2]

section Search

variable {f : ι → ι} {p : ι → Bool}

theorem walk_eq (hl : head ∉ l) (h : (a :: (l ++ [head])).IsChain fun x y => f x = y) :
    walk f head p (l.length + 1) (f a) = some (l.find? p) := by
  induction l generalizing a with
  | nil =>
    rw [nil_append, isChain_cons_cons] at h
    simp [walk, h.1]
  | cons b l ih =>
    rw [cons_append, isChain_cons_cons] at h
    have hbh : b ≠ head := fun hq => hl (by simp [hq])
    rw [h.1, walk, if_neg hbh, find?_cons]
    cases p b with
    | true => rfl
    | false => exact ih (fun hq => hl (mem_cons_of_mem b hq)) h.2

theorem Circular.walk_next (h : L.Circular head l) :
    walk L.next head p (l.length + 1) (L.next head) = some (l.find? p) :=
  walk_eq (nodup_cons.mp h.nodup).1 (h.linked.imp fun _ _ hxy => hxy.1)

/-- A search along `prev` looks through it backwards. -/
theorem Circular.walk_prev (h : L.Circular head l) :
    walk L.prev head p (l.length + 1) (L.prev head) = some (l.reverse.find? p) := by
  have hrev : (head :: (l.reverse ++ [head])).IsChain fun x y => L.prev x = y := by
    have hq : head :: (l.reverse ++ [head]) = (head :: (l ++ [head])).reverse := by simp
    rw [hq, isChain_reverse]
    exact h.linked.imp fun _ _ hxy => hxy.2
  have hnot : head ∉ l.reverse := by
    rw [mem_reverse]
    exact (nodup_cons.mp h.nodup).1
  rw [← length_reverse]
  exact walk_eq hnot hrev

end Search

end Links

end Xv6.Library
