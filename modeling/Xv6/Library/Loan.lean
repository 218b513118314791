import Mathlib.Tactic

/-!
# Pages on loan

A program takes pages from a pool, lets handles of its own hold some of them, and has others in
hand. `Loan own free pool hand` says that nothing else is touched and nothing is lost.
-/
namespace Xv6.Library

open Function List

variable {H P : Type}

structure Loan (own : H → Option P) (free : List P) (pool : P → Prop) (hand : List P) : Prop where
  spare : ∀ a ∈ free, pool a
  taken : ∀ a ∈ hand, pool a
  held : ∀ h a, own h = some a → pool a
  back : ∀ a, pool a → a ∈ free ∨ a ∈ hand ∨ ∃ h, own h = some a

namespace Loan

variable {own : H → Option P} {free hand : List P} {pool : P → Prop} {a : P} {h : H}

theorem take (hl : Loan own (a :: free) pool hand) : Loan own free pool (a :: hand) where
  spare b hb := hl.spare b (mem_cons_of_mem a hb)
  taken b hb := by
    rcases mem_cons.mp hb with rfl | hb
    · exact hl.spare b mem_cons_self
    · exact hl.taken b hb
  held := hl.held
  back b hb := by
    rcases hl.back b hb with hf | hh | hh
    · rcases mem_cons.mp hf with rfl | hf
      · exact .inr (.inl mem_cons_self)
      · exact .inl hf
    · exact .inr (.inl (mem_cons_of_mem a hh))
    · exact .inr (.inr hh)

theorem give (hl : Loan own free pool (a :: hand)) : Loan own (a :: free) pool hand where
  spare b hb := by
    rcases mem_cons.mp hb with rfl | hb
    · exact hl.taken b mem_cons_self
    · exact hl.spare b hb
  taken b hb := hl.taken b (mem_cons_of_mem a hb)
  held := hl.held
  back b hb := by
    rcases hl.back b hb with hf | hh | hh
    · exact .inl (mem_cons_of_mem a hf)
    · rcases mem_cons.mp hh with rfl | hh
      · exact .inl mem_cons_self
      · exact .inr (.inl hh)
    · exact .inr (.inr hh)

variable [DecidableEq H]

/-- Let handle `h`, so far empty, hold a page in hand. -/
theorem attach (hl : Loan own free pool (a :: hand)) (hown : own h = none) :
    Loan (update own h (some a)) free pool hand where
  spare := hl.spare
  taken b hb := hl.taken b (mem_cons_of_mem a hb)
  held k b hk := by
    rw [update_apply] at hk
    split_ifs at hk
    · cases hk
      exact hl.taken a mem_cons_self
    · exact hl.held k b hk
  back b hb := by
    rcases hl.back b hb with hf | hh | ⟨k, hk⟩
    · exact .inl hf
    · rcases mem_cons.mp hh with rfl | hh
      · exact .inr (.inr ⟨h, update_self h _ own⟩)
      · exact .inr (.inl hh)
    · have hne : k ≠ h := by
        rintro rfl
        simp [hown] at hk
      exact .inr (.inr ⟨k, by rw [update_of_ne hne, hk]⟩)

/-- Take the page that handle `h` holds into hand. -/
theorem detach (hl : Loan own free pool hand) (hown : own h = some a) :
    Loan (update own h none) free pool (a :: hand) where
  spare := hl.spare
  taken b hb := by
    rcases mem_cons.mp hb with rfl | hb
    · exact hl.held h b hown
    · exact hl.taken b hb
  held k b hk := by
    rw [update_apply] at hk
    split_ifs at hk
    exact hl.held k b hk
  back b hb := by
    rcases hl.back b hb with hf | hh | ⟨k, hk⟩
    · exact .inl hf
    · exact .inr (.inl (mem_cons_of_mem a hh))
    · by_cases hkh : k = h
      · rw [hkh, hown] at hk
        cases hk
        exact .inr (.inl mem_cons_self)
      · exact .inr (.inr ⟨k, by rw [update_of_ne hkh, hk]⟩)

omit [DecidableEq H] in
theorem settled (hl : Loan own free pool []) (hown : ∀ h, own h = none) (b : P) :
    b ∈ free ↔ pool b := by
  refine ⟨hl.spare b, fun hb => ?_⟩
  rcases hl.back b hb with hf | hh | ⟨k, hk⟩
  · exact hf
  · cases hh
  · simp [hown] at hk

omit [DecidableEq H] in
theorem start (hown : ∀ h, own h = none) : Loan own free (· ∈ free) [] where
  spare _ h := h
  taken _ h := by cases h
  held k a hk := by simp [hown] at hk
  back _ h := .inl h

end Loan

end Xv6.Library
