import Mathlib.Tactic
import Mathlib.Data.Set.Card

/-!
# Reference-counted pools

A pool hands out pages that are then held by handles, and each page carries a count. `debt` is
what the code that is running owes or is owed at the moment: a page it has taken and not yet given
to a handle counts `1`, a handle it has set up before raising the count counts `-1`. A handle is
shared, or it holds its page alone.
-/
namespace Xv6.Library

open Function List Option

variable {H P : Type}

def holders (own : H → Option P) (a : P) : Set H := {h | own h = some a}

/-- Counts, handles and free list agree, up to the debt of the running code. -/
structure Balanced (own : H → Option P) (shared : H → Prop) (free : List P) (ref : P → ℕ)
    (debt : P → ℤ) : Prop where
  nodup : free.Nodup
  unheld : ∀ a ∈ free, ∀ h, own h ≠ some a
  settled : ∀ a ∈ free, debt a = 0
  finite : ∀ a, (holders own a).Finite
  count : ∀ a, a ∉ free → (ref a : ℤ) = (holders own a).ncard + debt a
  exclusive : ∀ h h' a, own h = some a → own h' = some a → h ≠ h' → shared h ∧ shared h'

namespace Balanced

variable {own : H → Option P} {shared : H → Prop} {free : List P}
  {ref : P → ℕ} {debt : P → ℤ} {a : P} {h : H}

theorem unheld_of_debt (hb : Balanced own shared free ref debt) (ha : a ∉ free)
    (hd : debt a = ref a) (h : H) : own h ≠ some a := by
  have hc := hb.count a ha
  have h0 : (holders own a).ncard = 0 := by omega
  have hempty := (Set.ncard_eq_zero (hb.finite a)).mp h0
  intro hown
  have hmem : h ∈ holders own a := hown
  simp [hempty] at hmem

variable [DecidableEq P]

/-- Take the first free page. -/
theorem alloc (hb : Balanced own shared (a :: free) ref debt) :
    Balanced own shared free (update ref a 1) (debt + Pi.single a 1) where
  nodup := (nodup_cons.mp hb.nodup).2
  unheld b hmem := hb.unheld b (mem_cons_of_mem a hmem)
  settled b hmem := by
    have hne : b ≠ a := fun he => (nodup_cons.mp hb.nodup).1 (he ▸ hmem)
    simp [hne, hb.settled b (mem_cons_of_mem a hmem)]
  finite := hb.finite
  count b hmem := by
    by_cases hba : b = a
    · subst hba
      have hempty : holders own b = ∅ :=
        Set.eq_empty_of_forall_notMem fun h => hb.unheld b (by simp) h
      simp [hempty, hb.settled b (by simp)]
    · rw [update_of_ne hba, hb.count b (by simp [hba, hmem])]
      simp [hba]
  exclusive := hb.exclusive

/-- Give back a page that the running code holds alone. -/
theorem release (hb : Balanced own shared free ref debt) (ha : a ∉ free) (hd : debt a = 1)
    (hr : ref a = 1) : Balanced own shared (a :: free) ref (debt - Pi.single a 1) where
  nodup := nodup_cons.mpr ⟨ha, hb.nodup⟩
  unheld b hmem := by
    rcases mem_cons.mp hmem with rfl | hmem
    · exact hb.unheld_of_debt ha (by rw [hd, hr]; rfl)
    · exact hb.unheld b hmem
  settled b hmem := by
    rcases mem_cons.mp hmem with rfl | hmem
    · simp [hd]
    · have hne : b ≠ a := fun he => ha (he ▸ hmem)
      simp [hne, hb.settled b hmem]
  finite := hb.finite
  count b hmem := by
    have hba : b ≠ a := fun he => hmem (by simp [he])
    rw [hb.count b fun hf => hmem (mem_cons_of_mem a hf)]
    simp [hba]
  exclusive := hb.exclusive

theorem recount (hb : Balanced own shared free ref debt) (ha : a ∉ free) (n : ℕ) :
    Balanced own shared free (update ref a n) (debt + Pi.single a ((n : ℤ) - ref a)) where
  nodup := hb.nodup
  unheld := hb.unheld
  settled b hmem := by
    have hne : b ≠ a := fun he => ha (he ▸ hmem)
    simp [hne, hb.settled b hmem]
  finite := hb.finite
  count b hmem := by
    have hc := hb.count b hmem
    by_cases hba : b = a
    · subst hba
      simp only [update_self, Pi.add_apply, Pi.single_eq_same]
      omega
    · simp only [update_of_ne hba, Pi.add_apply, Pi.single_eq_of_ne hba]
      omega
  exclusive := hb.exclusive

variable [DecidableEq H]

theorem holders_update (own : H → Option P) (h : H) (o : Option P) (b : P) :
    holders (update own h o) b =
      if o = some b then insert h (holders own b) else holders own b \ {h} := by
  ext h'
  by_cases hh : h' = h <;> by_cases ho : o = some b <;> simp [holders, hh, ho]

/-- Let handle `h`, so far empty, hold page `a`. -/
theorem attach (hb : Balanced own shared free ref debt) {shared' : H → Prop}
    (hkeep : ∀ h', h' ≠ h → (shared' h' ↔ shared h')) (hown : own h = none) (ha : a ∉ free)
    (hshare : ∀ h', own h' = some a → shared h' ∧ shared' h) :
    Balanced (update own h (some a)) shared' free ref (debt - Pi.single a 1) where
  nodup := hb.nodup
  unheld b hmem h' := by
    have hne : a ≠ b := fun he => ha (he ▸ hmem)
    by_cases hh : h' = h
    · simp [hh, hne]
    · simp only [update_of_ne hh]
      exact hb.unheld b hmem h'
  settled b hmem := by
    have hne : b ≠ a := fun he => ha (he ▸ hmem)
    simp [hne, hb.settled b hmem]
  finite b := by
    rw [holders_update]
    split_ifs
    · exact (hb.finite b).insert h
    · exact (hb.finite b).sdiff
  count b hmem := by
    rw [holders_update, hb.count b hmem]
    by_cases hab : a = b
    · have hnot : h ∉ holders own b := by simp [holders, hown]
      subst hab
      simp [Set.ncard_insert_of_notMem hnot (hb.finite a)]
    · have hnot : h ∉ holders own b := by simp [holders, hown]
      have hba : b ≠ a := fun he => hab he.symm
      simp [hab, hba, Set.sdiff_singleton_eq_self hnot]
  exclusive h1 h2 b hb1 hb2 hne := by
    by_cases hh1 : h1 = h
    · subst hh1
      have hh2 : h2 ≠ h1 := fun he => hne he.symm
      simp only [update_self, update_of_ne hh2, some.injEq] at hb1 hb2
      have hs := hshare h2 (hb1 ▸ hb2)
      exact ⟨hs.2, (hkeep h2 hh2).mpr hs.1⟩
    · by_cases hh2 : h2 = h
      · subst hh2
        simp only [update_self, update_of_ne hh1, some.injEq] at hb1 hb2
        have hs := hshare h1 (hb2 ▸ hb1)
        exact ⟨(hkeep h1 hh1).mpr hs.1, hs.2⟩
      · simp only [update_of_ne hh1, update_of_ne hh2] at hb1 hb2
        rw [hkeep h1 hh1, hkeep h2 hh2]
        exact hb.exclusive h1 h2 b hb1 hb2 hne

/-- Take page `a` from handle `h`. -/
theorem detach (hb : Balanced own shared free ref debt) {shared' : H → Prop}
    (hkeep : ∀ h', h' ≠ h → (shared' h' ↔ shared h')) (hown : own h = some a) :
    Balanced (update own h none) shared' free ref (debt + Pi.single a 1) where
  nodup := hb.nodup
  unheld b hmem h' := by
    by_cases hh : h' = h
    · simp [hh]
    · simp only [update_of_ne hh]
      exact hb.unheld b hmem h'
  settled b hmem := by
    have hne : b ≠ a := fun he => hb.unheld b hmem h (he ▸ hown)
    simp [hne, hb.settled b hmem]
  finite b := by
    rw [holders_update]
    exact (hb.finite b).sdiff
  count b hmem := by
    rw [holders_update, hb.count b hmem]
    by_cases hab : a = b
    · subst hab
      have hin : h ∈ holders own a := hown
      have hcard := Set.ncard_sdiff_singleton_add_one hin (hb.finite a)
      simp only [reduceCtorEq, if_false, Pi.add_apply, Pi.single_eq_same]
      omega
    · have hnot : h ∉ holders own b := by simp [holders, hown, hab]
      have hba : b ≠ a := fun he => hab he.symm
      simp [hba, Set.sdiff_singleton_eq_self hnot]
  exclusive h1 h2 b hb1 hb2 hne := by
    have hh1 : h1 ≠ h := fun he => by simp [he] at hb1
    have hh2 : h2 ≠ h := fun he => by simp [he] at hb2
    simp only [update_of_ne hh1, update_of_ne hh2] at hb1 hb2
    rw [hkeep h1 hh1, hkeep h2 hh2]
    exact hb.exclusive h1 h2 b hb1 hb2 hne

end Balanced

end Xv6.Library
