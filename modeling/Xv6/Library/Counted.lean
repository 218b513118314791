import Xv6.Library.RefCount

/-!
# Counted references

The special case of a reference-counted pool in which every object may have any number of
holders and nothing is owed between steps: the count of an object is the number of its holders.
-/
namespace Xv6.Library

open Function

variable {H P : Type}

def Counted (own : H → Option P) (ref : P → ℕ) : Prop :=
  Balanced own (fun _ => True) [] ref 0

namespace Counted

variable {own : H → Option P} {ref : P → ℕ} {a : P} {h h' : H}

theorem count (hc : Counted own ref) (a : P) : ref a = (holders own a).ncard := by
  have h := Balanced.count hc a (by simp)
  simpa using h

theorem none (href : ∀ a, ref a = 0) : Counted (fun _ : H => none) ref where
  nodup := List.nodup_nil
  unheld := by simp
  settled := by simp
  finite a := by simp [holders]
  count a _ := by simp [holders, href]
  exclusive := by simp

theorem pos (hc : Counted own ref) (hh : own h = some a) : 0 < ref a := by
  rw [hc.count]
  exact (Set.ncard_pos (Balanced.finite hc a)).mpr ⟨h, hh⟩

theorem unheld (hc : Counted own ref) (ha : ref a = 0) (h : H) : own h ≠ some a := by
  intro hh
  have hpos := hc.pos hh
  omega

theorem sole (hc : Counted own ref) (ha : ref a = 1) (hh : own h = some a) (hh' : own h' = some a) :
    h = h' := by
  obtain ⟨x, hx⟩ := Set.ncard_eq_one.mp ((hc.count a).symm.trans ha)
  have hmem : ∀ g ∈ holders own a, g = x := by simp [hx]
  exact (hmem h hh).trans (hmem h' hh').symm

variable [DecidableEq P] [DecidableEq H]

theorem take (hc : Counted own ref) (hown : own h = Option.none) :
    Counted (update own h (some a)) (update ref a (ref a + 1)) := by
  have hup := Balanced.recount hc (a := a) (by simp) (ref a + 1)
  have hat : Balanced _ (fun _ => True) _ _ _ :=
    hup.attach (h := h) (a := a) (by simp) hown (by simp) (by simp)
  have hdebt : (0 : P → ℤ) + Pi.single a (((ref a + 1 : ℕ) : ℤ) - ref a) - Pi.single a 1 = 0 := by
    simp
  rwa [hdebt] at hat

theorem drop (hc : Counted own ref) (hown : own h = some a) :
    Counted (update own h Option.none) (update ref a (ref a - 1)) := by
  have hpos := hc.pos hown
  have hup := Balanced.recount hc (a := a) (by simp) (ref a - 1)
  have hde : Balanced _ (fun _ => True) _ _ _ := hup.detach (h := h) (a := a) (by simp) hown
  have hdebt : (0 : P → ℤ) + Pi.single a (((ref a - 1 : ℕ) : ℤ) - ref a) + Pi.single a 1 = 0 := by
    rw [zero_add, ← Pi.single_add]
    have hz : (((ref a - 1 : ℕ) : ℤ) - ref a) + 1 = 0 := by omega
    rw [hz, Pi.single_zero]
  rwa [hdebt] at hde

end Counted

end Xv6.Library
