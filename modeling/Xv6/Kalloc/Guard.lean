import Xv6.Kalloc.Allocator

/-!
# The guard of `kfree`

`kfree` tells pages apart by their counts, and fills the page before it looks. A page that was
freed keeps its count of one, so the guard lets it pass a second time; and a page that is refused
has lost its contents. Where neither happens, the guard is exact.
-/
namespace Xv6.Kalloc

open Library

variable {kend pa : ℕ} {s s' : Kmem} {A : Finset ℕ} {l : List ℕ}

/-- The page is not a free one with a count of one, and a page that will be refused is filled with
ones already. -/
def Harmless (s : Kmem) (A : Finset ℕ) (pa : ℕ) : Prop :=
  (pa ∈ A ∨ s.getref pa ≠ 1) ∧ (s.getref pa = 1 ∨ ∀ k < pgSize, s.mem (pa + k) = 1)

instance (s : Kmem) (A : Finset ℕ) (pa : ℕ) : Decidable (Harmless s A pa) := by
  unfold Harmless
  infer_instance

def FreesHarmless (h : Traced Kmem (Finset ℕ)) : Event → Prop
  | .kfree pa => Harmless h.state h.trace pa
  | _ => True

instance (h : Traced Kmem (Finset ℕ)) (e : Event) : Decidable (FreesHarmless h e) :=
  match e with
  | .kfree pa => inferInstanceAs (Decidable (Harmless h.state h.trace pa))
  | .kalloc | .incref _ | .decref _ => .isTrue trivial

theorem FreesHarmless.careful {h : Traced Kmem (Finset ℕ)} {e : Event}
    (hok : FreesHarmless h e) : Careful h e := by
  cases e with
  | kfree pa => exact hok.1
  | _ => trivial

theorem fillPage_of_filled (h : ∀ k < pgSize, s.mem (pa + k) = 1) : s.fillPage pa 1 = s := by
  have hmem : s.mem.fill pa 1 pgSize = s.mem := by
    funext a
    unfold Bytes.fill Bytes.blit
    split_ifs with ha
    · have hk := h (a - pa) (by omega)
      rw [show pa + (a - pa) = a by omega] at hk
      exact hk.symm
    · rfl
  unfold Kmem.fillPage
  rw [hmem]

/-- In a run whose calls of `kfree` are harmless, a harmless call puts the page on the free list if
the page is allocated with a count of one, and changes nothing otherwise. -/
theorem kfree_guard_exact (hend : 0 < kend) (mem : Bytes) :
    ∃ s₀, kinit kend (boot mem) = .ok s₀ ∧
    ∀ h, Reach (stepRel (traced (step kend) (note kend))) FreesHarmless ⟨s₀, ∅⟩ h →
      ∃ l, h.state.Lists l ∧ ∀ pa, Accepts kend pa → Harmless h.state h.trace pa →
        ∃ b s', kfree kend pa h.state = .ok (b, s') ∧
          (pa ∈ h.trace ∧ h.state.getref pa = 1 → b = true ∧ s'.Lists (pa / pgSize :: l)) ∧
          (¬ (pa ∈ h.trace ∧ h.state.getref pa = 1) → b = false ∧ s' = h.state) := by
  obtain ⟨s₀, l0, hkinit, h0⟩ := Sound.kinit kend mem
  refine ⟨s₀, hkinit, fun h hr => ?_⟩
  obtain ⟨l, hl⟩ := sound_of_careful hend (fun _ _ hok => hok.careful) h0 hr
  refine ⟨l, hl.lists, fun pa hacc hharm => ?_⟩
  by_cases href : h.state.getref pa = 1
  · have hpa : pa ∈ h.trace := hharm.1.resolve_right (fun hne => hne href)
    obtain ⟨s', hk, hs'⟩ := hl.kfree_allocated hpa href
    exact ⟨true, s', hk, fun _ => ⟨rfl, hs'.lists⟩, fun hn => absurd ⟨hpa, href⟩ hn⟩
  · have hk := Sound.kfree_refused hacc href
    rw [fillPage_of_filled (hharm.2.resolve_left href)] at hk
    exact ⟨false, h.state, hk, fun hp => absurd hp.2 href, fun _ => ⟨rfl, rfl⟩⟩

/-- A page is allocated, shared, released by one of its holders and freed; `kfree` then takes it
back. -/
theorem kfree_guard_exact_shared :
    ∃ s₀ h l s', kinit lastTwo (boot fun _ => 0) = .ok s₀ ∧
      Reach (stepRel (traced (step lastTwo) (note lastTwo))) FreesHarmless ⟨s₀, ∅⟩ h ∧
      kfree lastTwo (lastTwo + pgSize) h.state = .ok (true, s') ∧
      s'.Lists ((lastTwo + pgSize) / pgSize :: l) := by
  have hrun : (session lastTwo FreesHarmless
      [.kalloc, .incref (lastTwo + pgSize), .decref (lastTwo + pgSize)]).map
        (fun h => (decide (lastTwo + pgSize ∈ h.trace), h.state.getref (lastTwo + pgSize))) =
      some (true, 1) := by
    decide +kernel
  obtain ⟨h, hs, hpair⟩ := Option.map_eq_some_iff.mp hrun
  obtain ⟨hmem, href⟩ := Prod.mk.injEq .. ▸ hpair
  obtain ⟨s₀, hk, hall⟩ := kfree_guard_exact lastTwo_pos fun _ => 0
  have hr := reach_of_session hk hs
  have hpa : lastTwo + pgSize ∈ h.trace := of_decide_eq_true hmem
  obtain ⟨l, -, hguard⟩ := hall h hr
  obtain ⟨b, s', hfree, hyes, -⟩ :=
    hguard (lastTwo + pgSize) (by decide +kernel) ⟨.inl hpa, .inl href⟩
  obtain ⟨rfl, hlists⟩ := hyes ⟨hpa, href⟩
  exact ⟨s₀, h, l, s', hk, hr, hfree, hlists⟩

/-- A page is allocated and freed. A second `kfree` of it, which is free by now, is accepted and
makes its descriptor point to itself. And `kfree` of a page with a count of two is refused, but
only after its bytes have been overwritten. -/
theorem kfree_guard_fails :
    ((session lastTwo (fun _ _ => True) [.kalloc, .kfree (lastTwo + pgSize)]).map fun h =>
      (decide (lastTwo + pgSize ∈ h.trace),
        (kfree lastTwo (lastTwo + pgSize) h.state).toOption.map fun r =>
          (r.1, r.2.freelist, r.2.next ((lastTwo + pgSize) / pgSize)))) =
      some (false, some (true, some ((lastTwo + pgSize) / pgSize),
        some ((lastTwo + pgSize) / pgSize))) ∧
    ((session lastTwo (fun _ _ => True) [.kalloc, .incref (lastTwo + pgSize)]).map fun h =>
      (h.state.mem (lastTwo + pgSize),
        (kfree lastTwo (lastTwo + pgSize) h.state).toOption.map fun r =>
          (r.1, r.2.mem (lastTwo + pgSize)))) =
      some (5, some (false, 1)) := by
  decide +kernel

end Xv6.Kalloc
