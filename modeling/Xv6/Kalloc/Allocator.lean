import Xv6.Kalloc.Model
import Xv6.Library.LinkedList

/-!
# What the allocator guarantees

The descriptors on the free list are those of the pages that are not allocated, each once. Nothing
resets the count of a page when it is freed. So a free page may well have a count of one, and the
list stays sound only as long as `kfree` is not given such a page.
-/
namespace Xv6.Kalloc

open Library List Option
open Vm (pgRoundUp u32)

variable {kend pa i n : ℕ} {s s' : Kmem} {A : Finset ℕ} {l : List ℕ}

section Addresses

theorem accepts_iff :
    Accepts kend pa ↔ pa % pgSize = 0 ∧ pgRoundUp kend ≤ pa ∧ pa < phystop := by
  unfold Accepts pgRoundUp pgSize
  omega

theorem accepts_mul_iff :
    Accepts kend (i * pgSize) ↔ pgRoundUp kend / pgSize ≤ i ∧ i < physStop := by
  unfold Accepts pgRoundUp phystop pgSize
  omega

theorem mul_div_of_accepts (h : Accepts kend pa) : pa / pgSize * pgSize = pa :=
  Nat.div_mul_cancel (Nat.dvd_of_mod_eq_zero h.1)

@[simp] theorem mul_pgSize_div : i * pgSize / pgSize = i := Nat.mul_div_cancel i (by decide)

end Addresses

section Fields

@[simp] theorem fillPage_freelist (c : UInt8) : (s.fillPage pa c).freelist = s.freelist := rfl

@[simp] theorem fillPage_next (c : UInt8) : (s.fillPage pa c).next = s.next := rfl

@[simp] theorem fillPage_getref (c : UInt8) {a : ℕ} : (s.fillPage pa c).getref a = s.getref a := rfl

@[simp] theorem push_freelist : (s.push i).freelist = some i := rfl

@[simp] theorem push_next : (s.push i).next = Function.update s.next i s.freelist := by
  funext j
  by_cases hj : j = i
  · subst hj
    simp [Kmem.push, Kmem.next]
  · simp [Kmem.push, Kmem.next, hj]

@[simp] theorem setRef_freelist : (s.setRef i n).freelist = s.freelist := rfl

@[simp] theorem setRef_next : (s.setRef i n).next = s.next := by
  funext j
  by_cases hj : j = i
  · subst hj
    simp [Kmem.setRef, Kmem.next]
  · simp [Kmem.setRef, Kmem.next, hj]

@[simp] theorem pop_freelist : (s.pop i).freelist = s.next i := rfl

@[simp] theorem pop_next : (s.pop i).next = s.next := setRef_next

@[simp] theorem pop_getref : (s.pop i).getref (i * pgSize) = 1 := by
  simp [Kmem.getref, Kmem.pop, Kmem.setRef]

end Fields

/-- The free list leads through the descriptors of `l`. -/
def Kmem.Lists (s : Kmem) (l : List ℕ) : Prop := Linked s.next s.freelist l

theorem Kmem.Lists.push (h : s.Lists l) (hi : i ∉ l) : (s.push i).Lists (i :: l) := by
  unfold Kmem.Lists
  rw [push_next, push_freelist]
  exact Linked.push h hi

section Kinit

/-- The memory as the loader leaves it; `kmem` starts out zeroed. -/
def boot (mem : Bytes) : Kmem := ⟨none, fun _ => ⟨none, 0⟩, mem⟩

/-- The loop puts the pages from `i` on in front of those that are listed. -/
theorem freerangeLoop_ok {fuel : ℕ} (hi : pgRoundUp kend / pgSize ≤ i) (hfuel : physStop ≤ i + fuel)
    (hl : s.Lists l) (hbelow : ∀ j ∈ l, j < i) :
    ∃ s' l', freerangeLoop kend fuel (i * pgSize) s = .ok s' ∧ s'.Lists l' ∧
      ∀ j, j ∈ l' ↔ j ∈ l ∨ i ≤ j ∧ j < physStop := by
  induction fuel generalizing i s l with
  | zero =>
    refine ⟨s, l, rfl, hl, fun j => ?_⟩
    constructor
    · exact .inl
    · rintro (h | h)
      · exact h
      · omega
  | succ fuel ih =>
    unfold freerangeLoop
    split_ifs with hp
    · have hlt : i < physStop := by
        unfold phystop pgSize at hp
        omega
      have hacc : Accepts kend (i * pgSize) := accepts_mul_iff.mpr ⟨hi, hlt⟩
      have hnotin : i ∉ l := fun h => lt_irrefl i (hbelow i h)
      have hpushed : ((s.fillPage (i * pgSize) 1).push i).Lists (i :: l) :=
        Kmem.Lists.push hl hnotin
      have hbelow' : ∀ j ∈ i :: l, j < i + 1 := by
        intro j hj
        rcases mem_cons.mp hj with rfl | hj
        · omega
        · exact Nat.lt_succ_of_lt (hbelow j hj)
      obtain ⟨s', l', hok, hl', hmem⟩ := ih (by omega) (by omega) hpushed hbelow'
      refine ⟨s', l', ?_, hl', fun j => ?_⟩
      · rw [kfreeInit, if_pos hacc, mul_pgSize_div]
        rwa [Nat.add_mul, Nat.one_mul] at hok
      · rw [hmem, mem_cons]
        constructor
        · rintro ((rfl | hj) | hj)
          · exact .inr ⟨le_rfl, hlt⟩
          · exact .inl hj
          · exact .inr ⟨by omega, hj.2⟩
        · rintro (hj | hj)
          · exact .inl (.inr hj)
          · by_cases hji : j = i
            · exact .inl (.inl hji)
            · exact .inr ⟨by omega, hj.2⟩
    · have hge : physStop ≤ i := by
        unfold phystop pgSize at hp
        omega
      refine ⟨s, l, rfl, hl, fun j => ?_⟩
      constructor
      · exact .inl
      · rintro (h | h)
        · exact h
        · omega

theorem kinit_ok (kend : ℕ) (mem : Bytes) :
    ∃ s l, kinit kend (boot mem) = .ok s ∧ s.Lists l ∧
      ∀ i, i ∈ l ↔ Accepts kend (i * pgSize) := by
  have haligned : pgRoundUp kend / pgSize * pgSize = pgRoundUp kend := by
    unfold pgRoundUp pgSize
    omega
  have hnil : (boot mem).Lists [] := Linked.nil
  obtain ⟨s, l, hok, hl, hmem⟩ : ∃ s l,
      freerangeLoop kend physStop (pgRoundUp kend / pgSize * pgSize) (boot mem) = .ok s ∧
        s.Lists l ∧ ∀ j, j ∈ l ↔ j ∈ [] ∨ pgRoundUp kend / pgSize ≤ j ∧ j < physStop :=
    freerangeLoop_ok le_rfl (Nat.le_add_left _ _) hnil (by simp)
  refine ⟨s, l, ?_, hl, fun i => ?_⟩
  · rwa [haligned] at hok
  · rw [hmem, accepts_mul_iff]
    simp

end Kinit

/-- The free list holds the pages that are not allocated. -/
structure Sound (kend : ℕ) (s : Kmem) (A : Finset ℕ) (l : List ℕ) : Prop where
  lists : s.Lists l
  free : ∀ i, i ∈ l ↔ Accepts kend (i * pgSize) ∧ i * pgSize ∉ A
  accepts : ∀ pa ∈ A, Accepts kend pa

namespace Sound

theorem kfree_refused (hacc : Accepts kend pa) (href : s.getref pa ≠ 1) :
    kfree kend pa s = .ok (false, s.fillPage pa 1) := by
  simp [kfree, hacc, href]

variable (h : Sound kend s A l)
include h

theorem kalloc_none (hf : s.freelist = none) : kalloc s = (0, s) ∧ l = [] := by
  refine ⟨?_, h.lists.eq_nil_iff.mp hf⟩
  rw [kalloc, hf]

/-- `kalloc` hands out the first page of the list. -/
theorem kalloc_some {r : ℕ} (hf : s.freelist = some r) :
    ∃ m, l = r :: m ∧ (kalloc s).1 = r * pgSize ∧ (kalloc s).2.getref (r * pgSize) = 1 ∧
      Sound kend (kalloc s).2 (insert (r * pgSize) A) m := by
  have hlists : Linked s.next (some r) l := by
    rw [← hf]
    exact h.lists
  cases hlists with
  | @cons _ m hm =>
    have hk : kalloc s = (r * pgSize, (s.pop r).fillPage (r * pgSize) 5) := by
      rw [kalloc, hf]
    have hnodup : (r :: m).Nodup := Linked.nodup h.lists
    rw [hk]
    refine ⟨m, rfl, rfl, by simp, ⟨?_, fun i => ?_, ?_⟩⟩
    · unfold Kmem.Lists
      simpa using hm
    · have hinj : i * pgSize = r * pgSize ↔ i = r := Nat.mul_left_inj (by decide)
      have hi := h.free i
      rw [mem_cons] at hi
      rw [Finset.mem_insert, hinj]
      constructor
      · intro him
        have hne : i ≠ r := fun he => (nodup_cons.mp hnodup).1 (he ▸ him)
        obtain ⟨hacc, hA⟩ := hi.mp (.inr him)
        exact ⟨hacc, not_or.mpr ⟨hne, hA⟩⟩
      · rintro ⟨hacc, hA⟩
        obtain ⟨hne, hA⟩ := not_or.mp hA
        exact (hi.mpr ⟨hacc, hA⟩).resolve_left hne
    · intro pa hpa
      rcases Finset.mem_insert.mp hpa with rfl | hpa
      · exact ((h.free r).mp mem_cons_self).1
      · exact h.accepts pa hpa

/-- A page that is taken back is the first of the list. -/
theorem kfree_allocated (hpa : pa ∈ A) (href : s.getref pa = 1) :
    ∃ s', kfree kend pa s = .ok (true, s') ∧ Sound kend s' (A.erase pa) (pa / pgSize :: l) := by
  have hacc := h.accepts pa hpa
  have hpage := mul_div_of_accepts hacc
  have hnotin : pa / pgSize ∉ l := by
    intro hin
    have hfree := ((h.free _).mp hin).2
    rw [hpage] at hfree
    exact hfree hpa
  refine ⟨(s.fillPage pa 1).push (pa / pgSize), ?_, ⟨?_, fun i => ?_, ?_⟩⟩
  · simp [kfree, hacc, href]
  · exact Kmem.Lists.push h.lists hnotin
  · rw [mem_cons, Finset.mem_erase, h.free]
    by_cases hi : i = pa / pgSize
    · subst hi
      rw [hpage]
      simp [hacc]
    · have hne : i * pgSize ≠ pa := by
        rintro rfl
        exact hi mul_pgSize_div.symm
      simp [hi, hne]
  · intro b hb
    exact h.accepts b (Finset.mem_of_mem_erase hb)

theorem fillPage (c : UInt8) : Sound kend (s.fillPage pa c) A l :=
  ⟨h.lists, h.free, h.accepts⟩

theorem setRef : Sound kend (s.setRef i n) A l := by
  refine ⟨?_, h.free, h.accepts⟩
  unfold Kmem.Lists
  rw [setRef_next]
  exact h.lists

end Sound

/-- `kfree` is not given a free page with a count of one. -/
def Careful (h : Traced Kmem (Finset ℕ)) : Event → Prop
  | .kfree pa => pa ∈ h.trace ∨ h.state.getref pa ≠ 1
  | _ => True

def OnlyAllocated (h : Traced Kmem (Finset ℕ)) : Event → Prop
  | .kfree pa => pa ∈ h.trace
  | _ => True

instance (h : Traced Kmem (Finset ℕ)) (e : Event) : Decidable (OnlyAllocated h e) := by
  cases e <;> unfold OnlyAllocated <;> infer_instance

theorem OnlyAllocated.careful {h : Traced Kmem (Finset ℕ)} {e : Event} (hok : OnlyAllocated h e) :
    Careful h e := by
  cases e with
  | kfree pa => exact .inl hok
  | _ => trivial

theorem sound_step {h h' : Traced Kmem (Finset ℕ)} {e : Event} (hend : 0 < kend)
    (hs : ∃ l, Sound kend h.state h.trace l) (hok : Careful h e)
    (hstep : traced (step kend) (note kend) h e = .ok h') :
    ∃ l, Sound kend h'.state h'.trace l := by
  obtain ⟨l, hl⟩ := hs
  obtain ⟨hrun, htrace⟩ := traced_ok hstep
  cases e with
  | kalloc =>
    have hstate : (kalloc h.state).2 = h'.state := Except.ok.inj hrun
    rw [htrace, ← hstate, note]
    cases hf : h.state.freelist with
    | none =>
      obtain ⟨hk, -⟩ := hl.kalloc_none hf
      exact ⟨l, by simpa [hk] using hl⟩
    | some r =>
      obtain ⟨m, rfl, hpa, -, hm⟩ := hl.kalloc_some hf
      have hr := ((hl.free r).mp mem_cons_self).1
      have hpos : r * pgSize ≠ 0 := by
        have := hr.2.1
        omega
      rw [hpa, if_neg hpos]
      exact ⟨m, hm⟩
  | kfree pa =>
    simp only [step] at hrun
    by_cases hacc : Accepts kend pa
    · by_cases href : h.state.getref pa = 1
      · have hpa : pa ∈ h.trace := hok.resolve_right (fun hne => hne href)
        obtain ⟨s', hk, hs'⟩ := hl.kfree_allocated hpa href
        rw [hk] at hrun
        rw [htrace, note, hk, ← (Except.ok.inj hrun : s' = h'.state)]
        exact ⟨_, hs'⟩
      · have hk := Sound.kfree_refused hacc href
        rw [hk] at hrun
        rw [htrace, note, hk, ← (Except.ok.inj hrun : h.state.fillPage pa 1 = h'.state)]
        exact ⟨l, hl.fillPage 1⟩
    · rw [kfree, if_neg hacc] at hrun
      cases hrun
  | incref pa =>
    simp only [step, incref] at hrun
    split_ifs at hrun with hacc
    rw [htrace, ← Except.ok.inj hrun]
    exact ⟨l, hl.setRef⟩
  | decref pa =>
    simp only [step, decref] at hrun
    split_ifs at hrun with hacc
    rw [htrace, ← Except.ok.inj hrun]
    exact ⟨l, hl.setRef⟩

/-- A run that is careful with `kfree` keeps the free list sound. -/
theorem sound_of_careful {ok : Traced Kmem (Finset ℕ) → Event → Prop}
    {h : Traced Kmem (Finset ℕ)} {s0 : Kmem} (hend : 0 < kend)
    (hcareful : ∀ h e, ok h e → Careful h e) (h0 : Sound kend s0 ∅ l)
    (hr : Reach (stepRel (traced (step kend) (note kend))) ok ⟨s0, ∅⟩ h) :
    ∃ l, Sound kend h.state h.trace l := by
  apply hr.invariant ⟨l, h0⟩
  intro h e h' hs hok hstep
  exact sound_step hend hs (hcareful h e hok) hstep

theorem Sound.kinit (kend : ℕ) (mem : Bytes) :
    ∃ s l, kinit kend (boot mem) = .ok s ∧ Sound kend s ∅ l := by
  obtain ⟨s, l, hok, hl, hmem⟩ := kinit_ok kend mem
  exact ⟨s, l, hok, hl, by simpa using hmem, by simp⟩

/-- The free list and the allocated pages in a run that frees allocated pages only: the list has no
cycle and no page twice, both together are the pages from `end` to `PHYSTOP`, `kalloc` returns a
page of the list with a count of one as long as there is one, and a page that `kfree` accepts is
the next that `kalloc` returns. -/
theorem allocator_sound (hend : 0 < kend) (mem : Bytes) :
    ∃ s₀, kinit kend (boot mem) = .ok s₀ ∧
    ∀ h, Reach (stepRel (traced (step kend) (note kend))) OnlyAllocated ⟨s₀, ∅⟩ h →
      ∃ l, h.state.Lists l ∧ l.Nodup ∧
        (∀ pa, (pa % pgSize = 0 ∧ pgRoundUp kend ≤ pa ∧ pa < phystop) ↔
          pa ∈ h.trace ∨ pa ∈ l.map (· * pgSize)) ∧
        (∀ pa ∈ h.trace, pa ∉ l.map (· * pgSize)) ∧
        ((kalloc h.state).1 = 0 ↔ l = []) ∧
        ((kalloc h.state).1 ≠ 0 →
          (kalloc h.state).1 ∉ h.trace ∧ (kalloc h.state).1 % pgSize = 0 ∧
          pgRoundUp kend ≤ (kalloc h.state).1 ∧ (kalloc h.state).1 < phystop ∧
          (kalloc h.state).2.getref (kalloc h.state).1 = 1) ∧
        ∀ pa ∈ h.trace, h.state.getref pa = 1 → ∃ s', kfree kend pa h.state = .ok (true, s') ∧
          s'.Lists (pa / pgSize :: l) ∧ (kalloc s').1 = pa := by
  obtain ⟨s₀, l0, hkinit, h0⟩ := Sound.kinit kend mem
  refine ⟨s₀, hkinit, fun h hr => ?_⟩
  obtain ⟨l, hl⟩ := sound_of_careful hend (fun _ _ hok => hok.careful) h0 hr
  refine ⟨l, hl.lists, Linked.nodup hl.lists, fun pa => ?_, fun pa hpa hin => ?_, ?_, ?_, ?_⟩
  · rw [← accepts_iff, List.mem_map]
    constructor
    · intro hacc
      have hpage := mul_div_of_accepts hacc
      by_cases hpa : pa ∈ h.trace
      · exact .inl hpa
      · refine .inr ⟨pa / pgSize, (hl.free _).mpr ?_, hpage⟩
        rw [hpage]
        exact ⟨hacc, hpa⟩
    · rintro (hpa | ⟨i, hi, rfl⟩)
      · exact hl.accepts pa hpa
      · exact ((hl.free i).mp hi).1
  · obtain ⟨i, hi, rfl⟩ := List.mem_map.mp hin
    exact ((hl.free i).mp hi).2 hpa
  · cases hf : h.state.freelist with
    | none => simp [hl.kalloc_none hf]
    | some r =>
      obtain ⟨m, rfl, hpa, -, -⟩ := hl.kalloc_some hf
      have := ((hl.free r).mp List.mem_cons_self).1.2.1
      rw [hpa]
      simp only [reduceCtorEq, iff_false]
      omega
  · intro hne
    cases hf : h.state.freelist with
    | none => exact absurd (by simp [hl.kalloc_none hf]) hne
    | some r =>
      obtain ⟨m, rfl, hpa, href, -⟩ := hl.kalloc_some hf
      obtain ⟨hacc, hfree⟩ := (hl.free r).mp List.mem_cons_self
      rw [hpa]
      obtain ⟨h1, h2, h3⟩ := accepts_iff.mp hacc
      exact ⟨hfree, h1, h2, h3, href⟩
  · intro pa hpa href
    obtain ⟨s', hk, hs'⟩ := hl.kfree_allocated hpa href
    have hfirst : s'.freelist = some (pa / pgSize) := by
      have hlists := hs'.lists
      unfold Kmem.Lists at hlists
      generalize s'.freelist = o at hlists
      cases hlists
      rfl
    obtain ⟨m, -, hfirstPage, -⟩ := hs'.kalloc_some hfirst
    exact ⟨s', hk, hs'.lists, hfirstPage.trans (mul_div_of_accepts (hl.accepts pa hpa))⟩

section Sessions

variable {ok : Traced Kmem (Finset ℕ) → Event → Prop} [∀ h e, Decidable (ok h e)]

/-- Start the allocator on zeroed memory and follow a list of calls. -/
def session (kend : ℕ) (ok : Traced Kmem (Finset ℕ) → Event → Prop) [∀ h e, Decidable (ok h e)]
    (events : List Event) : Option (Traced Kmem (Finset ℕ)) :=
  match kinit kend (boot fun _ => 0) with
  | .ok s => follow (traced (step kend) (note kend)) ok ⟨s, ∅⟩ events
  | .error _ => none

theorem reach_of_session {s0 : Kmem} {events : List Event} {h : Traced Kmem (Finset ℕ)}
    (hk : kinit kend (boot fun _ => 0) = .ok s0) (hs : session kend ok events = some h) :
    Reach (stepRel (traced (step kend) (note kend))) ok ⟨s0, ∅⟩ h := by
  unfold session at hs
  simp only [hk] at hs
  exact reach_of_follow events Reach.refl hs

def lastTwo : ℕ := phystop - 2 * pgSize

theorem lastTwo_pos : 0 < lastTwo := by decide +kernel

/-- With two pages, two calls of `kalloc` leave none, and the page freed then is handed out again. -/
theorem allocator_sound_two :
    ∃ s₀ h l, kinit lastTwo (boot fun _ => 0) = .ok s₀ ∧
      Reach (stepRel (traced (step lastTwo) (note lastTwo))) OnlyAllocated ⟨s₀, ∅⟩ h ∧
      h.state.Lists l ∧ l.Nodup ∧ (kalloc h.state).1 = lastTwo ∧
      (kalloc h.state).2.getref lastTwo = 1 := by
  have hrun : (session lastTwo OnlyAllocated
      [.kalloc, .kalloc, .kfree lastTwo]).map (fun h => (kalloc h.state).1) = some lastTwo := by
    decide +kernel
  obtain ⟨h, hs, hpa⟩ := Option.map_eq_some_iff.mp hrun
  obtain ⟨s₀, hk, hall⟩ := allocator_sound lastTwo_pos fun _ => 0
  have hr := reach_of_session hk hs
  obtain ⟨l, hl, hnodup, -, -, -, hnext, -⟩ := hall h hr
  have hne : (kalloc h.state).1 ≠ 0 := by
    rw [hpa]
    exact lastTwo_pos.ne'
  have hcount := (hnext hne).2.2.2.2
  rw [hpa] at hcount
  exact ⟨s₀, h, l, hk, hr, hl, hnodup, hpa, hcount⟩

end Sessions

end Xv6.Kalloc
