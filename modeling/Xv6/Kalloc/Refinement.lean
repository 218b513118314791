import Xv6.Kalloc.Allocator
import Xv6.Vm.Boot

/-!
# The allocator of the memory model

The model of paging keeps the free pages as a list of page numbers and each page with its own
bytes. `Represents` says that the linked descriptors and the memory array stand for such a state.
The functions of both levels agree: they return the same pages and stop for the same reasons.
-/
namespace Xv6.Kalloc

open Library
open Vm (Kernel)

variable {kend pa : ℕ} {k : Kernel} {s s' : Kmem}

/-- Page number `pa` stands for the address `pa * pgSize`. -/
structure Represents (kend : ℕ) (k : Kernel) (s : Kmem) : Prop where
  bound : k.kend = Vm.pgRoundUp kend / pgSize
  lists : s.Lists k.freelist
  ref : ∀ pa, (s.runs pa).ref = k.ref pa
  mem : ∀ pa, ∀ off < pgSize, s.mem (pa * pgSize + off) = k.mem pa off

namespace Represents

theorem fill_apply (m : Bytes) (c : UInt8) (pa a : ℕ) {off : ℕ} (hoff : off < pgSize) :
    m.fill (pa * pgSize) c pgSize (a * pgSize + off) =
      if a = pa then c else m (a * pgSize + off) := by
  unfold Bytes.fill Bytes.blit
  unfold pgSize at *
  by_cases ha : a = pa
  · rw [if_pos ha, if_pos (by omega)]
  · rw [if_neg ha, if_neg (by omega)]

variable (h : Represents kend k s)
include h

theorem accepts_iff_inRange : Accepts kend (pa * pgSize) ↔ k.InRange pa := by
  rw [accepts_mul_iff, Kernel.InRange, h.bound]

theorem getref : s.getref (pa * pgSize) = k.ref pa := by
  rw [Kmem.getref, mul_pgSize_div]
  exact h.ref pa

theorem fillPage (pa : ℕ) (c : UInt8) :
    Represents kend (k.setPage pa fun _ => c) (s.fillPage (pa * pgSize) c) where
  bound := h.bound
  lists := h.lists
  ref := h.ref
  mem a off hoff := by
    have hfill := fill_apply s.mem c pa a hoff
    by_cases ha : a = pa
    · subst ha
      rw [if_pos rfl] at hfill
      simpa [Kmem.fillPage, Kernel.setPage] using hfill
    · rw [if_neg ha] at hfill
      simpa [Kmem.fillPage, Kernel.setPage, ha] using hfill.trans (h.mem a off hoff)

theorem setRef (n : ℕ) : Represents kend (k.setRef pa n) (s.setRef pa n) where
  bound := h.bound
  lists := by
    unfold Kmem.Lists
    rw [setRef_next]
    exact h.lists
  ref a := by
    have ha := h.ref a
    by_cases hne : a = pa <;> simp [Kmem.setRef, Kernel.setRef, hne, ha]
  mem := h.mem

theorem kalloc : (k.freelist = [] ∧ Vm.kalloc k = .ok none k ∧ Kalloc.kalloc s = (0, s)) ∨
    ∃ pa k', Vm.kalloc k = .ok (some pa) k' ∧ (Kalloc.kalloc s).1 = pa * pgSize ∧
      Represents kend k' (Kalloc.kalloc s).2 := by
  have hlists := h.lists
  unfold Kmem.Lists at hlists
  cases hfree : k.freelist with
  | nil =>
    rw [hfree] at hlists
    have hnull : s.freelist = none := hlists.eq_nil_iff.mpr rfl
    refine .inl ⟨rfl, ?_, by rw [Kalloc.kalloc, hnull]⟩
    simp only [Vm.kalloc, get_run, hfree]
    rfl
  | cons pa rest =>
    rw [hfree] at hlists
    have hfirst : s.freelist = some pa := by
      generalize s.freelist = o at hlists
      cases hlists
      rfl
    have hk : Kalloc.kalloc s = (pa * pgSize, (s.pop pa).fillPage (pa * pgSize) 5) := by
      rw [Kalloc.kalloc, hfirst]
    refine .inr ⟨pa, k.allocated pa rest, ?_, by rw [hk], ?_⟩
    · simp only [Vm.kalloc, get_run, hfree]
      rfl
    · rw [hk]
      have hpopped : Represents kend { k.setRef pa 1 with freelist := rest } (s.pop pa) :=
        { bound := h.bound
          lists := by
            unfold Kmem.Lists
            rw [pop_next, pop_freelist]
            rw [hfirst] at hlists
            cases hlists with
            | cons hrest => exact hrest
          ref := (h.setRef 1).ref
          mem := h.mem }
      have hfilled := hpopped.fillPage pa 5
      exact ⟨hfilled.bound, hfilled.lists, hfilled.ref, hfilled.mem⟩

theorem kfree {b : Bool} (hpa : pa ∉ k.freelist)
    (hx : Kalloc.kfree kend (pa * pgSize) s = .ok (b, s')) :
    ∃ k', Represents kend k' s' ∧
      (b = true ∧ Vm.kfree pa k = .ok ⟨⟩ k' ∨ b = false ∧ Vm.kfree pa k = .error .exits k') := by
  have hacc : Accepts kend (pa * pgSize) := by
    by_contra hacc
    simp [Kalloc.kfree, hacc] at hx
  have hin := h.accepts_iff_inRange.mp hacc
  have hfilled := h.fillPage pa 1
  by_cases href : k.ref pa = 1
  · obtain ⟨rfl, rfl⟩ : true = b ∧ (s.fillPage (pa * pgSize) 1).push pa = s' := by
      simpa [Kalloc.kfree, hacc, h.getref, href] using hx
    refine ⟨k.freed pa, ?_, .inl ⟨rfl, by simp [Vm.kfree, hin, href]⟩⟩
    exact
      { bound := h.bound
        lists := Kmem.Lists.push h.lists hpa
        ref := fun a => by
          have ha := h.ref a
          by_cases hne : a = pa <;> simp_all [Kmem.push, Kernel.freed, Kmem.fillPage]
        mem := hfilled.mem }
  · obtain ⟨rfl, rfl⟩ : false = b ∧ s.fillPage (pa * pgSize) 1 = s' := by
      simpa [Kalloc.kfree, hacc, h.getref, href] using hx
    refine ⟨_, hfilled, .inr ⟨rfl, ?_⟩⟩
    simp only [Vm.kfree, get_run, hin, href, if_true, if_false]
    rfl

theorem incref (hx : Kalloc.incref kend (pa * pgSize) s = .ok s') :
    ∃ k', Represents kend k' s' ∧ Vm.incref pa k = .ok ⟨⟩ k' := by
  unfold Kalloc.incref at hx
  split_ifs at hx with hacc
  cases hx
  rw [h.getref, mul_pgSize_div]
  exact ⟨_, h.setRef _, by simp [Vm.incref, h.accepts_iff_inRange.mp hacc]⟩

theorem decref (hx : Kalloc.decref kend (pa * pgSize) s = .ok s') :
    ∃ k', Represents kend k' s' ∧ Vm.decref pa k = .ok ⟨⟩ k' := by
  unfold Kalloc.decref at hx
  split_ifs at hx with hacc
  cases hx
  rw [h.getref, mul_pgSize_div]
  exact ⟨_, h.setRef _, by simp [Vm.decref, h.accepts_iff_inRange.mp hacc]⟩

end Represents

section Runs

/-- What a call returns; the null pointer is page `0`. When `kfree` calls `exit`, other processes
go on. -/
inductive Answer
  | page (pa : ℕ)
  | done
  | exits

inductive Called (kend : ℕ) (s : Kmem) : Event × Answer → Kmem → Prop
  | kalloc : Called kend s (.kalloc, .page (Kalloc.kalloc s).1) (Kalloc.kalloc s).2
  | kfree {pa : ℕ} {s' : Kmem} (h : Kalloc.kfree kend pa s = .ok (true, s')) :
      Called kend s (.kfree pa, .done) s'
  | exits {pa : ℕ} {s' : Kmem} (h : Kalloc.kfree kend pa s = .ok (false, s')) :
      Called kend s (.kfree pa, .exits) s'
  | incref {pa : ℕ} {s' : Kmem} (h : Kalloc.incref kend pa s = .ok s') :
      Called kend s (.incref pa, .done) s'
  | decref {pa : ℕ} {s' : Kmem} (h : Kalloc.decref kend pa s = .ok s') :
      Called kend s (.decref pa, .done) s'

/-- The same calls in the model of paging. -/
inductive VmCalled (k : Kernel) : Event × Answer → Kernel → Prop
  | kalloc {o : Option ℕ} {k' : Kernel} (h : Vm.kalloc k = .ok o k') :
      VmCalled k (.kalloc, .page ((o.map (· * pgSize)).getD 0)) k'
  | kfree {pa : ℕ} {k' : Kernel} (h : Vm.kfree (pa / pgSize) k = .ok ⟨⟩ k') :
      VmCalled k (.kfree pa, .done) k'
  | exits {pa : ℕ} {k' : Kernel} (h : Vm.kfree (pa / pgSize) k = .error .exits k') :
      VmCalled k (.kfree pa, .exits) k'
  | incref {pa : ℕ} {k' : Kernel} (h : Vm.incref (pa / pgSize) k = .ok ⟨⟩ k') :
      VmCalled k (.incref pa, .done) k'
  | decref {pa : ℕ} {k' : Kernel} (h : Vm.decref (pa / pgSize) k = .ok ⟨⟩ k') :
      VmCalled k (.decref pa, .done) k'

/-- `kfree` is not given a page that is free. -/
def FreesUsed (s : Kmem) (e : Event) : Prop :=
  ∀ pa l, e = .kfree pa → s.Lists l → pa / pgSize ∉ l

theorem accepts_of_kfree {b : Bool} (hx : kfree kend pa s = .ok (b, s')) : Accepts kend pa := by
  by_contra hacc
  simp [kfree, hacc] at hx

theorem Represents.step {c : Event × Answer} (h : Represents kend k s) (hok : FreesUsed s c.1)
    (hx : Called kend s c s') : ∃ k', VmCalled k c k' ∧ Represents kend k' s' := by
  cases hx with
  | kalloc =>
    rcases h.kalloc with ⟨-, hvm, hk⟩ | ⟨pa, k', hvm, hpa, hrep⟩
    · rw [hk]
      exact ⟨k, .kalloc hvm, h⟩
    · rw [hpa]
      exact ⟨k', .kalloc hvm, hrep⟩
  | kfree hx =>
    rw [← mul_div_of_accepts (accepts_of_kfree hx)] at hx
    obtain ⟨k', hrep, ⟨-, hvm⟩ | ⟨hb, -⟩⟩ := h.kfree (hok _ _ rfl h.lists) hx
    · exact ⟨k', .kfree hvm, hrep⟩
    · cases hb
  | exits hx =>
    rw [← mul_div_of_accepts (accepts_of_kfree hx)] at hx
    obtain ⟨k', hrep, ⟨hb, -⟩ | ⟨-, hvm⟩⟩ := h.kfree (hok _ _ rfl h.lists) hx
    · cases hb
    · exact ⟨k', .exits hvm, hrep⟩
  | @incref pa _ hx =>
    have hacc : Accepts kend pa := by
      by_contra hacc
      simp [Kalloc.incref, hacc] at hx
    rw [← mul_div_of_accepts hacc] at hx
    obtain ⟨k', hrep, hvm⟩ := h.incref hx
    exact ⟨k', .incref hvm, hrep⟩
  | @decref pa _ hx =>
    have hacc : Accepts kend pa := by
      by_contra hacc
      simp [Kalloc.decref, hacc] at hx
    rw [← mul_div_of_accepts hacc] at hx
    obtain ⟨k', hrep, hvm⟩ := h.decref hx
    exact ⟨k', .decref hvm, hrep⟩

/-- Whatever calls the pointer program answers, the list model answers the same calls the same
way. -/
theorem allocator_refines {calls : List (Event × Answer)} (h : Represents kend k s)
    (hr : Trail (fun s c s' => FreesUsed s c.1 ∧ Called kend s c s') s calls s') :
    ∃ k', Trail VmCalled k calls k' ∧ Represents kend k' s' :=
  hr.simulate (I := fun s k => Represents kend k s) h fun _ _ _ _ hrep hx => hrep.step hx.1 hx.2

/-- Two free pages. -/
def twoFree : Kmem := ⟨some 9, fun i => ⟨if i = 9 then some 8 else none, 0⟩, fun _ => 0⟩

/-- The first is allocated, gets a second reference, loses it and is freed. -/
theorem allocator_refines_calls : ∃ k k' s', k.freelist = [9, 8] ∧ Represents 0 k twoFree ∧
    Trail VmCalled k [(.kalloc, .page 36864), (.incref 36864, .done), (.decref 36864, .done),
      (.kfree 36864, .done)] k' ∧ Represents 0 k' s' ∧ k'.freelist = [9, 8] := by
  have h : Represents 0
      { Vm.bare with
        kend := 0, freelist := [9, 8], ref := fun _ => 0, mem := fun _ _ => 0 } twoFree :=
    ⟨rfl, .cons (.cons .nil), fun _ => rfl, fun _ _ _ => rfl⟩
  have h1 : Called 0 twoFree (.kalloc, .page 36864) (kalloc twoFree).2 := .kalloc
  have h2 : Called 0 (kalloc twoFree).2 (.incref 36864, .done) ((kalloc twoFree).2.setRef 9 2) :=
    .incref (if_pos (by decide))
  have h3 : Called 0 ((kalloc twoFree).2.setRef 9 2) (.decref 36864, .done)
      (((kalloc twoFree).2.setRef 9 2).setRef 9 1) := .decref (if_pos (by decide))
  set s := ((kalloc twoFree).2.setRef 9 2).setRef 9 1 with hs
  have hlist : s.Lists [8] := .cons .nil
  have h4 : Called 0 s (.kfree 36864, .done) ((s.fillPage 36864 1).push 9) :=
    .kfree ((if_pos (by decide)).trans (if_neg (by decide)))
  have hused : FreesUsed s (.kfree 36864) := by
    rintro _ l ⟨⟩ hl
    rw [← hlist.unique hl]
    decide
  obtain ⟨k', hrun, hrep⟩ := allocator_refines h
    ((((Trail.refl.tail ⟨by simp [FreesUsed], h1⟩).tail ⟨by simp [FreesUsed], h2⟩).tail
      ⟨by simp [FreesUsed], h3⟩).tail ⟨hused, h4⟩)
  refine ⟨_, k', _, rfl, h, hrun, hrep, ?_⟩
  exact hrep.lists.unique (Kmem.Lists.push hlist (by decide))

end Runs

end Xv6.Kalloc
