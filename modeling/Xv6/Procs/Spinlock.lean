import Xv6.Library.Counted
import Xv6.Library.Reach

/-!
# Spin locks and interrupts

`acquire`, `release`, `push_off` and `pop_off` of `spinlock.c` on any number of CPUs, with the swap
of `acquire` and the `pop_off` of `release` as steps of their own.
-/
namespace Xv6.Spinlock

open Library Function

/-- The fields of `struct cpu`, the bit `SSTATUS_SIE`, and the value that other code last gave it.
`noff` is an `int`: locks are nested less than `2 ^ 31` deep. -/
structure Cpu where
  noff : ℕ
  intena : Bool
  intr : Bool
  before : Bool

inductive Stop
  | spins
  | acquire
  | release
  | interruptible
  | popOff
  deriving DecidableEq, Repr

namespace Cpu

def pushOff (x : Cpu) : Cpu :=
  { x with
    intr := false
    intena := if x.noff = 0 then x.intr else x.intena
    noff := x.noff + 1 }

def popOff (x : Cpu) : Except Stop Cpu :=
  if x.intr then .error .interruptible
  else if x.noff < 1 then .error .popOff
  else .ok { x with noff := x.noff - 1, intr := decide (x.noff = 1) && x.intena }

/-- Interrupts are off as long as calls of `push_off` are to be undone, and then as before. -/
def Masked (x : Cpu) : Prop :=
  if x.noff = 0 then x.intr = x.before else x.intr = false ∧ x.intena = x.before

variable {x : Cpu} (h : x.Masked)
include h

theorem Masked.pushOff : x.pushOff.Masked := by
  unfold Masked at *
  split_ifs at h <;> simp_all [Cpu.pushOff]

theorem Masked.popOff (hpos : 0 < x.noff) :
    ∃ x', x.popOff = .ok x' ∧ x'.Masked ∧ x'.noff = x.noff - 1 := by
  obtain ⟨hintr, hena⟩ := (if_neg hpos.ne').mp h
  refine ⟨_, by rw [Cpu.popOff, hintr, if_neg (by simp), if_neg (by omega)], ?_, rfl⟩
  by_cases hone : x.noff = 1
  · simp [Masked, hone, hena]
  · simp [Masked, hone, hena, show x.noff - 1 ≠ 0 by omega]

end Cpu

/-- CPU `own (.inl l)` holds lock `l`, and `own (.inr k)` is to undo the `push_off` named `k`. -/
structure State where
  own : ℕ ⊕ ℕ → Option ℕ
  cpu : ℕ → Cpu

/-- What CPU `c` does with lock `l`, `k` being the `push_off` made or undone. After `acquire` it
tries `swap` until the lock is free, and after `release` there is a `popOff`. `setIntr` is other code
that turns interrupts on or off. -/
inductive Event
  | acquire (c l k : ℕ)
  | swap (c l k : ℕ)
  | release (c l k : ℕ)
  | pushOff (c k : ℕ)
  | popOff (c k : ℕ)
  | setIntr (c : ℕ) (b : Bool)

namespace State

def pushOff (s : State) (c k : ℕ) : State :=
  ⟨update s.own (.inr k) (some c), update s.cpu c (s.cpu c).pushOff⟩

/-- The `push_off` that CPU `c` has to undo for `i` is from now on to be undone for `j`. -/
def move (s : State) (c : ℕ) (i j : ℕ ⊕ ℕ) : State :=
  { s with own := update (update s.own i none) j (some c) }

def step (s : State) : Event → Except Stop State
  | .acquire c l k => if s.own (.inl l) = some c then .error .acquire else .ok (s.pushOff c k)
  | .swap c l k => if s.own (.inl l) = none then .ok (s.move c (.inr k) (.inl l)) else .error .spins
  | .release c l k =>
    if s.own (.inl l) = some c then .ok (s.move c (.inl l) (.inr k)) else .error .release
  | .pushOff c k => .ok (s.pushOff c k)
  | .popOff c k =>
    (s.cpu c).popOff.map fun x => ⟨update s.own (.inr k) none, update s.cpu c x⟩
  | .setIntr c b => .ok { s with cpu := update s.cpu c { s.cpu c with intr := b, before := b } }

/-- A `push_off` gets a new name, a `pop_off` undoes a `push_off` of its CPU, and interrupts are not
turned on or off in between. -/
def Paired (s : State) : Event → Prop
  | .acquire _ _ k | .release _ _ k | .pushOff _ k => s.own (.inr k) = none
  | .swap c _ k | .popOff c k => s.own (.inr k) = some c
  | .setIntr c _ => (s.cpu c).noff = 0

instance (s : State) (e : Event) : Decidable (s.Paired e) :=
  match e with
  | .acquire _ _ k | .release _ _ k | .pushOff _ k => decEq (s.own (.inr k)) none
  | .swap c _ k | .popOff c k => decEq (s.own (.inr k)) (some c)
  | .setIntr c _ => decEq (s.cpu c).noff 0

def init (intr : ℕ → Bool) : State := ⟨fun _ => none, fun c => ⟨0, false, intr c, intr c⟩⟩

structure Sound (s : State) : Prop where
  counted : Counted s.own (Cpu.noff ∘ s.cpu)
  masked : ∀ c, (s.cpu c).Masked

variable {s s' : State} {c k : ℕ} {i j : ℕ ⊕ ℕ} {x : Cpu} (h : s.Sound)
include h

theorem Sound.setCpu {own : ℕ ⊕ ℕ → Option ℕ} (hx : x.Masked)
    (hc : Counted own (update (Cpu.noff ∘ s.cpu) c x.noff)) : Sound ⟨own, update s.cpu c x⟩ where
  counted := by rwa [comp_update]
  masked := (forall_update_iff s.cpu fun _ x => x.Masked).mpr ⟨hx, fun c _ => h.masked c⟩

theorem Sound.pushOff (hown : s.own (.inr k) = none) : (s.pushOff c k).Sound :=
  h.setCpu (h.masked c).pushOff (h.counted.take hown)

theorem Sound.move (hi : s.own i = some c) (hj : s.own j = none) : (s.move c i j).Sound where
  counted := by
    have hne : j ≠ i := by rintro rfl; simp [hi] at hj
    have hc := (h.counted.drop hi).take (a := c) (by rwa [update_of_ne hne])
    rwa [update_idem, update_self, Nat.sub_add_cancel (h.counted.pos hi), update_eq_self] at hc
  masked := h.masked

theorem Sound.popOff (hown : s.own (.inr k) = some c) :
    ∃ s', s.step (.popOff c k) = .ok s' ∧ s'.Sound := by
  obtain ⟨x, hx, hm, hnoff⟩ := (h.masked c).popOff (h.counted.pos hown)
  refine ⟨_, by rw [State.step, hx]; rfl, h.setCpu hm ?_⟩
  rw [hnoff]
  exact h.counted.drop hown

theorem Sound.setIntr (hz : (s.cpu c).noff = 0) (b : Bool) :
    Sound { s with cpu := update s.cpu c { s.cpu c with intr := b, before := b } } := by
  refine h.setCpu ((if_pos hz).mpr rfl) ?_
  change Counted s.own (update _ c ((Cpu.noff ∘ s.cpu) c))
  rw [update_eq_self]
  exact h.counted

theorem Sound.step {e : Event} (hok : s.Paired e) (hx : s.step e = .ok s') : s'.Sound := by
  cases e with
  | acquire c l k =>
    simp only [State.step] at hx
    split_ifs at hx
    cases hx
    exact h.pushOff hok
  | swap c l k =>
    simp only [State.step] at hx
    split_ifs at hx with hfree
    cases hx
    exact h.move hok hfree
  | release c l k =>
    simp only [State.step] at hx
    split_ifs at hx with hown
    cases hx
    exact h.move hown hok
  | pushOff c k =>
    cases hx
    exact h.pushOff hok
  | popOff c k =>
    obtain ⟨t, ht, hs⟩ := h.popOff hok
    cases ht.symm.trans hx
    exact hs
  | setIntr c b =>
    cases hx
    exact h.setIntr hok b

omit h

/-- In every run interrupts are off on a CPU that holds a lock, spins for one or has a `push_off` to
undo, and as they were on the others, and no `pop_off` panics. -/
theorem locked_uninterruptible {intr : ℕ → Bool}
    (hr : Reach (stepRel step) Paired (init intr) s) :
    (∀ i c, s.own i = some c → (s.cpu c).intr = false) ∧
    (∀ c, (∀ i, s.own i ≠ some c) → (s.cpu c).intr = (s.cpu c).before) ∧
    ∀ c k, s.own (.inr k) = some c → ∃ s', s.step (.popOff c k) = .ok s' := by
  have h : s.Sound := hr.invariant ⟨.none fun _ => rfl, fun _ => by simp [Cpu.Masked, init]⟩
    fun _ _ _ h hok hx => h.step hok hx
  refine ⟨fun i c hown => ?_, fun c hnone => ?_, fun c k hown => ?_⟩
  · exact ((if_neg (h.counted.pos hown).ne').mp (h.masked c)).1
  · have hz : (s.cpu c).noff = 0 := by
      rw [show (s.cpu c).noff = (holders s.own c).ncard from h.counted.count c]
      simp [holders, hnone]
    exact (if_pos hz).mp (h.masked c)
  · obtain ⟨s', hs', -⟩ := h.popOff hown
    exact ⟨s', hs'⟩

theorem locked_uninterruptible_spinning : ∃ s, Reach (stepRel step) Paired (init fun _ => true) s ∧
    s.own (.inl 8) = some 0 ∧ (s.cpu 0).intr = false ∧
    s.own (.inr 1) = some 1 ∧ (s.cpu 1).intr = false := by
  have hrun : (follow step Paired (init fun _ => true) [.acquire 0 8 0, .acquire 1 8 1,
      .swap 0 8 0]).map (fun s => (s.own (.inl 8), s.own (.inr 1))) = some (some 0, some 1) := by
    decide +kernel
  obtain ⟨s, hs, howns⟩ := Option.map_eq_some_iff.mp hrun
  obtain ⟨hlock, hpush⟩ := Prod.mk.inj howns
  have hr : Reach (stepRel step) Paired (init fun _ => true) s := reach_of_follow _ .refl hs
  have hoff := (locked_uninterruptible hr).1
  exact ⟨s, hr, hlock, hoff _ _ hlock, hpush, hoff _ _ hpush⟩

end State

end Xv6.Spinlock
