import Xv6.Procs.Tree

/-!
# What becomes of a process that exits

Entries of the process table are used again, so that a process is known by the number of its birth.
A process that exits stays in its entry, with its pid and its exit status, until a `wait` of its
parent returns it; then the entry is free.
-/
namespace Xv6.Procs

open Library Function List

structure Exited where
  process : ℕ
  pid : ℤ
  status : ℤ
  deriving DecidableEq, Repr

/-- What a successful `wait` returned, with its caller and the parent that the process had. -/
structure Returned where
  process : ℕ
  pid : ℤ
  status : ℤ
  caller : ℕ
  parent : Option ℕ
  deriving DecidableEq, Repr

/-- The number of processes created, which process each entry of the process table holds, and what
became of those that exited. -/
structure Births where
  count : ℕ
  who : ℕ → ℕ
  exited : List Exited
  returned : List Returned

def Births.note (s : System) (e : Event) (_ : System) (b : Births) : Births :=
  match e with
  | .run p given =>
    match s.pc p with
    | .alloc i =>
      if (bornBy s e i).isSome then
        { b with count := b.count + 1, who := update b.who i b.count }
      else b
    | .zombie status => { b with exited := ⟨b.who p, (s.proc p).pid, status⟩ :: b.exited }
    | .scan i _ =>
      if i < nProc ∧ (s.proc i).parent = some p ∧ (s.proc i).state = .zombie ∧ given = true then
        { b with returned := ⟨b.who i, (s.proc i).pid, (s.proc i).xstate, p, (s.proc i).parent⟩ ::
                  b.returned }
      else b
    | _ => b
  | _ => b

def bootBirths : Traced System Births := ⟨boot, ⟨1, fun _ => 0, [], []⟩⟩

structure Births.Right (s : System) (b : Births) : Prop where
  known : ∀ i, (s.proc i).state ≠ .unused → b.who i < b.count
  apart : ∀ i j, (s.proc i).state ≠ .unused → (s.proc j).state ≠ .unused → b.who i = b.who j → i = j
  here : ∀ i, (s.proc i).state ≠ .unused → (s.proc i).state ≠ .zombie →
    ∀ x ∈ b.exited, x.process ≠ b.who i
  past : ∀ x ∈ b.exited, x.process < b.count
  zombie : ∀ i, (s.proc i).state = .zombie →
    ⟨b.who i, (s.proc i).pid, (s.proc i).xstate⟩ ∈ b.exited ∧ ∀ r ∈ b.returned, r.process ≠ b.who i
  waiting : ∀ x ∈ b.exited, (∀ r ∈ b.returned, r.process ≠ x.process) →
    ∃ i, (s.proc i).state = .zombie ∧ b.who i = x.process ∧ (s.proc i).pid = x.pid ∧
      (s.proc i).xstate = x.status
  once : (b.exited.map Exited.process).Nodup
  returns : ∀ r ∈ b.returned, ⟨r.process, r.pid, r.status⟩ ∈ b.exited ∧ r.parent = some r.caller
  returnsOnce : (b.returned.map Returned.process).Nodup

namespace Births.Right

variable {s t : System} {b : Births} {p i : ℕ}

/-- Most steps create nothing, and leave the zombies alone. -/
theorem keep (h : b.Right s) (hu : ∀ i, (t.proc i).state = .unused ↔ (s.proc i).state = .unused)
    (hz : ∀ i, (t.proc i).state = .zombie ↔ (s.proc i).state = .zombie)
    (hsame : ∀ i, (s.proc i).state = .zombie →
      (t.proc i).pid = (s.proc i).pid ∧ (t.proc i).xstate = (s.proc i).xstate) : b.Right t where
  known i hi := h.known i fun hs => hi ((hu i).mpr hs)
  apart i j hi hj := h.apart i j (fun hs => hi ((hu i).mpr hs)) fun hs => hj ((hu j).mpr hs)
  here i hi hi' := h.here i (fun hs => hi ((hu i).mpr hs)) fun hs => hi' ((hz i).mpr hs)
  past := h.past
  zombie i hi := by
    have hs := (hz i).mp hi
    obtain ⟨hpid, hx⟩ := hsame i hs
    rw [hpid, hx]
    exact h.zombie i hs
  waiting x hx hr := by
    obtain ⟨i, hi, hwho, hpid, hst⟩ := h.waiting x hx hr
    obtain ⟨hp, hxs⟩ := hsame i hi
    exact ⟨i, (hz i).mpr hi, hwho, hp.trans hpid, hxs.trans hst⟩
  once := h.once
  returns := h.returns
  returnsOnce := h.returnsOnce

/-- One entry changes, and neither was nor is unused or a zombie, or is what it was. -/
theorem keepAt {j : ℕ} {x : Proc} (h : b.Right s) (ht : t.proc = update s.proc j x)
    (hu : x.state = .unused ↔ (s.proc j).state = .unused)
    (hz : x.state = .zombie ↔ (s.proc j).state = .zombie)
    (hsame : (s.proc j).state = .zombie →
      x.pid = (s.proc j).pid ∧ x.xstate = (s.proc j).xstate) : b.Right t := by
  apply h.keep
  · rw [ht]
    exact (forall_update_iff s.proc fun i y => y.state = .unused ↔
      (s.proc i).state = .unused).mpr ⟨hu, fun i _ => Iff.rfl⟩
  · rw [ht]
    exact (forall_update_iff s.proc fun i y => y.state = .zombie ↔
      (s.proc i).state = .zombie).mpr ⟨hz, fun i _ => Iff.rfl⟩
  · rw [ht]
    exact (forall_update_iff s.proc fun i y => (s.proc i).state = .zombie →
      y.pid = (s.proc i).pid ∧ y.xstate = (s.proc i).xstate).mpr ⟨hsame, fun i _ _ => ⟨rfl, rfl⟩⟩

theorem born {x : Proc} (h : b.Right s) (ht : t.proc = update s.proc i x)
    (hi : (s.proc i).state = .unused) (hx : x.state = .used) :
    ({ b with count := b.count + 1, who := update b.who i b.count } : Births).Right t := by
  have hother : ∀ j, j ≠ i → t.proc j = s.proc j := by
    intro j hj
    rw [ht, update_of_ne hj]
  have hself : t.proc i = x := by rw [ht, update_self]
  have hzombie : ∀ j, (t.proc j).state = .zombie → j ≠ i := by
    rintro j hj rfl
    rw [hself, hx] at hj
    cases hj
  have hwho : ∀ j, j ≠ i → update b.who i b.count j = b.who j :=
    fun j hj => update_of_ne hj _ _
  have hold : ∀ j, j ≠ i → (t.proc j).state ≠ .unused → b.who j < b.count := by
    intro j hj hs
    rw [hother j hj] at hs
    exact h.known j hs
  constructor
  case known =>
    intro j hj
    by_cases hji : j = i
    · simp [hji]
    · have := hold j hji hj
      simp only [hwho j hji]
      omega
  case apart =>
    intro j k hj hk he
    by_cases hji : j = i <;> by_cases hki : k = i
    · rw [hji, hki]
    · subst hji
      have := hold k hki hk
      simp only [update_self, hwho k hki] at he
      omega
    · subst hki
      have := hold j hji hj
      simp only [update_self, hwho j hji] at he
      omega
    · rw [hother j hji] at hj
      rw [hother k hki] at hk
      simp only [hwho j hji, hwho k hki] at he
      exact h.apart j k hj hk he
  case here =>
    intro j hj hj' y hy
    by_cases hji : j = i
    · subst hji
      have := h.past y hy
      simp only [update_self]
      omega
    · rw [hother j hji] at hj hj'
      simp only [hwho j hji]
      exact h.here j hj hj' y hy
  case past => exact fun y hy => Nat.lt_succ_of_lt (h.past y hy)
  case zombie =>
    intro j hj
    have hji := hzombie j hj
    rw [hother j hji] at hj ⊢
    simp only [hwho j hji]
    exact h.zombie j hj
  case waiting =>
    intro y hy hr
    obtain ⟨j, hj, hj'⟩ := h.waiting y hy hr
    have hji : j ≠ i := by
      rintro rfl
      rw [hi] at hj
      cases hj
    refine ⟨j, ?_⟩
    simp only [hother j hji, hwho j hji]
    exact ⟨hj, hj'⟩
  case once => exact h.once
  case returns => exact h.returns
  case returnsOnce => exact h.returnsOnce

theorem exit (h : b.Right s) (status : ℤ)
    (ht : t.proc = update s.proc p { s.proc p with xstate := status, state := .zombie })
    (hu : (s.proc p).state ≠ .unused) (hz : (s.proc p).state ≠ .zombie) :
    ({ b with exited := ⟨b.who p, (s.proc p).pid, status⟩ :: b.exited } : Births).Right t := by
  have hother : ∀ j, j ≠ p → t.proc j = s.proc j := by
    intro j hj
    rw [ht, update_of_ne hj]
  have hself : t.proc p = { s.proc p with xstate := status, state := .zombie } := by
    rw [ht, update_self]
  have hused : ∀ j, (t.proc j).state ≠ .unused → (s.proc j).state ≠ .unused := by
    intro j hj
    by_cases hjp : j = p
    · exact hjp ▸ hu
    · rw [hother j hjp] at hj
      exact hj
  have hnew : ∀ r ∈ b.returned, r.process ≠ b.who p :=
    fun r hr => h.here p hu hz _ (h.returns r hr).1
  constructor
  case known => exact fun j hj => h.known j (hused j hj)
  case apart => exact fun j k hj hk => h.apart j k (hused j hj) (hused k hk)
  case here =>
    intro j hj hj' y hy
    have hjp : j ≠ p := by
      rintro rfl
      rw [hself] at hj'
      exact hj' rfl
    rcases mem_cons.mp hy with rfl | hy
    · exact fun he => hjp (h.apart j p (hused j hj) hu he.symm)
    · rw [hother j hjp] at hj'
      exact h.here j (hused j hj) hj' y hy
  case past =>
    intro y hy
    rcases mem_cons.mp hy with rfl | hy
    · exact h.known p hu
    · exact h.past y hy
  case zombie =>
    intro j hj
    by_cases hjp : j = p
    · subst hjp
      rw [hself]
      exact ⟨mem_cons_self, hnew⟩
    · rw [hother j hjp] at hj ⊢
      obtain ⟨hmem, hr⟩ := h.zombie j hj
      exact ⟨mem_cons_of_mem _ hmem, hr⟩
  case waiting =>
    intro y hy hr
    rcases mem_cons.mp hy with rfl | hy
    · exact ⟨p, by rw [hself], rfl, by rw [hself], by rw [hself]⟩
    · obtain ⟨j, hj, hj'⟩ := h.waiting y hy hr
      have hjp : j ≠ p := fun he => hz (he ▸ hj)
      refine ⟨j, ?_⟩
      rw [hother j hjp]
      exact ⟨hj, hj'⟩
  case once =>
    rw [map_cons, nodup_cons]
    refine ⟨?_, h.once⟩
    intro hmem
    obtain ⟨y, hy, he⟩ := mem_map.mp hmem
    exact h.here p hu hz y hy he
  case returns =>
    intro r hr
    obtain ⟨hmem, hpar⟩ := h.returns r hr
    exact ⟨mem_cons_of_mem _ hmem, hpar⟩
  case returnsOnce => exact h.returnsOnce

/-- A zombie is returned by a `wait` of its parent. -/
theorem reap (h : b.Right s) (ht : t.proc = update s.proc i (freeproc (s.proc i)))
    (hz : (s.proc i).state = .zombie) (hpar : (s.proc i).parent = some p) :
    ({ b with returned := ⟨b.who i, (s.proc i).pid, (s.proc i).xstate, p, (s.proc i).parent⟩ ::
                b.returned } : Births).Right t := by
  have hother : ∀ j, j ≠ i → t.proc j = s.proc j := by
    intro j hj
    rw [ht, update_of_ne hj]
  have hne : ∀ j, (t.proc j).state ≠ .unused → j ≠ i := by
    rintro j hj rfl
    rw [ht, update_self] at hj
    exact hj rfl
  have hi : (s.proc i).state ≠ .unused := by simp [hz]
  obtain ⟨hmem, hunreturned⟩ := h.zombie i hz
  have hused : ∀ j, (t.proc j).state ≠ .unused → (s.proc j).state ≠ .unused := by
    intro j hj
    rw [← hother j (hne j hj)]
    exact hj
  constructor
  case known => exact fun j hj => h.known j (hused j hj)
  case apart => exact fun j k hj hk => h.apart j k (hused j hj) (hused k hk)
  case here =>
    intro j hj hj'
    rw [hother j (hne j hj)] at hj'
    exact h.here j (hused j hj) hj'
  case past => exact h.past
  case zombie =>
    intro j hj
    have hji := hne j (by simp [hj])
    rw [hother j hji] at hj ⊢
    obtain ⟨hm, hr⟩ := h.zombie j hj
    refine ⟨hm, fun r hr' => ?_⟩
    rcases mem_cons.mp hr' with rfl | hr'
    · exact fun he => hji (h.apart j i (by simp [hj]) hi he.symm)
    · exact hr r hr'
  case waiting =>
    intro y hy hr
    obtain ⟨j, hj, hwho, hj'⟩ := h.waiting y hy fun r hr' => hr r (mem_cons_of_mem _ hr')
    have hji : j ≠ i := by
      rintro rfl
      exact hr _ mem_cons_self hwho
    refine ⟨j, ?_⟩
    rw [hother j hji]
    exact ⟨hj, hwho, hj'⟩
  case once => exact h.once
  case returns =>
    intro r hr
    rcases mem_cons.mp hr with rfl | hr
    · exact ⟨hmem, hpar⟩
    · exact h.returns r hr
  case returnsOnce =>
    rw [map_cons, nodup_cons]
    refine ⟨?_, h.returnsOnce⟩
    intro hmem'
    obtain ⟨r, hr, he⟩ := mem_map.mp hmem'
    exact hunreturned r hr he

end Births.Right

section Steps

variable {s t : System} {b : Births} {p : ℕ} {given : Bool}

theorem wakeup_right (h : b.Right s) {j : ℕ} (chan : Option ℕ)
    (ht : t.proc = update s.proc j ((s.proc j).wakeup chan)) : b.Right t := by
  unfold Proc.wakeup at ht
  split_ifs at ht with hs
  · refine h.keepAt ht ?_ ?_ ?_ <;> simp [hs.1]
  · exact h.keepAt ht Iff.rfl Iff.rfl fun _ => ⟨rfl, rfl⟩

theorem kill_right (h : b.Right s) {j : ℕ}
    (ht : t.proc = update s.proc j (s.proc j).kill) : b.Right t := by
  unfold Proc.kill at ht
  split_ifs at ht with hs
  · refine h.keepAt ht ?_ ?_ ?_ <;> simp [hs]
  · exact h.keepAt ht Iff.rfl Iff.rfl fun _ => ⟨rfl, rfl⟩

/-- A step that neither creates a process, nor ends one, nor frees one. -/
theorem change_right (hs : s.Sound) (h : b.Right s) (hp : (s.proc p).state = .running) {pc : Pc}
    {j : ℕ} {x : Proc} (hpc : s.pc p = pc) (hc : Change s p given pc j x)
    (ht : t.proc = update s.proc j x) (halloc : ∀ i, pc ≠ .alloc i)
    (hzombie : ∀ st, pc ≠ .zombie st) (hscan : ∀ i k, pc ≠ .scan i k) : b.Right t := by
  cases hc with
  | same => exact h.keepAt ht Iff.rfl Iff.rfl fun _ => ⟨rfl, rfl⟩
  | alloc => exact absurd rfl (halloc _)
  | spoil => exact absurd rfl (halloc _)
  | link => exact h.keepAt ht Iff.rfl Iff.rfl fun _ => ⟨rfl, rfl⟩
  | start =>
    have hused := hs.embryo p j (hpc ▸ rfl)
    refine h.keepAt ht ?_ ?_ ?_ <;> simp [hused]
  | adopt => exact h.keepAt ht Iff.rfl Iff.rfl fun _ => ⟨rfl, rfl⟩
  | wakeup pc chan j => exact wakeup_right h _ ht
  | exit => exact absurd rfl (hzombie _)
  | reap => exact absurd rfl (hscan _ _)
  | sleep =>
    refine h.keepAt ht ?_ ?_ ?_ <;> simp [hp]
  | tidy => exact h.keepAt ht Iff.rfl Iff.rfl fun _ => ⟨rfl, rfl⟩
  | kill => exact kill_right h ht

theorem forkAlloc_right (h : b.Right s) (hp : (s.proc p).state = .running) {i : ℕ}
    (hc : s.pc p = .alloc i) :
    (Births.note s (.run p given) t b).Right (forkAlloc s p i given) := by
  have hnote : Births.note s (.run p given) t b =
      if (bornBy s (.run p given) i).isSome then
        { b with count := b.count + 1, who := update b.who i b.count }
      else b := by
    simp only [Births.note, hc]
  rw [hnote]
  rcases forkAlloc_cases given hp hc with ⟨hborn, hunused, ht⟩ | ⟨hborn, ht | ⟨hunused, ht⟩⟩
  · rw [hborn]
    exact h.born ht hunused rfl
  · rw [hborn]
    refine h.keep ?_ ?_ ?_ <;> simp [ht]
  · rw [hborn]
    refine h.keepAt ht ?_ ?_ ?_ <;> simp [freeproc, hunused]

theorem waitScan_right (h : b.Right s) {i : ℕ} {havekids : Bool} (hc : s.pc p = .scan i havekids) :
    (Births.note s (.run p given) t b).Right (waitScan s p i havekids given) := by
  have hnote : Births.note s (.run p given) t b =
      if i < nProc ∧ (s.proc i).parent = some p ∧ (s.proc i).state = .zombie ∧ given = true then
        { b with returned := ⟨b.who i, (s.proc i).pid, (s.proc i).xstate, p, (s.proc i).parent⟩ ::
                  b.returned }
      else b := by
    simp only [Births.note, hc]
  rw [hnote]
  split_ifs with hreap
  · obtain ⟨hi, hpar, hz, hgiven⟩ := hreap
    refine h.reap ?_ hz hpar
    simp [waitScan, hi, hpar, hz, hgiven]
  · have hsame : (waitScan s p i havekids given).proc = s.proc := by
      unfold waitScan
      split_ifs with hi hpar hz hgiven
      · exact absurd ⟨hi, hpar, hz, hgiven⟩ hreap
      all_goals rfl
    refine h.keep ?_ ?_ ?_ <;> simp [hsame]

theorem run_right (hs : s.Sound) (h : b.Right s) (hp : (s.proc p).state = .running)
    (hx : run s p given (s.pc p) = .ok t) : (Births.note s (.run p given) t b).Right t := by
  have hother : (∀ i, s.pc p ≠ .alloc i) → (∀ st, s.pc p ≠ .zombie st) →
      (∀ i k, s.pc p ≠ .scan i k) → (Births.note s (.run p given) t b).Right t := by
    intro halloc hzombie hscan
    have hnote : Births.note s (.run p given) t b = b := by
      simp only [Births.note]
    obtain ⟨j, x, ht, hc⟩ := run_change hx
    rw [hnote]
    exact change_right hs h hp rfl hc ht halloc hzombie hscan
  cases hc : s.pc p with
  | alloc i =>
    rw [hc] at hx
    cases hx
    exact forkAlloc_right h hp hc
  | scan i havekids =>
    rw [hc] at hx
    cases hx
    exact waitScan_right h hc
  | zombie status =>
    have hnote : Births.note s (.run p given) t b =
        { b with exited := ⟨b.who p, (s.proc p).pid, status⟩ :: b.exited } := by
      simp only [Births.note, hc]
    rw [hnote]
    rw [hc] at hx
    cases hx
    refine h.exit status rfl ?_ ?_ <;> simp [hp]
  | _ =>
    apply hother
    all_goals simp [hc]

theorem step_right {e : Event} (hs : s.Sound) (h : b.Right s) (hx : step s e = .ok t) :
    (Births.note s e t b).Right t := by
  cases e with
  | dispatch p =>
    simp only [step] at hx
    split_ifs at hx with hp
    cases hx
    refine h.keepAt rfl ?_ ?_ ?_ <;> simp [hp]
  | yield p =>
    simp only [step] at hx
    split_ifs at hx with hp
    cases hx
    refine h.keepAt rfl ?_ ?_ ?_ <;> simp [hp.1]
  | call p c =>
    simp only [step] at hx
    split_ifs at hx with hp
    obtain ⟨x, ht, hstate | hstate⟩ := call_change hp.1 hx <;>
      refine h.keepAt ht ?_ ?_ ?_ <;> simp [hp.1, hstate]
  | run p given =>
    simp only [step] at hx
    split_ifs at hx with hp
    exact run_right hs h hp hx
  | wakeup chan j =>
    cases hx
    exact wakeup_right h _ rfl

theorem boot_right : bootBirths.trace.Right bootBirths.state := by
  have hzero : ∀ i, (boot.proc i).state ≠ .unused → i = 0 := by
    apply (forall_update_iff (fun _ => Proc.zero) fun i x => x.state ≠ .unused → i = 0).mpr
    exact ⟨fun _ => rfl, fun i _ hi => absurd rfl hi⟩
  have hzombie : ∀ i, (boot.proc i).state ≠ .zombie := by
    apply (forall_update_iff (fun _ => Proc.zero) fun _ x => x.state ≠ .zombie).mpr
    exact ⟨by simp, fun i _ => by simp [Proc.zero]⟩
  constructor
  case known => exact fun i _ => Nat.zero_lt_one
  case apart => exact fun i j hi hj _ => (hzero i hi).trans (hzero j hj).symm
  case here => exact fun i _ _ x hx => absurd hx not_mem_nil
  case past => exact fun x hx => absurd hx not_mem_nil
  case zombie => exact fun i hi => absurd hi (hzombie i)
  case waiting => exact fun x hx => absurd hx not_mem_nil
  case once => exact nodup_nil
  case returns => exact fun r hr => absurd hr not_mem_nil
  case returnsOnce => exact nodup_nil

end Steps

section Runs

variable {h : Traced System Births}

theorem reach_right (hr : Reach (stepRel (traced step Births.note))
    (fun _ _ => True) bootBirths h) :
    h.state.Sound ∧ h.trace.Right h.state := by
  apply hr.invariant (I := fun h => h.state.Sound ∧ h.trace.Right h.state)
  · exact ⟨boot_sound, boot_right⟩
  · rintro a e c ⟨hs, hb⟩ - hstep
    obtain ⟨hx, htrace⟩ := traced_ok hstep
    rw [htrace]
    exact ⟨step_sound hs hx, step_right hs hb hx⟩

theorem filter_of_nodup {l : List Returned} (hl : (l.map Returned.process).Nodup) {r : Returned}
    (hr : r ∈ l) : l.filter (fun q => q.process = r.process) = [r] := by
  induction l with
  | nil => cases hr
  | cons q l ih =>
    rw [map_cons, nodup_cons] at hl
    rcases mem_cons.mp hr with rfl | hr
    · rw [filter_cons_of_pos (by simp), filter_eq_nil_iff.mpr]
      intro q hq
      simp only [decide_eq_true_eq]
      exact fun he => hl.1 (he ▸ mem_map_of_mem hq)
    · have hne : q.process ≠ r.process := by
        intro he
        exact hl.1 (he ▸ mem_map_of_mem hr)
      rw [filter_cons_of_neg (by simpa using hne)]
      exact ih hl.2 hr

/-- In every interleaving, a process that has been started, other than the first, has a parent that
is neither unused nor a zombie. A process that exits is returned by exactly one successful `wait`,
which its parent calls, with its pid and its exit status; until then it is a zombie in its entry of
the process table. -/
theorem process_tree
    (hr : Reach (stepRel (traced step Births.note)) (fun _ _ => True) bootBirths h) :
    (∀ i, (h.state.proc i).state ≠ .unused → (h.state.proc i).state ≠ .used →
      i ≠ h.state.initproc → ∃ q, (h.state.proc i).parent = some q ∧
        (h.state.proc q).state ≠ .unused ∧ (h.state.proc q).state ≠ .zombie) ∧
    (∀ x ∈ h.trace.exited,
      (∃ r, h.trace.returned.filter (fun r => r.process = x.process) = [r] ∧ r.pid = x.pid ∧
        r.status = x.status ∧ r.parent = some r.caller) ∨
      (h.trace.returned.filter (fun r => r.process = x.process) = [] ∧
        ∃ i, (h.state.proc i).state = .zombie ∧ h.trace.who i = x.process ∧
          (h.state.proc i).pid = x.pid ∧ (h.state.proc i).xstate = x.status)) ∧
    (∀ r ∈ h.trace.returned, ⟨r.process, r.pid, r.status⟩ ∈ h.trace.exited) := by
  obtain ⟨hs, hb⟩ := reach_right hr
  refine ⟨fun i hu hused hi => ?_, fun x hx => ?_, fun r hr => (hb.returns r hr).1⟩
  · obtain ⟨q, hq, ha⟩ := hs.parent i hu hused hi
    refine ⟨q, hq, ?_, ?_⟩
    · intro he
      rw [he] at ha
      exact ha
    · intro he
      rw [he] at ha
      exact ha
  · by_cases hret : ∃ r ∈ h.trace.returned, r.process = x.process
    · obtain ⟨r, hr, he⟩ := hret
      obtain ⟨hmem, hpar⟩ := hb.returns r hr
      have hsame : (⟨r.process, r.pid, r.status⟩ : Exited) = x :=
        List.inj_on_of_nodup_map hb.once hmem hx he
      refine .inl ⟨r, ?_, ?_, ?_, hpar⟩
      · rw [← he]
        exact filter_of_nodup hb.returnsOnce hr
      · rw [← hsame]
      · rw [← hsame]
    · have hnone : ∀ r ∈ h.trace.returned, r.process ≠ x.process :=
        fun r hr he => hret ⟨r, hr, he⟩
      refine .inr ⟨?_, hb.waiting x hx hnone⟩
      rw [List.filter_eq_nil_iff]
      intro r hr
      simpa using hnone r hr

/-- The first process creates a second, which exits with status 7, and waits for it. -/
def forkExitWait : List Event :=
  [.dispatch 0, .call 0 .fork] ++ replicate 4 (.run 0 true) ++
    [.dispatch 1, .call 1 (.exit 7)] ++ replicate 132 (.run 1 true) ++
    [.call 0 .wait] ++ replicate 3 (.run 0 true)

theorem process_tree_forkExitWait : ∃ h,
    Reach (stepRel (traced step Births.note)) (fun _ _ => True) bootBirths h ∧
    h.trace.exited = [⟨1, 2, 7⟩] ∧ h.trace.returned = [⟨1, 2, 7, 0, some 0⟩] ∧
    ∀ i, (h.state.proc i).state ≠ .unused → (h.state.proc i).state ≠ .used →
      i ≠ h.state.initproc → ∃ q, (h.state.proc i).parent = some q ∧
        (h.state.proc q).state ≠ .unused ∧ (h.state.proc q).state ≠ .zombie := by
  have hrun : (follow (traced step Births.note) (fun _ _ => True) bootBirths forkExitWait).map
      (fun h => (h.trace.exited, h.trace.returned)) =
      some ([⟨1, 2, 7⟩], [⟨1, 2, 7, 0, some 0⟩]) := by decide +kernel
  obtain ⟨h, hf, heq⟩ := Option.map_eq_some_iff.mp hrun
  obtain ⟨he, hret⟩ := Prod.mk.inj heq
  have hr := reach_of_follow forkExitWait Reach.refl hf
  exact ⟨h, hr, he, hret, (process_tree hr).1⟩

end Runs

end Xv6.Procs
