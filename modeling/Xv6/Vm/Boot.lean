import Xv6.Vm.ForkPages

/-!
# The machine at boot

A state from which runs start has well-formed page tables, exact counts, and no page
faulted in. `boot` is one: the only process has an empty address space and file
descriptor 3 open on a file of two pages. `next` follows a run by evaluation.
-/
namespace Xv6.Vm

open Library

/-- A state with well-formed page tables and exact counts, in which no page was faulted in
yet. -/
structure Kernel.Start (s : Kernel) : Prop where
  sane : s.Sane
  owned : s.Owned 0
  faulted : s.faulted = ∅

def Region.empty : Region := ⟨none, 0, 0, 0, 0⟩

/-- The kernel before it makes its first process. -/
def bare : Kernel where
  kend := 0x80022
  trampolinePage := 0x80007
  freelist := (List.range 32).map (· + 0x87000)
  ref := fun _ => 0
  mem := fun _ _ => 1
  table := fun _ => none
  proc := fun _ =>
    { state := .unused, killed := false, nmp := 0, vmas := fun _ => none, text := .empty,
      data := .empty, sz := 0, trapframe := none, ofile := fun _ => none }
  vmas := fun _ =>
    { Region.empty with used := false, mfile := 0, fd := 0, prot := .read, flags := .mapShared }
  file := fun f =>
    if f = 0 then ⟨.inode, 1, true, true, some 1, 0⟩ else ⟨.none, 0, false, false, none, 0⟩
  inode := fun _ => ⟨8192, fun a => UInt8.ofNat a, fun bn => bn < 8, false⟩
  freeBlocks := 100
  ilocked := []
  faulted := ∅

def boot : Kernel :=
  match allocproc bare with
  | .ok _ s =>
    let s := s.setProc 0 fun q => { q with ofile := fun fd => if fd = 3 then some 0 else none }
    s.setProc 0 fun q => { q with state := .runnable }
  | .error _ s => s

theorem bare_sane : bare.Sane where
  bounded t pt h := by cases h
  low t v pte h := by cases h
  blank q _ := ⟨rfl, rfl, rfl, rfl⟩
  special q h := absurd rfl h
  size q h := absurd rfl h
  fits j := by simp [Vma.Fits, bare, Region.empty]

theorem bare_own (h : Handle) : bare.own h = none := by
  cases h <;> rfl

theorem bare_owned : bare.Owned 0 where
  bounded := bare_sane.bounded
  small pa := by simp [bare]
  balanced := by
    have hempty : ∀ a, holders bare.own a = ∅ := by
      intro a
      ext h
      simp [holders, bare_own]
    exact {
      nodup := by decide
      unheld := by simp [bare_own]
      settled := fun _ _ => rfl
      finite := fun a => by simp [hempty a]
      count := fun a _ => by
        rw [hempty a]
        simp [show bare.ref a = 0 from rfl]
      exclusive := by simp [bare_own] }

theorem boot_allocproc : ∃ s, allocproc bare = .ok (some 0) s ∧ boot =
    (s.setProc 0 fun q => { q with ofile := fun fd => if fd = 3 then some 0 else none }).setProc 0
      fun q => { q with state := .runnable } := by
  have hrun : (match allocproc bare with
      | .ok r _ => r == some 0
      | .error _ _ => false) = true := by decide +kernel
  unfold boot
  cases hx : allocproc bare with
  | error e s => simp [hx] at hrun
  | ok r s =>
    simp only [hx, beq_iff_eq] at hrun
    subst hrun
    exact ⟨s, rfl, rfl⟩

theorem boot_allocated : ∃ s, Allocated 0 bare s ∧ boot =
    (s.setProc 0 fun q => { q with ofile := fun fd => if fd = 3 then some 0 else none }).setProc 0
      fun q => { q with state := .runnable } := by
  obtain ⟨s, hx, hboot⟩ := boot_allocproc
  rcases allocproc_ok bare_sane.bounded bare_sane.blank hx with ⟨hr, -⟩ | ⟨np, hr, ha⟩
  · cases hr
  · cases hr
    exact ⟨s, ha, hboot⟩

theorem boot_start : boot.Start := by
  obtain ⟨s, ha, hboot⟩ := boot_allocated
  obtain ⟨-, -, hn, hhigh, hsp, -, pa, hp⟩ := ha
  have hused : (s.proc 0).state = .used := by rw [hp]
  have hs : s.Sane := by
    refine bare_sane.of_nascent hn hhigh (fun hu => ?_) fun _ => ⟨hsp, ?_⟩
    · simp [hused] at hu
    · simp [hp, bare]
  have hf : s.faulted = ∅ := by
    refine Finset.eq_empty_of_forall_notMem fun a ha => ?_
    have := (hn.aside.faulted a ha).1
    simp [bare] at this
  have howned : s.Owned 0 := hn.keeps 0 bare_owned
  rw [hboot]
  refine ⟨(hs.setProc rfl rfl rfl).setState ?_ (by simp), (howned.setProc rfl).setProc rfl, hf⟩
  simp [Kernel.setProc, hused]

theorem bare_layout : bare.Layout where
  slots _ _ _ := rfl
  vacant _ _ _ := rfl
  distinct _ _ _ _ _ h := by cases h
  placed _ _ _ h := by cases h
  disjoint _ _ _ _ _ _ h := by cases h
  used _ _ _ h := by cases h
  next _ h := absurd rfl h

/-- The first process has an empty image and no regions. -/
theorem boot_layout : boot.Layout ∧ boot.AboveImage ∧ ∀ q k, boot.slot q k = none := by
  obtain ⟨s, ⟨-, -, hn, -, -, -, pa, hp⟩, hboot⟩ := boot_allocated
  have hother : ∀ q, q ≠ 0 → s.proc q = bare.proc q := hn.aside.others
  obtain ⟨hlay, hslot⟩ := bare_layout.newProc (fun k => bare_layout.vacant 0 rfl k) hother
    hn.aside.vmas (by rw [hp]) fun _ => by rw [hp]
  have hnone : ∀ q k, s.slot q k = none := fun q k => by
    rw [hslot]
    rfl
  have habove : s.AboveImage := by
    constructor
    · intro q hq va hva
      have hempty : ∀ a, ¬ Region.empty.Contains a := by simp [Region.Contains, Region.empty, u64]
      by_cases hq0 : q = 0
      · subst hq0
        rw [hp] at hva
        exact absurd hva (by simp [bare, hempty])
      · rw [hother q hq0] at hq
        exact absurd rfl hq
    · intro q k v hv
      simp [hnone q k] at hv
  rw [hboot]
  set s1 := s.setProc 0 fun q => { q with ofile := fun fd => if fd = 3 then some 0 else none }
  have hused : (s1.proc 0).state = .used := by simp [s1, Kernel.setProc, hp]
  obtain ⟨hlay1, hslot1⟩ : s1.Layout ∧ s1.slot = s.slot := hlay.setProc Iff.rfl rfl rfl
  obtain ⟨hlay2, hslot2⟩ := hlay1.setProc (p := 0) (f := fun q => { q with state := .runnable })
    (by simp [hused]) rfl rfl
  have habove1 : s1.AboveImage := habove.setProc Iff.rfl rfl rfl rfl fun _ _ hj => hj
  refine ⟨hlay2, habove1.setProc (by simp [hused]) rfl rfl rfl fun _ _ hj => hj, fun q k => ?_⟩
  rw [hslot2, hslot1]
  exact hnone q k

theorem boot_no_user_page {w : ℕ} {pte : Pte} (ht : boot.trans 0 w = some pte) :
    pte.perm.u = false := by
  by_contra hu
  have hw := boot_start.sane.low 0 w pte ht (by simpa using hu)
  obtain ⟨s, ⟨-, -, -, -, -, hnone, -⟩, hboot⟩ := boot_allocated
  rw [hboot] at ht
  have hs : s.trans 0 w = some pte := ht
  simp [hnone w hw] at hs

/-- The state after an event, for a run that is followed by evaluation. -/
def next (s : Kernel) (e : Event) : Kernel :=
  match step 8 s e with
  | .ok t => t
  | .error _ => s

def happens (s : Kernel) (e : Event) : Bool :=
  match step 8 s e with
  | .ok _ => true
  | .error _ => false

theorem step_next {s : Kernel} {e : Event} (h : happens s e = true) : Step s e (next s e) := by
  refine ⟨8, ?_⟩
  unfold happens at h
  unfold next
  cases hs : step 8 s e with
  | ok t => rfl
  | error err => simp [hs] at h

/-- Where the first mapping of one page goes. -/
def mapBase : ℕ := Xv6.trapframe - pgSize

/-- The process has mapped one page of the file with `PROT_RW` and `MAP_PRIVATE`. -/
def privateMapped : Kernel := next boot (.mmap 0 4096 3 5 3 0)

def privateLoaded : Kernel := next privateMapped (.load 0 mapBase)

/-- The process has forked, and process `1` is its child. -/
def privateForked : Kernel := next privateLoaded (.fork 0)

def privatePage : ℕ := (privateForked.walkaddr 0 mapBase).getD 0

theorem privateForked_reach {ok : Kernel → Event → Prop} (hm : ok boot (.mmap 0 4096 3 5 3 0))
    (hl : ok privateMapped (.load 0 mapBase)) (hf : ok privateLoaded (.fork 0)) :
    Reach Step ok boot privateForked := by
  have h1 : Step boot _ privateMapped := step_next (by decide +kernel)
  have h2 : Step privateMapped _ privateLoaded := step_next (by decide +kernel)
  have h3 : Step privateLoaded _ privateForked := step_next (by decide +kernel)
  exact ((Reach.refl.tail hm h1).tail hl h2).tail hf h3

end Xv6.Vm
