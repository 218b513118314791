import Mathlib.Data.List.GetD
import Xv6.Vm.ExecCall
import Xv6.Library.Stops
import Xv6.Vm.ExecEffects
import Xv6.Vm.Permissions
import Xv6.Vm.TidyCalls

/-!
# Memory for a new image

How many free pages `exec` needs for the new page table and the stack, and which arguments fit on
the stack: whether they do is a matter of their lengths only. With the memory and with arguments
that fit, an `exec` that has accepted the headers of its file does not fail any more.
-/
namespace Xv6.Vm

open Library Function List Kernel Option

section Pages

variable {t p va pa k a start : ℕ} {b : Bool} {perm : Perm} {s s' : Kernel} {g : Segments}

theorem kalloc_empty (hx : kalloc s = .ok none s') : s.freelist = [] := by
  cases hf : s.freelist with
  | nil => rfl
  | cons pa rest => simp [kalloc_cons hf] at hx

/-- `mappages` takes two pages at most, none where the tables exist, and fails for want of them. -/
theorem mappages_pages (hx : mappages t va pa perm s = .ok b s') :
    (b = false → s.freelist.length ≤ 1 ∧ s.lookup t (va / pgSize) = none) ∧
      s.freelist.length ≤ s'.freelist.length + 2 ∧
      ((s.lookup t (va / pgSize)).isSome → s'.freelist = s.freelist) := by
  obtain ⟨s1, hwalk, hcase⟩ := mappages_walk hx
  obtain ⟨pt, new, hs, hva, hnew, hlen, hfalse, -⟩ := walk_cases hwalk
  have htaken := congrArg length hnew.taken
  rw [length_append] at htaken
  have hsame : s'.freelist = s1.freelist := by
    rcases hcase with ⟨-, rfl⟩ | ⟨-, -, -, rfl⟩ <;> rfl
  refine ⟨fun hb => ⟨?_, ?_⟩, by rw [hsame]; omega, fun hl => ?_⟩
  · obtain ⟨hnil, hone⟩ := hfalse hb
    rw [hnil, length_nil] at htaken
    omega
  · by_contra hl
    rw [walk_of_lookup (isSome_iff_ne_none.mpr hl) hva] at hwalk
    cases hwalk
    cases hb
  · rw [walk_of_lookup hl hva] at hwalk
    cases hwalk
    exact hsame

/-- A page table takes three pages: the trapframe and the trampoline share their tables. -/
theorem procPagetableIn_pages (hx : procPagetableIn t p s = .ok b s') :
    (b = false → s.freelist.length < 3) ∧
      (b = true → s.freelist.length = s'.freelist.length + 3) := by
  rcases procPagetableIn_cases hx with ⟨rfl, hcreate⟩ | ⟨s1, hcreate, hx⟩
  · refine ⟨fun _ => ?_, by simp⟩
    unfold uvmcreate at hcreate
    obtain ⟨o, s1, hk, hcreate⟩ := bind_ok.mp hcreate
    cases o with
    | none => simp [kalloc_empty hk]
    | some pa =>
      simp only [bind_ok, pure_ok] at hcreate
      obtain ⟨_, _, _, hb, _⟩ := hcreate
      cases hb
  obtain ⟨hb, -⟩ | ⟨-, pa, rest, hf, rfl⟩ := uvmcreate_cases hcreate
  · cases hb
  rw [hf, length_cons]
  rcases hx with ⟨rfl, s2, hmap, -⟩ | ⟨s2, hmap, hx⟩
  · have hfew := ((mappages_pages hmap).1 rfl).1
    exact ⟨fun _ => Nat.succ_lt_succ (Nat.lt_succ_of_le hfew), by simp⟩
  have hl : (s2.lookup t (Xv6.trapframe / pgSize)).isSome := by
    obtain ⟨-, -, -, ht⟩ := mappages_spec hmap
    obtain ⟨pt, hs, hpt⟩ := exists_table_of_lookup (lookup_isSome_of_trans
      ((ht (trampoline / pgSize)).trans (if_pos ⟨rfl, rfl⟩)))
    have hsame : parent (trampoline / pgSize) = parent (Xv6.trapframe / pgSize) := by decide
    rw [PageTable.lookup, hsame] at hpt
    rw [Kernel.lookup, hs, bind_some, PageTable.lookup]
    split_ifs at hpt ⊢
    · rfl
    · cases hpt
  have hfirst : rest.length = s2.freelist.length + 2 := by
    obtain ⟨s3, hwalk, hcase⟩ := mappages_walk hmap
    obtain ⟨pt, new, hs, -, hnew, -, -, htrue⟩ := walk_cases hwalk
    have hpt := some.inj (hs.symm.trans (update_self ..))
    have htaken := congrArg length hnew.taken
    rw [length_append, (htrue rfl).2 (by rw [hpt])] at htaken
    rcases hcase with ⟨hb, -⟩ | ⟨-, -, -, rfl⟩
    · cases hb
    · exact htaken.trans (Nat.add_comm ..)
  rcases hx with ⟨rfl, s3, s4, hmap', -⟩ | ⟨rfl, hmap'⟩
  · have hnone := ((mappages_pages hmap').1 rfl).2
    simp [hnone] at hl
  · have hsame := (mappages_pages hmap').2.2 hl
    rw [hsame, hfirst]
    exact ⟨by simp, fun _ => rfl⟩

theorem uvmallocLoop_pages (hx : uvmallocLoop t start perm k a s = .ok false s') :
    s.freelist.length < 3 * k := by
  induction k generalizing a s with
  | zero => cases (pure_ok.mp hx).1
  | succ k ih =>
    unfold uvmallocLoop at hx
    obtain ⟨o, s1, hk, hx⟩ := bind_ok.mp hx
    cases o with
    | none =>
      rw [kalloc_empty hk, length_nil]
      omega
    | some pa =>
      rcases kalloc_ok hk with ⟨hr, -⟩ | ⟨pa, rest, -, hf, rfl⟩
      · cases hr
      simp only [bind_ok, modify_ok] at hx
      obtain ⟨_, _, rfl, b, s2, hmap, hx⟩ := hx
      obtain ⟨hfew, htakes, -⟩ := mappages_pages hmap
      have hrest : rest.length ≤ s2.freelist.length + 2 := htakes
      rw [hf, length_cons]
      cases b with
      | true =>
        have hlt := ih hx
        omega
      | false =>
        have hone : rest.length ≤ 1 := (hfew rfl).1
        omega

/-- Six pages are enough for the two pages of the stack and the tables above them. -/
theorem uvmalloc_pages
    (hx : uvmalloc t g.size (u64 (g.size + 2 * pgSize)) perm s = .ok 0 s') :
    s.freelist.length < 6 := by
  have hsmall : g.size < 2 ^ 64 := pgRoundUp64_lt _
  have hround := pgRoundUp64_of_aligned g.size_mod hsmall
  have hpg : pgSize = 4096 := rfl
  unfold uvmalloc at hx
  rcases ite_ok hx with ⟨hlt, hx⟩ | ⟨hge, hx⟩
  · have hzero := (pure_ok.mp hx).1
    omega
  have hnew : u64 ((g.size : ℤ) + 2 * pgSize) = g.size + 2 * pgSize := by
    unfold u64 at *
    omega
  have hpages : (g.size + 2 * pgSize - g.size + pgSize - 1) / pgSize = 2 := by
    rw [Nat.add_sub_cancel_left]
    rfl
  simp only [hround, hnew, hpages] at hx
  obtain ⟨b, s1, hloop, hx⟩ := bind_ok.mp hx
  cases b with
  | false => exact uvmallocLoop_pages hloop
  | true =>
    have hzero : g.size + 2 * pgSize = 0 := (pure_ok.mp hx).1
    omega

end Pages

section Head

variable {p : ℕ} {ip : Option ℕ} {s s' : Kernel}

/-- `exec` cannot get past the headers of the file: it is not found or not accepted, or there
is no memory for a page table. -/
def Kernel.FailsEarly (s : Kernel) (ip : Option ℕ) : Prop :=
  s.freelist.length < 3 ∨ ∀ i, ip = some i → s.headers i = none

/-- `exec` that accepts the headers has not failed early. -/
theorem HeadRun.not_failsEarly {i : ℕ} {g : Segments} {l : List ℕ}
    (h : HeadRun p i g { s with ilocked := l } s') (hn : s.table (spare p) = none) :
    ¬ s.FailsEarly (some i) := by
  rintro (hfew | hbad)
  · obtain ⟨_, _, s1, s2, hread, -, hpt, -⟩ := h.run
    have htakes := (procPagetableIn_pages hpt).2 rfl
    obtain ⟨_, _, rfl, -⟩ := FilesOnly.readKernel _ _ _ hread
    change s.freelist.length = _ at htakes
    omega
  · have hg := headers_of_run hn h
    simp [hbad i rfl] at hg

theorem execHead_none (hn : s.table (spare p) = none) (hx : execHead p ip s = .ok none s') :
    s.FailsEarly ip := by
  unfold execHead at hx
  rcases ite_ok hx with ⟨rfl, -⟩ | ⟨-, hx⟩
  · exact .inr (by simp)
  obtain ⟨i, s0, hlock, hx⟩ := bind_ok.mp hx
  obtain ⟨rfl, -, rfl⟩ := ilock_ok hlock
  obtain ⟨⟨bytes, n⟩, s1, hread, hx⟩ := bind_ok.mp hx
  obtain ⟨ino, fb, rfl, hsame⟩ := FilesOnly.readKernel _ _ _ hread
  rcases ite_ok hx with ⟨hbad, -⟩ | ⟨hgood, hx⟩
  · refine .inr fun j hj => ?_
    obtain rfl := some.inj hj
    exact headers_of_read (hsame s rfl rfl) ((congrFun (if_pos hbad) _).trans rfl)
  obtain ⟨b, s2, hcreate, hx⟩ := bind_ok.mp hx
  cases b with
  | false => exact .inl ((procPagetableIn_pages hcreate).1 rfl)
  | true =>
    obtain ⟨o, s3, hload, hx⟩ := bind_ok.mp hx
    cases o with
    | none =>
      refine .inr fun j hj => ?_
      obtain rfl := some.inj hj
      exact headers_of_load hn hread hgood hcreate hload
    | some g => cases (pure_ok.mp hx).1

end Head

section Arguments

/-- The bytes that a push of `n` bytes takes. -/
def up16 (n : ℕ) : ℕ := (n + 15) / 16 * 16

def argBytes (argv : List (List UInt8)) : ℕ := (argv.map fun a => up16 (a.length + 1)).sum

def arrayBytes (argv : List (List UInt8)) : ℕ := up16 ((argv.length + 1) * 8)

def Fits (argv : List (List UInt8)) : Prop := argBytes argv + arrayBytes argv ≤ pgSize

instance (argv : List (List UInt8)) : Decidable (Fits argv) := by
  unfold Fits
  infer_instance

/-- The addresses of the strings that are pushed below `sp`. -/
def argAddrs : ℕ → List (List UInt8) → List ℕ
  | _, [] => []
  | sp, a :: argv => (sp - up16 (a.length + 1)) :: argAddrs (sp - up16 (a.length + 1)) argv

variable {sp n : ℕ} {argv : List (List UInt8)} {a : List UInt8}

theorem le_up16 (n : ℕ) : n ≤ up16 n ∧ up16 n % 16 = 0 := by
  unfold up16
  omega

theorem argBytes_cons : argBytes (a :: argv) = up16 (a.length + 1) + argBytes argv := by
  simp [argBytes]

theorem argBytes_mod (argv : List (List UInt8)) : argBytes argv % 16 = 0 := by
  induction argv with
  | nil => rfl
  | cons a argv ih =>
    have := (le_up16 (a.length + 1)).2
    rw [argBytes_cons]
    omega

theorem length_argAddrs (sp : ℕ) (argv : List (List UInt8)) :
    (argAddrs sp argv).length = argv.length := by
  induction argv generalizing sp with
  | nil => rfl
  | cons a argv ih => rw [argAddrs, length_cons, length_cons, ih]

theorem Fits.length_lt (h : Fits argv) : ∀ a ∈ argv, a.length < pgSize := by
  intro a ha
  have hup := (le_up16 (a.length + 1)).1
  have hsum : up16 (a.length + 1) ≤ argBytes argv :=
    single_le_sum (fun _ _ => Nat.zero_le _) _ (mem_map_of_mem ha)
  unfold Fits at h
  omega

end Arguments

section Pushing

variable {t p va sz sp len pa : ℕ} {s s' : Kernel} {src : Bytes} {argv : List (List UInt8)}

/-- Copying inside one page that is mapped succeeds. -/
theorem copyoutIn_near (hwalk : s.walkaddr t (pgRoundDown va) = some pa) (hlen : 0 < len)
    (hfit : va - pgRoundDown va + len ≤ pgSize) :
    copyoutIn t p va src len s =
      .ok true (s.setPage pa ((s.mem pa).blit (va - pgRoundDown va) src len)) := by
  have hpage : userPageIn t p (pgRoundDown va) s = .ok (some pa) s := by
    unfold userPageIn
    refine bind_ok.mpr ⟨s, s, rfl, ?_⟩
    simp only [hwalk]
    rfl
  unfold copyoutIn copyoutInLoop
  rw [if_neg hlen.ne']
  have hmin : min (pgSize - (va - pgRoundDown va)) len = len := by omega
  have hlast : ∀ fuel dstva done (x : Kernel),
      copyoutInLoop t p src fuel dstva done 0 x = .ok true x := by
    intro fuel dstva done x
    cases fuel with
    | zero => rfl
    | succ fuel => simp [copyoutInLoop]
  refine bind_ok.mpr ⟨some pa, s, hpage, ?_⟩
  simp only [hmin, Nat.sub_self, Nat.zero_add]
  exact bind_ok.mpr ⟨⟨⟩, _, rfl, hlast _ _ _ _⟩

/-- No region of process `p` reaches addresses that `walk` rejects. -/
def Kernel.RegionsLow (s : Kernel) (p : ℕ) : Prop :=
  (∀ va, (s.proc p).text.Contains va ∨ (s.proc p).data.Contains va → va < maxVa) ∧
    ∀ i v va, s.slot p i = some v → v.Contains va → va < maxVa

theorem checkVmas_far (h : s.RegionsLow p) (hva : maxVa ≤ va) :
    checkVmas p va s = .ok false s := by
  have htext : ¬(s.proc p).text.Contains va := fun hc => Nat.not_lt.mpr hva (h.1 va (.inl hc))
  have hdata : ¬(s.proc p).data.Contains va := fun hc => Nat.not_lt.mpr hva (h.1 va (.inr hc))
  have hnone : s.findVma p va = none := by
    cases hf : s.findVma p va with
    | none => rfl
    | some v =>
      obtain ⟨i, hi, hc⟩ := Kernel.slot_of_findVma hf
      exact absurd (h.2 i v va hi hc) (Nat.not_lt.mpr hva)
  unfold checkVmas
  refine bind_ok.mpr ⟨s, s, rfl, ?_⟩
  simp only
  rw [if_neg htext, if_neg hdata, hnone]
  rfl

theorem copyoutIn_far (h : s.RegionsLow p) (hva : maxVa ≤ pgRoundDown va) (hlen : 0 < len) :
    copyoutIn t p va src len s = .ok false s := by
  have hwalk : s.walkaddr t (pgRoundDown va) = none := by
    unfold Kernel.walkaddr
    rw [if_pos hva]
  have hpage : userPageIn t p (pgRoundDown va) s = .ok none s := by
    unfold userPageIn
    refine bind_ok.mpr ⟨s, s, rfl, ?_⟩
    simp only [hwalk]
    exact bind_ok.mpr ⟨false, s, checkVmas_far h hva, rfl⟩
  unfold copyoutIn copyoutInLoop
  rw [if_neg (by omega)]
  exact bind_ok.mpr ⟨none, s, hpage, rfl⟩

/-- The stack is the page before `sz`, which is `pa`. -/
structure StackPage (t sz pa : ℕ) (s : Kernel) : Prop where
  aligned : sz % pgSize = 0
  guard : 2 * pgSize ≤ sz
  low : sz ≤ maxVa
  page : s.walkaddr t (sz - pgSize) = some pa

theorem StackPage.setPage (h : StackPage t sz pa s) (b : Bytes) :
    StackPage t sz pa (s.setPage pa b) :=
  ⟨h.aligned, h.guard, h.low, h.page⟩

/-- A push finds room or not. The difference may wrap around if the string is longer than all of
the stack, and then no region has the address. -/
theorem push_eq (p : ℕ) (src : Bytes) (h : StackPage t sz pa s) (hsp : sz - pgSize ≤ sp ∧ sp ≤ sz)
    (hmod : sp % 16 = 0) (hpos : 0 < len) (hlen : len ≤ pgSize ∨ len ≤ 2 ^ 31 ∧ s.RegionsLow p) :
    push t p (sz - pgSize) sp src len s =
      if up16 len ≤ sp - (sz - pgSize) then
        .ok (some (sp - up16 len))
          (s.setPage pa ((s.mem pa).blit (sp - up16 len - (sz - pgSize)) src len))
      else .ok none s := by
  have hal := h.aligned
  have hguard := h.guard
  have hlow := h.low
  have hup := le_up16 len
  unfold push
  by_cases hfit : len ≤ sp
  · have hdown : u64 ((sp : ℤ) - len) - u64 ((sp : ℤ) - len) % 16 = sp - up16 len := by
      unfold u64 up16 pgSize maxVa at *
      omega
    simp only [hdown]
    by_cases hroom : up16 len ≤ sp - (sz - pgSize)
    · have hpage : pgRoundDown (sp - up16 len) = sz - pgSize := by
        unfold pgRoundDown pgSize at *
        omega
      rw [if_neg (by omega), if_pos hroom]
      refine bind_ok.mpr ⟨true, _, copyoutIn_near (hpage.symm ▸ h.page) hpos ?_, ?_⟩
      · rw [hpage]
        omega
      · rw [hpage]
        rfl
    · have hbelow : sp - up16 len < sz - pgSize := by
        unfold up16 pgSize at *
        omega
      rw [if_pos hbelow, if_neg hroom]
      rfl
  · obtain ⟨hsmall, hregions⟩ := hlen.resolve_left (by omega)
    have hwrap : 2 ^ 63 ≤ u64 ((sp : ℤ) - len) := by
      unfold u64
      omega
    have hfar : maxVa ≤ pgRoundDown (u64 ((sp : ℤ) - len) - u64 ((sp : ℤ) - len) % 16) := by
      unfold pgRoundDown maxVa pgSize at *
      omega
    rw [if_neg (by unfold maxVa at hlow; omega), if_neg (by omega)]
    exact bind_ok.mpr ⟨false, s, copyoutIn_far hregions hfar hpos, rfl⟩

theorem setPage_setPage (s : Kernel) (pa : ℕ) (b b' : Bytes) :
    (s.setPage pa b).setPage pa b' = s.setPage pa b' := by
  simp [Kernel.setPage]

/-- The loop over `argv`. What is above the stack pointer stays as it is. -/
theorem pushArgs_run (ustack : List ℕ) (h : StackPage t sz pa s)
    (hsp : sz - pgSize ≤ sp ∧ sp ≤ sz) (hmod : sp % 16 = 0) (hcount : ustack.length ≤ maxArg)
    (hargs : ∀ a ∈ argv, a.length < pgSize ∨ a.length < 2 ^ 31 ∧ s.RegionsLow p) :
    (ustack.length + argv.length ≤ maxArg ∧ argBytes argv ≤ sp - (sz - pgSize) → ∃ b,
      pushArgs t p (sz - pgSize) argv sp ustack s =
        .ok (some (sp - argBytes argv, ustack ++ argAddrs sp argv)) (s.setPage pa b) ∧
      (∀ o, sp - (sz - pgSize) ≤ o → b o = s.mem pa o) ∧
      List.Forall₂ (fun a addr => (sp - argBytes argv ≤ addr ∧ addr + a.length < sp) ∧
        ∀ k ≤ a.length, b (addr + k - (sz - pgSize)) = a.getD k 0) argv (argAddrs sp argv)) ∧
    (¬ (ustack.length + argv.length ≤ maxArg ∧ argBytes argv ≤ sp - (sz - pgSize)) →
      ∃ s', pushArgs t p (sz - pgSize) argv sp ustack s = .ok none s') := by
  induction argv generalizing s sp ustack with
  | nil =>
    refine ⟨fun _ => ⟨s.mem pa, ?_, fun _ _ => rfl, .nil⟩, fun hno => ?_⟩
    · simp [pushArgs, argAddrs, argBytes, Kernel.setPage, pure, EStateM.pure]
    · simp [argBytes, hcount] at hno
  | cons a argv ih =>
    have hup := le_up16 (a.length + 1)
    unfold pushArgs
    rw [argBytes_cons, length_cons]
    by_cases hmax : ustack.length ≥ maxArg
    · rw [if_pos hmax]
      exact ⟨fun hall => absurd hall.1 (by omega), fun _ => ⟨s, rfl⟩⟩
    rw [if_neg hmax]
    have hpush := push_eq p (bytesOf a) h hsp hmod (show 0 < a.length + 1 by omega)
      (hargs a mem_cons_self)
    by_cases hroom : up16 (a.length + 1) ≤ sp - (sz - pgSize)
    · rw [if_pos hroom] at hpush
      obtain ⟨hfit, hfull⟩ := ih (ustack ++ [sp - up16 (a.length + 1)]) (h.setPage _)
        (show sz - pgSize ≤ sp - up16 (a.length + 1) ∧ _ by omega) (by omega)
        (by rw [length_append, length_singleton]; omega)
        fun a' ha' => hargs a' (mem_cons_of_mem a ha')
      rw [length_append, length_singleton] at hfit hfull
      constructor
      · intro hall
        obtain ⟨b, hrun, habove, hcopies⟩ := hfit (by omega)
        refine ⟨b, ?_, ?_, ?_⟩
        · refine bind_ok.mpr ⟨_, _, hpush, ?_⟩
          dsimp only
          rw [hrun, setPage_setPage, argAddrs, append_assoc, singleton_append,
            Nat.sub_sub]
        · intro o ho
          rw [habove o (by omega)]
          simp only [Kernel.setPage, update_self]
          exact Bytes.blit_apply_of_not_mem _ _ _ _ (by omega)
        · refine .cons ⟨by omega, ?_⟩ (hcopies.imp fun a' addr hc => ⟨by omega, hc.2⟩)
          intro k hk
          rw [habove _ (by omega)]
          simp only [Kernel.setPage, update_self]
          rw [Bytes.blit_apply_of_mem _ _ _ _ (by omega) (by omega)]
          exact congrArg (bytesOf a) (by omega)
      · intro hno
        obtain ⟨s', hrun⟩ := hfull (by omega)
        exact ⟨s', bind_ok.mpr ⟨_, _, hpush, hrun⟩⟩
    · rw [if_neg hroom] at hpush
      exact ⟨fun hall => absurd hall.2 (by omega), fun _ => ⟨s, bind_ok.mpr ⟨_, _, hpush, rfl⟩⟩⟩

/-- What the stack page holds after all pushes, with the stack pointer at `sp`. -/
structure Pushed (sz sp : ℕ) (argv : List (List UInt8)) (b : Bytes) : Prop where
  sp_eq : sp + (argBytes argv + arrayBytes argv) = sz
  copies : List.Forall₂ (fun a addr => (sz - argBytes argv ≤ addr ∧ addr + a.length < sz) ∧
    ∀ k ≤ a.length, b (addr + k - (sz - pgSize)) = a.getD k 0) argv (argAddrs sz argv)
  array : ∀ k < (argv.length + 1) * 8,
    b (sp + k - (sz - pgSize)) = ustackBytes (argAddrs sz argv) k

/-- The pushing comes to an end, and fails just if there is no room. -/
theorem pushAll_run (p : ℕ) (h : StackPage t sz pa s)
    (hargs : ∀ a ∈ argv, a.length < pgSize ∨ a.length < 2 ^ 31 ∧ s.RegionsLow p) :
    (argv.length ≤ maxArg ∧ Fits argv → ∃ sp b,
      pushAll t p sz argv s = .ok (some (sp, argv.length)) (s.setPage pa b) ∧
      Pushed sz sp argv b) ∧
    (¬ (argv.length ≤ maxArg ∧ Fits argv) → ∃ s', pushAll t p sz argv s = .ok none s') := by
  have hal := h.aligned
  have hguard := h.guard
  have hlow := h.low
  have hmax : maxArg = 32 := rfl
  have hbase : u64 ((sz : ℤ) - pgSize) = sz - pgSize := by
    unfold u64 maxVa at *
    omega
  have hmod : sz % 16 = 0 := by
    unfold pgSize at hal
    omega
  have hargsmod := argBytes_mod argv
  have harray := le_up16 ((argv.length + 1) * 8)
  obtain ⟨hfit, hfull⟩ := pushArgs_run [] h ⟨Nat.sub_le _ _, le_rfl⟩ hmod (Nat.zero_le _) hargs
  rw [Nat.sub_sub_self (by omega), length_nil, Nat.zero_add] at hfit hfull
  unfold pushAll Fits arrayBytes
  simp only [hbase]
  by_cases hroom : argv.length ≤ maxArg ∧ argBytes argv ≤ pgSize
  · obtain ⟨b, hrun, habove, hcopies⟩ := hfit hroom
    rw [nil_append] at hrun
    have hpush := push_eq p (ustackBytes (argAddrs sz argv)) (h.setPage b)
      (show sz - pgSize ≤ sz - argBytes argv ∧ _ by omega) (by omega)
      (show 0 < (argv.length + 1) * 8 by omega) (.inl (by unfold pgSize; omega))
    constructor
    · intro hall
      rw [if_pos (by omega), setPage_setPage] at hpush
      refine ⟨sz - argBytes argv - up16 ((argv.length + 1) * 8),
        ((s.setPage pa b).mem pa).blit (sz - argBytes argv - up16 ((argv.length + 1) * 8) -
          (sz - pgSize)) (ustackBytes (argAddrs sz argv)) ((argv.length + 1) * 8),
        bind_ok.mpr ⟨_, _, hrun, ?_⟩, ?_, ?_, ?_⟩
      · dsimp only
        rw [length_argAddrs]
        exact bind_ok.mpr ⟨_, _, hpush, rfl⟩
      · unfold arrayBytes
        omega
      · refine hcopies.imp fun a addr hc => ⟨hc.1, fun k hk => ?_⟩
        rw [Bytes.blit_apply_of_not_mem _ _ _ _ (by omega)]
        simp only [Kernel.setPage, update_self]
        exact hc.2 k hk
      · intro k hk
        rw [Bytes.blit_apply_of_mem _ _ _ _ (by omega) (by omega)]
        exact congrArg (ustackBytes _) (by omega)
    · intro hno
      rw [if_neg (by omega)] at hpush
      refine ⟨s.setPage pa b, bind_ok.mpr ⟨_, _, hrun, ?_⟩⟩
      dsimp only
      rw [length_argAddrs]
      exact bind_ok.mpr ⟨_, _, hpush, rfl⟩
  · obtain ⟨s', hrun⟩ := hfull hroom
    exact ⟨fun hall => absurd hall (by omega), fun _ => ⟨s', bind_ok.mpr ⟨_, _, hrun, rfl⟩⟩⟩

theorem pushAll_returns (h : StackPage t sz pa s)
    (hargs : ∀ a ∈ argv, a.length < pgSize ∨ a.length < 2 ^ 31 ∧ s.RegionsLow p) :
    Returns (pushAll t p sz argv) s := by
  obtain ⟨hfit, hfull⟩ := pushAll_run p h hargs
  by_cases hroom : argv.length ≤ maxArg ∧ Fits argv
  · obtain ⟨_, _, hrun, -⟩ := hfit hroom
    exact .of_ok hrun
  · obtain ⟨_, hrun⟩ := hfull hroom
    exact .of_ok hrun

/-- The upper page of a new stack. -/
theorem Stacked.stackPage (h : Stacked t sz s) (hsz : 2 * pgSize ≤ sz)
    (hne : ∀ v pte, s.trans t v = some pte → v < trapVpn → pte.ppn ≠ 0) :
    ∃ pa, StackPage t sz pa s := by
  have hroom := h.room
  have hal := h.aligned
  have htf : Xv6.trapframe = trapVpn * 4096 := by decide
  have hmax := trapframe_le
  have hpg : pgSize = 4096 := rfl
  have hv : (sz - pgSize) / pgSize + 1 = sz / pgSize := by
    unfold pgSize at hsz ⊢
    omega
  have hlow : (sz - pgSize) / pgSize < trapVpn := by
    rw [hpg]
    omega
  obtain ⟨pte, hpte⟩ := ne_none_iff_exists'.mp
    (h.stack ((sz - pgSize) / pgSize) (by omega) (by omega))
  have hperm : pte.perm = dataPerm := by
    rcases h.pages _ pte hpte with ⟨hge, -⟩ | ⟨hv', -⟩ | ⟨-, hperm⟩
    · omega
    · omega
    · exact hperm
  refine ⟨pte.ppn, hal, hsz, by omega, ?_⟩
  unfold Kernel.walkaddr
  rw [if_neg (by omega), hpte]
  simp [hperm, dataPerm, hne _ pte hpte hlow]

/-- With nine free pages and arguments that fit on the stack, an `exec` that returns has
succeeded, unless the headers of the file are not accepted. -/
theorem exec_true {K i : ℕ} {g : Segments} {b : Bool} (ht : s.Tidy K []) (hK : 0 < K)
    (hn : s.table (spare p) = none) (hg : s.headers i = some g) (hfits : Fits argv)
    (hcount : argv.length < maxArg) (hpages : 9 ≤ s.freelist.length)
    (hx : exec p (some i) argv s = .ok b s') : b = true := by
  rw [exec_eq] at hx
  obtain ⟨o, s1, hhead, hx⟩ := bind_ok.mp hx
  cases o with
  | none =>
    rcases execHead_none hn hhead with hfew | hbad
    · omega
    · simp [hbad i rfl] at hg
  | some ig =>
    obtain ⟨j, g'⟩ := ig
    obtain ⟨-, -, hsome⟩ := execHead_ok hn hhead
    obtain ⟨hj, hrun, hh, -⟩ := hsome j g' rfl
    obtain rfl := some.inj hj
    obtain ⟨bytes, n, s2, s3, hread, -, hpt, hload⟩ := hrun.run
    have htake := (procPagetableIn_pages hpt).2 rfl
    have ht0 : Kernel.Tidy K [i] { s with ilocked := i :: s.ilocked } :=
      { ht with locks := by rw [ht.locks] }
    have ht1 := loadSegments_tends.of_ok
      (procPagetableIn_restores.of_ok (readKernel_tends.of_ok ht0 hread) hpt) hload
    obtain ⟨_, _, rfl, -⟩ := FilesOnly.readKernel _ _ _ hread
    obtain ⟨ino, fb, rfl, -⟩ := FilesOnly.loadSegments _ _ _ hload
    have hsix : 6 ≤ s3.freelist.length := by
      change s.freelist.length = _ at htake
      omega
    simp only [bind_ok, modify_ok] at hx
    obtain ⟨_, _, rfl, _, s4, hun, hx⟩ := hx
    have ht4 : s4.Tidy K [] := iunlock_tends.of_ok (ht1.setProc (fun _ _ => rfl) fun _ _ => rfl) hun
    obtain rfl := modify_ok.mp hun
    unfold execImage at hx
    rw [get_run] at hx
    obtain ⟨sz, s5, halloc, hx⟩ := bind_ok.mp hx
    rcases ite_ok hx with ⟨rfl, -⟩ | ⟨hsz, hx⟩
    · have hfew := uvmalloc_pages halloc
      change s3.freelist.length < 6 at hfew
      omega
    obtain ⟨_, s6, hclear, hx⟩ := bind_ok.mp hx
    have ht6 := uvmclear_tends.of_ok (uvmalloc_tends.of_ok ht4 halloc) hclear
    obtain ⟨rfl, hst⟩ := stacked_of_image (by exact hh) halloc hsz hclear
    obtain ⟨pa, hstack⟩ := hst.stackPage (by omega) fun v pte ht hv =>
      (hK.trans_le (ht6.mapped _ v pte ht (.inl hv))).ne'
    obtain ⟨_, _, hrun, -⟩ := (pushAll_run p hstack fun a ha => .inl (hfits.length_lt a ha)).1
      ⟨hcount.le, hfits⟩
    obtain ⟨b7, s7, hpush, hx⟩ := bind_ok.mp hx
    obtain ⟨rfl, rfl⟩ := EStateM.Result.ok.inj (hpush.symm.trans (pushStack_of_pushAll hrun))
    simp only [isSome_some, if_true, bind_ok, pure_ok] at hx
    obtain ⟨_, _, _, _, _, _, _, _, _, hb, _⟩ := hx
    exact hb.symm

end Pushing

end Xv6.Vm
