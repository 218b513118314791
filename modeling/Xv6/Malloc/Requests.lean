import Xv6.Malloc.Integrity
import Xv6.Vm.Kernel

/-!
# Requests of every size

`morecore` passes a number of bytes to `sbrk`, whose argument is an `int`, and `growproc` changes
the size of the process by that `int`. From 2 ^ 31 bytes on it is another number: the process
shrinks, stays as it is or grows by one unit, and the allocator hands out memory that is not
there.
-/
namespace Xv6.Malloc

open Library List Option
open Vm (u64 i32 pgRoundUp)

/-- `(PHYSTOP - KERNBASE) / PGSIZE`: the frames of physical memory. -/
def frames : ℕ := physStop - 0x80000

def pages (sz : ℕ) : ℕ := pgRoundUp sz / pgSize

/-- Whether `kalloc` has a frame for each page between two sizes of a process, when `others` of
the frames are in use for something else. -/
def enough (others oldsz newsz : ℕ) : Bool := pages newsz ≤ max (pages oldsz) (frames - others)

/-- `none` stands for `0`; whether `kalloc` has the frames is given. -/
def uvmalloc (room : Bool) (oldsz newsz : ℕ) : Option ℕ :=
  if newsz < oldsz then some oldsz else if room then some newsz else none

def uvmdealloc (oldsz newsz : ℕ) : ℕ := if newsz ≥ oldsz then oldsz else newsz

/-- The new size of a process of size `sz`; `none` stands for `-1`. -/
def growproc (room : Bool) (sz : ℕ) (n : ℤ) : Option ℕ :=
  if n > 0 then uvmalloc room sz (u64 (sz + n))
  else if n < 0 then some (uvmdealloc sz (u64 (sz + n)))
  else some sz

/-- The size of the process after some calls of `sbrk`, of which some have failed. -/
def size (sz₀ : ℕ) (calls : List (ℕ × Option ℕ)) : ℕ :=
  calls.foldl (fun sz c => (growproc c.2.isSome sz (i32 c.1)).getD sz) sz₀

/-- `sbrk` returns the old size. The other use of memory may change from call to call. -/
def sysSbrk (others : List (ℕ × Option ℕ) → ℕ → ℕ) (sz₀ : ℕ) (calls : List (ℕ × Option ℕ))
    (k : ℕ) : Option ℕ :=
  let addr := size sz₀ calls
  let n := i32 k
  (growproc (enough (others calls k) addr (u64 (addr + n))) addr n).map fun _ => addr

/-- `malloc` has not shrunk the process, and it returns null or the address of `nbytes` bytes
that are in the memory of the process and in no other live block. -/
def Serves (sz₀ : ℕ) (h : Traced State (List (ℕ × ℕ))) (t : State) (nbytes : ℕ) : Prop :=
  size sz₀ h.state.sbrks ≤ size sz₀ t.sbrks ∧
    (t.ret = 0 ∨ (t.ret + nbytes ≤ size sz₀ t.sbrks ∧
      ∀ e ∈ h.trace, t.ret + nbytes ≤ e.1 ∨ e.1 + unit * (t.mem e.1).size ≤ t.ret))

variable {base sz₀ k m d : ℕ} {s t : State} {free live : List Block} {y : Block}
  {calls : List (ℕ × Option ℕ)} {others : List (ℕ × Option ℕ) → ℕ → ℕ}
  {h h' : Traced State (List (ℕ × ℕ))}

theorem size_append (c : ℕ × Option ℕ) :
    size sz₀ (calls ++ [c]) =
      (growproc c.2.isSome (size sz₀ calls) (i32 c.1)).getD (size sz₀ calls) := by
  rw [size, foldl_append, foldl_cons, foldl_nil]
  rfl

theorem pages_le_iff {sz : ℕ} : pages sz ≤ frames ↔ sz ≤ 2 ^ 27 := by
  have hframes : frames = 2 ^ 15 := by decide
  unfold pages pgRoundUp pgSize
  omega

/-- `growproc` with an argument that is positive, zero or negative. -/
theorem growproc_cases (room : Bool) {sz : ℕ} (hsz : sz ≤ 2 ^ 27) (k : ℕ) :
    (0 < i32 k ∧ u64 (sz + i32 k) = sz + (i32 k).toNat ∧
      growproc room sz (i32 k) = if room then some (sz + (i32 k).toNat) else none) ∨
    (i32 k ≤ 0 ∧ ∃ sz' ≤ sz, growproc room sz (i32 k) = some sz') := by
  have hlt : i32 k < 2 ^ 31 := by
    unfold i32
    omega
  unfold growproc
  by_cases hpos : i32 k > 0
  · have hu : u64 (sz + i32 k) = sz + (i32 k).toNat := by
      unfold u64
      omega
    rw [if_pos hpos, hu, uvmalloc, if_neg (by omega)]
    exact .inl ⟨hpos, rfl, rfl⟩
  · rw [if_neg hpos]
    refine .inr ⟨by omega, ?_⟩
    split_ifs
    · refine ⟨_, ?_, rfl⟩
      unfold uvmdealloc
      split_ifs <;> omega
    · exact ⟨sz, le_refl sz, rfl⟩

/-- The process has grown by just what was granted. -/
structure Grown (sz₀ : ℕ) (calls : List (ℕ × Option ℕ)) : Prop where
  total : size sz₀ calls = sz₀ + unit * units (granted calls)
  below : ∀ g ∈ granted calls, g.stop unit ≤ size sz₀ calls
  limit : size sz₀ calls ≤ 2 ^ 27

theorem i32_small (hk : k < 2 ^ 31) : i32 k = k := by
  unfold i32
  omega

namespace Grown

theorem freshAt (hg : Grown sz₀ calls) (hlow : base + unit ≤ sz₀) :
    FreshAt base (sysSbrk others sz₀) calls := by
  intro k a ha
  unfold sysSbrk at ha
  dsimp only at ha
  obtain ⟨-, -, rfl⟩ := map_eq_some_iff.mp ha
  have htotal := hg.total
  exact ⟨by omega, hg.below⟩

theorem countable (hg : Grown sz₀ calls) {nbytes : ℕ} (hlt : nbytes < uintMod) :
    units (granted calls) + demand nbytes < uintMod := by
  have htotal := hg.total
  have hlimit := hg.limit
  unfold demand nunits unit uintMod at *
  rw [Nat.mod_eq_of_lt (by omega)]
  omega

/-- A call with an `int` that is the number of bytes. -/
theorem append (hg : Grown sz₀ calls) (hd : 0 < d) (hlt : d * unit < 2 ^ 31) :
    Grown sz₀ (calls ++ [(d * unit, sysSbrk others sz₀ calls (d * unit))]) ∧
      size sz₀ calls ≤ size sz₀ (calls ++ [(d * unit, sysSbrk others sz₀ calls (d * unit))]) := by
  have hi := i32_small hlt
  have hpos : 0 < d * unit := Nat.mul_pos hd unit_pos
  have hgrow : ∀ room, growproc room (size sz₀ calls) (i32 (d * unit : ℕ)) =
      if room then some (size sz₀ calls + d * unit) else none := by
    intro room
    rcases growproc_cases room hg.limit (d * unit) with ⟨-, -, hgrow⟩ | ⟨hle, -⟩
    · rw [hgrow, hi, Int.toNat_natCast]
    · omega
  have hsbrk : sysSbrk others sz₀ calls (d * unit) =
      if enough (others calls (d * unit)) (size sz₀ calls) (size sz₀ calls + d * unit) then
        some (size sz₀ calls) else none := by
    have hlimit := hg.limit
    have hu : u64 (size sz₀ calls + i32 (d * unit : ℕ)) = size sz₀ calls + d * unit := by
      rw [hi]
      unfold u64
      omega
    unfold sysSbrk
    dsimp only
    rw [hu, hgrow]
    split_ifs <;> rfl
  cases hroom : enough (others calls (d * unit)) (size sz₀ calls) (size sz₀ calls + d * unit) with
  | false =>
    rw [hsbrk, hroom, if_neg Bool.false_ne_true]
    have hsize : size sz₀ (calls ++ [(d * unit, none)]) = size sz₀ calls := by
      rw [size_append, isSome_none, hgrow]
      rfl
    have hgranted : granted (calls ++ [(d * unit, none)]) = granted calls := by simp [granted]
    refine ⟨⟨?_, ?_, ?_⟩, hsize.ge⟩
    · rw [hsize, hgranted]
      exact hg.total
    · rw [hsize, hgranted]
      exact hg.below
    · rw [hsize]
      exact hg.limit
  | true =>
    rw [hsbrk, hroom, if_pos rfl]
    have hsize : size sz₀ (calls ++ [(d * unit, some (size sz₀ calls))]) =
        size sz₀ calls + d * unit := by
      rw [size_append, isSome_some, hgrow]
      rfl
    have hgranted : granted (calls ++ [(d * unit, some (size sz₀ calls))]) =
        granted calls ++ [⟨size sz₀ calls, d⟩] := by
      unfold granted
      rw [filterMap_append]
      simp [Nat.mul_div_cancel d unit_pos]
    refine ⟨⟨?_, ?_, ?_⟩, by omega⟩
    · have htotal := hg.total
      have hcomm := Nat.mul_comm d unit
      rw [hsize, hgranted, units_append, Nat.mul_add]
      simp only [units_cons, units_nil, Nat.add_zero]
      omega
    · intro g hmem
      rw [hgranted, mem_append, mem_singleton] at hmem
      rw [hsize]
      rcases hmem with hmem | rfl
      · exact (hg.below g hmem).trans (Nat.le_add_right _ _)
      · rw [Block.stop, Nat.mul_comm]
    · rw [hsize, ← pages_le_iff]
      have hold := pages_le_iff.mpr hg.limit
      unfold enough at hroom
      have := of_decide_eq_true hroom
      omega

variable (others) in
/-- A call with any argument keeps the process within physical memory. -/
theorem limit_append (hg : Grown sz₀ calls) (k : ℕ) :
    size sz₀ (calls ++ [(k, sysSbrk others sz₀ calls k)]) ≤ 2 ^ 27 := by
  have hlimit := hg.limit
  rw [size_append]
  dsimp only
  cases hs : sysSbrk others sz₀ calls k with
  | none =>
    rcases growproc_cases false hg.limit k with ⟨-, -, hgrow⟩ | ⟨-, sz, hle, hgrow⟩
    · rw [isSome_none, hgrow]
      exact hg.limit
    · rw [isSome_none, hgrow]
      exact hle.trans hg.limit
  | some a =>
    rcases growproc_cases true hg.limit k with ⟨hpos, hu, hgrow⟩ | ⟨-, sz, hle, hgrow⟩
    · rw [isSome_some, hgrow, if_pos rfl, getD_some, ← pages_le_iff]
      unfold sysSbrk at hs
      dsimp only at hs
      rcases growproc_cases (enough (others calls k) (size sz₀ calls)
        (u64 (size sz₀ calls + i32 k))) hg.limit k with ⟨-, -, hans⟩ | ⟨hle, -⟩
      · rw [hans, hu] at hs
        split_ifs at hs with hroom
        · have hold := pages_le_iff.mpr hg.limit
          unfold enough at hroom
          have := of_decide_eq_true hroom
          omega
        · cases hs
      · omega
    · rw [isSome_some, hgrow]
      exact hle.trans hg.limit

variable (others) in
/-- A number of bytes that is not an `int` is refused only if it comes out as one unit and there
is no frame for that. -/
theorem refuses_iff (hg : Grown sz₀ calls) (hbig : 2 ^ 31 ≤ d * unit)
    (hd : d * unit ≤ 2 ^ 32 + unit) :
    (sysSbrk others sz₀ calls (d * unit) = none ↔ d * unit = 2 ^ 32 + unit ∧
      ¬ enough (others calls (d * unit)) (size sz₀ calls) (size sz₀ calls + unit)) ∧
      (sysSbrk others sz₀ calls (d * unit) = none →
        size sz₀ (calls ++ [(d * unit, none)]) = size sz₀ calls) := by
  have hint : i32 (d * unit : ℕ) = d * unit - 2 ^ 32 := by
    unfold i32 unit at *
    omega
  unfold sysSbrk
  dsimp only
  rw [map_eq_none_iff]
  rcases growproc_cases (enough (others calls (d * unit)) (size sz₀ calls)
    (u64 (size sz₀ calls + i32 (d * unit : ℕ)))) hg.limit (d * unit) with
    ⟨hpos, hu, hgrow⟩ | ⟨hle, sz, -, hgrow⟩
  · have hone : d * unit = 2 ^ 32 + unit := by
      unfold unit at *
      omega
    have hunit : (i32 (d * unit : ℕ)).toNat = unit := by omega
    rw [hgrow, hu, hunit]
    refine ⟨by simp [hone], fun _ => ?_⟩
    rw [size_append]
    rcases growproc_cases false hg.limit (d * unit) with ⟨-, -, hfalse⟩ | ⟨hle, -⟩
    · rw [isSome_none, hfalse]
      rfl
    · omega
  · rw [hgrow]
    refine ⟨iff_of_false nofun fun hone => ?_, nofun⟩
    have := unit_pos
    omega

end Grown

theorem Heap.stop_le (hheap : Heap base s free live)
    (hbelow : ∀ g ∈ granted s.sbrks, g.stop unit ≤ m) (hy : y ∈ live) : y.stop unit ≤ m := by
  obtain ⟨a, ha, hstop⟩ := Block.has_last (u := unit) (hheap.tiled.live_pos y hy)
  obtain ⟨g, hg, hga⟩ := (hheap.tiled.covered a).mpr (.inr ⟨y, hy, ha⟩)
  have hle := hga.le_stop.2
  have := hbelow g hg
  omega

/-- The newest live block is where memory was granted, and apart from the others. -/
theorem Sound.served {trace : List (ℕ × ℕ)} {nbytes : ℕ}
    (hs : Sound base ⟨t, (t.ret - unit, nbytes) :: trace⟩)
    (hbelow : ∀ g ∈ granted t.sbrks, g.stop unit ≤ m) :
    t.ret + nbytes ≤ m ∧
      ∀ e ∈ trace, t.ret + nbytes ≤ e.1 ∨ e.1 + unit * (t.mem e.1).size ≤ t.ret := by
  cases hs with
  | fresh _ htrace _ => cases htrace
  | heap free live hheap htrace hsizes =>
    dsimp only at hheap htrace hsizes
    cases live with
    | nil => cases htrace
    | cons y live =>
      rw [map_cons, map_cons, List.cons.injEq] at htrace
      obtain ⟨haddr, htrace⟩ := htrace
      have hy : y ∈ y :: live := by simp
      have hbase := hheap.base_lt y hy
      have hsize := hheap.live_size y hy
      have hroom := hsizes (t.ret - unit, nbytes) (by simp)
      have hstop := hheap.stop_le hbelow hy
      dsimp only at haddr hroom
      rw [← haddr, hsize] at hroom
      unfold Block.stop at hstop
      refine ⟨by omega, fun e he => ?_⟩
      have hmem : e.1 ∈ live.map Block.addr := htrace ▸ mem_map_of_mem he
      obtain ⟨z, hz, hze⟩ := mem_map.mp hmem
      have hapart := (pairwise_cons.mp hheap.tiled.live_apart).1 z hz
      have hzsize := hheap.live_size z (mem_cons_of_mem y hz)
      rw [← hze, hzsize]
      unfold Block.Apart Block.stop at hapart
      omega

theorem free_sbrks {fuel ap : ℕ} (hx : Malloc.free fuel s ap = some t) : t.sbrks = s.sbrks := by
  unfold Malloc.free at hx
  dsimp only at hx
  split at hx
  · cases hx
  · cases hx
    unfold joinLower joinUpper
    dsimp only
    split_ifs <;> rfl

/-- Each request fits the argument of `sbrk`, so that the process grows by what it is for. -/
theorem step_grown (hbase : 0 < base) (hlow : base + unit ≤ sz₀) {e : Event}
    (hinv : Sound base h ∧ Grown sz₀ h.state.sbrks) (hok : Proper h e)
    (hx : traced (step (sysSbrk others sz₀) base) note h e = .ok h') :
    Sound base h' ∧ Grown sz₀ h'.state.sbrks := by
  obtain ⟨hs, hg⟩ := hinv
  have hcount : Countable h e := by
    cases e with
    | malloc nbytes fuel => exact hg.countable hok.1
    | free ap fuel => trivial
    | store a hdr => trivial
  refine ⟨step_sound hbase (hg.freshAt hlow) hs ⟨hok, hcount⟩ hx, ?_⟩
  obtain ⟨hstep, -⟩ := traced_ok hx
  obtain ⟨t, trace⟩ := h'
  dsimp only at hstep ⊢
  cases e with
  | malloc nbytes fuel =>
    simp only [step] at hstep
    split at hstep
    · cases hstep
    · next u hu =>
      cases hstep
      obtain ⟨-, ⟨hsame, -⟩ | ⟨hcalls, -⟩⟩ :=
        malloc_sound hbase (hg.freshAt hlow) hs hok.1 hcount hu
      · rw [hsame]
        exact hg
      · rw [hcalls]
        exact (hg.append (lt_max_of_lt_right (by decide)) hok.2).1
  | free ap fuel =>
    simp only [step] at hstep
    split at hstep
    · cases hstep
    · next u hu =>
      cases hstep
      rw [free_sbrks hu]
      exact hg
  | store a hdr =>
    cases hstep
    exact hg

variable {mem : ℕ → Header}

theorem reach_grown (hbase : 0 < base) (hlow : base + unit ≤ sz₀) (hhigh : pages sz₀ ≤ frames)
    (hr : Reach (stepRel (traced (step (sysSbrk others sz₀) base) note)) Proper (start mem) h) :
    Sound base h ∧ Grown sz₀ h.state.sbrks := by
  refine hr.invariant ⟨.fresh rfl rfl rfl, ⟨rfl, ?_, pages_le_iff.mp hhigh⟩⟩
    fun _ _ _ => step_grown hbase hlow
  intro g hg
  cases hg

/-- After any sequence of calls with requests that fit the argument of `sbrk`, a request of
`nbytes` bytes returns. It is served if it fits that argument as well, or if the memory it comes
down to there, one unit, cannot be had; otherwise it is not. -/
theorem malloc_serves_iff (hbase : 0 < base) (hlow : base + unit ≤ sz₀) (hhigh : pages sz₀ ≤ frames)
    (hr : Reach (stepRel (traced (step (sysSbrk others sz₀) base) note)) Proper (start mem) h)
    (nbytes : ℕ) (hlt : nbytes < uintMod) :
    ∃ k t, (∀ fuel > k, malloc (sysSbrk others sz₀) base fuel h.state nbytes = some t) ∧
      (Serves sz₀ h t nbytes ↔ demand nbytes * unit < 2 ^ 31 ∨
        (demand nbytes * unit = 2 ^ 32 + unit ∧
          ¬ enough (others h.state.sbrks (demand nbytes * unit)) (size sz₀ h.state.sbrks)
            (size sz₀ h.state.sbrks + unit))) := by
  obtain ⟨hs, hg⟩ := reach_grown hbase hlow hhigh hr
  have hfresh : FreshAt base (sysSbrk others sz₀) h.state.sbrks := hg.freshAt hlow
  obtain ⟨k, t, ht⟩ := malloc_returns hbase hfresh hs hlt (hg.countable hlt)
  obtain ⟨hsound, hasked⟩ := malloc_sound hbase hfresh hs hlt (hg.countable hlt)
    (ht (k + 1) (Nat.lt_succ_self k))
  refine ⟨k, t, ht, ?_⟩
  by_cases hfits : demand nbytes * unit < 2 ^ 31
  · refine iff_of_true ?_ (.inl hfits)
    obtain ⟨hgt, hle⟩ : Grown sz₀ t.sbrks ∧ size sz₀ h.state.sbrks ≤ size sz₀ t.sbrks := by
      rcases hasked with ⟨hsame, -⟩ | ⟨hcalls, -⟩
      · rw [hsame]
        exact ⟨hg, le_refl _⟩
      · rw [hcalls]
        exact hg.append (lt_max_of_lt_right (by decide)) hfits
    refine ⟨hle, ?_⟩
    by_cases hret : t.ret = 0
    · exact .inl hret
    · rw [if_neg hret] at hsound
      exact .inr (hsound.served hgt.below)
  · have hdemand : demand nbytes = nunits nbytes ∧ 2 ^ 27 < nbytes ∧
        demand nbytes * unit ≤ 2 ^ 32 + unit := by
      unfold demand nunits unit uintMod at *
      rw [Nat.mod_eq_of_lt (by omega)] at *
      omega
    obtain ⟨-, hhuge, htop⟩ := hdemand
    rcases hasked with ⟨hsame, hret⟩ | ⟨hcalls, hret⟩
    · -- no free block is that large
      rw [if_neg hret] at hsound
      have hin := (hsound.served (m := size sz₀ h.state.sbrks) (by rw [hsame]; exact hg.below)).1
      have := hg.limit
      omega
    · obtain ⟨hrefuses, hsize⟩ := hg.refuses_iff others (by omega) htop
      have hlimit := hg.limit_append others (demand nbytes * unit)
      change t.sbrks = h.state.sbrks ++
        [(demand nbytes * unit, sysSbrk others sz₀ h.state.sbrks (demand nbytes * unit))] at hcalls
      change t.ret = 0 ↔ sysSbrk others sz₀ h.state.sbrks (demand nbytes * unit) = none at hret
      rw [← hcalls] at hlimit
      rw [or_iff_right hfits, ← hrefuses, ← hret]
      constructor
      · rintro ⟨-, hzero | ⟨hin, -⟩⟩
        · exact hzero
        · omega
      · intro hzero
        refine ⟨?_, .inl hzero⟩
        rw [hcalls, hret.mp hzero, hsize (hret.mp hzero)]

/-- After a session of a process with one page, while 100 frames are in use elsewhere. -/
theorem malloc_serves_iff_session : ∃ h k t,
    Reach (stepRel (traced (step (sysSbrk (fun _ _ => 100) 4096) 16) note)) Proper
      (start fun _ => ⟨0, 0⟩) h ∧
    (∀ fuel > k, malloc (sysSbrk (fun _ _ => 100) 4096) 16 fuel h.state 100000 = some t) ∧
    Serves 4096 h t 100000 := by
  have hrun : (follow (traced (step (sysSbrk (fun _ _ => 100) 4096) 16) note) Proper
      (start fun _ => ⟨0, 0⟩) session).isSome = true := by
    decide +kernel
  obtain ⟨h, hf⟩ := Option.isSome_iff_exists.mp hrun
  have hr := reach_of_follow session Reach.refl hf
  obtain ⟨k, t, hret, hserves⟩ :=
    malloc_serves_iff (by decide) (by decide) (by decide) hr 100000 (by decide)
  exact ⟨h, k, t, hr, hret, hserves.mpr (.inl (by decide))⟩

/-- The first call of `malloc` of a process with one page asks for all but one of 2 ^ 32 bytes and
gets a pointer, though the process grows by one unit only; for 32 bytes less, the process shrinks. -/
theorem malloc_grants_absent_memory : ∃ t u,
    malloc (sysSbrk (fun _ _ => 0) 4096) 16 9 (start fun _ => ⟨0, 0⟩).state (2 ^ 32 - 1) = some t ∧
    t.ret = 4112 ∧ size 4096 t.sbrks = 4112 ∧
    ¬ Serves 4096 (start fun _ => ⟨0, 0⟩) t (2 ^ 32 - 1) ∧
    malloc (sysSbrk (fun _ _ => 0) 4096) 16 9 (start fun _ => ⟨0, 0⟩).state (2 ^ 32 - 33) = some u ∧
    size 4096 u.sbrks = 4080 ∧ ¬ Serves 4096 (start fun _ => ⟨0, 0⟩) u (2 ^ 32 - 33) := by
  have hlarge : (malloc (sysSbrk (fun _ _ => 0) 4096) 16 9 (start fun _ => ⟨0, 0⟩).state
      (2 ^ 32 - 1)).map (fun t => (t.ret, size 4096 t.sbrks)) = some (4112, 4112) := by
    decide +kernel
  have hless : (malloc (sysSbrk (fun _ _ => 0) 4096) 16 9 (start fun _ => ⟨0, 0⟩).state
      (2 ^ 32 - 33)).map (fun t => size 4096 t.sbrks) = some 4080 := by
    decide +kernel
  obtain ⟨t, ht, heq⟩ := Option.map_eq_some_iff.mp hlarge
  obtain ⟨u, hu, hsize⟩ := Option.map_eq_some_iff.mp hless
  obtain ⟨hret, hgrown⟩ := Prod.mk.inj heq
  refine ⟨t, u, ht, hret, hgrown, ?_, hu, hsize, ?_⟩
  · rintro ⟨-, hzero | ⟨hin, -⟩⟩
    · omega
    · omega
  · rintro ⟨hle, -⟩
    rw [hsize] at hle
    exact absurd hle (by decide)

end Xv6.Malloc
