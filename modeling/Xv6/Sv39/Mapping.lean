import Xv6.Sv39.Tables
import Xv6.Library.Stops

/-!
# Mapping and unmapping pages

What `walk`, `mappages` and `uvmunmap` do to the finite map that a well-formed table stands for.
-/
namespace Xv6.Sv39

open Library Kalloc List Option
open Vm (u64 pgRoundDown)

variable {kend root va v d k t a : ℕ} {s s' : Kmem} {o : Option ℕ} {alloc doFree : Bool}

section Walk

/-- What `walk` for page `v` leaves. -/
structure Walked (kend root v : ℕ) (alloc : Bool) (o : Option ℕ) (s s' : Kmem) : Prop where
  wf : alloc = true → WellFormed kend s' root
  kept : ∀ w, lookup s' root w = lookup s root w
  nodes : ∀ d ≤ 2, ∀ k t, node s root d k = some t → node s' root d k = some t
  slot : ∀ p, o = some p → ∃ t, node s' root 2 (v / 512) = some t ∧ p = t + 8 * (v % 512)
  same : alloc = false → s' = s
  missing : o = none → node s root 2 (v / 512) = none

theorem node_none {level : ℕ} (hl : level ≤ 2)
    (h : node s root (2 - level) (v / 512 ^ (level + 1)) = none) :
    node s root 2 (v / 512) = none := by
  induction level with
  | zero => simpa using h
  | succ level ih =>
    apply ih (by omega)
    have hd : 2 - level = 2 - (level + 1) + 1 := by omega
    rw [pow_succ, ← Nat.div_div_eq_div_mul] at h
    rw [hd, node_succ, entry, h, bind_none, map_none]

theorem walkFrom_ok {level : ℕ} (h : alloc = true → WellFormed kend s root) (hl : level ≤ 2)
    (hn : node s root (2 - level) (va / pgSize / 512 ^ (level + 1)) = some t)
    (hx : walkFrom alloc va level t s = .ok o s') :
    Walked kend root (va / pgSize) alloc o s s' := by
  induction level generalizing s t with
  | zero =>
    obtain ⟨rfl, rfl⟩ := pure_ok.mp hx
    refine ⟨h, fun _ => rfl, fun _ _ _ _ hk => hk, fun p hp => ⟨t, by simpa using hn, ?_⟩,
      fun _ => rfl, fun hc => by cases hc⟩
    rw [← some.inj hp, px_eq]
    simp
  | succ level ih =>
    -- the entry at this level has index `k`
    set k := va / pgSize / 512 ^ (level + 1) with hk
    have hd : 2 - level = 2 - (level + 1) + 1 := by omega
    rw [pow_succ, ← Nat.div_div_eq_div_mul, ← hk] at hn
    rw [walkFrom, get_run, px_eq, ← hk] at hx
    rcases ite_ok hx with ⟨hv, hx⟩ | ⟨hv, hx⟩
    · apply ih h (by omega) _ hx
      rw [hd, node_succ, entry_of_node hn, validPte, if_neg hv, map_some]
    rw [not_not] at hv
    have hmissing : node s root 2 (va / pgSize / 512) = none := by
      apply node_none (show level ≤ 2 by omega)
      rw [hd, node_succ, ← hk, entry_of_node hn, validPte, if_pos hv, map_none]
    have hstop : Walked kend root (va / pgSize) alloc none s s :=
      ⟨h, fun _ => rfl, fun _ _ _ _ hk => hk, fun p hp => (by cases hp), fun _ => rfl,
        fun _ => hmissing⟩
    rcases pure_ite_ok hx with ⟨-, rfl, rfl⟩ | ⟨ha, hx⟩
    · exact hstop
    rw [Bool.not_eq_false] at ha
    have hwf := h ha
    rcases hka : kalloc s with ⟨page, u⟩
    simp only [hka] at hx
    rcases ite_ok hx with ⟨hz, hx⟩ | ⟨hne, hx⟩
    · obtain ⟨A, l, hsound, -⟩ := hwf.allocated
      rw [hz] at hka
      rw [set_run, kalloc_null hsound hwf.start hka] at hx
      obtain ⟨rfl, rfl⟩ := pure_ok.mp hx
      exact hstop
    · rw [set_run] at hx
      obtain ⟨hwf', hkept, hnode⟩ := hwf.attach (by omega) hn hv hka hne rfl
      have hw := ih (fun _ => hwf') (by omega)
        (by rw [hd, hnode _ (by omega), if_pos ⟨rfl, rfl⟩]) hx
      refine ⟨hw.wf, fun w => (hw.kept w).trans (hkept w), fun d hd k' t' hk' => ?_, hw.slot,
        fun hc => by simp [ha] at hc, fun _ => hmissing⟩
      apply hw.nodes d hd
      rw [hnode d hd, if_neg, hk']
      rintro ⟨rfl, rfl⟩
      rw [node_succ, entry_of_node hn, validPte, if_pos hv] at hk'
      cases hk'

theorem walk_ok (h : alloc = true → WellFormed kend s root)
    (hx : walk root va alloc s = .ok o s') :
    va < maxVa ∧ Walked kend root (va / pgSize) alloc o s s' := by
  obtain ⟨hva, hx⟩ := throw_ite_ok hx
  refine ⟨by omega, walkFrom_ok h le_rfl ?_ hx⟩
  have hzero : va / pgSize / 512 ^ (2 + 1) = 0 := by
    unfold maxVa pgSize at *
    omega
  rw [hzero]
  rfl

theorem WellFormed.walk (h : WellFormed kend s root) (hx : walk root va alloc s = .ok o s') :
    WellFormed kend s' root ∧ Walked kend root (va / pgSize) alloc o s s' := by
  have hw := (walk_ok (fun _ => h) hx).2
  cases alloc with
  | false => exact ⟨hw.same rfl ▸ h, hw⟩
  | true => exact ⟨hw.wf rfl, hw⟩

/-- `walk` finds the entry of a translation. -/
theorem Walked.finds {e : ℕ} (h : Walked kend root v alloc o s s') (he : lookup s root v = some e) :
    ∃ p, o = some p ∧ s'.mem.getLE p 8 = e := by
  cases o with
  | none => simp [lookup, entry, h.missing rfl] at he
  | some p =>
    obtain ⟨t, ht, rfl⟩ := h.slot p rfl
    rw [← h.kept, lookup, entry_of_node ht, validPte] at he
    split_ifs at he
    exact ⟨_, rfl, some.inj he⟩

theorem walkFrom_returns (level : ℕ) : Returns (walkFrom alloc va level t) s := by
  induction level generalizing s t with
  | zero => exact .pure _
  | succ level ih =>
    rw [walkFrom]
    apply StopsIn.read
    refine StopsIn.ite (fun _ => ih) fun _ => StopsIn.ite (fun _ => .pure _) fun _ => ?_
    rcases kalloc s with ⟨page, u⟩
    exact .ite (fun _ => .set (.pure _)) fun _ => .set ih

theorem walk_returns (hva : va < maxVa) : Returns (walk root va alloc) s :=
  .ite (fun hc => absurd hva (not_lt.mpr hc)) fun _ => walkFrom_returns 2

end Walk

section Mappages

variable {last perm pa : ℕ}

theorem mappagesLoop_ok {fuel : ℕ} (h : WellFormed kend s root) (ha : a % pgSize = 0)
    (hpa : pa < 2 ^ 64) (hperm : perm < 2 ^ 64)
    (hx : mappagesLoop root last perm fuel a pa s = .ok true s') :
    WellFormed kend s' root ∧ a ≤ last ∧ ∀ v, lookup s' root v =
      if a ≤ v * pgSize ∧ v * pgSize ≤ last
      then some (pa2pte ((pa + (v * pgSize - a)) % 2 ^ 64) ||| perm ||| pteV)
      else lookup s root v := by
  induction fuel generalizing a pa s with
  | zero => exact (throw_ok hx).elim
  | succ fuel ih =>
    obtain ⟨o, s1, hwalk, hx⟩ := bind_ok.mp hx
    obtain ⟨hwf, hw⟩ := h.walk hwalk
    cases o with
    | none => cases (pure_ok.mp hx).1
    | some p =>
      obtain ⟨t, ht, rfl⟩ := hw.slot p rfl
      simp only at hx
      rw [get_run] at hx
      obtain ⟨-, hx⟩ := throw_ite_ok hx
      rw [set_run] at hx
      set s2 := store s1 (t + 8 * (a / pgSize % 512)) (pa2pte pa ||| perm ||| pteV) with hs2
      obtain ⟨hnode, hlook⟩ := hwf.store_leaf ht (pa2pte_lt hpa hperm)
        (fun _ _ _ _ _ _ _ => rfl) hs2
      have hwf2 := hwf.congr hnode rfl rfl
      have hfirst : ∀ v, lookup s2 root v = if v * pgSize = a
          then some (pa2pte ((pa + (v * pgSize - a)) % 2 ^ 64) ||| perm ||| pteV)
          else lookup s root v := by
        intro v
        have hv : v = a / pgSize ↔ v * pgSize = a := by
          unfold pgSize at *
          omega
        simp only [hlook, hw.kept, hv, if_neg (valid_or _)]
        split_ifs with hc
        · rw [hc, Nat.sub_self, Nat.add_zero, Nat.mod_eq_of_lt hpa]
        · rfl
      rcases pure_ite_ok hx with ⟨he, -, rfl⟩ | ⟨hne, hx⟩
      · subst he
        refine ⟨hwf2, le_rfl, fun v => ?_⟩
        have hv : a ≤ v * pgSize ∧ v * pgSize ≤ a ↔ v * pgSize = a := by omega
        simp only [hfirst, hv]
      · have haligned : (a + pgSize) % pgSize = 0 := by rwa [Nat.add_mod_right]
        obtain ⟨hwf', hle, hrest⟩ := ih hwf2 haligned (Nat.mod_lt _ (by decide)) hx
        refine ⟨hwf', by omega, fun v => ?_⟩
        rw [hrest, hfirst]
        by_cases hc : a + pgSize ≤ v * pgSize ∧ v * pgSize ≤ last
        · have hpa' : ((pa + pgSize) % 2 ^ 64 + (v * pgSize - (a + pgSize))) % 2 ^ 64 =
              (pa + (v * pgSize - a)) % 2 ^ 64 := by omega
          rw [if_pos hc, if_pos (by omega), hpa']
        · have hv : a ≤ v * pgSize ∧ v * pgSize ≤ last ↔ v * pgSize = a := by
            unfold pgSize at *
            omega
          simp only [if_neg hc, hv]

/-- A `mappages` that returns 0 maps the pages of the range to consecutive frames. -/
theorem mappages_ok {size : ℕ} (h : WellFormed kend s root) (hpa : pa < 2 ^ 64)
    (hperm : perm < 2 ^ 64) (hx : mappages root va size pa perm s = .ok true s') :
    WellFormed kend s' root ∧ ∀ v, lookup s' root v =
      if pgRoundDown va ≤ v * pgSize ∧ v * pgSize ≤ pgRoundDown (u64 (va + size - 1))
      then some (pa2pte ((pa + (v * pgSize - pgRoundDown va)) % 2 ^ 64) ||| perm ||| pteV)
      else lookup s root v := by
  obtain ⟨-, hx⟩ := throw_ite_ok hx
  obtain ⟨hwf, -, hlook⟩ := mappagesLoop_ok h (Nat.mul_mod_left _ _) hpa hperm hx
  exact ⟨hwf, hlook⟩

end Mappages

section Unmap

variable {u : PUnit}

/-- The frame of a page is not a page of the table. -/
def OutsideTable (s : Kmem) (root v : ℕ) : Prop :=
  ∀ e, lookup s root v = some e → ∀ d ≤ 2, ∀ k, node s root d k ≠ some (pte2pa e)

/-- The translations of some pages were removed. -/
structure Cleared (root : ℕ) (P : ℕ → Prop) [DecidablePred P] (s s' : Kmem) : Prop where
  nodes : ∀ d ≤ 2, ∀ k, node s' root d k = node s root d k
  lookup : ∀ w, lookup s' root w = if P w then none else lookup s root w

theorem unmapPage_ok (h : Tree s root) (ha : a % pgSize = 0)
    (hf : doFree = true → OutsideTable s root (a / pgSize))
    (hx : unmapPage kend root doFree a s = .ok u s') :
    Cleared root (fun w => w * pgSize = a) s s' := by
  obtain ⟨o, s1, hwalk, hx⟩ := bind_ok.mp hx
  have hw : Walked kend root (a / pgSize) false o s s1 := (walk_ok (by simp) hwalk).2
  obtain rfl := hw.same rfl
  have hv : ∀ w, w = a / pgSize ↔ w * pgSize = a := by
    intro w
    unfold pgSize at *
    omega
  have hnone : lookup s1 root (a / pgSize) = none → s' = s1 →
      Cleared root (fun w => w * pgSize = a) s1 s' := by
    rintro hn rfl
    refine ⟨fun _ _ _ => rfl, fun w => ?_⟩
    split_ifs with hc
    · rw [(hv w).mpr hc, hn]
    · rfl
  cases o with
  | none =>
    apply hnone _ (pure_ok.mp hx).2.symm
    rw [lookup, entry, hw.missing rfl, bind_none]
  | some p =>
    obtain ⟨t, ht, rfl⟩ := hw.slot p rfl
    have hlookup := entry_of_node ht
    simp only at hx
    rw [get_run] at hx
    rcases ite_ok hx with ⟨hinv, hx⟩ | ⟨hval, hx⟩
    · apply hnone (hlookup.trans (if_pos hinv)) (pure_ok.mp hx).2.symm
    obtain ⟨-, hx⟩ := throw_ite_ok hx
    obtain ⟨_, s2, hfree, hx⟩ := bind_ok.mp hx
    have hagree := h.freeFrame_ok (fun hc => hf hc _ (hlookup.trans (if_neg hval))) hfree
    obtain ⟨hnodes, hleaf⟩ := h.store_leaf ht (by decide) hagree (modify_ok.mp hx).symm
    exact ⟨hnodes, fun w => by simpa [hv] using hleaf w⟩

/-- One page more. -/
theorem Cleared.succ {t t' : Kmem} {j : ℕ} (h : Tree s root) (ha : va % pgSize = 0)
    (hc : Cleared root (fun w => va ≤ w * pgSize ∧ w * pgSize < va + j * pgSize) s t)
    (hf : doFree = true → OutsideTable s root ((va + j * pgSize) / pgSize))
    (hx : unmapPage kend root doFree (va + j * pgSize) t = .ok u t') :
    Cleared root (fun w => va ≤ w * pgSize ∧ w * pgSize < va + (j + 1) * pgSize) s t' := by
  have haj : (va + j * pgSize) % pgSize = 0 := by rwa [Nat.add_mul_mod_self_right]
  have hv : (va + j * pgSize) / pgSize * pgSize = va + j * pgSize :=
    Nat.div_mul_cancel (Nat.dvd_of_mod_eq_zero haj)
  have hstep := unmapPage_ok (h.congr hc.nodes) haj ?_ hx
  · refine ⟨fun d hd k => (hstep.nodes d hd k).trans (hc.nodes d hd k), fun w => ?_⟩
    have hw : va ≤ w * pgSize ∧ w * pgSize < va + (j + 1) * pgSize ↔
        w * pgSize = va + j * pgSize ∨ va ≤ w * pgSize ∧ w * pgSize < va + j * pgSize := by
      unfold pgSize at *
      omega
    rw [hstep.lookup, hc.lookup, if_congr hw rfl rfl]
    by_cases h1 : w * pgSize = va + j * pgSize
    · rw [if_pos h1, if_pos (.inl h1)]
    · rw [if_neg h1, if_congr (or_iff_right h1) rfl rfl]
  · intro hfree e he d hd k
    rw [hc.lookup, hv, if_neg (by omega)] at he
    rw [hc.nodes d hd]
    exact hf hfree e he d hd k

/-- `uvmunmap` removes the translations of the range. -/
theorem uvmunmap_ok {npages : ℕ} (h : Tree s root)
    (hf : doFree = true → ∀ v, va ≤ v * pgSize → v * pgSize < u64 (va + npages * pgSize) →
      OutsideTable s root v)
    (hx : uvmunmap kend root va npages doFree s = .ok u s') :
    Cleared root (fun w => va ≤ w * pgSize ∧ w * pgSize < u64 (va + npages * pgSize)) s s' := by
  obtain ⟨ha, hx⟩ := throw_ite_ok hx
  rw [not_not] at ha
  set n := (u64 (va + npages * pgSize) - va) / pgSize with hn
  have hend : ∀ w, va ≤ w * pgSize ∧ w * pgSize < u64 (va + npages * pgSize) ↔
      va ≤ w * pgSize ∧ w * pgSize < va + n * pgSize := by
    intro w
    have hbound : u64 (va + npages * pgSize) % pgSize = 0 := by
      unfold u64 pgSize at *
      omega
    unfold pgSize at *
    omega
  have hloop := loop_ok (I := fun j t => Cleared root
    (fun w => va ≤ w * pgSize ∧ w * pgSize < va + j * pgSize) s t) hx ?_ ?_
  · rw [Nat.zero_add] at hloop
    exact ⟨hloop.nodes, fun w => by simpa only [hend] using hloop.lookup w⟩
  · exact ⟨fun _ _ _ => rfl, fun w => by rw [if_neg (by omega)]⟩
  · intro j t t' _ hj ih hpage
    refine ih.succ h ha (fun hfree => ?_) hpage
    have hv : (va + j * pgSize) / pgSize * pgSize = va + j * pgSize :=
      Nat.div_mul_cancel (Nat.dvd_of_mod_eq_zero (by rwa [Nat.add_mul_mod_self_right]))
    have hlt : j * pgSize < n * pgSize := Nat.mul_lt_mul_of_pos_right (by omega) (by decide)
    exact hf hfree _ (by omega) ((hend _).mpr ⟨by omega, by omega⟩).2

/-- An entry that `uvmunmap` can remove: it is a leaf, and its frame can be freed. -/
def Removable (kend root : ℕ) (doFree : Bool) (s : Kmem) (e : ℕ) : Prop :=
  pteFlags e ≠ pteV ∧ (doFree = true → Accepts kend (pte2pa e) ∧ s.getref (pte2pa e) = 1 ∧
    ∀ d ≤ 2, ∀ k, node s root d k ≠ some (pte2pa e))

/-- `kfree` keeps the counts. -/
theorem freeFrame_returns {pa : ℕ} (h : doFree = true → Accepts kend pa ∧ s.getref pa = 1) :
    ∃ s', freeFrame kend doFree pa s = .ok ⟨⟩ s' ∧ s'.getref = s.getref := by
  cases doFree with
  | false => exact ⟨s, rfl, rfl⟩
  | true =>
    obtain ⟨hacc, href⟩ := h rfl
    have hone : ¬ (s.fillPage pa 1).getref pa ≠ 1 := not_not.mpr href
    refine ⟨(s.fillPage pa 1).push (pa / pgSize), ?_, ?_⟩
    · rw [freeFrame, get_run, if_neg (by simp)]
      simp only [kfree, if_pos hacc, if_neg hone]
      rfl
    · funext q
      simp only [Kmem.getref, Kmem.push, Function.update_apply]
      split_ifs with hq
      · rw [hq]
        rfl
      · rfl

theorem unmapPage_returns (hva : a < maxVa)
    (hold : ∀ e, lookup s root (a / pgSize) = some e → Removable kend root doFree s e) :
    ∃ s', unmapPage kend root doFree a s = .ok ⟨⟩ s' ∧ s'.getref = s.getref := by
  have hreturns : Returns (walk root a false) s := walk_returns hva
  obtain ⟨o, s1, hwalk⟩ := hreturns.returns
  have hw : Walked kend root (a / pgSize) false o s s1 := (walk_ok (by simp) hwalk).2
  obtain rfl := hw.same rfl
  rw [unmapPage, bind_run hwalk]
  cases o with
  | none => exact ⟨s1, rfl, rfl⟩
  | some p =>
    obtain ⟨t, ht, rfl⟩ := hw.slot p rfl
    simp only
    rw [get_run]
    by_cases hinv : s1.mem.getLE (t + 8 * (a / pgSize % 512)) 8 &&& pteV = 0
    · exact ⟨s1, by rw [if_pos hinv]; rfl, rfl⟩
    obtain ⟨hflags, hframe⟩ : Removable kend root doFree s1
        (s1.mem.getLE (t + 8 * (a / pgSize % 512)) 8) :=
      hold _ ((entry_of_node ht).trans (if_neg hinv))
    obtain ⟨s2, hfree, href⟩ := freeFrame_returns fun hc => ⟨(hframe hc).1, (hframe hc).2.1⟩
    refine ⟨store s2 (t + 8 * (a / pgSize % 512)) 0, ?_, href⟩
    rw [if_neg hinv, if_neg hflags, bind_run hfree]
    rfl

/-- `uvmunmap` returns where the translations of an aligned range can be removed. -/
theorem uvmunmap_returns {npages : ℕ} (h : Tree s root) (ha : va % pgSize = 0)
    (hend : va + npages * pgSize ≤ maxVa)
    (hold : ∀ v e, va ≤ v * pgSize → v * pgSize < va + npages * pgSize →
      lookup s root v = some e → Removable kend root doFree s e) :
    ∃ s', uvmunmap kend root va npages doFree s = .ok ⟨⟩ s' := by
  have hu : u64 (va + npages * pgSize) = va + npages * pgSize := by
    unfold u64 maxVa at *
    omega
  have hn : (u64 (va + npages * pgSize) - va) / pgSize = npages := by
    rw [hu, Nat.add_sub_cancel_left, Nat.mul_div_cancel _ (by decide)]
  have hv : ∀ j, (va + j * pgSize) / pgSize * pgSize = va + j * pgSize := fun j =>
    Nat.div_mul_cancel (Nat.dvd_of_mod_eq_zero (by rwa [Nat.add_mul_mod_self_right]))
  have hreturns : Returns (uvmunmap kend root va npages doFree) s := by
    refine .ite (fun hc => absurd ha hc) fun _ => ?_
    rw [hn]
    have hstart : Cleared root (fun w => va ≤ w * pgSize ∧ w * pgSize < va + 0 * pgSize) s s :=
      ⟨fun _ _ _ => rfl, fun w => by rw [if_neg (by omega)]⟩
    have hpage : ∀ j t, j < 0 + npages →
        Cleared root (fun w => va ≤ w * pgSize ∧ w * pgSize < va + j * pgSize) s t →
        t.getref = s.getref →
        ∃ t', unmapPage kend root doFree (va + j * pgSize) t = .ok ⟨⟩ t' ∧
          t'.getref = t.getref := by
      intro j t hj hc href
      have hlt : j * pgSize < npages * pgSize := Nat.mul_lt_mul_of_pos_right (by omega) (by decide)
      apply unmapPage_returns (by omega)
      intro e he
      rw [hc.lookup, hv, if_neg (by omega)] at he
      obtain ⟨hflags, hframe⟩ := hold _ e (by rw [hv]; omega) (by rw [hv]; omega) he
      refine ⟨hflags, fun hfree => ?_⟩
      obtain ⟨hacc, hone, hout⟩ := hframe hfree
      exact ⟨hacc, href ▸ hone, fun d hd k => by rw [hc.nodes d hd]; exact hout d hd k⟩
    refine .loop (I := fun j t => Cleared root
      (fun w => va ≤ w * pgSize ∧ w * pgSize < va + j * pgSize) s t ∧ t.getref = s.getref)
      ⟨hstart, rfl⟩ ?_ ?_
    · rintro j t - hj ⟨hc, href⟩
      obtain ⟨t', hx, -⟩ := hpage j t hj hc href
      exact Returns.of_ok hx
    · rintro j t t' - hj ⟨hc, href⟩ hx
      obtain ⟨t'', hx', href'⟩ := hpage j t hj hc href
      obtain ⟨-, rfl⟩ := EStateM.Result.ok.inj (hx.symm.trans hx')
      have hlt : j * pgSize < npages * pgSize := Nat.mul_lt_mul_of_pos_right (by omega) (by decide)
      refine ⟨hc.succ h ha (fun hfree e he => ?_) hx, href'.trans href⟩
      exact ((hold _ e (by rw [hv]; omega) (by rw [hv]; omega) he).2 hfree).2.2
  obtain ⟨_, s', hx⟩ := hreturns.returns
  exact ⟨s', hx⟩

end Unmap

/-- The page that `uvmcreate` returns is an empty table. -/
theorem uvmcreate_ok {A : Finset ℕ} {l : List ℕ} (h : Sound kend s A l) (hstart : 0 < kend)
    (hx : uvmcreate s = (root, s')) (hne : root ≠ 0) :
    WellFormed kend s' root ∧ ∀ v, lookup s' root v = none := by
  rcases hk : kalloc s with ⟨page, u⟩
  simp only [uvmcreate, hk, Prod.mk.injEq] at hx
  obtain ⟨rfl, rfl⟩ := hx
  rw [if_neg hne]
  obtain ⟨⟨m, hm⟩, -, hacc, -⟩ := fresh h hk hne
  have hentry : ∀ d k, entry (u.fillPage page 0) page d k = none := by
    intro d
    induction d with
    | zero =>
      intro k
      have hzero := pte_fillPage_zero (s := u) (t := page) (Nat.mod_lt k (by decide : 512 > 0))
      by_cases hk : k / 512 = 0
      · rw [entry, node, if_pos hk, bind_some, validPte, hzero]
        rfl
      · rw [entry, node, if_neg hk, bind_none]
    | succ d ih =>
      intro k
      rw [entry, node_succ, ih, map_none, bind_none]
  have hnode : ∀ d k t, node (u.fillPage page 0) page d k = some t → d = 0 ∧ k = 0 ∧ t = page := by
    intro d k t ht
    cases d with
    | zero =>
      rw [node] at ht
      split_ifs at ht with hk
      exact ⟨rfl, hk, (some.inj ht).symm⟩
    | succ d => simp [node_succ, hentry] at ht
  refine ⟨⟨⟨fun d _ k t ht => ?_, fun d _ d' _ k k' t ht ht' => ?_⟩, hstart, insert page A, m, hm,
    fun d _ k t ht => ?_⟩, hentry 2⟩
  · rw [(hnode d k t ht).2.2]
    exact hacc.1
  · obtain ⟨rfl, rfl, -⟩ := hnode d k t ht
    obtain ⟨rfl, rfl, -⟩ := hnode d' k' t ht'
    exact ⟨rfl, rfl⟩
  · rw [(hnode d k t ht).2.2]
    exact Finset.mem_insert_self _ _

/-- A well-formed table is a finite map from pages to entries. `walk` returns below `MAXVA` and
finds what is there, and `uvmunmap` returns where the entries of an aligned range can be removed. -/
theorem page_table_is_map (h : WellFormed kend s root) :
    (∀ (va va' : ℕ) b b' s1 s2 p p', walk root va b s = .ok (some p) s1 →
      walk root va' b' s1 = .ok (some p') s2 → (p = p' ↔ va / pgSize = va' / pgSize)) ∧
    (∀ va b, va < maxVa → ∃ o s', walk root va b s = .ok o s' ∧
      ∀ e, lookup s root (va / pgSize) = some e → ∃ p, o = some p ∧ s'.mem.getLE p 8 = e) ∧
    (∀ va o s', walk root va true s = .ok o s' →
      WellFormed kend s' root ∧ ∀ v, lookup s' root v = lookup s root v) ∧
    (∀ (va size pa perm : ℕ) s', pa < 2 ^ 64 → perm < 2 ^ 64 →
      mappages root va size pa perm s = .ok true s' →
      WellFormed kend s' root ∧ ∀ v, lookup s' root v =
        if pgRoundDown va ≤ v * pgSize ∧ v * pgSize ≤ pgRoundDown (u64 (va + size - 1))
        then some (pa2pte ((pa + (v * pgSize - pgRoundDown va)) % 2 ^ 64) ||| perm ||| pteV)
        else lookup s root v) ∧
    (∀ pa perm, pa < 2 ^ 64 → perm < 1024 →
      pte2pa (pa2pte pa ||| perm ||| pteV) = pgRoundDown pa ∧
        pteFlags (pa2pte pa ||| perm ||| pteV) = perm ||| pteV) ∧
    (∀ (va npages : ℕ) doFree, va % pgSize = 0 → va + npages * pgSize ≤ maxVa →
      (∀ v e, va ≤ v * pgSize → v * pgSize < va + npages * pgSize → lookup s root v = some e →
        Removable kend root doFree s e) →
      ∃ s', uvmunmap kend root va npages doFree s = .ok ⟨⟩ s') ∧
    ∀ (va npages : ℕ) doFree s', (doFree = true → ∀ v, va ≤ v * pgSize →
        v * pgSize < u64 (va + npages * pgSize) → OutsideTable s root v) →
      uvmunmap kend root va npages doFree s = .ok ⟨⟩ s' →
      ∀ v, lookup s' root v =
        if va ≤ v * pgSize ∧ v * pgSize < u64 (va + npages * pgSize) then none
        else lookup s root v := by
  refine ⟨fun va va' b b' s1 s2 p p' hx hx' => ?_, fun va b hva => ?_, fun va o s' hx => ?_,
    fun va size pa perm s' hpa hperm hx => mappages_ok h hpa hperm hx,
    fun pa perm hpa hperm => pte2pa_pa2pte hpa hperm,
    fun va npages doFree ha hend hold => uvmunmap_returns h.toTree ha hend hold,
    fun va npages doFree s' hf hx => (uvmunmap_ok h.toTree hf hx).lookup⟩
  · obtain ⟨h1, hw⟩ := h.walk hx
    obtain ⟨h2, hw'⟩ := h1.walk hx'
    obtain ⟨t, ht, rfl⟩ := hw.slot p rfl
    obtain ⟨t', ht', rfl⟩ := hw'.slot p' rfl
    exact h2.slot_eq_iff (hw'.nodes 2 le_rfl _ t ht) ht'
  · have hreturns : Returns (walk root va b) s := walk_returns hva
    obtain ⟨o, s', hx⟩ := hreturns.returns
    exact ⟨o, s', hx, fun e he => (h.walk hx).2.finds he⟩
  · obtain ⟨hwf, hw⟩ := h.walk hx
    exact ⟨hwf, hw.kept⟩

/-- A table in the last four pages of memory, with two pages of devices mapped. -/
def twoPages : Option (Bool × ℕ) :=
  match kinit (phystop - 4 * pgSize) (boot fun _ => 0) with
  | .ok s =>
    match mappages (uvmcreate s).1 pgSize (pgSize + 1) 0x10000000 6 (uvmcreate s).2 with
    | .ok b _ => some (b, (uvmcreate s).1)
    | .error _ _ => none
  | .error _ => none

/-- The first of them is unmapped. -/
theorem page_table_is_map_two : ∃ kend s s' s'' root, WellFormed kend s root ∧
    mappages root pgSize (pgSize + 1) 0x10000000 6 s = .ok true s' ∧
    lookup s' root 1 = some (pa2pte 0x10000000 ||| 6 ||| pteV) ∧
    uvmunmap kend root pgSize 1 false s' = .ok ⟨⟩ s'' ∧ lookup s'' root 1 = none ∧
    lookup s'' root 2 = some (pa2pte 0x10001000 ||| 6 ||| pteV) := by
  obtain ⟨s, l, hs, hsound⟩ := Sound.kinit (phystop - 4 * pgSize) fun _ => 0
  have hrun : twoPages = some (true, phystop - pgSize) := by decide +kernel
  unfold twoPages at hrun
  rw [hs] at hrun
  simp only at hrun
  split at hrun
  · next b s' hmap =>
    obtain ⟨rfl, hroot⟩ := Prod.ext_iff.mp (Option.some.inj hrun)
    have hne : (uvmcreate s).1 ≠ 0 := by
      rw [show (uvmcreate s).1 = _ from hroot]
      decide +kernel
    have hwf : WellFormed (phystop - 4 * pgSize) (uvmcreate s).2 (uvmcreate s).1 :=
      (uvmcreate_ok hsound (by decide +kernel) rfl hne).1
    obtain ⟨hwf', hlookup⟩ :=
      (page_table_is_map hwf).2.2.2.1 _ _ _ 6 _ (by decide +kernel) (by decide) hmap
    have hone : lookup s' (uvmcreate s).1 1 = some (pa2pte 0x10000000 ||| 6 ||| pteV) :=
      (hlookup 1).trans ((if_pos (by decide +kernel)).trans (by decide +kernel))
    have htwo : lookup s' (uvmcreate s).1 2 = some (pa2pte 0x10001000 ||| 6 ||| pteV) :=
      (hlookup 2).trans ((if_pos (by decide +kernel)).trans (by decide +kernel))
    obtain ⟨s'', hunmap⟩ := (page_table_is_map hwf').2.2.2.2.2.1 pgSize 1 false (by decide)
      (by decide) (fun v e hlow hhigh he => by
        obtain rfl : v = 1 := by
          unfold pgSize at *
          omega
        rw [hone] at he
        cases he
        exact ⟨by decide +kernel, by simp⟩)
    have hcleared := (page_table_is_map hwf').2.2.2.2.2.2 pgSize 1 false s'' (by simp) hunmap
    exact ⟨_, _, s', s'', _, hwf, hmap, hone, hunmap,
      (hcleared 1).trans (if_pos (by decide +kernel)),
      ((hcleared 2).trans (if_neg (by decide +kernel))).trans htwo⟩
  · cases hrun

end Xv6.Sv39
