import Xv6.Vm.Child

/-!
# What the system calls do

Faulting, unmapping and exiting are sequences of elementary acts on the state. `Act L p`
lists them for process `p`; `L` tells whether pages may be unmapped without lowering
their count. An invariant of the kernel is proved by looking at each act once.
-/
namespace Xv6.Vm

open Library Relation Function Kernel List Option

def Vma.Fits (v : Vma) : Prop := v.addr < 2 ^ 64 ∧ 0 ≤ v.size ∧ v.size < 2 ^ 31

/-- The ranges that are unmapped: whole pages, or one of the process's regions. -/
def Kernel.Ranges (s : Kernel) (p addr : ℕ) (size : ℤ) : Prop :=
  (addr % pgSize = 0 ∧ size % pgSize = 0) ∨
    ∃ i v, s.slot p i = some v ∧ addr = v.addr ∧ size = v.size

/-- What faulting, unmapping and closing do. -/
inductive Act (L : Prop) (p : ℕ) (s : Kernel) : Kernel → Prop
  | transfer {s' : Kernel} (h : Transfer p s s') : Act L p s s'
  | freed {s' : Kernel} {va : ℕ} (h : Freed p va s s') : Act L p s s'
  | dropped {s' : Kernel} {va : ℕ} (h : Dropped p va s s') : Act L p s s'
  | leaked {s' : Kernel} {va : ℕ} (hL : L) (h : Leaked p va s s') : Act L p s s'
  | setFile (f : ℕ) (file : File) : Act L p s (s.setFile f file)
  | setOfile (fd : ℕ) (o : Option ℕ) :
      Act L p s (s.setProc p fun q => { q with ofile := update q.ofile fd o })
  | cut {i j addr : ℕ} {size off : ℤ} {v : Vma} {complete : Bool}
      (hslot : (s.proc p).vmas i = some j) (hin : (s.vmas j).Contains addr)
      (hsize : 0 ≤ size ∧ size < 2 ^ 31) (hrange : s.Ranges p addr size)
      (hcut : (s.vmas j).cut addr size = some (v, complete, off)) : Act L p s (s.setVma j v)
  | offset (j : ℕ) (off : ℤ) : Act L p s (s.setVma j { s.vmas j with offset := off })
  | dropSlot (i : ℕ) :
      Act L p s (s.setProc p fun q => { q with vmas := update q.vmas i none })
  | nmp : Act L p s (s.setProc p fun q => { q with nmp := s.minVma p })

abbrev Acts (L : Prop) (p : ℕ) : Kernel → Kernel → Prop := ReflTransGen (Act L p)

section Special

variable {L : Prop} {p : ℕ} {s s' : Kernel}

theorem Changes.acts (h : Changes p s s') : Acts L p s s' := by
  refine ReflTransGen.mono (fun _ _ hc => ?_) _ _ h
  cases hc with
  | transfer h => exact .transfer h
  | freed h => exact .freed h
  | dropped h => exact .dropped h

theorem Act.special (h : Act L p s s') (hsp : s.Special p) : s'.Special p := by
  cases h with
  | transfer h => exact h.steady.special hsp
  | freed h => exact h.unmapped.special hsp hsp
  | dropped h => exact h.unmapped.special hsp hsp
  | leaked _ h => exact h.unmapped.special hsp hsp
  | _ => exact hsp

theorem Acts.special (h : Acts L p s s') (hsp : s.Special p) : s'.Special p := by
  induction h with
  | refl => exact hsp
  | tail _ ha ih => exact ha.special ih

theorem Acts.state (h : Acts L p s s') (hp : (s.proc p).state ≠ .unused) :
    (s'.proc p).state ≠ .unused := by
  have hstep : ∀ t t', Act L p t t' → (t'.proc p).state = (t.proc p).state := by
    intro t t' ha
    cases ha with
    | transfer hd =>
      obtain ⟨b, hb⟩ := hd.steady.procs p
      rw [hb]
    | freed hf => rw [hf.unmapped.proc]
    | dropped hf => rw [hf.unmapped.proc]
    | leaked _ hf => rw [hf.unmapped.proc]
    | setFile f file => rfl
    | setOfile fd o => simp [setProc]
    | cut _ _ _ _ _ => rfl
    | offset j off => rfl
    | dropSlot i => simp [setProc]
    | nmp => simp [setProc]
  induction h with
  | refl => exact hp
  | tail _ ha ih =>
    rw [hstep _ _ ha]
    exact ih

end Special

section Unmap

variable {L : Prop} {p : ℕ} {s s' : Kernel} {u : PUnit}

/-- The resident pages of a range of addresses are referenced once. -/
def Kernel.Unshared (s : Kernel) (p addr : ℕ) (size : ℤ) : Prop :=
  ∀ k < pageCount size, ∀ pa, s.walkaddr p (u64 (addr + (k * pgSize : ℕ))) = some pa →
    s.ref pa = 1

theorem Unmapped.walkaddr {va va' pa : ℕ} (h : Unmapped p va s s')
    (hw : s'.walkaddr p va' = some pa) : s.walkaddr p va' = some pa := by
  obtain ⟨hva, pte, ht, hu, hpa⟩ := walkaddr_some hw
  unfold Kernel.walkaddr at hw ⊢
  rw [ht] at hw
  rw [h.trans] at ht
  split_ifs at ht
  rwa [ht]

theorem unmapPrivate_loop {addr n : ℕ} {size : ℤ} (hn : n = pageCount size)
    (hL : L ∨ s.Unshared p addr size)
    (hx : loop (fun k => unmapPrivate p (u64 (addr + (k * pgSize : ℕ)))) 0 n s = .ok u s') :
    Acts L p s s' := by
  have hinv : Acts L p s s' ∧ (L ∨ s'.Unshared p addr size) := by
    refine loop_ok (I := fun _ t => Acts L p s t ∧ (L ∨ t.Unshared p addr size)) hx
      ⟨.refl, hL⟩ ?_
    rintro k t t' - hk ⟨ha, hu⟩ hpage
    rcases unmapPrivate_ok hpage with ⟨rfl, -⟩ | hf | hl
    · exact ⟨ha, hu⟩
    · refine ⟨ha.tail (.freed hf), hu.imp_right fun hu k hk pa hw => ?_⟩
      have hsame : t'.ref = t.ref := by
        obtain ⟨_, -, -, -, -, rfl⟩ := hf
        rfl
      rw [hsame]
      exact hu k hk pa (hf.unmapped.walkaddr hw)
    · rcases hu with hL | hu
      · exact ⟨ha.tail (.leaked hL hl), .inl hL⟩
      · obtain ⟨pte, hw, -, -, -, hne, -⟩ := hl
        exact absurd (hu k (by omega) _ hw) hne
  exact hinv.1

theorem unmapRange_ok {bound addr : ℕ} {v : Vma} {size : ℤ} (hsp : s.Special p)
    (hL : L ∨ (v.flags = .mapPrivate → s.Unshared p addr size))
    (hx : unmapRange bound p v addr size s = .ok u s') : Acts L p s s' := by
  unfold unmapRange at hx
  cases hf : v.flags with
  | mapShared =>
    simp only [hf] at hx
    exact (writeBack_ok hsp hx).acts
  | mapPrivate =>
    simp only [hf] at hx
    exact unmapPrivate_loop rfl (hL.imp_right fun h => h hf) hx

theorem unmapRange_local {bound addr : ℕ} {v : Vma} {size : ℤ} (hsp : s.Special p)
    (hx : unmapRange bound p v addr size s = .ok u s') : Local p s s' := by
  unfold unmapRange at hx
  cases hf : v.flags with
  | mapShared =>
    simp only [hf] at hx
    exact (writeBack_ok hsp hx).toLocal
  | mapPrivate =>
    simp only [hf] at hx
    refine loop_ok (I := fun _ t => Local p s t) hx (Local.refl s) fun k t t' _ _ ih hpage => ?_
    rcases unmapPrivate_ok hpage with ⟨rfl, -⟩ | hf | hl
    · exact ih
    · exact ih.andThen hf.unmapped.toLocal
    · exact ih.andThen hl.unmapped.toLocal

theorem fileclose_spec {f : ℕ} (hx : fileclose f s = .ok u s') :
    ∃ file : File, s' = s.setFile f file ∧ file.ref + 1 = (s.file f).ref := by
  unfold fileclose at hx
  rw [get_run] at hx
  obtain ⟨hge, hx⟩ := throw_ite_ok hx
  rcases ite_ok hx with ⟨hgt, hx⟩ | ⟨hle, hx⟩
  · obtain rfl := set_ok.mp hx
    exact ⟨_, rfl, by simp only; omega⟩
  · obtain rfl := set_ok.mp hx
    exact ⟨_, rfl, by simp only; omega⟩

/-- The exact effect of `dropSlot`. -/
theorem dropSlot_spec {i j : ℕ} (hx : dropSlot p i j s = .ok u s') : ∃ file : File,
    file.ref = (s.file (s.vmas j).mfile).ref - 1 ∧
      s' = (s.setFile (s.vmas j).mfile file).setProc p fun q => { q with
        ofile := if (s.file (s.vmas j).mfile).ref = 1
          then update q.ofile (s.vmas j).fd none else q.ofile
        vmas := update q.vmas i none } := by
  unfold dropSlot at hx
  rw [get_run] at hx
  rcases ite_ok hx with ⟨href, hx⟩ | ⟨href, hx⟩
  · simp only [bind_ok, modify_ok] at hx
    obtain ⟨_, _, hclose, _, _, rfl, rfl⟩ := hx
    obtain ⟨file, rfl, hf⟩ := fileclose_spec hclose
    exact ⟨file, by omega, by simp [setProc, setFile, href]⟩
  · simp only [bind_ok, set_ok, modify_ok] at hx
    obtain ⟨_, _, rfl, rfl⟩ := hx
    exact ⟨{ s.file (s.vmas j).mfile with ref := (s.file (s.vmas j).mfile).ref - 1 }, rfl,
      by simp [setProc, href]⟩

theorem dropSlot_ok {i j : ℕ} (hx : dropSlot p i j s = .ok u s') : Acts L p s s' := by
  obtain ⟨file, -, rfl⟩ := dropSlot_spec hx
  have h1 : Acts L p s _ := .single (.setFile (s.vmas j).mfile file)
  by_cases href : (s.file (s.vmas j).mfile).ref = 1
  · have h2 := (h1.tail (.setOfile (s.vmas j).fd none)).tail (.dropSlot i)
    simpa [setProc, href] using h2
  · simpa [setProc, href] using h1.tail (.dropSlot i)

theorem dropSlot_regions {i j : ℕ} (hx : dropSlot p i j s = .ok u s') :
    s'.table = s.table ∧ s'.vmas = s.vmas ∧ ∃ o, s'.proc = update s.proc p
      { s.proc p with ofile := o, vmas := update (s.proc p).vmas i none } := by
  obtain ⟨file, -, rfl⟩ := dropSlot_spec hx
  exact ⟨rfl, rfl, _, rfl⟩

theorem slot_of_usedSlot {addr i : ℕ} (h : s.usedSlot p addr = some i) :
    i < perProcessVmas ∧ ∃ v, s.slot p i = some v ∧ v.used = true ∧ v.Contains addr := by
  refine ⟨mem_range.mp (mem_of_find?_eq_some h), ?_⟩
  have hany := find?_some h
  cases hs : s.slot p i with
  | none => simp [hs] at hany
  | some v =>
    simp only [hs, any_some, decide_eq_true_eq] at hany
    exact ⟨v, rfl, hany⟩

theorem Vma.cut_flags {v v' : Vma} {addr : ℕ} {size off : ℤ} {complete : Bool}
    (h : v.cut addr size = some (v', complete, off)) : v'.flags = v.flags := by
  unfold Vma.cut at h
  split_ifs at h <;> cases h <;> rfl

theorem Kernel.exists_of_slot {i : ℕ} {v : Vma} (h : s.slot p i = some v) :
    ∃ j, (s.proc p).vmas i = some j ∧ s.vmas j = v := by
  simpa [slot, map_eq_some_iff] using h

/-- A region was cut, the range unmapped, and the slot given up if nothing remains. -/
structure Deallocated (bound p addr : ℕ) (size : ℤ) (i j : ℕ) (v : Vma) (complete : Bool)
    (off : ℤ) (s s₁ s₂ s' : Kernel) : Prop where
  found : s.usedSlot p addr = some i
  slot : (s.proc p).vmas i = some j
  inside : (s.vmas j).Contains addr
  cut : (s.vmas j).cut addr size = some (v, complete, off)
  range : unmapRange bound p v addr size (s.setVma j v) = .ok ⟨⟩ s₁
  dropped : complete = true → dropSlot p i j (s₁.setVma j { s₁.vmas j with offset := off }) =
    .ok ⟨⟩ s₂
  kept : complete = false → s₂ = s₁.setVma j { s₁.vmas j with offset := off }
  result : s' = s₂.setProc p fun q => { q with nmp := s₂.minVma p }

theorem deallocvma_cases {bound addr : ℕ} {size : ℤ} {b : Bool}
    (hx : deallocvma bound p addr size s = .ok b s') :
    (s' = s ∧ ∀ i v, s.usedSlot p addr = some i → s.slot p i = some v → v.cut addr size = none) ∨
      ∃ i j v complete off s1 s2,
        Deallocated bound p addr size i j v complete off s s1 s2 s' := by
  unfold deallocvma at hx
  rw [get_run] at hx
  cases hi : s.usedSlot p addr with
  | none =>
    simp only [hi, pure_ok] at hx
    exact .inl ⟨hx.2.symm, fun _ _ h => by cases h⟩
  | some i =>
    obtain ⟨-, v0, hv0, -, hin⟩ := slot_of_usedSlot hi
    obtain ⟨j, hj, rfl⟩ := exists_of_slot hv0
    simp only [hi, hj] at hx
    cases hcut : (s.vmas j).cut addr size with
    | none =>
      simp only [hcut, pure_ok] at hx
      refine .inl ⟨hx.2.symm, fun i' v hi' hv => ?_⟩
      cases hi'
      rw [hv0] at hv
      cases hv
      exact hcut
    | some c =>
      obtain ⟨v, complete, off⟩ := c
      simp only [hcut, bind_ok, set_ok, modify_ok] at hx
      obtain ⟨_, _, rfl, _, s1, hrange, _, _, rfl, hx⟩ := hx
      right
      cases complete with
      | true =>
        simp only [if_true, bind_ok, modify_ok, pure_ok] at hx
        obtain ⟨_, s2, hdrop, _, _, rfl, -, rfl⟩ := hx
        exact ⟨i, j, v, true, off, s1, s2, hi, hj, hin, hcut, hrange, fun _ => hdrop,
          fun hc => by simp at hc, rfl⟩
      | false =>
        simp only [Bool.false_eq_true, if_false, bind_ok, modify_ok, pure_ok] at hx
        obtain ⟨_, _, rfl, -, rfl⟩ := hx
        exact ⟨i, j, v, false, off, s1, _, hi, hj, hin, hcut, hrange, fun hc => by simp at hc,
          fun _ => rfl, rfl⟩

/-- Unmapping a range that is shared only where leaks are allowed. -/
theorem deallocvma_ok {bound addr : ℕ} {size : ℤ} {b : Bool} (hsp : s.Special p)
    (hsize : 0 ≤ size ∧ size < 2 ^ 31) (hr : s.Ranges p addr size)
    (hL : L ∨ ∀ i v c, s.usedSlot p addr = some i → s.slot p i = some v → v.Contains addr →
      v.cut addr size = some c → v.flags = .mapPrivate → s.Unshared p addr size)
    (hx : deallocvma bound p addr size s = .ok b s') : Acts L p s s' := by
  rcases deallocvma_cases hx with ⟨rfl, -⟩ | ⟨i, j, v, complete, off, s1, s2, hd⟩
  · exact .refl
  · have h1 : Acts L p s (s.setVma j v) := .single (.cut hd.slot hd.inside hsize hr hd.cut)
    have hslot : s.slot p i = some (s.vmas j) := by simp [slot, hd.slot]
    have hL' : L ∨ (v.flags = .mapPrivate → (s.setVma j v).Unshared p addr size) :=
      hL.imp_right fun h hf =>
        h i _ _ hd.found hslot hd.inside hd.cut ((Vma.cut_flags hd.cut).symm.trans hf)
    have hsp1 : (s.setVma j v).Special p := hsp
    have h2 := h1.trans (unmapRange_ok hsp1 hL' hd.range)
    have h3 := h2.tail (Act.offset j off)
    rw [hd.result]
    cases complete with
    | true => exact (h3.trans (dropSlot_ok (hd.dropped rfl))).tail .nmp
    | false =>
      rw [hd.kept rfl]
      exact h3.tail .nmp

theorem sysMunmap_cases {bound addr : ℕ} {size : ℤ} {b : Bool}
    (hx : sysMunmap bound p addr size s = .ok b s') :
    s' = s ∨ (0 < size ∧ addr % pgSize = 0 ∧ size % pgSize = 0 ∧
      deallocvma bound p addr size s = .ok b s') := by
  unfold sysMunmap at hx
  rcases ite_ok hx with ⟨-, hx⟩ | ⟨haddr, hx⟩
  · exact .inl (pure_ok.mp hx).2.symm
  rcases ite_ok hx with ⟨-, hx⟩ | ⟨hneg, hx⟩
  · exact .inl (pure_ok.mp hx).2.symm
  rcases ite_ok hx with ⟨-, hx⟩ | ⟨hzero, hx⟩
  · exact .inl (pure_ok.mp hx).2.symm
  · exact .inr ⟨by omega, by omega, by omega, hx⟩

theorem sysMunmap_ok {bound addr : ℕ} {size : ℤ} {b : Bool} (hsp : s.Special p)
    (hsize : size < 2 ^ 31)
    (hL : L ∨ ∀ i v, s.usedSlot p addr = some i → s.slot p i = some v →
      v.flags = .mapPrivate → s.Unshared p addr size)
    (hx : sysMunmap bound p addr size s = .ok b s') : Acts L p s s' := by
  rcases sysMunmap_cases hx with rfl | ⟨hpos, haddr, hpages, hx⟩
  · exact .refl
  · exact deallocvma_ok hsp ⟨hpos.le, hsize⟩ (.inl ⟨haddr, hpages⟩)
      (hL.imp_right fun h i v _ hi hv _ _ hf => h i v hi hv hf) hx

/-- What `exit` comes to follows from its parts: files are closed, the pages of the image
freed and the regions unmapped. -/
theorem exit_induction {bound : ℕ} {I J : ℕ → Kernel → Prop} (h : I 0 s)
    (hclosed : ∀ fd t, I fd t → (t.proc p).ofile fd = none → I (fd + 1) t)
    (hclose : ∀ fd f file t, I fd t → (t.proc p).ofile fd = some f →
      file.ref + 1 = (t.file f).ref → I (fd + 1)
        ((t.setFile f file).setProc p fun q => { q with ofile := update q.ofile fd none }))
    (himage : ∀ t t1 t', I nOFile t → deallocSegment p (t.proc p).text t = .ok ⟨⟩ t1 →
      deallocSegment p (t.proc p).data t1 = .ok ⟨⟩ t' → Changes p t t' → J 0 t')
    (hskip : ∀ i t, i < perProcessVmas → J i t → t.slot p i = none → J (i + 1) t)
    (hunmap : ∀ i v b t t', i < perProcessVmas → J i t → t.slot p i = some v →
      deallocvma bound p v.addr v.size t = .ok b t' → J (i + 1) t')
    (hx : exit bound p s = .ok u s') :
    ∃ t, J perProcessVmas t ∧ s' = t.setProc p fun q => { q with state := .zombie } := by
  unfold exit at hx
  obtain ⟨-, hx⟩ := throw_ite_ok hx
  obtain ⟨_, s1, hfiles, hx⟩ := bind_ok.mp hx
  rw [get_run] at hx
  simp only [bind_ok, modify_ok] at hx
  obtain ⟨_, s2, htext, _, s3, hdata, _, s4, hslots, rfl⟩ := hx
  have h1 := loop_ok (I := I) hfiles h ?_
  · rw [Nat.zero_add] at h1
    have hc := (deallocSegment_ok htext).1.trans (deallocSegment_ok hdata).1
    have h3 : J 0 s3 := himage _ _ _ h1 htext hdata hc
    have h4 := loop_ok (I := J) hslots h3 ?_
    · rw [Nat.zero_add] at h4
      exact ⟨s4, h4, rfl⟩
    · intro i t t' _ hi ih hbody
      rw [get_run] at hbody
      cases hv : t.slot p i with
      | none =>
        simp only [hv, pure_ok] at hbody
        obtain ⟨-, rfl⟩ := hbody
        exact hskip i t (by omega) ih hv
      | some v =>
        simp only [hv, bind_ok, pure_ok] at hbody
        obtain ⟨b, t1, hde, -, rfl⟩ := hbody
        exact hunmap i v b t _ (by omega) ih hv hde
  · intro fd t t' _ _ ih hbody
    rw [get_run] at hbody
    cases hf : (t.proc p).ofile fd with
    | none =>
      simp only [hf, pure_ok] at hbody
      obtain ⟨-, rfl⟩ := hbody
      exact hclosed fd t ih hf
    | some f =>
      simp only [hf, bind_ok, modify_ok] at hbody
      obtain ⟨_, _, hx, rfl⟩ := hbody
      obtain ⟨file, rfl, href⟩ := fileclose_spec hx
      exact hclose fd f file t ih hf href

/-- Closing files and unmapping. `R` is what the unmapping of private pages relies on. -/
theorem exit_ok {bound : ℕ} {R : Kernel → Prop} (hsp : s.Special p) (hR : R s)
    (hstep : ∀ t t', t.Special p → R t → Act L p t t' → R t')
    (hfits : ∀ t i v, R t → t.slot p i = some v → v.Fits)
    (hL : L ∨ ∀ t addr size i v c, R t → 0 ≤ size ∧ size < 2 ^ 31 →
      t.slot p i = some v → v.Contains addr →
      v.cut addr size = some c → v.flags = .mapPrivate → t.Unshared p addr size)
    (hx : exit bound p s = .ok u s') :
    ∃ s1, Acts L p s s1 ∧ s' = s1.setProc p fun q => { q with state := .zombie } := by
  have hRs : ∀ t, Acts L p s t → R t := by
    intro t ha
    induction ha with
    | refl => exact hR
    | tail hs h ih => exact hstep _ _ (Acts.special hs hsp) ih h
  apply exit_induction (I := fun _ t => Acts L p s t) (J := fun _ t => Acts L p s t) .refl
    (fun _ _ ih _ => ih) (fun fd f file _ ih _ _ => (ih.tail (.setFile f file)).tail
    (.setOfile fd none))
    (fun _ _ _ ih _ _ hc => ih.trans hc.acts) (fun _ _ _ ih _ => ih) ?_ hx
  intro i v b t t' _ ih hv hde
  have hsize := (hfits t i v (hRs t ih) hv).2
  refine ih.trans (deallocvma_ok (ih.special hsp) hsize (.inr ⟨i, v, hv, rfl, rfl⟩) ?_ hde)
  exact hL.imp_right fun h i' w c _ hw hin hcut hf => h t _ _ i' w c (hRs t ih) hsize hw hin hcut hf

end Unmap

section Write

variable {L : Prop} {p f : ℕ} {s s' : Kernel} {u : PUnit}

inductive Write (p : ℕ) (s : Kernel) : Kernel → Prop
  | transfer {s' : Kernel} (h : Transfer p s s') : Write p s s'
  | setFile (f : ℕ) (file : File) (href : file.ref = (s.file f).ref) : Write p s (s.setFile f file)

abbrev Writes (p : ℕ) : Kernel → Kernel → Prop := ReflTransGen (Write p)

theorem Writes.acts (h : Writes p s s') : Acts L p s s' := by
  refine ReflTransGen.mono (fun _ _ hw => ?_) _ _ h
  cases hw with
  | transfer h => exact .transfer h
  | setFile f file _ => exact .setFile f file

theorem Writes.unmoved (h : Writes p s s') : Unmoved s s' := by
  induction h with
  | refl => exact .of_eq rfl rfl
  | tail _ hw ih =>
    refine ih.andThen ?_
    cases hw with
    | transfer ht => exact ht.steady.toLocal.unmoved
    | setFile f file _ => exact .setFile f file

theorem Transfers.writes (h : Transfers p s s') : Writes p s s' :=
  ReflTransGen.mono (fun _ _ hd => Write.transfer hd) _ _ h

theorem Writes.special (h : Writes p s s') (hsp : s.Special p) : s'.Special p :=
  Acts.special (L := True) h.acts hsp

theorem filewriteLoop_ok {fuel va n : ℕ} (hsp : s.Special p)
    (hx : filewriteLoop p f fuel va n s = .ok u s') : Writes p s s' := by
  induction fuel generalizing s va n with
  | zero =>
    obtain ⟨-, rfl⟩ := pure_ok.mp hx
    exact .refl
  | succ fuel ih =>
    unfold filewriteLoop at hx
    rcases pure_ite_ok hx with ⟨-, -, rfl⟩ | ⟨-, hx⟩
    · exact .refl
    rw [get_run] at hx
    obtain ⟨ip, s1, hlock, hx⟩ := bind_ok.mp hx
    obtain ⟨-, -, rfl⟩ := ilock_ok hlock
    obtain ⟨r, s2, hwrite, hx⟩ := bind_ok.mp hx
    have hl : Transfer p s { s with ilocked := ip :: s.ilocked } := .locked _
    have hd : Transfers p s s2 := .head hl (writei_ok (hl.steady.special hsp) hwrite)
    have h2 : Writes p s s2 := hd.writes
    have hrest : ∀ s3, Writes p s s3 → (iunlock ip >>= fun _ =>
        if r = min n maxWrite then filewriteLoop p f fuel (u64 (va + r)) (n - min n maxWrite)
        else pure ⟨⟩) s3 = .ok u s' → Writes p s s' := by
      intro s3 h3 hx
      obtain ⟨_, s4, hunlock, hx⟩ := bind_ok.mp hx
      have hs4 := modify_ok.mp hunlock
      have h4 : Writes p s s4 := hs4 ▸ h3.tail (.transfer (.locked _))
      rcases ite_ok hx with ⟨-, hx⟩ | ⟨-, hx⟩
      · exact h4.trans (ih (h4.special hsp) hx)
      · obtain ⟨-, rfl⟩ := pure_ok.mp hx
        exact h4
    rcases ite_ok hx with ⟨-, hx⟩ | ⟨-, hx⟩
    · obtain ⟨_, s3, hset, hx⟩ := bind_ok.mp hx
      have hs3 := modify_ok.mp hset
      exact hrest s3 (hs3 ▸ h2.tail (.setFile f _ rfl)) hx
    · exact hrest s2 h2 hx

theorem filewrite_ok {va n : ℕ} (hsp : s.Special p) (hx : filewrite p f va n s = .ok u s') :
    Writes p s s' := by
  unfold filewrite at hx
  rw [get_run] at hx
  rcases pure_ite_ok hx with ⟨-, -, rfl⟩ | ⟨-, hx⟩
  · exact .refl
  rcases ite_ok hx with ⟨-, hx⟩ | ⟨-, hx⟩
  · exact filewriteLoop_ok hsp hx
  · simp at hx

end Write

section Mmap

variable {p : ℕ} {s s' : Kernel}

/-- A region was added to the process, below all it had. -/
def Mapped (p : ℕ) (length : ℤ) (s s' : Kernel) : Prop :=
  ∃ i j v, i < perProcessVmas ∧ (s.proc p).vmas i = none ∧ s.freeVma = some j ∧
    v.used = true ∧ v.size = length ∧ 0 ≤ length ∧
    v.addr = lowerNmp (s.proc p).nmp length ∧ s' = s.addVma p i j v

theorem sysMmap_ok {length prot flags fd offset : ℤ} {r : Option ℕ}
    (hx : sysMmap p length prot flags fd offset s = .ok r s') :
    s' = s ∨ ((∃ a, r = some a) ∧ Mapped p length s s') := by
  unfold sysMmap at hx
  rw [get_run] at hx
  cases hf : s.argfd p fd <;> cases hp : Prot.ofInt prot <;> cases hm : MapFlags.ofInt flags <;>
    simp only [hf, hp, hm, pure_ok] at hx <;> try exact .inl hx.2.symm
  rcases ite_ok hx with ⟨-, hx⟩ | ⟨-, hx⟩
  · exact .inl (pure_ok.mp hx).2.symm
  rcases ite_ok hx with ⟨-, hx⟩ | ⟨-, hx⟩
  · exact .inl (pure_ok.mp hx).2.symm
  rcases ite_ok hx with ⟨-, hx⟩ | ⟨hlen, hx⟩
  · exact .inl (pure_ok.mp hx).2.symm
  unfold allocvma at hx
  rw [get_run] at hx
  cases hi : (range perProcessVmas).find? fun i => (s.proc p).vmas i = none with
  | none =>
    simp only [hi, pure_ok] at hx
    exact .inl hx.2.symm
  | some i =>
    cases hj : s.freeVma with
    | none =>
      simp only [hi, hj, pure_ok] at hx
      exact .inl hx.2.symm
    | some j =>
      simp only [hi, hj, bind_ok, set_ok, pure_ok] at hx
      obtain ⟨_, _, rfl, hr, rfl⟩ := hx
      refine .inr ⟨⟨_, hr.symm⟩, i, j, _, mem_range.mp (mem_of_find?_eq_some hi), ?_, hj, rfl, rfl,
        by omega, rfl, rfl⟩
      simpa using find?_some hi

end Mmap

end Xv6.Vm
