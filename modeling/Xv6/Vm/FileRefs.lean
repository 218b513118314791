import Xv6.Vm.Lifetimes

/-!
# References to open files

Descriptors of live processes and used regions hold files. In every run the count of a file is the
number of its holders, as long as no `munmap` that drops the last reference to a file finds the
descriptor that the region was mapped from in use again, which `deallocvma` then clears.
-/
namespace Xv6.Vm

open Library Relation Function Kernel List Option

inductive FileHandle
  | ofile (q fd : ℕ)
  | vma (j : ℕ)
  deriving DecidableEq

def Proc.Live (q : Proc) : Prop := q.state ≠ .unused ∧ q.state ≠ .zombie

instance (q : Proc) : Decidable q.Live := by
  unfold Proc.Live
  infer_instance

def Kernel.fileOwn (s : Kernel) : FileHandle → Option ℕ
  | .ofile q fd => (s.proc q).ofile fd
  | .vma j => if (s.vmas j).used then some (s.vmas j).mfile else none

/-- Counts and holders of files agree, up to what the call in progress holds. -/
structure Kernel.FilesCounted (s : Kernel) (debt : ℕ → ℤ) : Prop where
  balanced : Balanced s.fileOwn (fun _ => True) [] (fun f => (s.file f).ref) debt
  distinct : ∀ q i q' i' j, (s.proc q).vmas i = some j → (s.proc q').vmas i' = some j →
    q = q' ∧ i = i'
  used : ∀ q i j, (s.proc q).vmas i = some j → (s.vmas j).used = true
  descriptors : ∀ q fd f, (s.proc q).ofile fd = some f → fd < nOFile ∧ (s.proc q).Live
  entries : ∀ j, (s.vmas j).used = true → j < nVmas

namespace Kernel.FilesCounted

variable {s s' : Kernel} {D : ℕ → ℤ} {p fd f i j : ℕ}

theorem fileOwn_setVma (v : Vma) : (s.setVma j v).fileOwn =
    update s.fileOwn (.vma j) (if v.used then some v.mfile else none) := by
  funext x
  cases x with
  | ofile q k =>
    rw [update_of_ne (by simp)]
    rfl
  | vma k =>
    by_cases hk : k = j <;> simp [fileOwn, setVma, hk]

section

variable (h : s.FilesCounted D)
include h

/-- What does not concern files, descriptors and regions. -/
theorem congr (href : ∀ f, (s'.file f).ref = (s.file f).ref)
    (hproc : ∀ q, (s'.proc q).ofile = (s.proc q).ofile ∧ (s'.proc q).vmas = (s.proc q).vmas)
    (hlive : ∀ q fd f, (s.proc q).ofile fd = some f → (s.proc q).Live → (s'.proc q).Live)
    (hvmas : ∀ j, (s'.vmas j).used = (s.vmas j).used ∧ (s'.vmas j).mfile = (s.vmas j).mfile) :
    s'.FilesCounted D := by
  have hown : s'.fileOwn = s.fileOwn := by
    funext x
    cases x with
    | ofile q fd => simp [fileOwn, hproc q]
    | vma j => simp [fileOwn, hvmas j]
  refine ⟨?_, fun q i q' i' j hi hi' => ?_, fun q i j hi => ?_, fun q fd f hf => ?_, fun j hj => ?_⟩
  · rw [hown, funext href]
    exact h.balanced
  · rw [(hproc _).2] at hi hi'
    exact h.distinct q i q' i' j hi hi'
  · rw [(hproc q).2] at hi
    rw [(hvmas j).1]
    exact h.used q i j hi
  · rw [(hproc q).1] at hf
    obtain ⟨hlt, hl⟩ := h.descriptors q fd f hf
    exact ⟨hlt, hlive q fd f hf hl⟩
  · rw [(hvmas j).1] at hj
    exact h.entries j hj

theorem of_procs (hf : s'.file = s.file) (hv : s'.vmas = s.vmas)
    (hp : ∀ q, (s'.proc q).ofile = (s.proc q).ofile ∧ (s'.proc q).vmas = (s.proc q).vmas ∧
      (s'.proc q).state = (s.proc q).state) : s'.FilesCounted D := by
  apply h.congr
  · intro f
    rw [hf]
  · intro q
    exact ⟨(hp q).1, (hp q).2.1⟩
  · intro q fd f _ hl
    rwa [Proc.Live, (hp q).2.2]
  · intro j
    rw [hv]
    exact ⟨rfl, rfl⟩

/-- A process that is not live may change all but its descriptors and slots. -/
theorem of_dead (hdead : ¬(s.proc p).Live) (hf : s'.file = s.file)
    (hv : s'.vmas = s.vmas) (hother : ∀ q, q ≠ p → s'.proc q = s.proc q)
    (hp : (s'.proc p).ofile = (s.proc p).ofile ∧ (s'.proc p).vmas = (s.proc p).vmas) :
    s'.FilesCounted D := by
  apply h.congr
  · intro f
    rw [hf]
  · intro q
    by_cases hq : q = p
    · rw [hq]
      exact hp
    · rw [hother q hq]
      exact ⟨rfl, rfl⟩
  · intro q fd f _ hl
    have hq : q ≠ p := by
      rintro rfl
      exact hdead hl
    rwa [hother q hq]
  · intro j
    rw [hv]
    exact ⟨rfl, rfl⟩

theorem of_local (hl : Local p s s') : s'.FilesCounted D := by
  apply h.of_procs hl.file hl.vmas
  intro q
  obtain ⟨b, hb⟩ := hl.procs q
  rw [hb]
  exact ⟨rfl, rfl, rfl⟩

theorem withFiles {ino : ℕ → Inode} {fb : ℕ} : (s.withFiles ino fb).FilesCounted D :=
  h.of_procs rfl rfl fun _ => ⟨rfl, rfl, rfl⟩

theorem setProc {g : Proc → Proc}
    (hf : (g (s.proc p)).ofile = (s.proc p).ofile) (hv : (g (s.proc p)).vmas = (s.proc p).vmas)
    (hs : ∀ fd f, (s.proc p).ofile fd = some f → (s.proc p).Live → (g (s.proc p)).Live) :
    (s.setProc p g).FilesCounted D := by
  apply h.congr
  · intro f
    rfl
  · intro q
    by_cases hq : q = p
    · subst hq
      simp [Kernel.setProc, hf, hv]
    · simp [Kernel.setProc, hq]
  · intro q fd f hfd hq
    by_cases hqp : q = p
    · subst hqp
      simpa [Kernel.setProc] using hs fd f hfd hq
    · simpa [Kernel.setProc, hqp] using hq
  · intro j
    exact ⟨rfl, rfl⟩

theorem setFile (file : File) :
    (s.setFile f file).FilesCounted (D + Pi.single f ((file.ref : ℤ) - (s.file f).ref)) := by
  have href : (fun k => ((s.setFile f file).file k).ref) =
      update (fun k => (s.file k).ref) f file.ref := by
    funext k
    by_cases hk : k = f <;> simp [Kernel.setFile, hk]
  refine ⟨?_, h.distinct, h.used, h.descriptors, h.entries⟩
  rw [href]
  exact h.balanced.recount (by simp) file.ref

theorem setFile_ref {file : File} (href : file.ref = (s.file f).ref) :
    (s.setFile f file).FilesCounted D := by
  have h' := h.setFile (f := f) file
  rw [href, sub_self, Pi.single_zero, add_zero] at h'
  exact h'

omit h in
theorem fileOwn_setOfile (o : Option ℕ) :
    (s.setProc p fun q => { q with ofile := update q.ofile fd o }).fileOwn =
      update s.fileOwn (.ofile p fd) o := by
  funext x
  cases x with
  | ofile q k =>
    by_cases hq : q = p
    · by_cases hk : k = fd <;> simp [Kernel.fileOwn, Kernel.setProc, hq, hk]
    · simp [Kernel.fileOwn, Kernel.setProc, hq]
  | vma j =>
    rw [update_of_ne (by simp)]
    rfl

theorem setOfile {D' : ℕ → ℤ} (o : Option ℕ)
    (hb : Balanced (update s.fileOwn (.ofile p fd) o) (fun _ => True) []
      (fun f => (s.file f).ref) D') (hfd : o ≠ none → fd < nOFile ∧ (s.proc p).Live) :
    (s.setProc p fun q => { q with ofile := update q.ofile fd o }).FilesCounted D' := by
  set t := s.setProc p fun q => { q with ofile := update q.ofile fd o } with ht
  have hproc : ∀ q, (t.proc q).vmas = (s.proc q).vmas ∧ (t.proc q).state = (s.proc q).state := by
    intro q
    by_cases hq : q = p
    · subst hq
      simp [ht, Kernel.setProc]
    · simp [ht, Kernel.setProc, hq]
  refine ⟨?_, fun q i q' i' j hi hi' => ?_, fun q i j hi => ?_, fun q k g hg => ?_, h.entries⟩
  · rw [ht, fileOwn_setOfile]
    exact hb
  · rw [(hproc _).1] at hi hi'
    exact h.distinct q i q' i' j hi hi'
  · rw [(hproc q).1] at hi
    exact h.used q i j hi
  · rw [Proc.Live, (hproc q).2]
    by_cases hq : q = p
    · subst hq
      by_cases hk : k = fd
      · subst hk
        apply hfd
        rintro rfl
        simp [ht, Kernel.setProc] at hg
      · apply h.descriptors q k g
        simpa [ht, Kernel.setProc, hk] using hg
    · apply h.descriptors q k g
      simpa [ht, Kernel.setProc, hq] using hg

theorem openFd (hlt : fd < nOFile) (hlive : (s.proc p).Live) (hnone : (s.proc p).ofile fd = none) :
    (s.setProc p fun q => { q with ofile := update q.ofile fd (some f) }).FilesCounted
      (D - Pi.single f 1) :=
  h.setOfile (some f)
    (h.balanced.attach (fun _ _ => Iff.rfl) hnone (by simp) fun _ _ => ⟨trivial, trivial⟩)
    fun _ => ⟨hlt, hlive⟩

theorem closeFd (hf : (s.proc p).ofile fd = some f) :
    (s.setProc p fun q => { q with ofile := update q.ofile fd none }).FilesCounted
      (D + Pi.single f 1) :=
  h.setOfile none (h.balanced.detach (fun _ _ => Iff.rfl) hf) fun hc => absurd rfl hc

/-- A region is added in a free entry, with a reference to its file. -/
theorem addVma {v : Vma} (hj : s.freeVma = some j) (hv : v.used = true) :
    (s.addVma p i j v).FilesCounted D := by
  have hlt : j < nVmas := mem_range.mp (mem_of_find?_eq_some hj)
  have hfree : (s.vmas j).used = false := by simpa using find?_some hj
  have hunref : ∀ q k, (s.proc q).vmas k ≠ some j := by
    intro q k hr
    rw [h.used q k j hr] at hfree
    cases hfree
  have hown : (s.addVma p i j v).fileOwn = update s.fileOwn (.vma j) (some v.mfile) := by
    have hset := fileOwn_setVma (s := s) (j := j) v
    rw [hv, if_pos rfl] at hset
    rw [← hset]
    funext x
    cases x with
    | ofile q k =>
      by_cases hq : q = p
      · subst hq
        simp [Kernel.fileOwn, Kernel.proc_addVma, Kernel.setVma]
      · simp [Kernel.fileOwn, Kernel.proc_addVma_of_ne hq, Kernel.setVma]
    | vma k => rfl
  have href : (fun f => ((s.addVma p i j v).file f).ref) =
      update (fun f => (s.file f).ref) v.mfile ((s.file v.mfile).ref + 1) := by
    funext f
    by_cases hf : f = v.mfile <;>
      simp [Kernel.addVma, Kernel.setProc, Kernel.setFile, Kernel.setVma, hf]
  have hbal := (h.balanced.recount (a := v.mfile) (by simp) ((s.file v.mfile).ref + 1)).attach
    (a := v.mfile) (h := .vma j) (fun _ _ => Iff.rfl) (by simp [Kernel.fileOwn, hfree]) (by simp)
    fun _ _ => ⟨trivial, trivial⟩
  have hvmas : ∀ q k, ((s.addVma p i j v).proc q).vmas k =
      if q = p ∧ k = i then some j else (s.proc q).vmas k := by
    intro q k
    by_cases hq : q = p
    · subst hq
      by_cases hk : k = i <;> simp [Kernel.proc_addVma, hk]
    · simp [Kernel.proc_addVma_of_ne hq, hq]
  refine ⟨?_, fun q k q' k' j' hr hr' => ?_, fun q k j' hr => ?_, fun q k g hg => ?_,
    fun k hk => ?_⟩
  · rw [hown, href]
    convert hbal using 1
    push_cast
    simp
  · rw [hvmas] at hr hr'
    split_ifs at hr hr' with hc hc' hc'
    · exact ⟨hc.1.trans hc'.1.symm, hc.2.trans hc'.2.symm⟩
    · cases hr
      exact absurd hr' (hunref q' k')
    · cases hr'
      exact absurd hr (hunref q k)
    · exact h.distinct q k q' k' j' hr hr'
  · rw [hvmas] at hr
    rw [Kernel.vmas_addVma]
    split_ifs at hr with hc
    · cases hr
      simpa using hv
    · have hne : j' ≠ j := fun he => hunref q k (he ▸ hr)
      simpa [hne] using h.used q k j' hr
  · by_cases hq : q = p
    · subst hq
      rw [Kernel.proc_addVma] at hg ⊢
      exact h.descriptors q k g hg
    · rw [Kernel.proc_addVma_of_ne hq] at hg ⊢
      exact h.descriptors q k g hg
  · rw [Kernel.vmas_addVma] at hk
    by_cases hkj : k = j
    · rw [hkj]
      exact hlt
    · exact h.entries k (by simpa [hkj] using hk)

end

theorem ref_pos (h : s.FilesCounted 0) (hj : (s.vmas j).used = true) :
    1 ≤ (s.file (s.vmas j).mfile).ref := by
  have hc := h.balanced.count (s.vmas j).mfile (by simp)
  have hmem : (.vma j : FileHandle) ∈ holders s.fileOwn (s.vmas j).mfile := by
    simp [holders, fileOwn, hj]
  have hpos := (Set.ncard_pos (h.balanced.finite (s.vmas j).mfile)).mpr ⟨_, hmem⟩
  simp only [Pi.zero_apply] at hc
  omega

/-- A region is given up, with its slot and its reference. -/
theorem dropVma (h : s.FilesCounted 0) (hslot : (s.proc p).vmas i = some j)
    (href : ∀ f, (s'.file f).ref =
      if f = (s.vmas j).mfile then (s.file f).ref - 1 else (s.file f).ref)
    (hproc : ∀ q, (s'.proc q).ofile = (s.proc q).ofile ∧ (s'.proc q).state = (s.proc q).state ∧
      ∀ k, (s'.proc q).vmas k = if q = p ∧ k = i then none else (s.proc q).vmas k)
    (hvmas : ∀ k, k ≠ j → (s'.vmas k).used = (s.vmas k).used ∧ (s'.vmas k).mfile = (s.vmas k).mfile)
    (hj : (s'.vmas j).used = false) : s'.FilesCounted 0 := by
  have hused := h.used p i j hslot
  have hpos := h.ref_pos hused
  have hown : s'.fileOwn = update s.fileOwn (.vma j) none := by
    funext x
    cases x with
    | ofile q k => simp [fileOwn, hproc q]
    | vma k =>
      by_cases hk : k = j
      · simp [fileOwn, hk, hj]
      · simp [fileOwn, hk, hvmas k hk]
  have hrefs : (fun f => (s'.file f).ref) = update (fun f => (s.file f).ref)
      (s.vmas j).mfile ((s.file (s.vmas j).mfile).ref - 1) := by
    funext f
    by_cases hf : f = (s.vmas j).mfile <;> simp [href, hf]
  have hbal := (h.balanced.detach (h := .vma j) (a := (s.vmas j).mfile) (fun _ _ => Iff.rfl)
    (by simp [fileOwn, hused])).recount (a := (s.vmas j).mfile) (by simp)
    ((s.file (s.vmas j).mfile).ref - 1)
  refine ⟨?_, fun q k q' k' j' hr hr' => ?_, fun q k j' hr => ?_, fun q k g hg => ?_,
    fun k hk => ?_⟩
  · rw [hown, hrefs]
    convert hbal using 1
    funext f
    by_cases hf : f = (s.vmas j).mfile
    · subst hf
      simp only [Pi.zero_apply, Pi.add_apply, Pi.single_eq_same]
      omega
    · simp [hf]
  · rw [(hproc _).2.2] at hr hr'
    split_ifs at hr hr'
    exact h.distinct q k q' k' j' hr hr'
  · rw [(hproc q).2.2] at hr
    split_ifs at hr with hc
    have hne : j' ≠ j := by
      rintro rfl
      exact hc (h.distinct q k p i j' hr hslot)
    rw [(hvmas j' hne).1]
    exact h.used q k j' hr
  · rw [(hproc q).1] at hg
    rw [Proc.Live, (hproc q).2.1]
    exact h.descriptors q k g hg
  · have hne : k ≠ j := by
      rintro rfl
      rw [hj] at hk
      cases hk
    rw [(hvmas k hne).1] at hk
    exact h.entries k hk

end Kernel.FilesCounted

section Unmap

variable {bound p addr i j : ℕ} {size off : ℤ} {v : Vma} {complete : Bool} {s s1 s2 s' : Kernel}
  {u : PUnit}

theorem Vma.cut_mfile {v0 : Vma} (h : v0.cut addr size = some (v, complete, off)) :
    v.mfile = v0.mfile ∧ v.fd = v0.fd ∧ (v.used = true ↔ v0.used = true ∧ complete = false) := by
  unfold Vma.cut at h
  split_ifs at h <;> cases h <;> simp

/-- `deallocvma` drops one reference with the region, if the descriptor it clears is free. -/
theorem Deallocated.counted (hd : Deallocated bound p addr size i j v complete off s s1 s2 s')
    (hsp : s.Special p) (h : s.FilesCounted 0)
    (hfd : complete = true → (s.file (s.vmas j).mfile).ref = 1 →
      (s.proc p).ofile (s.vmas j).fd = none) :
    s'.FilesCounted 0 ∧ ∀ q, (s'.proc q).ofile = (s.proc q).ofile ∧
      (s'.proc q).state = (s.proc q).state := by
  have hl : Local p (s.setVma j v) s1 := unmapRange_local hsp hd.range
  obtain ⟨hmfile, hfdv, hused⟩ := Vma.cut_mfile hd.cut
  have hproc : ∀ q, ∃ c, s1.proc q = { s.proc q with killed := c } := hl.procs
  have hvmas : s1.vmas = update s.vmas j v := hl.vmas
  have hfile : s1.file = s.file := hl.file
  have h2 : s2.FilesCounted 0 ∧ ∀ q, (s2.proc q).ofile = (s.proc q).ofile ∧
      (s2.proc q).state = (s.proc q).state := by
    cases complete with
    | false =>
      rw [hd.kept rfl]
      have hsame : ∀ q, (s1.proc q).ofile = (s.proc q).ofile ∧
          (s1.proc q).state = (s.proc q).state := by
        intro q
        obtain ⟨c, hc⟩ := hproc q
        simp [hc]
      refine ⟨?_, hsame⟩
      apply h.congr
      · intro f
        simp [setVma, hfile]
      · intro q
        obtain ⟨c, hc⟩ := hproc q
        simp [setVma, hc]
      · intro q fd f _ hq
        rw [Proc.Live, ← (hsame q).2] at hq
        exact hq
      · intro k
        by_cases hk : k = j
        · subst hk
          have hold : v.used = (s.vmas k).used := by
            rw [Bool.eq_iff_iff, hused]
            simp
          simp [setVma, hvmas, hmfile, hold]
        · simp [setVma, hvmas, hk]
    | true =>
      obtain ⟨file, href, hs2⟩ := dropSlot_spec (hd.dropped rfl)
      have hsame : (s1.setVma j { s1.vmas j with offset := off }).vmas j =
        { v with offset := off } := by
        simp [setVma, hvmas]
      rw [hsame] at href hs2
      simp only [hmfile, hfdv] at href hs2
      have hfile' : (s1.setVma j { s1.vmas j with offset := off }).file = s.file := hfile
      rw [hfile'] at href hs2
      have hdrop : ∀ q, (s2.proc q).ofile = (s.proc q).ofile ∧
          (s2.proc q).state = (s.proc q).state ∧
          ∀ k, (s2.proc q).vmas k = if q = p ∧ k = i then none else (s.proc q).vmas k := by
        intro q
        obtain ⟨c, hc⟩ := hproc q
        by_cases hq : q = p
        · subst hq
          have hofile : (if (s.file (s.vmas j).mfile).ref = 1
              then update (s.proc q).ofile (s.vmas j).fd none
              else (s.proc q).ofile) = (s.proc q).ofile := by
            split_ifs with hone
            · rw [← hfd rfl hone, update_eq_self]
            · rfl
          refine ⟨?_, ?_, fun k => ?_⟩
          · rw [hs2]
            simpa [setProc, setFile, setVma, hc] using hofile
          · rw [hs2]
            simp [setProc, setFile, setVma, hc]
          · rw [hs2]
            by_cases hk : k = i <;> simp [setProc, setFile, setVma, hc, hk]
        · rw [hs2]
          simp [setProc, setFile, setVma, hc, hq]
      refine ⟨?_, fun q => ⟨(hdrop q).1, (hdrop q).2.1⟩⟩
      apply h.dropVma hd.slot
      · intro f
        rw [hs2]
        by_cases hf : f = (s.vmas j).mfile
        · simp [setProc, setFile, hf, href]
        · simp [setProc, setFile, setVma, hf, hfile]
      · exact hdrop
      · intro k hk
        rw [hs2]
        simp [setProc, setFile, setVma, hvmas, hk]
      · rw [hs2]
        have hno : v.used = false := by
          rw [Bool.eq_false_iff]
          intro hu
          exact absurd (hused.mp hu).2 (by simp)
        simp [setProc, setFile, setVma, hvmas, hno]
  rw [hd.result]
  refine ⟨h2.1.setProc rfl rfl fun _ _ _ hq => hq, fun q => ?_⟩
  obtain ⟨ho, hs⟩ := h2.2 q
  by_cases hq : q = p
  · subst hq
    simp [setProc, ho, hs]
  · simp [setProc, hq, ho, hs]

theorem filedup_spec {f : ℕ} (hx : filedup f s = .ok u s') :
    ∃ file : File, s' = s.setFile f file ∧ file.ref = (s.file f).ref + 1 := by
  unfold filedup at hx
  rw [get_run] at hx
  obtain ⟨-, hx⟩ := throw_ite_ok hx
  obtain rfl := set_ok.mp hx
  exact ⟨_, rfl, rfl⟩

namespace Kernel.FilesCounted

variable {D : ℕ → ℤ} {f : ℕ}

theorem released (h : s.FilesCounted D) {file : File} (href : file.ref + 1 = (s.file f).ref) :
    (s.setFile f file).FilesCounted (D - Pi.single f 1) := by
  have hdiff : (file.ref : ℤ) - (s.file f).ref = -1 := by omega
  have h' := h.setFile (f := f) file
  rw [hdiff, Pi.single_neg, ← sub_eq_add_neg] at h'
  exact h'

theorem fileclose (h : s.FilesCounted D) (hx : fileclose f s = .ok u s') :
    s'.FilesCounted (D - Pi.single f 1) := by
  obtain ⟨file, rfl, href⟩ := fileclose_spec hx
  exact h.released href

theorem filedup (h : s.FilesCounted D) (hx : filedup f s = .ok u s') :
    s'.FilesCounted (D + Pi.single f 1) := by
  obtain ⟨file, rfl, href⟩ := filedup_spec hx
  have hdiff : (file.ref : ℤ) - (s.file f).ref = 1 := by omega
  have h' := h.setFile (f := f) file
  rw [hdiff] at h'
  exact h'

/-- `exit` closes all descriptors before it unmaps regions. -/
theorem exit (h : s.FilesCounted 0) (hp : (s.proc p).state = .runnable) (hs : s.Sane)
    (hx : Vm.exit bound p s = .ok u s') : s'.FilesCounted 0 := by
  let I : ℕ → Kernel → Prop := fun fd t => (t.FilesCounted 0 ∧ t.Sane ∧
    (t.proc p).state = .runnable) ∧ ∀ k < fd, (t.proc p).ofile k = none
  let J : ℕ → Kernel → Prop := fun _ t => (t.FilesCounted 0 ∧ t.Sane ∧
    (t.proc p).state = .runnable) ∧ ∀ k, (t.proc p).ofile k = none
  have hend := exit_induction (I := I) (J := J) ⟨⟨h, hs, hp⟩, fun k hk => by omega⟩ ?_ ?_ ?_
    (fun _ _ _ ih _ => ih) ?_ hx
  · obtain ⟨t, ⟨⟨hcount, -, -⟩, hnone⟩, rfl⟩ := hend
    apply hcount.setProc rfl rfl
    intro fd f hf
    simp [hnone fd] at hf
  · intro fd t ih hnone
    refine ⟨ih.1, fun k hk => ?_⟩
    by_cases hkf : k = fd
    · rw [hkf, hnone]
    · exact ih.2 k (by omega)
  · intro fd f file t ih hf href
    obtain ⟨⟨hc, hsane, hrun⟩, hbelow⟩ := ih
    have hc' := hc.released href
    refine ⟨⟨?_, hsane.setFile.setProc rfl rfl rfl, ?_⟩, fun k hk => ?_⟩
    · have hf' : ((t.setFile f file).proc p).ofile fd = some f := hf
      have hclosed := hc'.closeFd hf'
      rwa [sub_add_cancel] at hclosed
    · simpa [Kernel.setProc, Kernel.setFile] using hrun
    · by_cases hkf : k = fd
      · simp [Kernel.setProc, hkf]
      · simpa [Kernel.setProc, Kernel.setFile, hkf] using hbelow k (by omega)
  · intro t _ t' ih _ _ hc
    obtain ⟨⟨hcount, hsane, hrun⟩, hbelow⟩ := ih
    obtain ⟨b, hb⟩ := hc.toLocal.procs p
    have hne : (t.proc p).state ≠ .unused := by simp [hrun]
    refine ⟨⟨hcount.of_local hc.toLocal, (hsane.acts (L := True) hne hc.acts).1, ?_⟩,
      fun k => ?_⟩
    · rw [hb]
      exact hrun
    · rw [hb]
      by_contra hk
      obtain ⟨f, hf⟩ := ne_none_iff_exists'.mp hk
      have hlt := (hcount.descriptors p k f hf).1
      exact hk (hbelow k hlt)
  · intro i v b t t' _ ih hv hde
    obtain ⟨⟨hcount, hsane, hrun⟩, hnone⟩ := ih
    have hne : (t.proc p).state ≠ .unused := by simp [hrun]
    have hsp := hsane.special p hne
    obtain ⟨j, hj, rfl⟩ := Kernel.slot_eq_some.mp hv
    have hacts : Acts True p t t' := deallocvma_ok hsp (hsane.fits j).2
      (.inr ⟨i, _, hv, rfl, rfl⟩) (.inl trivial) hde
    have hsane' := (hsane.acts hne hacts).1
    rcases deallocvma_cases hde with ⟨rfl, -⟩ | ⟨i', j', v', complete, off, s1, s2, hd⟩
    · exact ⟨⟨hcount, hsane, hrun⟩, hnone⟩
    · obtain ⟨hcount', hsame⟩ := hd.counted hsp hcount fun _ _ => hnone _
      refine ⟨⟨hcount', hsane', ?_⟩, fun k => ?_⟩
      · rw [(hsame p).2]
        exact hrun
      · rw [(hsame p).1]
        exact hnone k

theorem openFiles {ofile : ℕ → Option ℕ} {np : ℕ} (h : s.FilesCounted 0)
    (hnone : ∀ k, (s.proc np).ofile k = none) (hlive : (s.proc np).Live)
    (hx : openFiles ofile np s = .ok u s') : s'.FilesCounted 0 := by
  have hloop := loop_ok (I := fun fd t => t.FilesCounted 0 ∧ (t.proc np).Live ∧
    ∀ k, fd ≤ k → (t.proc np).ofile k = none) hx ⟨h, hlive, fun k _ => hnone k⟩ ?_
  · exact hloop.1
  intro fd t t' _ hlt ih hbody
  obtain ⟨hcount, hl, hfree⟩ := ih
  cases hf : ofile fd with
  | none =>
    simp only [hf, pure_ok] at hbody
    obtain ⟨-, rfl⟩ := hbody
    exact ⟨hcount, hl, fun k hk => hfree k (by omega)⟩
  | some f =>
    simp only [hf, bind_ok, modify_ok] at hbody
    obtain ⟨_, t1, hdup, rfl⟩ := hbody
    have h1 := hcount.filedup hdup
    obtain ⟨file, rfl, -⟩ := filedup_spec hdup
    have h2 := h1.openFd (p := np) (f := f) (by omega : fd < nOFile) hl (hfree fd le_rfl)
    rw [add_sub_cancel_right] at h2
    refine ⟨h2, ?_, fun k hk => ?_⟩
    · simpa [Kernel.setProc, Kernel.setFile, Proc.Live] using hl
    · have hne : k ≠ fd := by omega
      simpa [Kernel.setProc, Kernel.setFile, hne] using hfree k (by omega)

/-- The child opens the parent's files and inherits references with the regions. -/
theorem forked (h : s.FilesCounted 0) (hf : Forked p s s') : s'.FilesCounted 0 := by
  have hunused : ∀ q k, (s.proc q).state = .unused → (s.proc q).ofile k = none := by
    intro q k hq
    by_contra hk
    obtain ⟨f, hf⟩ := ne_none_iff_exists'.mp hk
    exact (h.descriptors q k f hf).2.1 hq
  cases hf with
  | failed => exact h
  | @discarded _ np _ hd =>
    obtain ⟨hblank, -, hn, -, hvmas, hofile⟩ := hd
    exact h.of_dead (p := np) (by simp [Proc.Live, hblank.1]) hn.aside.file hn.aside.vmas
      hn.aside.others ⟨hofile, hvmas⟩
  | @child s1 s2 s3 np hs ho hl hfiles =>
    obtain ⟨pa, hnp⟩ := hs.proc
    have hlive : (s1.proc np).Live := by simp [Proc.Live, hnp]
    have h1 : s1.FilesCounted 0 :=
      h.of_dead (p := np) (by simp [Proc.Live, hs.blank.1]) hs.nascent.aside.file
        hs.nascent.aside.vmas hs.nascent.aside.others
        (by simp [hnp])
    have hnone : ∀ k, (s1.proc np).ofile k = none := by
      intro k
      rw [hnp]
      exact hunused np k hs.blank.1
    have h2 := h1.openFiles hnone hlive hfiles
    have h3 : s3.FilesCounted 0 := by
      apply loop_ok (I := fun _ t => t.FilesCounted 0) hl h2
      intro i t t' _ _ ih hbody
      rcases inheritVma_cases hbody with ⟨rfl, -⟩ | ⟨j0, j, -, hj, hloop⟩
      · exact ih
      · obtain ⟨hproc, hvm, hfile⟩ := sharePages_frame hloop
        have hadd := ih.addVma (p := np) (i := i) (v := t.heir np (t.vmas j0)) hj rfl
        apply hadd.of_procs hfile hvm
        intro q
        rw [hproc]
        exact ⟨rfl, rfl, rfl⟩
    apply h3.setProc rfl rfl
    intro fd f _ _
    simp [Proc.Live]

end Kernel.FilesCounted

end Unmap

section Descriptors

variable {p f fd : ℕ} {s s' : Kernel} {D : ℕ → ℤ} {u : PUnit}

theorem fdalloc_spec {o : Option ℕ} (hx : fdalloc p f s = .ok o s') :
    (o = none ∧ s' = s) ∨ ∃ fd, o = some fd ∧ fd < nOFile ∧ (s.proc p).ofile fd = none ∧
      s' = s.setProc p fun q => { q with ofile := update q.ofile fd (some f) } := by
  unfold fdalloc at hx
  rw [get_run] at hx
  cases hf : s.freeFd p with
  | none =>
    simp only [hf, pure_ok] at hx
    exact .inl ⟨hx.1.symm, hx.2.symm⟩
  | some fd =>
    unfold setOfile at hx
    simp only [hf, bind_ok, modify_ok, pure_ok] at hx
    obtain ⟨_, _, rfl, rfl, rfl⟩ := hx
    refine .inr ⟨fd, rfl, mem_range.mp (mem_of_find?_eq_some hf), ?_, rfl⟩
    simpa using find?_some hf

theorem setOfile_spec {o : Option ℕ} (hx : setOfile p fd o s = .ok u s') :
    s' = s.setProc p fun q => { q with ofile := update q.ofile fd o } := by
  unfold setOfile at hx
  exact (modify_ok.mp hx).symm

theorem filealloc_spec {o : Option ℕ} (hx : filealloc s = .ok o s') :
    (o = none ∧ s' = s) ∨ ∃ f, o = some f ∧ (s.file f).ref = 0 ∧
      s' = s.setFile f { s.file f with ref := 1 } := by
  unfold filealloc at hx
  rw [get_run] at hx
  cases hf : s.freeFile with
  | none =>
    simp only [hf, pure_ok] at hx
    exact .inl ⟨hx.1.symm, hx.2.symm⟩
  | some f =>
    simp only [hf, bind_ok, set_ok, pure_ok] at hx
    obtain ⟨_, _, rfl, rfl, rfl⟩ := hx
    exact .inr ⟨f, rfl, by simpa using find?_some hf, rfl⟩

namespace Kernel.FilesCounted

theorem filealloc (h : s.FilesCounted D) (href : (s.file f).ref = 0) :
    (s.setFile f { s.file f with ref := 1 }).FilesCounted (D + Pi.single f 1) := by
  have h' := h.setFile (f := f) { s.file f with ref := 1 }
  simpa [href] using h'

theorem copyoutFds {fdarray fd0 fd1 : ℕ} {b : Bool} (h : s.FilesCounted D) (hs : s.Sane)
    (hp : (s.proc p).state ≠ .unused) (hx : copyoutFds p fdarray fd0 fd1 s = .ok b s') :
    s'.FilesCounted D ∧ (s'.proc p).ofile = (s.proc p).ofile := by
  unfold Vm.copyoutFds at hx
  obtain ⟨b1, s1, hc, hx⟩ := bind_ok.mp hx
  obtain ⟨m, -, hc1⟩ := copyout_ok (hs.special p hp) hc
  obtain ⟨c, hproc⟩ := hc1.toLocal.procs p
  have hp1 : (s1.proc p).state ≠ .unused := by
    rw [hproc]
    exact hp
  rcases ite_ok hx with ⟨-, hx⟩ | ⟨-, hx⟩
  · obtain ⟨m', -, hc2⟩ := copyout_ok ((hs.copiedOut hc1).special p hp1) hx
    obtain ⟨c', hproc'⟩ := hc2.toLocal.procs p
    refine ⟨h.of_local (hc1.toLocal.andThen hc2.toLocal), ?_⟩
    rw [hproc', hproc]
  · obtain ⟨-, rfl⟩ := pure_ok.mp hx
    refine ⟨h.of_local hc1.toLocal, ?_⟩
    rw [hproc]

variable (h : s.FilesCounted 0)
include h

theorem sysDup {fd : ℤ} (hlive : (s.proc p).Live)
    (hx : sysDup p fd s = .ok u s') : s'.FilesCounted 0 := by
  unfold Vm.sysDup at hx
  rw [get_run] at hx
  cases hf : s.argfd p fd with
  | none =>
    simp only [hf, pure_ok] at hx
    exact hx.2 ▸ h
  | some f =>
    simp only [hf] at hx
    obtain ⟨o, s1, hal, hx⟩ := bind_ok.mp hx
    rcases fdalloc_spec hal with ⟨rfl, hsame⟩ | ⟨fd', rfl, hlt, hnone, rfl⟩
    · obtain ⟨-, rfl⟩ := pure_ok.mp hx
      exact hsame ▸ h
    · have h1 := (h.openFd (f := f) hlt hlive hnone).filedup hx
      rwa [sub_add_cancel] at h1

theorem sysClose {fd : ℤ} (hx : sysClose p fd s = .ok u s') : s'.FilesCounted 0 := by
  unfold Vm.sysClose at hx
  rw [get_run] at hx
  cases hf : s.argfd p fd with
  | none =>
    simp only [hf, pure_ok] at hx
    exact hx.2 ▸ h
  | some f =>
    simp only [hf] at hx
    obtain ⟨_, s1, hset, hclose⟩ := bind_ok.mp hx
    obtain rfl := setOfile_spec hset
    have hfd : (s.proc p).ofile fd.toNat = some f := by
      unfold argfd at hf
      split_ifs at hf
      exact hf
    have h1 := (h.closeFd hfd).fileclose hclose
    rwa [add_sub_cancel_right] at h1

theorem openInode {ip omode : ℕ} {type : InodeType}
    (hlive : (s.proc p).Live) (hx : openInode p ip type omode s = .ok u s') :
    s'.FilesCounted 0 := by
  unfold Vm.openInode at hx
  obtain ⟨o, s1, hal, hx⟩ := bind_ok.mp hx
  rcases filealloc_spec hal with ⟨rfl, hsame⟩ | ⟨f, rfl, href, rfl⟩
  · obtain ⟨-, rfl⟩ := pure_ok.mp hx
    exact hsame ▸ h
  have h1 := h.filealloc href
  obtain ⟨o, s2, hfd, hx⟩ := bind_ok.mp hx
  rcases fdalloc_spec hfd with ⟨rfl, hsame⟩ | ⟨fd, rfl, hlt, hnone, rfl⟩
  · have h2 := h1.fileclose (hsame ▸ hx)
    rwa [add_sub_cancel_right] at h2
  · have h2 := h1.openFd (f := f) hlt hlive hnone
    rw [add_sub_cancel_right] at h2
    simp only [bind_ok, modify_ok] at hx
    obtain ⟨_, s3, hs3, hx⟩ := hx
    have h3 : s3.FilesCounted 0 := by
      rw [← hs3]
      apply h2.setFile_ref
      rfl
    rcases ite_ok hx with ⟨-, hx⟩ | ⟨-, hx⟩
    · unfold itrunc at hx
      rw [← modify_ok.mp hx]
      exact h3.withFiles
    · obtain ⟨-, rfl⟩ := pure_ok.mp hx
      exact h3

/-- After `pipealloc` the call holds both ends. -/
theorem pipealloc {page : Bool} {o : Option (ℕ × ℕ)}
    (hx : pipealloc page s = .ok o s') : s'.proc = s.proc ∧
      s'.FilesCounted (o.elim 0 fun r => Pi.single r.1 1 + Pi.single r.2 1) := by
  unfold Vm.pipealloc at hx
  obtain ⟨o1, s1, hr, hx⟩ := bind_ok.mp hx
  rcases filealloc_spec hr with ⟨rfl, hsame⟩ | ⟨rf, rfl, href, rfl⟩
  · obtain ⟨rfl, rfl⟩ := pure_ok.mp hx
    exact ⟨by rw [hsame], hsame ▸ h⟩
  have h1 := h.filealloc href
  obtain ⟨o2, s2, hw, hx⟩ := bind_ok.mp hx
  rcases filealloc_spec hw with ⟨rfl, hsame⟩ | ⟨wf, rfl, href', rfl⟩
  · simp only [bind_ok, pure_ok] at hx
    obtain ⟨_, _, hclose, rfl, rfl⟩ := hx
    rw [hsame] at hclose
    have h2 := h1.fileclose hclose
    rw [add_sub_cancel_right] at h2
    obtain ⟨file, rfl, -⟩ := fileclose_spec hclose
    exact ⟨rfl, h2⟩
  have h2 := h1.filealloc href'
  rcases ite_ok hx with ⟨-, hx⟩ | ⟨-, hx⟩
  · simp only [bind_ok, modify_ok, pure_ok] at hx
    obtain ⟨_, s3, hs3, _, s4, hs4, rfl, rfl⟩ := hx
    have h3 : s3.FilesCounted (0 + Pi.single rf 1 + Pi.single wf 1) := by
      rw [← hs3]
      apply h2.setFile_ref
      rfl
    refine ⟨?_, ?_⟩
    · rw [← hs4, ← hs3]
      rfl
    · rw [zero_add] at h3
      rw [← hs4]
      apply h3.setFile_ref
      rfl
  · simp only [bind_ok, pure_ok] at hx
    obtain ⟨_, s3, hc1, _, s4, hc2, rfl, rfl⟩ := hx
    have h3 := (h2.fileclose hc1).fileclose hc2
    obtain ⟨_, rfl, -⟩ := fileclose_spec hc1
    obtain ⟨_, rfl, -⟩ := fileclose_spec hc2
    refine ⟨rfl, ?_⟩
    convert h3 using 1
    abel

theorem sysPipe {fdarray : ℕ} {page : Bool} (hs : s.Sane)
    (hlive : (s.proc p).Live) (hx : sysPipe p fdarray page s = .ok u s') : s'.FilesCounted 0 := by
  unfold Vm.sysPipe at hx
  obtain ⟨o, s1, hal, hx⟩ := bind_ok.mp hx
  obtain ⟨hproc, h1⟩ := h.pipealloc hal
  have hs1 := (FdActs.sane (moves_pipealloc.of_ok .refl hal) hs hlive.1).1
  cases o with
  | none =>
    obtain ⟨-, rfl⟩ := pure_ok.mp hx
    exact h1
  | some r =>
    obtain ⟨rf, wf⟩ := r
    have h1 : s1.FilesCounted (Pi.single rf 1 + Pi.single wf 1) := h1
    have hlive1 : (s1.proc p).Live := by
      rw [hproc]
      exact hlive
    obtain ⟨o0, s2, hfd, hx⟩ := bind_ok.mp hx
    rcases fdalloc_spec hfd with ⟨rfl, hsame⟩ | ⟨fd0, rfl, hlt0, hnone0, hs2⟩
    · rw [hsame] at hx
      obtain ⟨_, _, hc1, hc2⟩ := bind_ok.mp hx
      have h2 := (h1.fileclose hc1).fileclose hc2
      convert h2 using 1
      simp
    have h2 := h1.openFd (f := rf) hlt0 hlive1 hnone0
    rw [← hs2, add_sub_cancel_left] at h2
    have hlive2 : (s2.proc p).Live := by
      simpa [hs2, Kernel.setProc, Proc.Live] using hlive1
    obtain ⟨o1, s3, hfd₁, hx⟩ := bind_ok.mp hx
    rcases fdalloc_spec hfd₁ with ⟨rfl, hsame⟩ | ⟨fd1, rfl, hlt1, hnone1, hs3⟩
    · rw [hsame] at hx
      simp only [bind_ok] at hx
      obtain ⟨_, s4, hset, _, s5, hc1, hc2⟩ := hx
      have hfd0 : (s2.proc p).ofile fd0 = some rf := by simp [hs2, Kernel.setProc]
      have h3 := h2.closeFd hfd0
      rw [← setOfile_spec hset] at h3
      have h4 := (h3.fileclose hc1).fileclose hc2
      convert h4 using 1
      abel
    have h3 := h2.openFd (f := wf) hlt1 hlive2 hnone1
    rw [← hs3, sub_self] at h3
    have hfd0 : (s3.proc p).ofile fd0 = some rf := by
      have hne : fd0 ≠ fd1 := by
        rintro rfl
        simp [hs2, Kernel.setProc] at hnone1
      simp [hs3, hs2, Kernel.setProc, hne]
    have hfd1 : (s3.proc p).ofile fd1 = some wf := by simp [hs3, Kernel.setProc]
    have hs3' : s3.Sane ∧ (s3.proc p).state ≠ .unused :=
      FdActs.sane (moves_fdalloc.of_ok (moves_fdalloc.of_ok .refl hfd) hfd₁) hs1 hlive1.1
    obtain ⟨b, s4, hcopy, hx⟩ := bind_ok.mp hx
    obtain ⟨h4, hofile⟩ := h3.copyoutFds hs3'.1 hs3'.2 hcopy
    rcases pure_ite_ok hx with ⟨-, -, rfl⟩ | ⟨-, hx⟩
    · exact h4
    · simp only [bind_ok] at hx
      obtain ⟨_, s5, hset0, _, s6, hset1, _, s7, hc1, hc2⟩ := hx
      have hne : fd1 ≠ fd0 := by
        rintro rfl
        simp [hs2, Kernel.setProc] at hnone1
      have hfd0' : (s4.proc p).ofile fd0 = some rf := by rw [hofile, hfd0]
      have h5 := h4.closeFd hfd0'
      rw [← setOfile_spec hset0] at h5
      have hfd1' : (s5.proc p).ofile fd1 = some wf := by
        rw [setOfile_spec hset0]
        simp [Kernel.setProc, hne, hofile, hfd1]
      have h6 := h5.closeFd hfd1'
      rw [← setOfile_spec hset1] at h6
      have h7 := (h6.fileclose hc1).fileclose hc2
      convert h7 using 1
      abel

end Kernel.FilesCounted

end Descriptors

section Steps

/-- A `munmap` that gives up a region with the last reference to its file finds the
descriptor that was mapped free. -/
def KeepsFds (σ : System) : Call → Prop
  | .event (.munmap p addr size) => ∀ i j, σ.kernel.usedSlot p addr = some i →
      (σ.kernel.proc p).vmas i = some j →
      addr = (σ.kernel.vmas j).addr → i32 size = (σ.kernel.vmas j).size →
      (σ.kernel.file (σ.kernel.vmas j).mfile).ref = 1 →
      (σ.kernel.proc p).ofile (σ.kernel.vmas j).fd = none
  | _ => True

variable {σ σ₀ τ : System} {c : Call} {s s' : Kernel} {p : ℕ}

theorem Vma.cut_complete {v v' : Vma} {addr : ℕ} {size off : ℤ}
    (h : v.cut addr size = some (v', true, off)) : addr = v.addr ∧ size = v.size := by
  unfold Vma.cut at h
  split_ifs at h with hc
  · exact hc
  · cases h
  · cases h

namespace Kernel.FilesCounted

theorem writes (h : s.FilesCounted 0) (hw : Writes p s s') : s'.FilesCounted 0 := by
  induction hw with
  | refl => exact h
  | tail _ hw ih =>
    cases hw with
    | transfer ht => exact ih.of_local ht.steady.toLocal
    | setFile f file href => exact ih.setFile_ref href

theorem step {e : Event} {t : Kernel} (h : σ.kernel.FilesCounted 0) (hs : σ.kernel.Sane)
    (hok : KeepsFds σ (.event e)) (hstep : Step σ.kernel e t) : t.FilesCounted 0 := by
  have hrun := hstep.runnable
  have hne := hstep.used
  have ho := hstep.outcome hs
  cases e with
  | fetch p va => exact h.of_local (Trapped.toLocal ho)
  | load p va => exact h.of_local (Trapped.toLocal ho)
  | store p va b =>
    rcases ho with ⟨pte, -, -, -, -, rfl⟩ | ht
    · exact h.of_local (p := p) (.setPage _ _)
    · exact h.of_local ht.toLocal
  | copyout p va src len =>
    obtain ⟨m, -, hc⟩ := ho
    exact h.of_local hc.toLocal
  | write p fd va n => exact h.writes ho
  | mmap p length prot flags fd offset =>
    rcases ho with rfl | ⟨-, i, j, v, -, -, hj, hused, -, -, -, rfl⟩
    · exact h
    · exact h.addVma hj hused
  | munmap p addr size =>
    obtain ⟨bound, b, hx⟩ := hstep.munmap_ok
    rcases sysMunmap_cases hx with hsame | ⟨-, -, -, hx⟩
    · exact hsame ▸ h
    rcases deallocvma_cases hx with ⟨hsame, -⟩ | ⟨i, j, v, complete, off, s1, s2, hd⟩
    · exact hsame ▸ h
    refine (hd.counted (hs.special p hne) h fun hc hone => ?_).1
    subst hc
    obtain ⟨haddr, hsize⟩ := Vma.cut_complete hd.cut
    exact hok i j hd.found hd.slot haddr hsize hone
  | fork p => exact h.forked ho
  | exit p =>
    obtain ⟨-, bound, hx⟩ := hstep.performed
    exact h.exit hrun hs hx

theorem reaped {pp : ℕ} (h : s.FilesCounted 0) (hz : (s.proc pp).state = .zombie)
    (hr : Reaped pp s s') : s'.FilesCounted 0 := by
  apply h.of_dead (p := pp) (by simp [Proc.Live, hz]) hr.file hr.vmas
  · intro q hq
    simp [hr.procs, hq]
  · simp [hr.procs]

theorem resized (h : s.FilesCounted 0) (hr : Resized p s s') : s'.FilesCounted 0 := by
  obtain ⟨s1, sz, hw, rfl, -, -⟩ := hr
  have h1 : s1.FilesCounted 0 := by
    apply h.of_procs hw.file hw.vmas
    intro q
    rw [hw.proc]
    exact ⟨rfl, rfl, rfl⟩
  exact h1.setProc rfl rfl fun _ _ _ hq => hq

theorem execed {ip : Option ℕ} {argv : List (List UInt8)} (h : s.FilesCounted 0)
    (he : Execed p ip argv s s') :
    s'.FilesCounted 0 := by
  cases he with
  | kept hb _ =>
    apply h.of_procs hb.file hb.vmas
    intro q
    rw [hb.proc]
    exact ⟨rfl, rfl, rfl⟩
  | failed i g _ _ hb _ _ =>
    apply h.of_procs hb.file hb.vmas
    intro q
    rw [hb.proc]
    by_cases hq : q = p <;> simp [Kernel.setSegments, Kernel.setProc, hq]
  | done i g _ _ hr =>
    apply h.of_procs hr.file hr.vmas
    intro q
    rw [hr.procs]
    by_cases hq : q = p <;> simp [Kernel.setSegments, Kernel.setProc, hq]

theorem sysStep (h : σ.kernel.FilesCounted 0) (hs : σ.kernel.Sane) (hok : KeepsFds σ c)
    (hstep : SysStep σ c τ) : τ.kernel.FilesCounted 0 := by
  have ho := hstep.outcome hs
  obtain ⟨-, ⟨bound, hx⟩, -⟩ := hstep.called
  have hlive : (σ.kernel.proc c.proc).Live := by simp [Proc.Live, hstep.runnable.2]
  cases c with
  | event e => exact h.step hs hok ho
  | wait p addr status =>
    rcases Waited.cases ho with hl | ⟨pp, s1, hz, hl, hr⟩
    · exact h.of_local hl
    · exact (h.of_local hl).reaped hz hr
  | sbrk p n => exact h.resized ho
  | exec p ip argv => exact h.execed ho
  | openFile p found omode =>
    simp only [call, Vm.sysOpen] at hx
    cases found with
    | none =>
      obtain ⟨-, hsame⟩ := pure_ok.mp hx
      exact hsame ▸ h
    | some r => exact h.openInode hlive hx
  | pipe p fdarray page => exact h.sysPipe hs hlive hx
  | dup p fd => exact h.sysDup hlive hx
  | close p fd => exact h.sysClose hx

end Kernel.FilesCounted

def Kernel.fileUsers (s : Kernel) (f : ℕ) : ℕ :=
  {x ∈ Finset.range nProc ×ˢ Finset.range nOFile |
    (s.proc x.1).Live ∧ (s.proc x.1).ofile x.2 = some f}.card +
  {j ∈ Finset.range nVmas | (s.vmas j).used = true ∧ (s.vmas j).mfile = f}.card

def fileHandles (A : Finset (ℕ × ℕ)) (B : Finset ℕ) : Finset FileHandle :=
  A.image (fun x => .ofile x.1 x.2) ∪ B.image .vma

theorem card_fileHandles (A : Finset (ℕ × ℕ)) (B : Finset ℕ) :
    (fileHandles A B).card = A.card + B.card := by
  have ha : Function.Injective fun x : ℕ × ℕ => FileHandle.ofile x.1 x.2 := by
    rintro ⟨x, x'⟩ ⟨y, y'⟩ hxy
    cases hxy
    rfl
  have hb : Function.Injective FileHandle.vma := by
    intro x y hxy
    cases hxy
    rfl
  rw [fileHandles, Finset.card_union_of_disjoint, Finset.card_image_of_injective _ ha,
    Finset.card_image_of_injective _ hb]
  rw [Finset.disjoint_left]
  intro x hx hx'
  obtain ⟨y, -, rfl⟩ := Finset.mem_image.mp hx
  obtain ⟨z, -, hz⟩ := Finset.mem_image.mp hx'
  cases hz

theorem ofile_mem_fileHandles {A : Finset (ℕ × ℕ)} {B : Finset ℕ} {q fd : ℕ} :
    .ofile q fd ∈ fileHandles A B ↔ (q, fd) ∈ A := by
  simp [fileHandles]

theorem vma_mem_fileHandles {A : Finset (ℕ × ℕ)} {B : Finset ℕ} {j : ℕ} :
    .vma j ∈ fileHandles A B ↔ j ∈ B := by
  simp [fileHandles]

theorem holders_fileUsers {f : ℕ} (hs : s.Sane)
    (hd : ∀ q fd f, (s.proc q).ofile fd = some f → fd < nOFile ∧ (s.proc q).Live)
    (he : ∀ j, (s.vmas j).used = true → j < nVmas) :
    (holders s.fileOwn f).Finite ∧ (holders s.fileOwn f).ncard = s.fileUsers f := by
  have hset : holders s.fileOwn f = ↑(fileHandles
      {x ∈ Finset.range nProc ×ˢ Finset.range nOFile |
        (s.proc x.1).Live ∧ (s.proc x.1).ofile x.2 = some f}
      {j ∈ Finset.range nVmas | (s.vmas j).used = true ∧ (s.vmas j).mfile = f}) := by
    ext x
    rw [Finset.mem_coe]
    cases x with
    | ofile q fd =>
      rw [ofile_mem_fileHandles, Finset.mem_filter, Finset.mem_product, Finset.mem_range,
        Finset.mem_range]
      constructor
      · intro hf
        obtain ⟨hlt, hlive⟩ := hd q fd f hf
        exact ⟨⟨hs.lt_nProc hlive.1, hlt⟩, hlive, hf⟩
      · rintro ⟨-, -, hf⟩
        exact hf
    | vma j =>
      rw [vma_mem_fileHandles, Finset.mem_filter, Finset.mem_range]
      constructor
      · intro hf
        change (if (s.vmas j).used then some (s.vmas j).mfile else none) = some f at hf
        split_ifs at hf with hu
        exact ⟨he j hu, hu, some.inj hf⟩
      · rintro ⟨-, hu, rfl⟩
        change (if (s.vmas j).used then some (s.vmas j).mfile else none) = some (s.vmas j).mfile
        rw [hu, if_pos rfl]
  rw [hset]
  refine ⟨Finset.finite_toSet _, ?_⟩
  rw [Set.ncard_coe_finset, card_fileHandles]
  rfl

/-- The counts of open files are exact, and what is referred to is open. -/
structure Kernel.FileRefs (s : Kernel) : Prop where
  counted : ∀ f, (s.file f).ref = s.fileUsers f
  descriptor_open : ∀ q fd f, (s.proc q).ofile fd = some f →
    (s.proc q).Live ∧ 1 ≤ (s.file f).ref
  region_open : ∀ j, (s.vmas j).used = true → 1 ≤ (s.file (s.vmas j).mfile).ref

theorem Kernel.FilesCounted.fileRefs (h : s.FilesCounted 0) (hs : s.Sane) : s.FileRefs := by
  have hcount : ∀ f, (s.file f).ref = (holders s.fileOwn f).ncard := by
    intro f
    have hc := h.balanced.count f (by simp)
    simp only [Pi.zero_apply, add_zero] at hc
    exact_mod_cast hc
  refine ⟨fun f => ?_, fun q fd f hf => ⟨(h.descriptors q fd f hf).2, ?_⟩, fun j => h.ref_pos⟩
  · rw [hcount, (holders_fileUsers hs h.descriptors h.entries).2]
  · rw [hcount]
    apply (Set.ncard_pos (h.balanced.finite f)).mpr
    exact ⟨.ofile q fd, hf⟩

/-- In every run in which no `munmap` clears a descriptor that is in use again, the counts
of open files are exact. -/
theorem file_refs_exact (hs : σ₀.kernel.Sane) (hnone : ∀ q k, (σ₀.kernel.proc q).vmas k = none)
    (hfree : ∀ j, (σ₀.kernel.vmas j).used = false)
    (hfds : ∀ q fd f, (σ₀.kernel.proc q).ofile fd = some f →
      fd < nOFile ∧ (σ₀.kernel.proc q).Live)
    (hrefs : ∀ f, (σ₀.kernel.file f).ref = σ₀.kernel.fileUsers f)
    (hr : Reach SysStep KeepsFds σ₀ σ) : σ.kernel.FileRefs := by
  have hentries : ∀ j, (σ₀.kernel.vmas j).used = true → j < nVmas := by
    intro j hj
    simp [hfree j] at hj
  have hcounted : σ₀.kernel.FilesCounted 0 := by
    refine ⟨?_, fun q i q' i' j hi _ => ?_, fun q i j hi => ?_, hfds, hentries⟩
    · exact {
        nodup := List.nodup_nil
        unheld := by simp
        settled := by simp
        finite := fun f => (holders_fileUsers hs hfds hentries).1
        count := fun f _ => by
          rw [hrefs f, (holders_fileUsers hs hfds hentries).2]
          simp
        exclusive := fun _ _ _ _ _ _ => ⟨trivial, trivial⟩ }
    · simp [hnone q i] at hi
    · simp [hnone q i] at hi
  have h : σ.kernel.Sane ∧ σ.kernel.FilesCounted 0 := by
    apply hr.invariant (I := fun a => a.kernel.Sane ∧ a.kernel.FilesCounted 0) ⟨hs, hcounted⟩
    intro a c b ha hok hstep
    exact ⟨ha.1.sysStep hstep, ha.2.sysStep ha.1 hok hstep⟩
  exact h.2.fileRefs h.1

end Steps

theorem boot_ofile (q fd : ℕ) :
    (boot.proc q).ofile fd = if q = 0 ∧ fd = 3 then some 0 else none := by
  obtain ⟨s, ⟨-, -, hn, -, -, -, pa, hp⟩, hboot⟩ := boot_allocated
  rw [hboot]
  by_cases hq : q = 0
  · simp [setProc, hq]
  · have hother : s.proc q = bare.proc q := hn.aside.others q hq
    simp [setProc, hq, hother, bare]

theorem boot_fds (q fd f : ℕ) (h : (boot.proc q).ofile fd = some f) :
    fd < nOFile ∧ (boot.proc q).Live := by
  rw [boot_ofile] at h
  split_ifs at h with hc
  obtain ⟨rfl, rfl⟩ := hc
  exact ⟨by decide, by decide +kernel⟩

/-- At boot the file of descriptor 3 is the only one that is open. -/
theorem boot_refs (f : ℕ) : (boot.file f).ref = boot.fileUsers f := by
  by_cases hf : f = 0
  · subst hf
    decide +kernel
  have hfile : boot.file = bare.file := by
    obtain ⟨s, ⟨-, -, hn, -⟩, hboot⟩ := boot_allocated
    rw [hboot]
    exact hn.aside.file
  have h1 : ({x ∈ Finset.range nProc ×ˢ Finset.range nOFile |
      (boot.proc x.1).Live ∧ (boot.proc x.1).ofile x.2 = some f} : Finset (ℕ × ℕ)) = ∅ := by
    apply Finset.filter_eq_empty_iff.mpr
    rintro x - ⟨-, hx⟩
    rw [boot_ofile] at hx
    split_ifs at hx
    cases hx
    exact hf rfl
  have h2 : ({j ∈ Finset.range nVmas | (boot.vmas j).used = true ∧ (boot.vmas j).mfile = f} :
      Finset ℕ) = ∅ := by
    apply Finset.filter_eq_empty_iff.mpr
    rintro j - ⟨hj, -⟩
    simp [boot_free j] at hj
  rw [fileUsers, h1, h2, hfile]
  simp [bare, hf]

/-- The file is mapped from a second descriptor, and both descriptors are closed. -/
def onlyMapped : System :=
  sysNext (sysNext (sysNext (sysNext bootSystem (.dup 0 3)) (.event (.mmap 0 4096 1 4 0 0)))
    (.close 0 0)) (.close 0 3)

theorem onlyMapped_reach {ok : System → Call → Prop} (h : ∀ σ c, (∀ e, c ≠ .event e) → ok σ c)
    (hm : ∀ σ, ok σ (.event (.mmap 0 4096 1 4 0 0))) : Reach SysStep ok bootSystem onlyMapped := by
  have h1 : SysStep bootSystem (.dup 0 3) (sysNext bootSystem (.dup 0 3)) :=
    sysStep_next (by decide +kernel)
  have h2 : SysStep _ (.event (.mmap 0 4096 1 4 0 0)) _ :=
    sysStep_next (σ := sysNext bootSystem (.dup 0 3)) (by decide +kernel)
  have h3 : SysStep _ (.close 0 0) _ := sysStep_next
    (σ := sysNext (sysNext bootSystem (.dup 0 3)) (.event (.mmap 0 4096 1 4 0 0)))
    (by decide +kernel)
  have h4 : SysStep _ (.close 0 3) onlyMapped := sysStep_next (by decide +kernel)
  exact (((Reach.refl.tail (h _ _ (by simp)) h1).tail (hm _) h2).tail (h _ _ (by simp)) h3).tail
    (h _ _ (by simp)) h4

def lastUnmapped : System := sysNext onlyMapped (.event (.munmap 0 mapBase 4096))

theorem file_refs_exact_unmapped : (onlyMapped.kernel.file 0).ref = 1 ∧
    (lastUnmapped.kernel.file 0).ref = 0 ∧ lastUnmapped.kernel.FileRefs := by
  have h5 : SysStep onlyMapped (.event (.munmap 0 mapBase 4096)) lastUnmapped :=
    sysStep_next (by decide +kernel)
  have hok : KeepsFds onlyMapped (.event (.munmap 0 mapBase 4096)) := by
    intro i j hi hj _ _ _
    have hslot : onlyMapped.kernel.usedSlot 0 mapBase = some 0 := by decide +kernel
    have hentry : (onlyMapped.kernel.proc 0).vmas 0 = some 0 := by decide +kernel
    cases hslot.symm.trans hi
    cases hentry.symm.trans hj
    decide +kernel
  have hr : Reach SysStep KeepsFds bootSystem lastUnmapped := by
    apply Reach.tail _ hok h5
    apply onlyMapped_reach
    · intro σ c hc
      cases c with
      | event e => exact absurd rfl (hc e)
      | _ => trivial
    · intro σ
      trivial
  refine ⟨by decide +kernel, by decide +kernel, ?_⟩
  exact file_refs_exact boot_start.sane boot_vmas boot_free boot_fds boot_refs hr

def reopened : System := sysNext onlyMapped (.openFile 0 (some (2, .file)) oRdonly)

def descriptorLost : System := sysNext reopened (.event (.munmap 0 mapBase 4096))

/-- `munmap` clears the new descriptor, and the count of its file is never dropped. -/
theorem munmap_clears_reused_descriptor :
    Reach SysStep (fun _ _ => True) bootSystem descriptorLost ∧
    (reopened.kernel.proc 0).ofile 0 = some 1 ∧ (reopened.kernel.file 1).ref = 1 ∧
    (descriptorLost.kernel.proc 0).ofile 0 = none ∧ (descriptorLost.kernel.file 1).ref = 1 ∧
    ¬ descriptorLost.kernel.FileRefs := by
  have h5 : SysStep onlyMapped (.openFile 0 (some (2, .file)) oRdonly) reopened :=
    sysStep_next (by decide +kernel)
  have h6 : SysStep reopened (.event (.munmap 0 mapBase 4096)) descriptorLost :=
    sysStep_next (by decide +kernel)
  have hr : Reach SysStep (fun _ _ => True) bootSystem onlyMapped :=
    onlyMapped_reach (fun _ _ _ => trivial) fun _ => trivial
  refine ⟨(hr.tail trivial h5).tail trivial h6, by decide +kernel, by decide +kernel,
    by decide +kernel, by decide +kernel, fun h => ?_⟩
  have hcount := h.counted 1
  revert hcount
  decide +kernel

end Xv6.Vm
