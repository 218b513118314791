import Xv6.Vm.Growing
import Xv6.Vm.ExecReturns

/-!
# Page faults with memory to spare

With three free pages a fault cannot run out of memory: one page holds the contents, and
`walk` makes two tables at most. A fault at an unmapped address of a region whose file is not
locked then maps the page.
-/
namespace Xv6.Vm

open Library Kernel List Option

section Tables

variable {t va pa i k : ℕ} {s : Kernel} {perm : Perm}

theorem walk_room (ht : s.Has t) (hva : va < maxVa) (hroom : k + 1 < s.freelist.length) :
    ∃ s', walk t va s = .ok true s' ∧ k ≤ s'.freelist.length := by
  obtain ⟨pt, hs⟩ := isSome_iff_exists.mp ht
  obtain ⟨b, new, s', hx, hnew, hlen, hfalse, -⟩ := walk_run hs hva
  have htaken := congrArg List.length hnew.taken
  rw [length_append] at htaken
  cases b with
  | true => exact ⟨s', hx, by omega⟩
  | false =>
    obtain ⟨hempty, hone⟩ := hfalse rfl
    rw [hempty, length_nil] at htaken
    omega

theorem mappages_room (ht : s.Has t) (hva : va < maxVa) (hn : s.trans t (va / pgSize) = none)
    (hroom : k + 1 < s.freelist.length) :
    ∃ s', mappages t va pa perm s = .ok true s' ∧ k ≤ s'.freelist.length := by
  obtain ⟨s1, hwalk, hroom1⟩ := walk_room ht hva hroom
  have hn1 : s1.trans t (va / pgSize) = none := by rw [(walk_ok hwalk).1.trans, hn]
  refine ⟨s1.withPte t (va / pgSize) ⟨true, perm, pa⟩, ?_, hroom1⟩
  unfold mappages
  rw [bind_run hwalk, if_pos rfl, get_run, if_neg (by simp [hn1])]
  rfl

end Tables

section Files

variable {ip pa va n off tot fuel : ℕ} {s : Kernel} {r : Region}

theorem readiLoop_returns (htot : tot ≤ n) (hoff : off + (n - tot) ≤ maxFile * bSize) :
    Returns (readiLoop ip pa n fuel tot off) s := by
  induction fuel generalizing s tot off with
  | zero => exact .pure _
  | succ fuel ih =>
    unfold readiLoop
    refine StopsIn.ite (fun hlt => ?_) fun _ => .pure _
    have hbn : off / bSize < maxFile := by
      apply Nat.div_lt_of_lt_mul
      rw [Nat.mul_comm]
      omega
    apply (bmap_returns hbn).bind
    intro b s1 _
    refine StopsIn.ite (fun _ => ?_) fun _ => .pure _
    apply StopsIn.modify
    apply ih <;> omega

theorem Inode.Full.size_le {i : Inode} (h : i.Full) : i.size ≤ maxFile * bSize := by
  by_contra hc
  have hlt := (h (maxFile * bSize) (by omega)).1
  rw [Nat.mul_div_cancel _ (by decide)] at hlt
  omega

theorem readi_returns (hF : (s.inode ip).Full) (hoff : off < 2 ^ 32) (hn : n < 2 ^ 32) :
    Returns (readi ip pa off n) s := by
  unfold readi
  apply StopsIn.read
  refine StopsIn.ite (fun _ => .pure _) fun hin => ?_
  have hbound := Inode.read_bound hoff hn hin
  have hsize := hF.size_le
  apply readiLoop_returns <;> omega

theorem readRegion_returns (hF : (s.inode ip).Full) : Returns (readRegion r ip pa va) s := by
  unfold readRegion
  cases hr : r.readSize va with
  | none => exact .pure _
  | some n => exact readi_returns hF (u32_lt _) (readSize_lt hr)

end Files

/-- Page `pa` was free, has been filled from the region and is mapped at `va`. -/
structure Installed (r : Region) (p va : ℕ) (perm : Perm) (pa : ℕ) (s s' : Kernel) : Prop where
  low : va < maxVa
  backed : ∃ ip, r.ip = some ip
  was : s.trans p (va / pgSize) = none
  now : s'.trans p (va / pgSize) = some ⟨true, perm, pa⟩
  others : ∀ t v, t ≠ p ∨ v ≠ va / pgSize → s'.trans t v = s.trans t v
  free : pa ∈ s.freelist
  taken : s.freelist.Nodup → pa ∉ s'.freelist ∧ s'.ref pa = 1
  suffix : s'.freelist <:+ s.freelist
  content : s.freelist.Nodup → ∀ ip, r.ip = some ip → (s.inode ip).Full →
    s'.mem pa = r.content (s.inode ip) va
  mem : ∀ a, a ∉ s.freelist → s'.mem a = s.mem a
  ref : ∀ a, a ∉ s.freelist → s'.ref a = s.ref a
  inode : ∀ ip, (s.inode ip).Full → s'.inode ip = s.inode ip
  proc : s'.proc = s.proc
  vmas : s'.vmas = s.vmas
  ilocked : s'.ilocked = s.ilocked
  present : s'.Has p

section Faults

variable {r : Region} {p va pa k ip : ℕ} {perm : Perm} {s s' : Kernel} {u : PUnit}

theorem ilock_eq (h : ip ∉ s.ilocked) :
    ilock (some ip) s = .ok ip { s with ilocked := ip :: s.ilocked } := by
  unfold ilock
  simp only [get_run]
  rw [if_neg h]
  rfl

/-- A filled page that could be mapped. -/
theorem Installed.of_mappages {rest : List ℕ} {bytes : Bytes} {ino : ℕ → Inode} {fb : ℕ}
    {s1 : Kernel} (hf : s.freelist = pa :: rest) (hip : r.ip = some ip)
    (hino : ∀ k, (s.inode k).Full → ino k = s.inode k)
    (hbytes : (s.inode ip).Full → bytes = r.content (s.inode ip) va)
    (hmap : mappages p (pgRoundDown va) pa perm
      (((s.allocated pa rest).withFiles ino fb).setPage pa bytes) = .ok true s1) :
    Installed r p va perm pa s (s1.mark pa) := by
  obtain ⟨hq1, hf1, -⟩ := kalloc_some (kalloc_cons hf)
  have hq : Quiet s (((s.allocated pa rest).withFiles ino fb).setPage pa bytes) :=
    (hq1.withFiles hino).setPage hf1.was bytes
  have hsuffix : s1.freelist <:+ rest := mappages_suffix hmap
  obtain ⟨s2, hq2, -, hlt, ⟨hb, -⟩ | ⟨-, hlook, hn, rfl⟩⟩ := mappages_ok hmap
  · simp at hb
  · rw [pgRoundDown_div] at hn hlook
    have hqs := hq.andThen hq2
    have hfresh : Fresh s s2 pa := hq2.fresh ⟨hf1.was, hf1.taken, hf1.faulted⟩
    simp only [pgRoundDown_div] at hsuffix ⊢
    constructor
    case low => exact pgRoundDown_lt hlt
    case backed => exact ⟨ip, hip⟩
    case was => rw [← hqs.trans, hn]
    case now => rw [trans_mark, trans_withPte hlook, if_pos ⟨rfl, rfl⟩, if_pos rfl]
    case others =>
      intro t v hne
      rw [trans_mark, ← hqs.trans]
      exact trans_withPte_of_ne hlook (by tauto)
    case free => exact hf1.was
    case taken => exact hfresh.taken
    case suffix => exact hsuffix.trans ⟨[pa], hf.symm⟩
    case content =>
      intro hnd ip' hip' hF
      obtain rfl : ip' = ip := some.inj (hip'.symm.trans hip)
      have hmem := hq2.mem pa (hf1.taken hnd).1
      rw [← hbytes hF]
      change s2.mem pa = bytes
      rw [hmem]
      simp [setPage]
    case mem => exact hqs.mem
    case ref => exact hqs.ref
    case inode => exact hqs.inode
    case proc => exact hqs.proc
    case vmas => exact hqs.vmas
    case ilocked => exact hqs.ilocked
    case present =>
      obtain ⟨pt, hs, -⟩ := exists_table_of_lookup hlook
      exact Kernel.Has.map (isSome_iff_exists.mpr ⟨pt, hs⟩)

theorem allocPhysicalVMA_installed (hx : allocPhysicalVMA r p va perm s = .ok u s') :
    (∃ pa, Installed r p va perm pa s s') ∨
      ((s'.proc p).killed = true ∧ ∀ t v, s'.trans t v = s.trans t v) := by
  obtain ⟨pa, rest, ip, bytes, ino, fb, b, s1, hf, hip, hino, hbytes, hmap, hcase⟩ :=
    allocPhysicalVMA_run hx
  rcases hcase with ⟨rfl, rfl⟩ | ⟨rfl, rfl⟩
  · exact .inl ⟨pa, .of_mappages hf hip hino hbytes hmap⟩
  · obtain ⟨s2, hq2, -, -, ⟨-, rfl⟩ | ⟨hb, -⟩⟩ := mappages_ok hmap
    · refine .inr ⟨by simp [setProc], fun t v => ?_⟩
      exact hq2.trans t v
    · simp at hb

/-- With three free pages, a fault in a region whose file can be read maps the page. -/
theorem allocPhysicalVMA_room (perm : Perm) (ht : s.Has p) (hip : r.ip = some ip)
    (hlock : ip ∉ s.ilocked)
    (hF : (s.inode ip).Full) (hva : va < maxVa) (hn : s.trans p (va / pgSize) = none)
    (hroom : k + 2 < s.freelist.length) :
    ∃ s' pa, allocPhysicalVMA r p va perm s = .ok ⟨⟩ s' ∧ Installed r p va perm pa s s' ∧
      k ≤ s'.freelist.length := by
  cases hf : s.freelist with
  | nil => simp [hf] at hroom
  | cons pa rest =>
    rw [hf, length_cons] at hroom
    have hlocked := ilock_eq (s := (s.allocated pa rest).setPage pa fun _ => 0) hlock
    have hreads : Returns (readRegion r ip pa va)
      { (s.allocated pa rest).setPage pa (fun _ => 0) with
        ilocked := ip :: s.ilocked } := readRegion_returns hF
    obtain ⟨_, s1, hread⟩ := StopsIn.returns hreads
    obtain ⟨bytes, ino, fb, rfl, hino, hbytes⟩ := readRegion_ok hread (by simp [setPage])
    have hlow : pgRoundDown va < maxVa := (Nat.div_mul_le_self va pgSize).trans_lt hva
    obtain ⟨s2, hmap, hroom2⟩ : ∃ s', mappages p (pgRoundDown va) pa perm
        (((s.allocated pa rest).withFiles ino fb).setPage pa bytes) = .ok true s' ∧
          k ≤ s'.freelist.length := by
      refine mappages_room ht hlow ?_ (Nat.lt_of_succ_lt_succ hroom)
      rw [pgRoundDown_div]
      exact hn
    refine ⟨s2.mark pa, pa, ?_, .of_mappages hf hip hino hbytes hmap, hroom2⟩
    unfold allocPhysicalVMA
    refine bind_ok.mpr ⟨some pa, _, kalloc_cons hf, ?_⟩
    refine bind_ok.mpr ⟨⟨⟩, _, rfl, ?_⟩
    rw [hip]
    refine bind_ok.mpr ⟨ip, _, hlocked, ?_⟩
    refine bind_ok.mpr ⟨⟨⟩, _, hread, ?_⟩
    refine bind_ok.mpr ⟨⟨⟩, ((s.allocated pa rest).withFiles ino fb).setPage pa bytes, ?_, ?_⟩
    · refine modify_ok.mpr ?_
      simp [setPage, withFiles, allocated]
    · exact bind_ok.mpr ⟨true, s2, hmap, rfl⟩

end Faults

end Xv6.Vm
