import Xv6.Vm.Copying
import Xv6.Vm.UserMemory

/-!
# User copies

`copyout`, `copyin` and `copyinstr` go through user memory page by page and fault in the
pages that are missing. To them user memory is flat, as far as it reaches: they fail when they
get to a page that is neither mapped nor part of a region.
-/
namespace Xv6.Vm

open Library

section Loops

variable {p va fuel done got len : ℕ} {s s1 s' : Kernel} {src dst dst' : Bytes} {b : Bool}

def Kernel.Reaches (s : Kernel) (p va len : ℕ) : Prop :=
  ∀ i < len, ¬s.Unreachable p (u64 (va + i : ℕ))

theorem Chunk.reaches {n next : ℕ} {s1 : Kernel} (h : Chunk va len n next)
    (hva : ¬s.Unreachable p va) (hsame : ∀ a, s1.Unreachable p a ↔ s.Unreachable p a) :
    s1.Reaches p next (len - n) ↔ s.Reaches p va len := by
  constructor
  · intro hr i hi
    by_cases hn : i < n
    · rwa [h.unreachable hn]
    · obtain ⟨hlt, heq⟩ := h.split hi hn
      have hi' := hr (i - n) hlt
      rwa [hsame, heq] at hi'
  · intro hr i hi
    have hnext := h.rest (by omega)
    have hi' := hr (n + i) (by omega)
    rwa [hsame, hnext, Nat.add_assoc]

theorem Kernel.Unreachable.not_reaches (h : s.Unreachable p va) (hva : va < 2 ^ 64)
    (hlen : len ≠ 0) : ¬s.Reaches p va len := by
  intro hr
  have hun := hr 0 (by omega)
  rw [Nat.add_zero, u64_of_lt hva] at hun
  exact hun h

/-- The loop of `copyout` stores the bytes, if all of the destination is in reach. -/
theorem copyoutLoop_spec (h : s.Unaliased p) (hva : va < 2 ^ 64) (hfuel : len < fuel)
    (hx : copyoutLoop p src fuel va done len s = .ok b s') :
    (b = true ↔ s.Reaches p va len) ∧
      (∀ a pa, s.walkaddr p a = some pa → s'.walkaddr p a = some pa) ∧
      (b = true → (∀ i < len, (s'.walkaddr p (va + i)).isSome) ∧
        ∀ a, s'.userByte p a = if va ≤ a ∧ a < va + len then some (src (done + (a - va)))
          else s.userByte p a) := by
  induction fuel generalizing s va done len with
  | zero => omega
  | succ fuel ih =>
    unfold copyoutLoop at hx
    rcases pure_ite_ok hx with ⟨rfl, rfl, rfl⟩ | ⟨hlen, hx⟩
    · simp [Kernel.Reaches]
    · obtain ⟨o, s1, hpage, hx⟩ := bind_ok.mp hx
      obtain ⟨hseen, hnone, hsome⟩ := userPage_seen h hpage
      cases o with
      | none =>
        obtain ⟨rfl, rfl⟩ := pure_ok.mp hx
        have hbad := (hnone rfl).not_reaches hva hlen
        exact ⟨by simp [hbad], hseen.kept, by simp⟩
      | some pa =>
        obtain ⟨hw, hin⟩ := hsome pa rfl
        simp only [bind_ok, modify_ok, sub_pgRoundDown] at hx
        obtain ⟨_, _, rfl, hx⟩ := hx
        have hc := chunk_page (walkaddr_some hw).1 hlen
        set n := min (pgSize - va % pgSize) len
        have hpos := hc.pos
        have hle := hc.le
        obtain ⟨hiff, hkept, hrest⟩ :=
          ih hseen.unaliased.setPage (u64_lt _) (by omega) hx
        refine ⟨hiff.trans (hc.reaches hin hseen.unreachable),
          fun a pa ha => hkept a pa (hseen.kept a pa ha), fun hb => ?_⟩
        obtain ⟨hmapped, hbytes⟩ := hrest hb
        refine ⟨fun i hi => ?_, fun a => ?_⟩
        · by_cases hn : i < n
          · rw [hkept _ pa ((walkaddr_congr (hc.div hn)).trans hw)]
            rfl
          · obtain ⟨hlt, heq⟩ := hc.split hi hn
            rw [← heq]
            exact hmapped _ hlt
        · rw [hbytes, hc.store hseen.unaliased hw, hseen.byte]
          simp only [Nat.add_assoc]
          exact hc.ite_joined (fun k => some (src (done + k))) _

/-- The loop of `copyin` fetches the bytes, if all of the source is in reach. -/
theorem copyinLoop_spec {m : ℕ} (h : s.Unaliased p) (hva : va < 2 ^ 64) (hfuel : len < fuel)
    (hx : copyinLoop p fuel dst got va len s = .ok (b, dst', m) s') :
    (b = true ↔ s.Reaches p va len) ∧ (∀ i < got, dst' i = dst i) ∧
      (b = true → m = got + len ∧ (∀ i, got + len ≤ i → dst' i = dst i) ∧
        ∀ i < len, s.userByte p (va + i) = some (dst' (got + i))) := by
  induction fuel generalizing s va dst got len with
  | zero => omega
  | succ fuel ih =>
    unfold copyinLoop at hx
    rcases pure_ite_ok hx with ⟨rfl, hr, rfl⟩ | ⟨hlen, hx⟩
    · cases hr
      simp [Kernel.Reaches]
    · obtain ⟨o, s1, hpage, hx⟩ := bind_ok.mp hx
      obtain ⟨hseen, hnone, hsome⟩ := userPage_seen h hpage
      cases o with
      | none =>
        obtain ⟨hr, rfl⟩ := pure_ok.mp hx
        cases hr
        have hbad := (hnone rfl).not_reaches hva hlen
        exact ⟨by simp [hbad], fun _ _ => rfl, by simp⟩
      | some pa =>
        obtain ⟨hw, hin⟩ := hsome pa rfl
        replace hx := get_bind_ok hx
        simp only [sub_pgRoundDown] at hx
        have hc := chunk_page (walkaddr_some hw).1 hlen
        set n := min (pgSize - va % pgSize) len
        have hpos := hc.pos
        have hle := hc.le
        obtain ⟨hiff, hkept, hrest⟩ := ih hseen.unaliased (u64_lt _) (by omega) hx
        refine ⟨hiff.trans (hc.reaches hin hseen.unreachable), fun i hi => ?_, fun hb => ?_⟩
        · rw [hkept i (by omega), Bytes.blit_apply_of_not_mem _ _ _ _ (by omega)]
        · obtain ⟨hm, hframe, hbytes⟩ := hrest hb
          refine ⟨by omega, fun i hi => ?_, fun i hi => ?_⟩
          · rw [hframe i (by omega), Bytes.blit_apply_of_not_mem _ _ _ _ (by omega)]
          · by_cases hn : i < n
            · rw [hkept _ (by omega), Bytes.blit_apply_of_mem _ _ _ _ (by omega) (by omega),
                ← hseen.byte, hc.userByte hw hn, Nat.add_sub_cancel_left]
            · obtain ⟨hlt, heq⟩ := hc.split hi hn
              have hbyte := hbytes (i - n) hlt
              rwa [hseen.byte, heq, Nat.add_assoc, Nat.add_sub_of_le (by omega)] at hbyte

/-- The inner loop of `copyinstr` copies up to the first NUL. -/
theorem copyinstrPage_spec {page : Bytes} {n off m : ℕ}
    (hx : copyinstrPage page n off dst got = (b, dst', m)) :
    got ≤ m ∧ (∀ i, dst' i = if got ≤ i ∧ i < m then page (off + (i - got)) else dst i) ∧
      (b = true → ∃ k < n, m = got + k + 1 ∧ page (off + k) = 0 ∧ ∀ i < k, page (off + i) ≠ 0) ∧
      (b = false → m = got + n ∧ ∀ i < n, page (off + i) ≠ 0) := by
  induction n generalizing off dst got with
  | zero =>
    cases hx
    exact ⟨le_rfl, fun i => by rw [if_neg (by omega)], by simp, by simp⟩
  | succ n ih =>
    unfold copyinstrPage at hx
    split_ifs at hx with hnul
    · cases hx
      refine ⟨by omega, fun i => ?_, fun _ => ⟨0, by omega, rfl, hnul, by simp⟩, by simp⟩
      by_cases hi : i = got
      · subst hi
        simp [hnul]
      · rw [Function.update_of_ne hi, if_neg (by omega)]
    · obtain ⟨hle, hbytes, hfound, hmissed⟩ := ih hx
      have hshift : ∀ i, page (off + 1 + i) = page (off + (i + 1)) := fun i => by
        rw [Nat.add_assoc, Nat.add_comm 1]
      have hcons : ∀ k, (∀ i < k, page (off + 1 + i) ≠ 0) → ∀ i < k + 1, page (off + i) ≠ 0 := by
        intro k hk i hi
        cases i with
        | zero => exact hnul
        | succ i => exact hshift i ▸ hk i (by omega)
      refine ⟨by omega, fun i => ?_, fun hb => ?_, fun hb => ?_⟩
      · rw [hbytes]
        rcases Nat.lt_trichotomy i got with hi | rfl | hi
        · rw [if_neg (by omega), if_neg (by omega), Function.update_of_ne (by omega)]
        · rw [if_neg (by omega), if_pos (by omega)]
          simp
        · rw [Function.update_of_ne (by omega), hshift, show i - (got + 1) + 1 = i - got by omega]
          exact if_congr (by omega) rfl rfl
      · obtain ⟨k, hk, rfl, hzero, hbefore⟩ := hfound hb
        exact ⟨k + 1, by omega, by omega, hshift k ▸ hzero, hcons k hbefore⟩
      · obtain ⟨rfl, hall⟩ := hmissed hb
        exact ⟨by omega, hcons n hall⟩

/-- The bytes from `va` on are in reach up to number `k`, which is a NUL. -/
def Kernel.NulAt (s : Kernel) (p va k : ℕ) : Prop :=
  s.Reaches p va (k + 1) ∧ s.userByte p (u64 (va + k : ℕ)) = some 0

theorem Chunk.shorten {n next k : ℕ} (h : Chunk va len n next) (hn : n ≤ k) (hk : k ≤ len) :
    Chunk va k n next :=
  ⟨h.pos, hn, h.fits, h.top, fun hlt => h.rest (by omega), h.aligned⟩

theorem Chunk.nulAt {n next k : ℕ} (h : Chunk va len n next) (hin : ¬s.Unreachable p va)
    (hseen : Seen p s s1) (hn : n ≤ k) (hk : k < len) :
    s1.NulAt p next (k - n) ↔ s.NulAt p va k := by
  have hreach := (h.shorten (k := k + 1) (by omega) hk).reaches hin hseen.unreachable
  have haddr : next + (k - n) = va + k := (h.split hk (by omega)).2
  rw [Kernel.NulAt, Kernel.NulAt, ← hreach, haddr, hseen.byte, Nat.sub_add_comm hn]

/-- The loop of `copyinstr` copies up to the first NUL, if there is one in reach. -/
theorem copyinstrLoop_spec {m max : ℕ} (h : s.Unaliased p) (hva : va < 2 ^ 64)
    (hfuel : max < fuel) (hx : copyinstrLoop p fuel dst got va max s = .ok (b, dst', m) s') :
    got ≤ m ∧ m ≤ got + max ∧ (∀ i, i < got ∨ m ≤ i → dst' i = dst i) ∧
      (b = true → ∃ k < max, m = got + k + 1 ∧ s.NulAt p va k ∧ dst' (got + k) = 0 ∧
        (∀ i < k, dst' (got + i) ≠ 0) ∧ ∀ i ≤ k, s.userByte p (va + i) = some (dst' (got + i))) ∧
      (b = false → ∀ k < max, ¬s.NulAt p va k) := by
  induction fuel generalizing s va dst got max with
  | zero => omega
  | succ fuel ih =>
    unfold copyinstrLoop at hx
    rcases pure_ite_ok hx with ⟨rfl, hr, rfl⟩ | ⟨hlen, hx⟩
    · cases hr
      simp
    · obtain ⟨o, s1, hpage, hx⟩ := bind_ok.mp hx
      obtain ⟨hseen, hnone, hsome⟩ := userPage_seen h hpage
      cases o with
      | none =>
        obtain ⟨hr, rfl⟩ := pure_ok.mp hx
        cases hr
        refine ⟨le_rfl, by omega, fun _ _ => rfl, by simp, fun _ k _ hk => ?_⟩
        exact (hnone rfl).not_reaches hva (by omega) hk.1
      | some pa =>
        obtain ⟨hw, hin⟩ := hsome pa rfl
        replace hx := get_bind_ok hx
        simp only [sub_pgRoundDown] at hx
        have hc := chunk_page (walkaddr_some hw).1 hlen
        set n := min (pgSize - va % pgSize) max
        have hpos := hc.pos
        have hle := hc.le
        have hbyte : ∀ i < n, s.userByte p (va + i) = some (s1.mem pa (va % pgSize + i)) :=
          fun i hi => by rw [← hseen.byte, hc.userByte hw hi]
        cases hp : copyinstrPage (s1.mem pa) n (va % pgSize) dst got with
        | mk c r =>
        obtain ⟨dst1, m1⟩ := r
        obtain ⟨hle1, hcopied, hfound, hmissed⟩ := copyinstrPage_spec hp
        simp only [hp] at hx
        cases c with
        | true =>
          obtain ⟨hr, rfl⟩ := pure_ok.mp hx
          cases hr
          obtain ⟨k, hk, rfl, hzero, hbefore⟩ := hfound rfl
          have hdst : ∀ i ≤ k, dst' (got + i) = s1.mem pa (va % pgSize + i) := by
            intro i hi
            rw [hcopied, if_pos (by omega), Nat.add_sub_cancel_left]
          refine ⟨by omega, by omega, fun i hi => ?_,
            fun _ => ⟨k, by omega, rfl, ⟨?_, ?_⟩, ?_, ?_, ?_⟩,
            by simp⟩
          · rw [hcopied, if_neg (by omega)]
          · intro i hi
            rwa [hc.unreachable (by omega)]
          · rw [hc.u64_add hk, hbyte k hk, hzero]
          · rw [hdst k le_rfl, hzero]
          · intro i hi
            rw [hdst i (by omega)]
            exact hbefore i hi
          · intro i hi
            rw [hdst i hi, hbyte i (by omega)]
        | false =>
          obtain ⟨rfl, hnonzero⟩ := hmissed rfl
          obtain ⟨hge, hbound, hframe, hsuccess, hfailure⟩ :=
            ih hseen.unaliased (u64_lt _) (by omega) hx
          refine ⟨by omega, by omega, fun i hi => ?_, fun hb => ?_, fun hb k hk hnul => ?_⟩
          · rw [hframe i (by omega), hcopied, if_neg (by omega)]
          · obtain ⟨k, hk, rfl, hnul, hzero, hbefore, hbytes⟩ := hsuccess hb
            have hdst : ∀ i < n, dst' (got + i) = s1.mem pa (va % pgSize + i) := by
              intro i hi
              rw [hframe _ (by omega), hcopied, if_pos (by omega), Nat.add_sub_cancel_left]
            have hrest : ∀ i, n ≤ i → dst' (got + n + (i - n)) = dst' (got + i) := by
              intro i hi
              rw [Nat.add_assoc, Nat.add_sub_of_le hi]
            refine ⟨n + k, by omega, by omega, ?_, ?_, fun i hi => ?_, fun i hi => ?_⟩
            · refine (hc.nulAt hin hseen (by omega) (by omega)).mp ?_
              rwa [Nat.add_sub_cancel_left]
            · rwa [← Nat.add_assoc]
            · by_cases hn : i < n
              · rw [hdst i hn]
                exact hnonzero i hn
              · rw [← hrest i (by omega)]
                exact hbefore (i - n) (by omega)
            · by_cases hn : i < n
              · rw [hdst i hn, hbyte i hn]
              · have hb' := hbytes (i - n) (by omega)
                rwa [hseen.byte, hrest i (by omega), (hc.split (i := i) (by omega) hn).2] at hb'
          · by_cases hn : k < n
            · have hz := hnul.2
              rw [hc.u64_add hn, hbyte k hn] at hz
              exact hnonzero k hn (Option.some.inj hz)
            · refine hfailure hb (k - n) (by omega) ((hc.nulAt hin hseen (by omega) hk).mpr hnul)

end Loops

/-- The number of pages that a copy of `len` bytes at `va` touches. -/
def pagesTouched (va len : ℕ) : ℕ := (va % pgSize + len + pgSize - 1) / pgSize

/-- There is memory for faults on `k` pages, and at the given addresses faults can be served:
a page that is not mapped for user code but lies in a region is not mapped at all, and the
file of the region can be locked. -/
structure Kernel.Serves (s : Kernel) (p : ℕ) (touched : ℕ → Prop) (k : ℕ) : Prop where
  present : s.Has p
  memory : 3 * k ≤ s.freelist.length
  zero : 0 ∉ s.freelist
  faults : ∀ a, touched a → s.walkaddr p a = none → ∀ r perm,
    s.backing p (pgRoundDown a) = some (r, perm) →
      a < maxVa ∧ s.trans p (a / pgSize) = none ∧ ∃ ip, r.ip = some ip ∧ ip ∉ s.ilocked

section Returns

variable {p va fuel done got len k : ℕ} {s s' : Kernel} {touched : ℕ → Prop} {src dst : Bytes}

theorem Chunk.fewer {n next : ℕ} (h : Chunk va len n next) :
    pagesTouched next (len - n) < pagesTouched va len := by
  have hal := h.aligned
  have hpos := h.pos
  have hle := h.le
  have hfits := h.fits
  have hrest := h.rest
  unfold pagesTouched
  rw [hal]
  unfold pgSize at *
  omega

theorem Kernel.Serves.setPage {pa : ℕ} {bytes : Bytes} (h : s.Serves p touched k) :
    (s.setPage pa bytes).Serves p touched k :=
  ⟨h.present, h.memory, h.zero, h.faults⟩

theorem Kernel.Serves.less {j : ℕ} (h : s.Serves p touched k) (hj : j ≤ k) :
    s.Serves p touched j :=
  ⟨h.present, (Nat.mul_le_mul_left 3 hj).trans h.memory, h.zero, h.faults⟩

theorem Chunk.touches {n next : ℕ} (h : Chunk va len n next)
    (ht : ∀ i < len, touched (u64 (va + i : ℕ))) : ∀ i < len - n, touched (u64 (next + i : ℕ)) := by
  intro i hi
  have hn := ht (n + i) (by omega)
  rwa [h.rest (by omega), Nat.add_assoc]

variable (h : s.Unaliased p)
include h

/-- A page at one of the given addresses can be accessed or is out of reach. -/
theorem userPage_serves (hs : s.Serves p touched (k + 1)) (ha : touched va) :
    ∃ o s', userPage p (pgRoundDown va) s = .ok o s' ∧ s'.Serves p touched k := by
  unfold userPage
  rw [get_run]
  cases hw : s.walkaddr p (pgRoundDown va) with
  | some pa => exact ⟨some pa, s, rfl, hs.less (by omega)⟩
  | none =>
    cases hb : s.backing p (pgRoundDown va) with
    | none =>
      simp only [bind_run (checkVmas_of_none hb)]
      exact ⟨none, s, rfl, hs.less (by omega)⟩
    | some rp =>
      obtain ⟨r, perm⟩ := rp
      rw [walkaddr_pgRoundDown] at hw
      obtain ⟨hva, hn, ip, hip, hlock⟩ := hs.faults va ha hw r perm hb
      have hroom : 3 * k + 2 < s.freelist.length := by
        have := hs.memory
        omega
      have hlow : pgRoundDown va < maxVa := (Nat.div_mul_le_self va pgSize).trans_lt hva
      have hn' : s.trans p (pgRoundDown va / pgSize) = none := by rwa [pgRoundDown_div]
      obtain ⟨s', pa, halloc, hin, hleft⟩ := allocPhysicalVMA_room perm hs.present hip hlock
        (h.full _ r perm ip hb hip) hlow hn' hroom
      have hpa : pa ≠ 0 := by
        rintro rfl
        exact hs.zero hin.free
      have hwalk := fun a => hin.walkaddr (a := a) (backing_user hb) hpa
      rw [← walkaddr_pgRoundDown] at hw
      refine ⟨some pa, s', bind_ok.mpr ⟨true, s', ?_, ?_⟩, ?_⟩
      · rw [checkVmas_of_some hw hb]
        exact bind_ok.mpr ⟨⟨⟩, s', halloc, rfl⟩
      · rw [if_pos rfl, get_run]
        simp [hwalk]
      · refine ⟨hin.present, hleft, fun hmem => hs.zero (hin.suffix.subset hmem), ?_⟩
        intro a hta hwa r' perm' hb'
        rw [hwalk] at hwa
        split_ifs at hwa with hpage
        rw [backing_congr hin.proc hin.vmas] at hb'
        obtain ⟨hmax, htrans, hfile⟩ := hs.faults a hta hwa r' perm' hb'
        rw [hin.others p _ (.inr hpage), hin.ilocked]
        exact ⟨hmax, htrans, hfile⟩

variable (hs : s.Serves p touched (pagesTouched va len))
include hs

/-- The rule for one pass of a copy loop. -/
theorem userPage_then {α : Type} {f : Option ℕ → KernelM α} (hva : va < 2 ^ 64)
    (ht : ∀ i < len, touched (u64 (va + i : ℕ))) (hlen : len ≠ 0)
    (hnone : ∀ s1, Returns (f none) s1) (hsome : ∀ pa s1,
      Chunk va len (min (pgSize - va % pgSize) len) (u64 (pgRoundDown va + pgSize)) →
      s1.Unaliased p → s1.Serves p touched (pagesTouched (u64 (pgRoundDown va + pgSize))
        (len - min (pgSize - va % pgSize) len)) → Returns (f (some pa)) s1) :
    Returns (userPage p (pgRoundDown va) >>= f) s := by
  have htouched : touched va := by
    have h0 := ht 0 (by omega)
    rwa [Nat.add_zero, u64_of_lt hva] at h0
  have hpos : 0 < pagesTouched va len := by
    unfold pagesTouched
    exact Nat.div_pos (by omega) (by decide)
  obtain ⟨k, hk⟩ := Nat.exists_eq_succ_of_ne_zero hpos.ne'
  obtain ⟨o, s1, hx, hserves⟩ := userPage_serves h (hk ▸ hs) htouched
  obtain ⟨hseen, -, hwalk⟩ := userPage_seen h hx
  apply StopsIn.bind (Returns.of_ok hx)
  intro o' s1' hx'
  rw [hx] at hx'
  cases hx'
  cases o with
  | none => exact hnone s1
  | some pa =>
    have hc := chunk_page (walkaddr_some (hwalk pa rfl).1).1 hlen
    have hfewer := hc.fewer
    exact hsome pa s1 hc hseen.unaliased (hserves.less (by omega))

theorem copyoutLoop_returns (hva : va < 2 ^ 64) (ht : ∀ i < len, touched (u64 (va + i : ℕ))) :
    Returns (copyoutLoop p src fuel va done len) s := by
  induction fuel generalizing s va done len with
  | zero => exact .pure _
  | succ fuel ih =>
    unfold copyoutLoop
    refine StopsIn.ite (fun _ => .pure _) fun hlen => ?_
    refine userPage_then h hs hva ht hlen (fun _ => .pure _) ?_
    intro pa s1 hc h1 hs1
    apply StopsIn.modify
    simp only [sub_pgRoundDown]
    exact ih h1.setPage hs1.setPage (u64_lt _) (hc.touches ht)

theorem copyinLoop_returns (hva : va < 2 ^ 64) (ht : ∀ i < len, touched (u64 (va + i : ℕ))) :
    Returns (copyinLoop p fuel dst got va len) s := by
  induction fuel generalizing s va dst got len with
  | zero => exact .pure _
  | succ fuel ih =>
    unfold copyinLoop
    refine StopsIn.ite (fun _ => .pure _) fun hlen => ?_
    refine userPage_then h hs hva ht hlen (fun _ => .pure _) ?_
    intro pa s1 hc h1 hs1
    apply StopsIn.read
    simp only [sub_pgRoundDown]
    exact ih h1 hs1 (u64_lt _) (hc.touches ht)

theorem copyinstrLoop_returns (hva : va < 2 ^ 64) (ht : ∀ i < len, touched (u64 (va + i : ℕ))) :
    Returns (copyinstrLoop p fuel dst got va len) s := by
  induction fuel generalizing s va dst got len with
  | zero => exact .pure _
  | succ fuel ih =>
    unfold copyinstrLoop
    refine StopsIn.ite (fun _ => .pure _) fun hlen => ?_
    refine userPage_then h hs hva ht hlen (fun _ => .pure _) ?_
    intro pa s1 hc h1 hs1
    apply StopsIn.read
    simp only [sub_pgRoundDown]
    split
    · exact .pure _
    · exact ih h1 hs1 (u64_lt _) (hc.touches ht)

end Returns

/-- The addresses of a copy of `len` bytes at `va`. -/
def Touched (va len a : ℕ) : Prop := ∃ i < len, a = u64 (va + i : ℕ)

/-- User copies work as on a flat memory. With memory for the faults they return; they fail
exactly when a page that they touch is out of reach. What `copyout` has stored are the given
bytes and nothing else, `copyin` has fetched the bytes, and `copyinstr` has fetched the bytes
up to the first NUL if there is one in reach. -/
theorem user_copies {s : Kernel} {p : ℕ} (h : s.Unaliased p) (va len : ℕ) (hva : va < 2 ^ 64) :
    (s.Serves p (Touched va len) (pagesTouched va len) → ∀ bytes,
      Returns (copyout p va bytes len) s ∧ Returns (copyin p va len) s ∧
        Returns (copyinstr p bytes va len) s) ∧
    (∀ src b s', copyout p va src len s = .ok b s' →
      (b = false ↔ ∃ a, Touched va len a ∧ s.Unreachable p a) ∧
      (b = true → (∀ i < len, (s'.walkaddr p (va + i)).isSome) ∧
        ∀ a, s'.userByte p a = if va ≤ a ∧ a < va + len then some (src (a - va))
          else s.userByte p a)) ∧
    (∀ b dst n s', copyin p va len s = .ok (b, dst, n) s' →
      (b = false ↔ ∃ a, Touched va len a ∧ s.Unreachable p a) ∧
      (b = true → n = len ∧ ∀ i < len, s.userByte p (va + i) = some (dst i))) ∧
    ∀ dst b dst' n s', copyinstr p dst va len s = .ok (b, dst', n) s' →
      (b = true ↔ ∃ k < len, (∀ i ≤ k, ¬s.Unreachable p (u64 (va + i : ℕ))) ∧
        s.userByte p (u64 (va + k : ℕ)) = some 0) ∧
      (b = true → ∃ k < len, n = k + 1 ∧ dst' k = 0 ∧ (∀ i < k, dst' i ≠ 0) ∧
        ∀ i ≤ k, s.userByte p (va + i) = some (dst' i)) ∧
      n ≤ len ∧ ∀ i, n ≤ i → dst' i = dst i := by
  have hiff : ∀ b : Bool, (b = true ↔ s.Reaches p va len) →
      (b = false ↔ ∃ a, Touched va len a ∧ s.Unreachable p a) := by
    intro b hb
    rw [← Bool.not_eq_true, hb, Kernel.Reaches]
    push Not
    constructor
    · rintro ⟨i, hi, hun⟩
      exact ⟨_, ⟨i, hi, rfl⟩, hun⟩
    · rintro ⟨_, ⟨i, hi, rfl⟩, hun⟩
      exact ⟨i, hi, hun⟩
  refine ⟨fun hs bytes => ?_, ?_, ?_, ?_⟩
  · have ht : ∀ i < len, Touched va len (u64 (va + i : ℕ)) := fun i hi => ⟨i, hi, rfl⟩
    exact ⟨copyoutLoop_returns h hs hva ht, copyinLoop_returns h hs hva ht,
      copyinstrLoop_returns h hs hva ht⟩
  · intro src b s' hx
    obtain ⟨hb, -, hstored⟩ := copyoutLoop_spec h hva (Nat.lt_succ_self len) hx
    simp only [Nat.zero_add] at hstored
    exact ⟨hiff b hb, hstored⟩
  · intro b dst n s' hx
    obtain ⟨hb, -, hfetched⟩ := copyinLoop_spec h hva (Nat.lt_succ_self len) hx
    simp only [Nat.zero_add] at hfetched
    exact ⟨hiff b hb, fun ht => ⟨(hfetched ht).1, (hfetched ht).2.2⟩⟩
  · intro dst b dst' n s' hx
    obtain ⟨-, hn, hframe, hfound, hmissed⟩ := copyinstrLoop_spec h hva (Nat.lt_succ_self len) hx
    simp only [Nat.zero_add] at hn hfound
    refine ⟨⟨fun hb => ?_, fun ⟨k, hk, hreach, hzero⟩ => ?_⟩, fun hb => ?_, hn,
      fun i hi => hframe i (.inr hi)⟩
    · obtain ⟨k, hk, -, hnul, -⟩ := hfound hb
      exact ⟨k, hk, fun i hi => hnul.1 i (by omega), hnul.2⟩
    · by_contra hb
      exact hmissed (by simpa using hb) k hk ⟨fun i hi => hreach i (by omega), hzero⟩
    · obtain ⟨k, hk, hm, -, hzero, hbefore, hbytes⟩ := hfound hb
      exact ⟨k, hk, hm, hzero, hbefore, hbytes⟩

/-- The first process with two pages of text that are not resident. -/
def loaded : Kernel :=
  boot.setProc 0 fun q => { q with text := ⟨some 1, 0, 8192, 8192, 0⟩ }

theorem loaded_trans {a : ℕ} (ha : a < 8192) : loaded.trans 0 (a / pgSize) = none := by
  cases ht : loaded.trans 0 (a / pgSize) with
  | none => rfl
  | some pte =>
    rw [loaded, Kernel.trans_setProc] at ht
    have hleaf := boot_leaf ht
    have htrap : 2 < trapVpn := by decide
    have hpage : a / pgSize < 2 := Nat.div_lt_of_lt_mul ha
    omega

theorem loaded_walkaddr (a : ℕ) : loaded.walkaddr 0 a = none := by
  cases hw : loaded.walkaddr 0 a with
  | none => rfl
  | some pa =>
    obtain ⟨-, pte, hpte, hu, -⟩ := walkaddr_some hw
    rw [loaded, Kernel.trans_setProc] at hpte
    have hall : ∀ w ∈ [trapVpn, trapVpn + 1], ∀ pte ∈ boot.trans 0 w, pte.perm.u = false := by
      decide +kernel
    have hmem : a / pgSize ∈ [trapVpn, trapVpn + 1] := by
      rcases boot_leaf hpte with h | h <;> simp [h]
    simp [hall _ hmem pte hpte] at hu

theorem loaded_backing (a : ℕ) : loaded.backing 0 a =
    if a < 8192 then some (⟨some 1, 0, 8192, 8192, 0⟩, textPerm) else none := by
  have htext : (loaded.proc 0).text = ⟨some 1, 0, 8192, 8192, 0⟩ := rfl
  have hdata : (loaded.proc 0).data = .empty := by decide +kernel
  have hslots : ∀ i ∈ List.range perProcessVmas, loaded.slot 0 i = none := by decide +kernel
  have hvma : loaded.findSlot 0 a = none := by
    refine List.find?_eq_none.mpr fun i hi => ?_
    rw [hslots i hi]
    simp
  have hin : Region.Contains ⟨some 1, 0, 8192, 8192, 0⟩ a ↔ a < 8192 := by
    simp [Region.Contains, u64]
  have hout : ¬Region.empty.Contains a := by
    simp [Region.Contains, Region.empty, u64]
  simp only [Kernel.backing, Kernel.findVma, htext, hdata, hvma, hin, if_neg hout]
  rfl

theorem loaded_unaliased : loaded.Unaliased 0 where
  distinct a a' pa hw := by simp [loaded_walkaddr] at hw
  inUse a pa hw := by simp [loaded_walkaddr] at hw
  nodup := by decide +kernel
  full a r perm ip hb hip := by
    have hsize : (loaded.inode 1).size = 8192 := by decide +kernel
    rw [loaded_backing] at hb
    split_ifs at hb
    cases hb
    cases hip
    exact .of_direct (n := 8) (by rw [hsize]; decide) (by decide) (by decide +kernel)

/-- Ten bytes are stored at the end of the first page and the start of the second. -/
theorem user_copies_loaded : ∃ s', copyout 0 4090 (fun i => UInt8.ofNat (i + 1)) 10 loaded =
    .ok true s' ∧ s'.userByte 0 4095 = some 6 ∧ s'.userByte 0 4096 = some 7 ∧
      s'.userByte 0 4100 = loaded.userByte 0 4100 := by
  obtain ⟨hreturns, hcopyout, -⟩ := user_copies loaded_unaliased 4090 10 (by decide)
  have hlow : ∀ a, Touched 4090 10 a → a < 8192 := by
    rintro _ ⟨i, hi, rfl⟩
    rw [u64_of_lt (by omega)]
    omega
  have hserves : loaded.Serves 0 (Touched 4090 10) (pagesTouched 4090 10) := by
    have hpresent : (loaded.table 0).isSome := by decide +kernel
    refine ⟨hpresent, by decide +kernel, by decide +kernel, fun a ha _ r perm hb => ?_⟩
    have hlt := hlow a ha
    have hmax : 8192 < maxVa := by decide
    rw [loaded_backing] at hb
    split_ifs at hb
    cases hb
    exact ⟨by omega, loaded_trans hlt, 1, rfl, by decide +kernel⟩
  obtain ⟨b, s', hx⟩ := StopsIn.returns (hreturns hserves fun i => UInt8.ofNat (i + 1)).1
  obtain ⟨hfail, hstored⟩ := hcopyout _ b s' hx
  cases b with
  | false =>
    obtain ⟨a, ha, -, hnone⟩ := hfail.mp rfl
    have hlt := hlow a ha
    have hround : pgRoundDown a ≤ a := Nat.div_mul_le_self a pgSize
    rw [loaded_backing, if_pos (by omega)] at hnone
    cases hnone
  | true =>
    have hbytes := (hstored rfl).2
    exact ⟨s', hx, by rw [hbytes]; rfl, by rw [hbytes]; rfl, by rw [hbytes]; rfl⟩

end Xv6.Vm
