import Xv6.Grep.Match

/-!
# The lines that grep prints

`grep` of `grep.c` reads its input piece by piece into a buffer, prints the lines that end in it
and moves what remains to the front. A line that does not fit into the buffer leaves no room for
the next call of `read`, which then returns 0 as at the end of the input.
-/
namespace Xv6.Grep

def bufSize : ℕ := 1024

def cstr (s : List UInt8) : List UInt8 := s.takeWhile (· ≠ 0)

def strchr (c : UInt8) : List UInt8 → Option ℕ
  | [] => none
  | x :: s => if x = 0 then none else if x = c then some 0 else (strchr c s).map (· + 1)

theorem strchr_lt {c : UInt8} {s : List UInt8} {k : ℕ} (h : strchr c s = some k) :
    k < s.length := by
  induction s generalizing k with
  | nil => cases h
  | cons x s ih =>
    unfold strchr at h
    split_ifs at h
    · cases h
      simp
    · obtain ⟨j, hj, rfl⟩ := Option.map_eq_some_iff.mp h
      have := ih hj
      simpa using this

/-- The loop over the lines in the buffer, from offset `p` on: what is written, the buffer, and
the pointer to the rest. -/
def printLines (pattern buf : List UInt8) (p : ℕ) : List UInt8 × List UInt8 × ℕ :=
  match h : strchr 10 (buf.drop p) with
  | none => ([], buf, p)
  | some k =>
    let q := p + k
    let cut := buf.set q 0
    if matchText pattern (cstr (cut.drop p)) then
      let buf := cut.set q 10
      let r := printLines pattern buf (q + 1)
      ((buf.drop p).take (q + 1 - p) ++ r.1, r.2)
    else printLines pattern cut (q + 1)
termination_by buf.length - p
decreasing_by
  all_goals
    have := strchr_lt h
    simp only [List.length_drop, List.length_set] at *
    omega

/-- `read` of at most `n` bytes. How many bytes arrive is up to `pick`. -/
def read (pick : List UInt8 → ℕ) (n : ℕ) (rest : List UInt8) : List UInt8 :=
  rest.take (min n (pick rest + 1))

/-- The loop of `grep`, with `m` bytes of an incomplete line in the buffer. -/
def grepLoop (pattern : List UInt8) (pick : List UInt8 → ℕ) (buf : List UInt8) (m : ℕ)
    (rest : List UInt8) : List UInt8 :=
  let chunk := read pick (bufSize - m - 1) rest
  if _h : chunk = [] then []
  else
    let n := chunk.length
    let buf := (buf.take m ++ chunk ++ buf.drop (m + n)).set (m + n) 0
    let r := printLines pattern buf 0
    let left := m + n - r.2.2
    r.1 ++ grepLoop pattern pick ((r.2.1.drop r.2.2).take left ++ r.2.1.drop left) left
      (rest.drop n)
termination_by rest.length
decreasing_by
  have hpos := List.length_pos_iff.mpr _h
  have hle : chunk.length ≤ rest.length := List.length_take_le' _ _
  rw [List.length_drop]
  change rest.length - chunk.length < rest.length
  omega

def grep (pattern : List UInt8) (pick : List UInt8 → ℕ) (input : List UInt8) : List UInt8 :=
  grepLoop pattern pick (List.replicate bufSize 0) 0 input

def unlines (ls : List (List UInt8)) : List UInt8 := ls.flatMap (· ++ [10])

def short (l : List UInt8) : Bool := l.length + 1 < bufSize

section Text

variable {c : UInt8} {d w : List UInt8} {ls ks : List (List UInt8)}

@[simp] theorem unlines_nil : unlines [] = [] := rfl

@[simp] theorem unlines_cons (l : List UInt8) (ls : List (List UInt8)) :
    unlines (l :: ls) = l ++ 10 :: unlines ls := by
  simp [unlines]

theorem unlines_append : unlines (ls ++ ks) = unlines ls ++ unlines ks := by
  simp [unlines]

theorem length_lt_unlines {l : List UInt8} (h : l ∈ ls) : l.length < (unlines ls).length := by
  obtain ⟨as, bs, rfl⟩ := List.append_of_mem h
  simp only [unlines_append, unlines_cons, List.length_append, List.length_cons]
  omega

theorem exists_lines (d : List UInt8) :
    ∃ ks tail, d = unlines ks ++ tail ∧ (∀ k ∈ ks, (10 : UInt8) ∉ k) ∧ (10 : UInt8) ∉ tail := by
  induction d with
  | nil => exact ⟨[], [], rfl, by simp, by simp⟩
  | cons x d ih =>
    obtain ⟨ks, tail, rfl, hks, htail⟩ := ih
    by_cases hx : x = 10
    · exact ⟨[] :: ks, tail, by simp [hx], by simpa using hks, htail⟩
    cases ks with
    | nil => exact ⟨[], x :: tail, rfl, by simp, by simp [Ne.symm hx, htail]⟩
    | cons k ks =>
      refine ⟨(x :: k) :: ks, tail, by simp, ?_, htail⟩
      intro l hl
      rcases List.mem_cons.mp hl with rfl | hl
      · simpa [Ne.symm hx] using hks k (by simp)
      · exact hks l (by simp [hl])

theorem line_unique {k l u v : List UInt8} (hk : (10 : UInt8) ∉ k) (hl : (10 : UInt8) ∉ l)
    (h : k ++ 10 :: u = l ++ 10 :: v) : k = l ∧ u = v := by
  induction k generalizing l with
  | nil =>
    cases l with
    | nil => exact ⟨rfl, by simpa using h⟩
    | cons y l =>
      have hy : (10 : UInt8) = y := (List.cons.inj h).1
      simp [hy] at hl
  | cons x k ih =>
    cases l with
    | nil =>
      have hx : x = 10 := (List.cons.inj h).1
      simp [hx] at hk
    | cons y l =>
      obtain ⟨rfl, htail⟩ := List.cons.inj h
      obtain ⟨rfl, rfl⟩ := ih (fun hm => hk (by simp [hm])) (fun hm => hl (by simp [hm])) htail
      exact ⟨rfl, rfl⟩

theorem unlines_split {rest : List UInt8} (hls : ∀ l ∈ ls, (10 : UInt8) ∉ l)
    (hks : ∀ k ∈ ks, (10 : UInt8) ∉ k) (h : unlines ls = unlines ks ++ rest) :
    ∃ ls', ls = ks ++ ls' ∧ rest = unlines ls' := by
  induction ks generalizing ls with
  | nil => exact ⟨ls, rfl, by simpa using h.symm⟩
  | cons k ks ih =>
    cases ls with
    | nil => simp at h
    | cons l ls =>
      simp only [unlines_cons, List.append_assoc, List.cons_append] at h
      obtain ⟨rfl, htail⟩ := line_unique (hls l (by simp)) (hks k (by simp)) h
      obtain ⟨ls', rfl, hrest⟩ :=
        ih (fun x hx => hls x (by simp [hx])) (fun x hx => hks x (by simp [hx])) htail
      exact ⟨ls', rfl, hrest⟩

theorem first_line {rest l : List UInt8} (hw : (10 : UInt8) ∉ w)
    (h : w ++ rest = unlines (l :: ls)) : w.length ≤ l.length := by
  by_contra hlt
  have hget : (w ++ rest)[l.length]? = some 10 := by simp [h]
  rw [List.getElem?_append_left (by omega)] at hget
  exact hw (List.mem_of_getElem? hget)

end Text

section Loops

variable (pattern : List UInt8)

theorem strchr_line {l s : List UInt8} (h0 : (0 : UInt8) ∉ l) (hl : (10 : UInt8) ∉ l) :
    strchr 10 (l ++ 10 :: s) = some l.length := by
  induction l with
  | nil => rfl
  | cons x l ih =>
    simp only [List.mem_cons, not_or] at h0 hl
    simp [strchr, Ne.symm h0.1, Ne.symm hl.1, ih h0.2 hl.2]

theorem strchr_none {l s : List UInt8} (h0 : (0 : UInt8) ∉ l) (hl : (10 : UInt8) ∉ l) :
    strchr 10 (l ++ 0 :: s) = none := by
  induction l with
  | nil => rfl
  | cons x l ih =>
    simp only [List.mem_cons, not_or] at h0 hl
    simp [strchr, Ne.symm h0.1, Ne.symm hl.1, ih h0.2 hl.2]

theorem cstr_line {l s : List UInt8} (h0 : (0 : UInt8) ∉ l) : cstr (l ++ 0 :: s) = l := by
  rw [cstr, List.takeWhile_append_of_pos]
  · simp
  · intro x hx
    have hne : x ≠ 0 := fun hz => h0 (hz ▸ hx)
    simpa using hne

theorem printLines_none {buf : List UInt8} {p : ℕ} (h : strchr 10 (buf.drop p) = none) :
    printLines pattern buf p = ([], buf, p) := by
  rw [printLines]
  split
  · rfl
  · simp_all

/-- One line of the buffer. The newline comes back only if the line is printed. -/
theorem printLines_line (pre s : List UInt8) {l : List UInt8} (h0 : (0 : UInt8) ∉ l)
    (hl : (10 : UInt8) ∉ l) :
    ∃ b, printLines pattern (pre ++ (l ++ 10 :: s)) pre.length =
      let r := printLines pattern ((pre ++ (l ++ [b])) ++ s) (pre ++ (l ++ [b])).length
      (unlines ([l].filter (matchText pattern)) ++ r.1, r.2) := by
  have hdrop : (pre ++ (l ++ 10 :: s)).drop pre.length = l ++ 10 :: s := by simp
  have hset : ∀ b b' : UInt8, (pre ++ (l ++ b :: s)).set (pre.length + l.length) b' =
      pre ++ (l ++ b' :: s) := by
    intro b b'
    rw [List.set_append_right _ _ (by omega), List.set_append_right _ _ (by omega)]
    simp
  have htake : (l ++ 10 :: s).take (l.length + 1) = l ++ [10] := by
    rw [show l ++ 10 :: s = (l ++ [10]) ++ s by simp,
      show l.length + 1 = (l ++ [(10 : UInt8)]).length by simp, List.take_left]
  rw [printLines]
  split
  · rename_i hnone
    rw [hdrop, strchr_line h0 hl] at hnone
    cases hnone
  · rename_i k hk
    rw [hdrop, strchr_line h0 hl, Option.some.injEq] at hk
    subst hk
    simp only [hset, List.drop_left, cstr_line h0]
    split_ifs with hm
    · refine ⟨10, ?_⟩
      simp [hm, Nat.add_assoc, htake]
    · refine ⟨0, ?_⟩
      simp [hm, Nat.add_assoc]

/-- The complete lines are printed if they match, and the rest of the text stays in place. -/
theorem printLines_eq {ks : List (List UInt8)} (pre junk : List UInt8) {tail : List UInt8}
    (h0 : ∀ k ∈ ks, (0 : UInt8) ∉ k ∧ (10 : UInt8) ∉ k) (ht0 : (0 : UInt8) ∉ tail)
    (ht : (10 : UInt8) ∉ tail) :
    ∃ pre', pre'.length = pre.length + (unlines ks).length ∧
      printLines pattern (pre ++ (unlines ks ++ (tail ++ 0 :: junk))) pre.length =
        (unlines (ks.filter (matchText pattern)), pre' ++ (tail ++ 0 :: junk), pre'.length) := by
  induction ks generalizing pre with
  | nil =>
    refine ⟨pre, rfl, printLines_none pattern ?_⟩
    simpa using strchr_none ht0 ht
  | cons k ks ih =>
    obtain ⟨hk0, hk⟩ := h0 k (by simp)
    obtain ⟨b, hb⟩ := printLines_line pattern pre (unlines ks ++ (tail ++ 0 :: junk)) hk0 hk
    obtain ⟨pre', hlen, hrest⟩ := ih (pre ++ (k ++ [b])) fun x hx => h0 x (by simp [hx])
    refine ⟨pre', ?_, ?_⟩
    · simp only [hlen, List.length_append, unlines_cons, List.length_cons, List.length_nil]
      omega
    · rw [unlines_cons, List.append_assoc, List.cons_append, hb, hrest]
      simp only [← unlines_append, ← List.filter_append, List.singleton_append]

end Loops

section Output

variable (pattern : List UInt8) (pick : List UInt8 → ℕ)

theorem read_eq_nil {n : ℕ} {rest : List UInt8} : read pick n rest = [] ↔ n = 0 ∨ rest = [] := by
  simp [read]

theorem read_prefix (n : ℕ) (rest : List UInt8) : (read pick n rest).length ≤ n ∧
    rest = read pick n rest ++ rest.drop (read pick n rest).length := by
  refine ⟨?_, (List.prefix_iff_eq_append.mp (List.take_prefix _ _)).symm⟩
  simp only [read, List.length_take]
  omega

/-- The printed lines are the matching ones before the first that does not fit into the buffer.
The invariant is on the bytes `w` that are kept: they are in the buffer, and no line ends in them. -/
theorem grepLoop_eq {buf w rest : List UInt8} {ls : List (List UInt8)}
    (hls : ∀ l ∈ ls, (0 : UInt8) ∉ l ∧ (10 : UInt8) ∉ l) (hbuf : buf.length = bufSize)
    (hw : buf.take w.length = w) (hlen : w.length < bufSize) (hnl : (10 : UInt8) ∉ w)
    (hdata : w ++ rest = unlines ls) :
    grepLoop pattern pick buf w.length rest =
      unlines ((ls.takeWhile short).filter (matchText pattern)) := by
  induction hn : rest.length using Nat.strong_induction_on generalizing buf w rest ls with
  | _ n ih =>
  rw [grepLoop]
  split_ifs with hchunk
  · -- nothing is read: the buffer is full of a line, or the input has ended
    cases ls with
    | nil => rfl
    | cons l ls =>
      have hfirst := first_line hnl hdata
      rcases (read_eq_nil pick).mp hchunk with hfull | rfl
      · have hlong : short l = false := by
          simp only [short, decide_eq_false_iff_not]
          omega
        simp [hlong]
      · have hmem : (10 : UInt8) ∈ w := by
          rw [List.append_nil] at hdata
          simp [hdata]
        exact absurd hmem hnl
  obtain ⟨hle, hprefix⟩ := read_prefix pick (bufSize - w.length - 1) rest
  generalize read pick (bufSize - w.length - 1) rest = chunk at hchunk hle hprefix
  generalize rest.drop chunk.length = rest' at hprefix
  subst hprefix
  obtain ⟨x, junk, hjunk⟩ : ∃ x junk, buf.drop (w ++ chunk).length = x :: junk := by
    apply List.exists_cons_of_length_pos
    simp only [List.length_drop, List.length_append]
    omega
  obtain ⟨ks, tail, hd, hks, htail⟩ := exists_lines (w ++ chunk)
  rw [← List.append_assoc, hd, List.append_assoc] at hdata
  obtain ⟨ls', rfl, hrest⟩ := unlines_split (fun l hl => (hls l hl).2) hks hdata.symm
  have hzero : (0 : UInt8) ∉ unlines (ks ++ ls') := by
    simp only [unlines, List.mem_flatMap, List.mem_append, List.mem_singleton, not_exists, not_and,
      not_or]
    exact fun l hl => ⟨(hls l (List.mem_append.mpr hl)).1, by decide⟩
  rw [unlines_append, ← hrest, ← List.append_assoc] at hzero
  have htail0 : (0 : UInt8) ∉ tail := fun h => hzero (by simp [h])
  obtain ⟨pre', hpre, hprint⟩ := printLines_eq pattern [] junk
    (fun k hk => ⟨(hls k (by simp [hk])).1, hks k hk⟩) htail0 htail
  have hfill : (buf.take w.length ++ chunk ++ buf.drop (w.length + chunk.length)).set
      (w.length + chunk.length) 0 = unlines ks ++ (tail ++ 0 :: junk) := by
    rw [hw, ← List.length_append, hjunk, List.set_append_right _ _ le_rfl, hd]
    simp
  have hleft : w.length + chunk.length - pre'.length = tail.length := by
    rw [← List.length_append, hd, hpre, List.length_append, List.length_nil]
    omega
  have hsum : (unlines ks).length + tail.length + 1 + junk.length = bufSize := by
    have := congrArg List.length hjunk
    rw [hd, List.length_drop, List.length_append, List.length_cons] at this
    omega
  simp only [List.nil_append, List.length_nil, Nat.zero_add] at hprint hpre
  simp only [hfill, hprint, hleft, List.drop_left, List.take_left]
  have hshort : ∀ k ∈ ks, short k = true := by
    intro k hk
    have := length_lt_unlines hk
    simp only [short, decide_eq_true_eq]
    omega
  rw [List.takeWhile_append_of_pos hshort, List.filter_append, unlines_append]
  congr 1
  refine ih rest'.length ?_ (fun l hl => hls l (by simp [hl])) ?_ ?_ ?_ htail hrest rfl
  · have := List.length_pos_iff.mpr hchunk
    simp at hn
    omega
  · simp
    omega
  · simp
  · omega

theorem grep_eq {ls : List (List UInt8)} (hls : ∀ l ∈ ls, (0 : UInt8) ∉ l ∧ (10 : UInt8) ∉ l) :
    grep pattern pick (unlines ls) =
      unlines ((ls.takeWhile short).filter (matchText pattern)) :=
  grepLoop_eq pattern pick (w := []) hls (by simp) rfl (by decide) (by simp) rfl

theorem unlines_eq_nil {ls : List (List UInt8)} : unlines ls = [] ↔ ls = [] := by
  cases ls <;> simp

/-- The output is the matching lines, however the input arrives, if and only if none of them
comes after the last line before one that fills the buffer. -/
theorem grep_prints_matching_iff (ls : List (List UInt8))
    (hls : ∀ l ∈ ls, (0 : UInt8) ∉ l ∧ (10 : UInt8) ∉ l) :
    grep pattern pick (unlines ls) = unlines (ls.filter (matchText pattern)) ↔
      ∀ l ∈ ls.dropWhile short, matchText pattern l = false := by
  rw [grep_eq pattern pick hls]
  nth_rewrite 2 [← List.takeWhile_append_dropWhile (p := short) (l := ls)]
  rw [List.filter_append, unlines_append, List.self_eq_append_right]
  simp [unlines_eq_nil]

end Output

/-- The pattern `a` on two short lines, read one byte at a time. -/
theorem grep_prints_matching_pieces :
    grep [97] (fun _ => 0) (unlines [[98], [97]]) = unlines [[97]] :=
  (grep_prints_matching_iff [97] (fun _ => 0) [[98], [97]] (by decide)).mpr (by decide)

/-- A line of 1023 times `a`, which fills the buffer. -/
def longLine : List UInt8 := List.replicate 1023 97

/-- The line matches `a` but is not printed. -/
theorem grep_loses_long_line : matchText [97] longLine = true ∧
    grep [97] (fun _ => 1022) (unlines [longLine]) = [] := by
  refine ⟨by decide +kernel, ?_⟩
  rw [grep_eq]
  · decide +kernel
  · decide +kernel

end Xv6.Grep
