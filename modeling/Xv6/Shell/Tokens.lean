import Xv6.Shell.Parser

/-!
# Tokens

`gettoken` reads the first token of a line and `peek` looks at its first character, where the
tokens of a line are those of `lex`.
-/
namespace Xv6.Shell

def WordChar (c : UInt8) : Prop := c ∉ whitespace ∧ c ∉ symbols

instance (c : UInt8) : Decidable (WordChar c) := inferInstanceAs (Decidable (_ ∧ _))

namespace Token

/-- The result of `gettoken` for a token. -/
def code : Token → UInt8
  | .bar => 124
  | .lparen => 40
  | .rparen => 41
  | .semi => 59
  | .amp => 38
  | .lt => 60
  | .gt => 62
  | .append => 43
  | .word _ => 97

/-- The first character of a token; that of a word is taken to be `a`. -/
def first : Token → UInt8
  | .append => 62
  | t => t.code

end Token

variable {c d : UInt8} {w s q : List UInt8} {t : Token} {ts : List Token}

@[simp] theorem flush_nil : flush [] = [] := rfl

theorem symbolOf_some (h : symbolOf c = some t) :
    t.code = c ∧ t.first = c ∧ c ∉ whitespace ∧ c ≠ 62 ∧ (∀ w, t ≠ .word w) ∧
      (c = 124 ∨ c = 40 ∨ c = 41 ∨ c = 59 ∨ c = 38 ∨ c = 60) := by
  unfold symbolOf at h
  split_ifs at h
  all_goals
    cases h
    subst c
    exact ⟨rfl, rfl, by decide, by decide, fun w hw => (by cases hw), by decide⟩

theorem symbolOf_none (hsymbol : symbolOf c = none) (hspace : c ∉ whitespace) (hgt : c ≠ 62) :
    WordChar c ∧ ¬ (c = 124 ∨ c = 40 ∨ c = 41 ∨ c = 59 ∨ c = 38 ∨ c = 60) := by
  unfold symbolOf at hsymbol
  split_ifs at hsymbol
  refine ⟨⟨hspace, ?_⟩, by tauto⟩
  simp only [symbols, List.mem_cons, List.not_mem_nil, or_false]
  tauto

theorem symbolOf_wordChar (h : WordChar c) : symbolOf c = none ∧ c ≠ 62 := by
  have hsymbols := h.2
  simp only [symbols, List.mem_cons, List.not_mem_nil, or_false, not_or] at hsymbols
  unfold symbolOf
  simp [hsymbols]

theorem lexFrom_space (h : c ∈ whitespace) (w s : List UInt8) :
    lexFrom w (c :: s) = flush w ++ lexFrom [] s := by
  cases s with
  | nil => simp only [lexFrom, if_pos h, flush_nil, List.append_nil]
  | cons d s => rw [lexFrom, if_pos h]

theorem lexFrom_symbol (h : symbolOf c = some t) (w s : List UInt8) :
    lexFrom w (c :: s) = flush w ++ t :: lexFrom [] s := by
  obtain ⟨-, -, hspace, hgt, -⟩ := symbolOf_some h
  cases s with
  | nil => simp only [lexFrom, if_neg hspace, if_neg hgt, h, flush_nil]
  | cons d s => rw [lexFrom, if_neg hspace, if_neg hgt, h]

theorem lexFrom_gt (h : s.head? ≠ some 62) (w : List UInt8) :
    lexFrom w (62 :: s) = flush w ++ .gt :: lexFrom [] s := by
  have hspace : (62 : UInt8) ∉ whitespace := by decide
  cases s with
  | nil => simp only [lexFrom, if_neg hspace, if_true, flush_nil]
  | cons d s =>
    have hd : d ≠ 62 := fun he => h (by rw [he]; rfl)
    rw [lexFrom, if_neg hspace, if_pos rfl, if_neg hd]

theorem lexFrom_append (w s : List UInt8) :
    lexFrom w (62 :: 62 :: s) = flush w ++ .append :: lexFrom [] s := by
  have hspace : (62 : UInt8) ∉ whitespace := by decide
  rw [lexFrom, if_neg hspace, if_pos rfl, if_pos rfl]

theorem lexFrom_wordChar (h : WordChar c) (w s : List UInt8) :
    lexFrom w (c :: s) = lexFrom (w ++ [c]) s := by
  obtain ⟨hsymbol, hgt⟩ := symbolOf_wordChar h
  cases s with
  | nil =>
    have hne : w ++ [c] ≠ [] := by simp
    simp only [lexFrom, if_neg h.1, if_neg hgt, hsymbol, flush, if_neg hne]
  | cons d s => rw [lexFrom, if_neg h.1, if_neg hgt, hsymbol]

/-- A word ends before a character that is not part of one. -/
theorem lexFrom_end (h : ∀ c ∈ s.head?, ¬ WordChar c) (w : List UInt8) :
    lexFrom w s = flush w ++ lex s := by
  unfold lex
  cases s with
  | nil => simp only [lexFrom, flush_nil, List.append_nil]
  | cons c s =>
    have hc := h c rfl
    by_cases hspace : c ∈ whitespace
    · rw [lexFrom_space hspace, lexFrom_space hspace, flush_nil, List.nil_append]
    · by_cases hgt : c = 62
      · subst hgt
        by_cases hd : s.head? = some 62
        · obtain ⟨s', rfl⟩ : ∃ s', s = 62 :: s' := by
            cases s with
            | nil => cases hd
            | cons d s' => exact ⟨s', by rw [Option.some.inj hd]⟩
          rw [lexFrom_append, lexFrom_append, flush_nil, List.nil_append]
        · rw [lexFrom_gt hd, lexFrom_gt hd, flush_nil, List.nil_append]
      · cases hsymbol : symbolOf c with
        | none => exact absurd (symbolOf_none hsymbol hspace hgt).1 hc
        | some t =>
          rw [lexFrom_symbol hsymbol, lexFrom_symbol hsymbol, flush_nil, List.nil_append]

theorem lexFrom_word (hw : ∀ c ∈ q, WordChar c) (hs : ∀ c ∈ s.head?, ¬ WordChar c)
    (w : List UInt8) : lexFrom w (q ++ s) = flush (w ++ q) ++ lex s := by
  induction q generalizing w with
  | nil => rw [List.nil_append, List.append_nil, lexFrom_end hs]
  | cons c q ih =>
    rw [List.cons_append, lexFrom_wordChar (hw c (by simp)),
      ih (fun d hd => hw d (List.mem_cons_of_mem c hd)), List.append_assoc]
    rfl

theorem lex_skip (s : List UInt8) : lex (skip s) = lex s := by
  unfold skip
  induction s with
  | nil => rfl
  | cons c s ih =>
    rw [List.dropWhile_cons]
    split_ifs with h
    · rw [ih]
      unfold lex
      rw [lexFrom_space (by simpa using h), flush_nil, List.nil_append]
    · rfl

theorem skip_suffix (s : List UInt8) : skip s <:+ s := List.dropWhile_suffix _

theorem skip_head : ∀ c ∈ (skip s).head?, c ∉ whitespace := by
  intro c hc hspace
  have := List.head?_dropWhile_not (fun c => decide (c ∈ whitespace)) s
  unfold skip at hc
  rw [hc] at this
  simp [hspace] at this

theorem skipWord_spec (s : List UInt8) :
    ∃ w, s = w ++ skipWord s ∧ (∀ c ∈ w, WordChar c) ∧
      ∀ c ∈ (skipWord s).head?, ¬ WordChar c := by
  refine ⟨s.takeWhile fun c => c ∉ whitespace ∧ c ∉ symbols, ?_, ?_, ?_⟩
  · exact (List.takeWhile_append_dropWhile).symm
  · intro c hc
    exact of_decide_eq_true (List.all_eq_true.mp List.all_takeWhile c hc)
  · intro c hc hword
    have := List.head?_dropWhile_not (fun c => decide (c ∉ whitespace ∧ c ∉ symbols)) s
    unfold skipWord at hc
    rw [hc] at this
    simp [hword.1, hword.2] at this

/-- What `scan` finds where there is no whitespace. -/
structure Scanned (q eq : List UInt8) (t : Token) : Prop where
  lex_eq : lex q = t :: lex eq
  suffix : eq <:+ q
  shorter : eq.length < q.length
  head : q.head? = some t.first ∨ (∃ w, t = .word w) ∧ ∀ c ∈ q.head?, c ∉ symbols
  word : ∀ w, t = .word w → q = w ++ eq ∧ w ≠ [] ∧ (∀ c ∈ w, WordChar c) ∧
    ∀ c ∈ eq.head?, ¬ WordChar c

theorem scan_spec (hspace : c ∉ whitespace) (s : List UInt8) :
    ∃ t eq, scan (c :: s) = (t.code, eq) ∧ Scanned (c :: s) eq t := by
  unfold scan
  dsimp only
  by_cases hgt : c = 62
  · subst hgt
    rw [if_neg (by decide), if_pos rfl]
    have hne : ∀ t : Token, t = .gt ∨ t = .append → ∀ w, t ≠ .word w := by
      rintro t (rfl | rfl) w hw <;> cases hw
    cases s with
    | nil =>
      refine ⟨.gt, [], rfl, rfl, List.nil_suffix, by simp, .inl rfl, fun w hw => ?_⟩
      exact absurd hw (hne _ (.inl rfl) w)
    | cons d s =>
      dsimp only
      by_cases hd : d = 62
      · subst hd
        rw [if_pos rfl]
        refine ⟨.append, s, rfl, lexFrom_append [] s, ?_, ?_, .inl rfl, fun w hw => ?_⟩
        · exact (List.suffix_cons 62 s).trans (List.suffix_cons 62 _)
        · simp
        · exact absurd hw (hne _ (.inr rfl) w)
      · rw [if_neg hd]
        refine ⟨.gt, d :: s, rfl, lexFrom_gt (by simpa using hd) [], List.suffix_cons _ _, by simp,
          .inl rfl, fun w hw => ?_⟩
        exact absurd hw (hne _ (.inl rfl) w)
  · cases hsymbol : symbolOf c with
    | some t =>
      obtain ⟨hcode, hfirst, -, -, hword, hcase⟩ := symbolOf_some hsymbol
      rw [if_pos hcase]
      refine ⟨t, s, by rw [hcode], lexFrom_symbol hsymbol [] s, List.suffix_cons _ _, by simp,
        .inl (by rw [hfirst]; rfl), fun w hw => absurd hw (hword w)⟩
    | none =>
      obtain ⟨hc, hcase⟩ := symbolOf_none hsymbol hspace hgt
      rw [if_neg hcase, if_neg hgt]
      obtain ⟨w, hsplit, hw, hend⟩ := skipWord_spec (c :: s)
      have hne : w ≠ [] := by
        rintro rfl
        rw [List.nil_append] at hsplit
        exact hend c (by rw [← hsplit]; rfl) hc
      refine ⟨.word w, skipWord (c :: s), rfl, ?_, ⟨w, hsplit.symm⟩, ?_, .inr ⟨⟨w, rfl⟩, ?_⟩, ?_⟩
      · have hlex := lexFrom_word hw hend []
        rw [← hsplit, List.nil_append, flush, if_neg hne] at hlex
        exact hlex
      · have hlength := congrArg List.length hsplit
        have hpos := List.length_pos_of_ne_nil hne
        rw [List.length_append] at hlength
        omega
      · rintro _ ⟨⟩
        exact hc.2
      · rintro _ ⟨⟩
        exact ⟨hsplit, hne, hw, hend⟩

theorem skip_eq_nil (h : lex s = []) : skip s = [] := by
  cases hq : skip s with
  | nil => rfl
  | cons c q =>
    have hspace := skip_head (s := s) c (by rw [hq]; rfl)
    obtain ⟨t, eq, -, hscan⟩ := scan_spec hspace q
    rw [← lex_skip, hq, hscan.lex_eq] at h
    cases h

theorem gettoken_nil (h : lex s = []) : gettoken s = (0, [], [], []) := by
  unfold gettoken
  rw [skip_eq_nil h]
  rfl

theorem gettoken_cons (h : lex s = t :: ts) :
    ∃ eq, gettoken s = (t.code, skip s, eq, skip eq) ∧ lex eq = ts ∧ Scanned (skip s) eq t := by
  cases hq : skip s with
  | nil =>
    rw [← lex_skip, hq] at h
    cases h
  | cons c q =>
    have hspace := skip_head (s := s) c (by rw [hq]; rfl)
    obtain ⟨t', eq, heq, hscan⟩ := scan_spec hspace q
    rw [← lex_skip, hq, hscan.lex_eq] at h
    obtain ⟨rfl, rfl⟩ := List.cons.inj h
    refine ⟨eq, ?_, rfl, hscan⟩
    unfold gettoken
    dsimp only
    rw [hq, heq]

/-- `peek` looks at the first character of the first token. -/
theorem peek_eq {toks : List UInt8} (h : toks ⊆ symbols) (s : List UInt8) :
    peek s toks = (decide (∃ t ∈ (lex s).head?, t.first ∈ toks), skip s) := by
  unfold peek
  rw [← lex_skip s]
  cases hq : skip s with
  | nil => simp [lex, lexFrom]
  | cons c q =>
    have hspace := skip_head (s := s) c (by rw [hq]; rfl)
    obtain ⟨t, eq, -, hscan⟩ := scan_spec hspace q
    rw [hscan.lex_eq]
    simp only [List.head?_cons, Option.mem_some_iff, exists_eq_left', Prod.mk.injEq, and_true,
      decide_eq_decide]
    rcases hscan.head with hfirst | ⟨⟨w, rfl⟩, hc⟩
    · rw [List.head?_cons, Option.some.injEq] at hfirst
      rw [hfirst]
    · have hnot : c ∉ toks := fun hm => hc c rfl (h hm)
      have hword : (97 : UInt8) ∉ toks := fun hm => absurd (h hm) (by decide)
      exact iff_of_false hnot hword

end Xv6.Shell
