import Mathlib.Data.List.GetD
import Xv6.Shell.Descent

/-!
# The parser of the shell implements its grammar

`parsecmd` does on the characters of a line what recursive descent does on its tokens. The words
of the tree are the words of the line, also when zeros have been written after them.
-/
namespace Xv6.Shell

variable {line ps : List UInt8} {t u : Token} {ts : List Token}

def text (line : List UInt8) (sp : Span) : Word := (line.drop sp.q).take (sp.eq - sp.q)

/-- The span is a whole word of the line. -/
structure Spells (line : List UInt8) (sp : Span) : Prop where
  le : sp.q ≤ sp.eq
  eq_le : sp.eq ≤ line.length
  chars : ∀ c ∈ text line sp, WordChar c
  stop : ∀ c ∈ (line.drop sp.eq).head?, ¬ WordChar c

def Good (line : List UInt8) (c : Cmd Span) : Prop := ∀ sp ∈ c.names, Spells line sp

/-- The results of the parser and of the descent agree. -/
inductive Agrees (line : List UInt8) :
    Except Stop (Cmd Span × List UInt8) → Except Stop (Cmd Word × List Token) → Prop
  | error (e : Stop) : Agrees line (.error e) (.error e)
  | ok {c : Cmd Span} {rest : List UInt8} : rest <:+ line → Good line c →
      Agrees line (.ok (c, rest)) (.ok (c.map (text line), lex rest))

theorem Agrees.bind {x : Except Stop (Cmd Span × List UInt8)}
    {y : Except Stop (Cmd Word × List Token)}
    {f : Cmd Span × List UInt8 → Except Stop (Cmd Span × List UInt8)}
    {g : Cmd Word × List Token → Except Stop (Cmd Word × List Token)} (h : Agrees line x y)
    (hf : ∀ c rest, rest <:+ line → Good line c →
      Agrees line (f (c, rest)) (g (c.map (text line), lex rest))) :
    Agrees line (x >>= f) (y >>= g) := by
  cases h with
  | error e => exact .error e
  | ok hrest hc => exact hf _ _ hrest hc

theorem Agrees.of_ok {r : Except Stop (Cmd Span × List UInt8)} {d : Cmd Word}
    (h : Agrees line r (.ok (d, ts))) :
    ∃ c rest, r = .ok (c, rest) ∧ Good line c ∧ d = c.map (text line) ∧ ts = lex rest := by
  generalize hr : (Except.ok (d, ts) : Except Stop (Cmd Word × List Token)) = r' at h
  cases h with
  | error e => cases hr
  | ok _ hc =>
    cases hr
    exact ⟨_, _, rfl, hc, rfl, rfl⟩

section Tokens

theorem gettoken_drop (hps : ps <:+ line) (h : lex ps = t :: ts) :
    ∃ q eq rest, gettoken (skip ps) = (t.code, q, eq, rest) ∧ lex rest = ts ∧ rest <:+ line := by
  rw [← lex_skip] at h
  obtain ⟨eq, hget, hlex, hscan⟩ := gettoken_cons h
  refine ⟨_, eq, skip eq, hget, by rw [lex_skip, hlex], ?_⟩
  exact (skip_suffix eq).trans (hscan.suffix.trans
    ((skip_suffix _).trans ((skip_suffix ps).trans hps)))

theorem drop_ptr {s : List UInt8} (h : s <:+ line) : line.drop (ptr line.length s) = s :=
  (List.suffix_iff_eq_drop.mp h).symm

/-- Reading a word gives its span. -/
theorem gettoken_word {w : Word} (hps : ps <:+ line) (h : lex ps = .word w :: ts) :
    ∃ q eq rest, gettoken ps = (97, q, eq, rest) ∧ lex rest = ts ∧ rest <:+ line ∧
      Spells line ⟨ptr line.length q, ptr line.length eq⟩ ∧
      text line ⟨ptr line.length q, ptr line.length eq⟩ = w := by
  obtain ⟨eq, hget, hlex, hscan⟩ := gettoken_cons h
  obtain ⟨hsplit, -, hchars, hstop⟩ := hscan.word w rfl
  have hq : skip ps <:+ line := (skip_suffix ps).trans hps
  have heq : eq <:+ line := hscan.suffix.trans hq
  have hlength := congrArg List.length hsplit
  rw [List.length_append] at hlength
  have hle := hq.length_le
  have hdiff : ptr line.length eq - ptr line.length (skip ps) = w.length := by
    unfold ptr
    omega
  have htext : text line ⟨ptr line.length (skip ps), ptr line.length eq⟩ = w := by
    unfold text
    dsimp only
    rw [drop_ptr hq, hdiff, hsplit, List.take_left]
  refine ⟨skip ps, eq, skip eq, hget, by rw [lex_skip, hlex], (skip_suffix eq).trans heq, ?_, htext⟩
  constructor
  · change ptr line.length (skip ps) ≤ ptr line.length eq
    unfold ptr
    omega
  · change ptr line.length eq ≤ line.length
    unfold ptr
    omega
  · rw [htext]
    exact hchars
  · change ∀ c ∈ (line.drop (ptr line.length eq)).head?, ¬ WordChar c
    rw [drop_ptr heq]
    exact hstop

/-- `peek` for a single symbol. -/
theorem peek_symbol (hu : u = .bar ∨ u = .lparen ∨ u = .rparen ∨ u = .semi ∨ u = .amp)
    (ps : List UInt8) : peek ps [u.code] = (decide ((lex ps).head? = some u), skip ps) := by
  rw [peek_eq (by rcases hu with rfl | rfl | rfl | rfl | rfl <;> decide)]
  congr 1
  rw [decide_eq_decide]
  cases (lex ps).head? with
  | none => simp
  | some t =>
    simp only [Option.mem_some_iff, exists_eq_left', List.mem_singleton, Option.some.injEq]
    rcases hu with rfl | rfl | rfl | rfl | rfl <;> cases t <;> simp [Token.first, Token.code]

theorem peek_direction (ps : List UInt8) :
    peek ps [60, 62] = (decide (∃ t ∈ (lex ps).head?, t.direction ≠ none), skip ps) := by
  rw [peek_eq (by decide)]
  congr 1
  rw [decide_eq_decide]
  cases (lex ps).head? with
  | none => simp
  | some t => cases t <;> simp [Token.first, Token.code, Token.direction]

theorem peek_closes (ps : List UInt8) :
    peek ps [124, 41, 38, 59] = (decide (∃ t ∈ (lex ps).head?, t.Closes), skip ps) := by
  rw [peek_eq (by decide)]
  congr 1
  rw [decide_eq_decide]
  cases (lex ps).head? with
  | none => simp
  | some t => cases t <;> simp [Token.first, Token.code, Token.Closes]

end Tokens

section Agreement

variable {cmd : Cmd Span}

theorem agrees_stop (hps : ps <:+ line) (hcmd : Good line cmd) :
    Agrees line (.ok (cmd, skip ps)) (.ok (cmd.map (text line), lex ps)) := by
  rw [← lex_skip ps]
  exact .ok ((skip_suffix ps).trans hps) hcmd

theorem good_redir {sp : Span} (hcmd : Good line cmd) (hsp : Spells line sp) (mode fd : ℕ) :
    Good line (.redir cmd sp mode fd) := by
  intro a ha
  rw [Cmd.names, List.mem_append, List.mem_singleton] at ha
  cases ha with
  | inl hmem => exact hcmd a hmem
  | inr heq => exact heq ▸ hsp

theorem names_addArg {sp a : Span} (ha : a ∈ (cmd.addArg sp).names) : a = sp ∨ a ∈ cmd.names := by
  induction cmd with
  | exec argv =>
    simp only [Cmd.addArg, Cmd.names, List.mem_append, List.mem_singleton] at ha ⊢
    tauto
  | redir cmd file mode fd ih =>
    simp only [Cmd.addArg, Cmd.names, List.mem_append] at ha ⊢
    tauto
  | pipe left right => exact .inr ha
  | list left right => exact .inr ha
  | back cmd => exact .inr ha

theorem map_addArg (f : Span → Word) (sp : Span) :
    (cmd.addArg sp).map f = (cmd.map f).addArg (f sp) := by
  induction cmd with
  | exec argv => simp [Cmd.addArg, Cmd.map]
  | redir cmd file mode fd ih => rw [Cmd.addArg, Cmd.map, ih, Cmd.map, Cmd.addArg]
  | pipe left right => rfl
  | list left right => rfl
  | back cmd => rfl

theorem good_addArg {sp : Span} (hcmd : Good line cmd) (hsp : Spells line sp) :
    Good line (cmd.addArg sp) := by
  intro a ha
  cases names_addArg ha with
  | inl heq => exact heq ▸ hsp
  | inr hmem => exact hcmd a hmem

theorem code_word : t.code = 97 ↔ ∃ w, t = .word w := by
  cases t <;> simp [Token.code]

theorem code_ne_zero : t.code ≠ 0 := by
  cases t <;> simp [Token.code]

theorem parseredirs_word {d : Direction} {fuel : ℕ} {sp : Span} {rest : List UInt8}
    {P : Except Stop (Cmd Span × List UInt8) → Prop}
    (h : P (parseredirs line.length fuel (.redir cmd sp d.mode d.fd) rest)) :
    P (if d.token.code = 60 then parseredirs line.length fuel (.redir cmd sp 0 0) rest
      else if d.token.code = 62 then
        parseredirs line.length fuel (.redir cmd sp (0x001 ||| 0x200 ||| 0x400) 1) rest
      else if d.token.code = 43 then
        parseredirs line.length fuel (.redir cmd sp (0x001 ||| 0x200) 1) rest
      else parseredirs line.length fuel cmd rest) := by
  cases d with
  | input => exact h
  | output => exact h
  | append => exact h

theorem parseredirs_agrees (fuel : ℕ) (hps : ps <:+ line) (hcmd : Good line cmd) :
    Agrees line (parseredirs line.length fuel cmd ps)
      (Descent.redirs fuel (cmd.map (text line)) (lex ps)) := by
  induction fuel generalizing cmd ps with
  | zero => exact .error _
  | succ fuel ih =>
    rw [parseredirs, peek_direction]
    cases hlex : lex ps with
    | nil =>
      rw [Descent.redirs, ← hlex]
      simp only [hlex, List.head?_nil, Option.not_mem_none, false_and, exists_false, decide_false]
      rw [← hlex]
      exact agrees_stop hps hcmd
    | cons t ts =>
      simp only [List.head?_cons, Option.mem_some_iff, exists_eq_left']
      cases hdir : t.direction with
      | none =>
        simp only [Descent.redirs, hdir]
        rw [← hlex]
        exact agrees_stop hps hcmd
      | some d =>
        simp only [Descent.redirs, hdir]
        obtain ⟨q, eq, rest, hget, hrest, hsuffix⟩ := gettoken_drop hps hlex
        simp only [hget]
        cases hts : ts with
        | nil =>
          rw [gettoken_nil (by rw [hrest, hts])]
          exact .error _
        | cons u us =>
          by_cases hword : ∃ w, u = .word w
          · obtain ⟨w, rfl⟩ := hword
            obtain ⟨q', eq', rest', hget', hrest', hsuffix', hspells, htext⟩ :=
              gettoken_word hsuffix (hrest.trans hts)
            simp only [hget', Descent.direction_some hdir]
            rw [if_pos (by simp), if_neg (by simp)]
            apply parseredirs_word (P := fun r => Agrees line r _)
            have hstep := ih hsuffix' (good_redir hcmd hspells d.mode d.fd)
            rw [Cmd.map, htext, hrest'] at hstep
            exact hstep
          · obtain ⟨eq', hget', -, -⟩ := gettoken_cons (hrest.trans hts)
            have hcode : u.code ≠ 97 := fun hc => hword (code_word.mp hc)
            simp only [hget']
            rw [if_pos (by simp), if_pos hcode]
            cases u with
            | word w => exact absurd ⟨w, rfl⟩ hword
            | _ => exact .error _

theorem parseargs_agrees (fuel argc : ℕ) (hps : ps <:+ line) (hcmd : Good line cmd) :
    Agrees line (parseargs line.length fuel argc cmd ps)
      (Descent.args fuel argc (cmd.map (text line)) (lex ps)) := by
  induction fuel generalizing argc cmd ps with
  | zero => exact .error _
  | succ fuel ih =>
    rw [parseargs, peek_closes]
    cases hlex : lex ps with
    | nil =>
      have hskip : lex (skip ps) = [] := by rw [lex_skip, hlex]
      simp only [List.head?_nil, Option.not_mem_none, false_and, exists_false, decide_false,
        gettoken_nil hskip]
      exact .ok List.nil_suffix hcmd
    | cons t ts =>
      simp only [List.head?_cons, Option.mem_some_iff, exists_eq_left']
      by_cases hcloses : t.Closes
      · rw [Descent.args_closes hcloses, if_pos (by simpa using hcloses), ← hlex]
        exact agrees_stop hps hcmd
      · rw [if_neg (by simpa using hcloses)]
        by_cases hword : ∃ w, t = .word w
        · obtain ⟨w, rfl⟩ := hword
          obtain ⟨q, eq, rest, hget, hrest, hsuffix, hspells, htext⟩ :=
            gettoken_word ((skip_suffix ps).trans hps) ((lex_skip ps).trans hlex)
          simp only [hget]
          rw [if_neg (by decide), if_neg (by simp)]
          by_cases hargc : argc + 1 < maxArgs
          · rw [if_neg (Nat.not_le.mpr hargc), Descent.args_word hargc]
            have hredirs := parseredirs_agrees fuel hsuffix (good_addArg hcmd hspells)
            rw [map_addArg, htext, hrest] at hredirs
            exact hredirs.bind fun c rest hrest hc => ih (argc + 1) hrest hc
          · rw [if_pos (Nat.not_lt.mp hargc), Descent.args_many hargc]
            exact .error _
        · obtain ⟨q, eq, rest, hget, -, -⟩ := gettoken_drop hps hlex
          simp only [hget]
          rw [if_neg code_ne_zero, if_pos (fun hc => hword (code_word.mp hc)),
            Descent.args_other hcloses fun w hw => hword ⟨w, hw⟩]
          exact .error _

theorem parsebacks_agrees (fuel : ℕ) (hps : ps <:+ line) (hcmd : Good line cmd) :
    Agrees line (parsebacks fuel cmd ps)
      (Descent.backs fuel (cmd.map (text line)) (lex ps)) := by
  induction fuel generalizing cmd ps with
  | zero => exact .error _
  | succ fuel ih =>
    rw [parsebacks, show ([38] : List UInt8) = [Token.amp.code] from rfl,
      peek_symbol (by simp)]
    by_cases hamp : (lex ps).head? = some .amp
    · obtain ⟨q, eq, rest, hget, hrest, hsuffix⟩ := gettoken_drop hps (Descent.head_eq hamp)
      simp only [hget, hamp, decide_true, if_true]
      rw [Descent.head_eq hamp, Descent.backs, if_pos rfl, ← hrest]
      exact ih hsuffix hcmd
    · have hstop : Descent.backs (fuel + 1) (cmd.map (text line)) (lex ps) =
          .ok (cmd.map (text line), lex ps) := by
        cases hlex : lex ps with
        | nil => rfl
        | cons t ts =>
          rw [hlex, List.head?_cons, Option.some.injEq] at hamp
          rw [Descent.backs, if_neg hamp]
      simp only [hamp, decide_false, hstop]
      exact agrees_stop hps hcmd

theorem gettoken_symbol (hps : ps <:+ line) (h : (lex ps).head? = some u) :
    ∃ q eq rest, gettoken (skip ps) = (u.code, q, eq, rest) ∧ lex rest = (lex ps).tail ∧
      rest <:+ line :=
  gettoken_drop hps (Descent.head_eq h)

/-- The parser agrees with the descent, for all four functions at once. -/
theorem agrees (line : List UInt8) (fuel : ℕ) :
    (∀ ps, ps <:+ line → Agrees line (parseline line.length fuel ps) (Descent.line fuel (lex ps))) ∧
    (∀ ps, ps <:+ line → Agrees line (parsepipe line.length fuel ps) (Descent.pipe fuel (lex ps))) ∧
    (∀ ps, ps <:+ line → Agrees line (parseexec line.length fuel ps) (Descent.exec fuel (lex ps))) ∧
    (∀ ps, ps <:+ line →
      Agrees line (parseblock line.length fuel ps) (Descent.block fuel (lex ps))) := by
  induction fuel with
  | zero => exact ⟨fun _ _ => .error _, fun _ _ => .error _, fun _ _ => .error _,
    fun _ _ => .error _⟩
  | succ fuel ih =>
    obtain ⟨hline, hpipe, hexec, hblock⟩ := ih
    refine ⟨?_, ?_, ?_, ?_⟩
    · intro ps hps
      rw [parseline, Descent.line]
      apply (hpipe ps hps).bind
      intro c1 s1 hs1 hc1
      apply (parsebacks_agrees fuel hs1 hc1).bind
      intro c2 s2 hs2 hc2
      have hpeek := peek_symbol (u := .semi) (by simp) s2
      dsimp only
      rw [show ([59] : List UInt8) = [Token.semi.code] from rfl, hpeek]
      simp only [decide_eq_true_eq]
      split_ifs with hsemi
      · obtain ⟨q, eq, rest, hget, hrest, hsuffix⟩ := gettoken_symbol hs2 hsemi
        simp only [hget]
        rw [← hrest]
        apply (hline rest hsuffix).bind
        intro c3 s3 hs3 hc3
        refine .ok hs3 fun a ha => ?_
        rw [Cmd.names, List.mem_append] at ha
        exact ha.elim (hc2 a) (hc3 a)
      · exact agrees_stop hs2 hc2
    · intro ps hps
      rw [parsepipe, Descent.pipe]
      apply (hexec ps hps).bind
      intro c1 s1 hs1 hc1
      have hpeek := peek_symbol (u := .bar) (by simp) s1
      dsimp only
      rw [show ([124] : List UInt8) = [Token.bar.code] from rfl, hpeek]
      simp only [decide_eq_true_eq]
      split_ifs with hbar
      · obtain ⟨q, eq, rest, hget, hrest, hsuffix⟩ := gettoken_symbol hs1 hbar
        simp only [hget]
        rw [← hrest]
        apply (hpipe rest hsuffix).bind
        intro c2 s2 hs2 hc2
        refine .ok hs2 fun a ha => ?_
        rw [Cmd.names, List.mem_append] at ha
        exact ha.elim (hc1 a) (hc2 a)
      · exact agrees_stop hs1 hc1
    · intro ps hps
      have hpeek := peek_symbol (u := .lparen) (by simp) ps
      have hskip : skip ps <:+ line := (skip_suffix ps).trans hps
      rw [parseexec, Descent.exec, show ([40] : List UInt8) = [Token.lparen.code] from rfl, hpeek]
      simp only [decide_eq_true_eq]
      split_ifs with hparen
      · rw [← lex_skip ps]
        exact hblock _ hskip
      · rw [← lex_skip ps]
        have hgood : Good line (.exec []) := by simp [Good, Cmd.names]
        apply (parseredirs_agrees fuel hskip hgood).bind
        intro c1 s1 hs1 hc1
        exact parseargs_agrees fuel 0 hs1 hc1
    · intro ps hps
      rw [parseblock, Descent.block, show ([40] : List UInt8) = [Token.lparen.code] from rfl,
        peek_symbol (by simp)]
      dsimp only
      by_cases hparen : (lex ps).head? = some .lparen
      · rw [if_neg (by simp [hparen]), if_neg (not_not.mpr hparen)]
        obtain ⟨q, eq, rest, hget, hrest, hsuffix⟩ := gettoken_symbol hps hparen
        simp only [hget]
        rw [← hrest]
        apply (hline rest hsuffix).bind
        intro c1 s1 hs1 hc1
        dsimp only
        rw [show ([41] : List UInt8) = [Token.rparen.code] from rfl, peek_symbol (by simp)]
        by_cases hclose : (lex s1).head? = some .rparen
        · rw [if_neg (by simp [hclose]), if_neg (not_not.mpr hclose)]
          obtain ⟨q, eq, rest, hget, hrest, hsuffix⟩ := gettoken_symbol hs1 hclose
          simp only [hget]
          rw [← hrest]
          exact parseredirs_agrees fuel hsuffix hc1
        · rw [if_pos (by simp [hclose]), if_pos hclose]
          exact .error _
      · rw [if_pos (by simp [hparen]), if_pos hparen]
        exact .error _

end Agreement

section Nulterminate

theorem foldl_nul (argv : List Span) (buf : ℕ → UInt8) (i : ℕ) :
    argv.foldl (fun buf w => Function.update buf w.eq 0) buf i =
      if ∃ sp ∈ argv, sp.eq = i then 0 else buf i := by
  induction argv generalizing buf with
  | nil => simp
  | cons a argv ih =>
    rw [List.foldl_cons, ih]
    simp only [List.exists_mem_cons_iff, Function.update_apply]
    by_cases hrest : ∃ sp ∈ argv, sp.eq = i
    · rw [if_pos hrest, if_pos (.inr hrest)]
    · rw [if_neg hrest]
      by_cases ha : i = a.eq
      · rw [if_pos ha, if_pos (.inl ha.symm)]
      · rw [if_neg ha, if_neg (not_or.mpr ⟨fun he => ha he.symm, hrest⟩)]

/-- Zeros are written at the ends of all words, and nowhere else. -/
theorem nulterminate_eq (c : Cmd Span) (buf : ℕ → UInt8) (i : ℕ) :
    nulterminate buf c i = if ∃ sp ∈ c.names, sp.eq = i then 0 else buf i := by
  have hor : ∀ (l m : List Span) (x : UInt8),
      (if ∃ sp ∈ m, sp.eq = i then 0 else if ∃ sp ∈ l, sp.eq = i then 0 else x) =
        if ∃ sp ∈ l ++ m, sp.eq = i then 0 else x := by
    intro l m x
    have happend : (∃ sp ∈ l ++ m, sp.eq = i) ↔ (∃ sp ∈ l, sp.eq = i) ∨ ∃ sp ∈ m, sp.eq = i := by
      simp only [List.mem_append, or_and_right, exists_or]
    by_cases hm : ∃ sp ∈ m, sp.eq = i
    · rw [if_pos hm, if_pos (happend.mpr (.inr hm))]
    · by_cases hl : ∃ sp ∈ l, sp.eq = i
      · rw [if_neg hm, if_pos hl, if_pos (happend.mpr (.inl hl))]
      · rw [if_neg hm, if_neg hl, if_neg fun h => (happend.mp h).elim hl hm]
  induction c generalizing buf with
  | exec argv => exact foldl_nul argv buf i
  | redir cmd file mode fd ih =>
    have hsingle : (∃ sp ∈ [file], sp.eq = i) ↔ i = file.eq := by
      simp only [List.mem_singleton, exists_eq_left]
      exact eq_comm
    rw [nulterminate, Cmd.names, ← hor, ← ih, Function.update_apply]
    by_cases hi : i = file.eq
    · rw [if_pos hi, if_pos (hsingle.mpr hi)]
    · rw [if_neg hi, if_neg fun h => hi (hsingle.mp h)]
  | pipe left right ihl ihr => rw [nulterminate, Cmd.names, ihr, ihl, hor]
  | list left right ihl ihr => rw [nulterminate, Cmd.names, ihr, ihl, hor]
  | back cmd ih => exact ih buf

/-- The ends of words do not fall into words. -/
theorem Good.apart {c : Cmd Span} (hc : Good line c) {sp sp' : Span} (hsp : sp ∈ c.names)
    (hsp' : sp' ∈ c.names) (hq : sp.q ≤ sp'.eq) : sp.eq ≤ sp'.eq := by
  by_contra hlt
  have hin : sp'.eq < line.length := by
    have := (hc sp hsp).eq_le
    omega
  have hget : line.getD sp'.eq 0 = (text line sp).getD (sp'.eq - sp.q) 0 := by
    rw [text, List.getD_eq_getElem?_getD, List.getD_eq_getElem?_getD,
      List.getElem?_take_of_lt (by omega), List.getElem?_drop,
      show sp.q + (sp'.eq - sp.q) = sp'.eq by omega]
  apply (hc sp' hsp').stop (line.getD sp'.eq 0)
  · rw [List.head?_drop, List.getD_eq_getElem _ _ hin]
    simp
  · apply (hc sp hsp).chars
    rw [hget, List.getD_eq_getElem]
    · exact List.getElem_mem _
    · rw [text, List.length_take, List.length_drop]
      omega

/-- The string at a pointer of the tree is its word. -/
theorem cstr_eq {c : Cmd Span} (h0 : 0 ∉ line) (hc : Good line c) {sp : Span}
    (hsp : sp ∈ c.names) :
    cstr line.length (nulterminate (fun i => line.getD i 0) c) sp = text line sp := by
  obtain ⟨hle, heq, -, -⟩ := hc sp hsp
  have hlength : (text line sp).length = sp.eq - sp.q := by
    rw [text, List.length_take, List.length_drop]
    omega
  -- within a word there is no end of a word
  have hinside : ∀ i < sp.eq - sp.q,
      nulterminate (fun i => line.getD i 0) c (sp.q + i) = (text line sp).getD i 0 := by
    intro i hi
    have hget : (text line sp).getD i 0 = line.getD (sp.q + i) 0 := by
      simp only [text, List.getD_eq_getElem?_getD, List.getElem?_take_of_lt hi, List.getElem?_drop]
    rw [nulterminate_eq, hget, if_neg]
    rintro ⟨sp', hsp', he⟩
    have := hc.apart hsp hsp' (by omega)
    omega
  have hsplit : line.length - sp.q = (sp.eq - sp.q) + (line.length - sp.eq) := by omega
  have hfirst : (List.range (sp.eq - sp.q)).map
      (fun i => nulterminate (fun i => line.getD i 0) c (sp.q + i)) = text line sp := by
    apply List.ext_getElem
    · simp [hlength]
    · intro i h1 h2
      rw [List.getElem_map, List.getElem_range, hinside i (by omega), List.getD_eq_getElem]
  have hnonzero : ∀ a ∈ text line sp, decide (a ≠ 0) = true := by
    intro a ha
    rw [decide_eq_true_eq]
    rintro rfl
    exact h0 (List.mem_of_mem_drop (List.mem_of_mem_take ha))
  have hlast : ((List.range (line.length - sp.eq)).map fun i =>
      nulterminate (fun i => line.getD i 0) c (sp.q + (sp.eq - sp.q + i))).takeWhile (· ≠ 0) =
        [] := by
    cases hn : line.length - sp.eq with
    | zero => rfl
    | succ n =>
      have hzero : nulterminate (fun i => line.getD i 0) c (sp.q + (sp.eq - sp.q + 0)) = 0 := by
        rw [nulterminate_eq, if_pos ⟨sp, hsp, by omega⟩]
      rw [List.range_succ_eq_map, List.map_cons, hzero]
      rfl
  unfold cstr
  rw [hsplit, List.range_add, List.map_append, hfirst, List.map_map,
    List.takeWhile_append_of_pos hnonzero]
  have hcomp : ((fun i => nulterminate (fun i => line.getD i 0) c (sp.q + i)) ∘
      fun x => sp.eq - sp.q + x) =
      fun i => nulterminate (fun i => line.getD i 0) c (sp.q + (sp.eq - sp.q + i)) := rfl
  rw [hcomp, hlast, List.append_nil]

end Nulterminate

/-- What `parsecmd` returns. -/
theorem parsecmd_ok {fuel : ℕ} {c : Cmd Span} {buf : ℕ → UInt8}
    (h : parsecmd fuel line = .ok (c, buf)) :
    buf = nulterminate (fun i => line.getD i 0) c ∧ Good line c ∧
      Descent.line fuel (lex line) = .ok (c.map (text line), []) := by
  have hagrees := (agrees line fuel).1 line (List.suffix_refl line)
  unfold parsecmd at h
  obtain ⟨⟨c', s⟩, hparse, hrest⟩ := Descent.bind_ok h
  rw [hparse] at hagrees
  dsimp only at hrest
  rw [peek_eq (by simp)] at hrest
  dsimp only at hrest
  split_ifs at hrest with hs
  · cases hrest
  · cases hrest
    generalize hdescent : Descent.line fuel (lex line) = r at hagrees
    cases hagrees with
    | ok _ hc =>
      refine ⟨rfl, hc, ?_⟩
      rw [← lex_skip, not_not.mp hs]
      rfl

/-- `parsecmd` returns on every line that is given enough fuel; it returns a tree if and only if
the tokens of the line are derived from the grammar, and then the words, files and structure of
the tree are those of the derivation. -/
theorem parsecmd_grammar (line : List UInt8) (h0 : 0 ∉ line) (fuel : ℕ)
    (hfuel : 4 * (lex line).length + 4 ≤ fuel) :
    parsecmd fuel line ≠ .error .fuel ∧
    ((∃ r, parsecmd fuel line = .ok r) ↔ ∃ c, Derives .line (lex line) c) ∧
    ∀ c r, Derives .line (lex line) c → parsecmd fuel line = .ok r →
      r.1.map (cstr line.length r.2) = c := by
  have hagrees := (agrees line fuel).1 line (List.suffix_refl line)
  have henough := (Descent.enough fuel).1 (lex line) hfuel
  have hcomplete : ∀ c, Derives .line (lex line) c →
      Descent.line fuel (lex line) = .ok (c, []) := by
    intro c hc
    have hend : ∀ t ∈ ([] : List Token).head?, Descent.Follows .line t := by simp
    have hgives := Descent.complete hc fuel hend
    rw [List.append_nil] at hgives
    exact hgives.resolve_left henough
  refine ⟨?_, ⟨?_, ?_⟩, ?_⟩
  · unfold parsecmd
    apply Descent.bind_fuel
    · intro he
      rw [he] at hagrees
      generalize hdescent : Descent.line fuel (lex line) = r at hagrees henough
      cases hagrees
      exact henough rfl
    · rintro ⟨c, s⟩ -
      dsimp only
      split_ifs <;> exact fun he => by cases he
  · rintro ⟨⟨c, buf⟩, hr⟩
    obtain ⟨-, -, hline⟩ := parsecmd_ok hr
    obtain ⟨vs, hvs, hderives⟩ := (Descent.sound fuel).1 _ _ _ hline
    rw [List.append_nil] at hvs
    exact ⟨_, hvs ▸ hderives⟩
  · rintro ⟨c, hc⟩
    rw [hcomplete c hc] at hagrees
    obtain ⟨c', rest, hparse, -, -, hlex⟩ := hagrees.of_ok
    have hskip : skip rest = [] := skip_eq_nil hlex.symm
    refine ⟨(c', nulterminate (fun i => line.getD i 0) c'), ?_⟩
    unfold parsecmd
    rw [hparse]
    change (if (peek rest []).2 ≠ [] then _ else _) = _
    rw [peek_eq (by simp), if_neg (not_not.mpr hskip)]
    rfl
  · rintro c ⟨c', buf⟩ hc hr
    obtain ⟨rfl, hgood, hline⟩ := parsecmd_ok hr
    rw [hcomplete c hc] at hline
    cases hline
    exact Cmd.map_congr fun sp hsp => cstr_eq h0 hgood hsp

def sample : List UInt8 := [97, 60, 105, 124, 40, 98, 59, 99, 62, 62, 111, 41, 38]

theorem sample_parsed : ∃ r, parsecmd 64 sample = .ok r ∧ r.1.map (cstr sample.length r.2) =
    .back (.pipe (.redir (.exec [[97]]) [105] 0 0)
      (.list (.exec [[98]]) (.redir (.exec [[99]]) [111] 0x201 1))) := by
  have hrun : (parsecmd 64 sample).toOption.map (fun r => r.1.map (cstr sample.length r.2)) =
      some (.back (.pipe (.redir (.exec [[97]]) [105] 0 0)
        (.list (.exec [[98]]) (.redir (.exec [[99]]) [111] 0x201 1)))) := by
    decide +kernel
  obtain ⟨r, hr, heq⟩ := Option.map_eq_some_iff.mp hrun
  refine ⟨r, ?_, heq⟩
  cases hp : parsecmd 64 sample with
  | error e =>
    rw [hp] at hr
    cases hr
  | ok r' =>
    rw [hp] at hr
    rw [Option.some.inj hr]

theorem parsecmd_grammar_sample :
    parsecmd 64 sample ≠ .error .fuel ∧ Derives .line (lex sample)
      (.back (.pipe (.redir (.exec [[97]]) [105] 0 0)
        (.list (.exec [[98]]) (.redir (.exec [[99]]) [111] 0x201 1)))) := by
  obtain ⟨hfuel, hiff, htree⟩ := parsecmd_grammar sample (by decide) 64 (by decide)
  obtain ⟨r, hok, heq⟩ := sample_parsed
  obtain ⟨c, hc⟩ := hiff.mp ⟨r, hok⟩
  rw [← heq, htree c r hc hok]
  exact ⟨hfuel, hc⟩

/-- After `nulterminate` each word of the tree is a whole word of the line and a string that ends
with a zero, and no zero is written into another word. -/
theorem words_terminated (line : List UInt8) (h0 : 0 ∉ line) (fuel : ℕ) (c : Cmd Span)
    (buf : ℕ → UInt8) (h : parsecmd fuel line = .ok (c, buf)) :
    ∀ sp ∈ c.names, Spells line sp ∧ cstr line.length buf sp = text line sp ∧ buf sp.eq = 0 ∧
      ∀ sp' ∈ c.names, ¬ (sp.q ≤ sp'.eq ∧ sp'.eq < sp.eq) := by
  obtain ⟨rfl, hgood, -⟩ := parsecmd_ok h
  intro sp hsp
  refine ⟨hgood sp hsp, cstr_eq h0 hgood hsp, ?_, ?_⟩
  · rw [nulterminate_eq, if_pos ⟨sp, hsp, rfl⟩]
  · rintro sp' hsp' ⟨hq, hlt⟩
    have := hgood.apart hsp hsp' hq
    omega

theorem words_terminated_sample : ∃ r, parsecmd 64 sample = .ok r ∧
    ∀ sp ∈ r.1.names, cstr sample.length r.2 sp = text sample sp := by
  obtain ⟨⟨c, buf⟩, hok, -⟩ := sample_parsed
  exact ⟨_, hok, fun sp hsp => (words_terminated sample (by decide) 64 c buf hok sp hsp).2.1⟩

end Xv6.Shell
