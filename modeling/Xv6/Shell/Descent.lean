import Xv6.Shell.Tokens

/-!
# Recursive descent over tokens

The parser with a list of tokens in the place of the line. It accepts the sequences that the
grammar derives, and gives the trees of their derivations; the fuel it needs is bounded by the
number of tokens.
-/
namespace Xv6.Shell

abbrev Word := List UInt8

def Token.direction : Token → Option Direction
  | .lt => some .input
  | .gt => some .output
  | .append => some .append
  | _ => none

def Token.Closes (t : Token) : Prop := t = .bar ∨ t = .rparen ∨ t = .amp ∨ t = .semi

instance (t : Token) : Decidable t.Closes := by
  unfold Token.Closes
  infer_instance

namespace Descent

def redirs : ℕ → Cmd Word → List Token → Except Stop (Cmd Word × List Token)
  | 0, _, _ => .error .fuel
  | _ + 1, cmd, [] => .ok (cmd, [])
  | fuel + 1, cmd, t :: ts =>
    match t.direction with
    | none => .ok (cmd, t :: ts)
    | some d =>
      match ts with
      | .word w :: ts => redirs fuel (.redir cmd w d.mode d.fd) ts
      | _ => .error (.panic "missing file for redirection")

def args : ℕ → ℕ → Cmd Word → List Token → Except Stop (Cmd Word × List Token)
  | 0, _, _, _ => .error .fuel
  | _ + 1, _, ret, [] => .ok (ret, [])
  | fuel + 1, argc, ret, t :: ts =>
    if t.Closes then .ok (ret, t :: ts)
    else match t with
      | .word w =>
        if argc + 1 ≥ maxArgs then .error (.panic "too many args")
        else do
          let (ret, ts) ← redirs fuel (ret.addArg w) ts
          args fuel (argc + 1) ret ts
      | _ => .error (.panic "syntax")

def backs : ℕ → Cmd Word → List Token → Except Stop (Cmd Word × List Token)
  | 0, _, _ => .error .fuel
  | _ + 1, cmd, [] => .ok (cmd, [])
  | fuel + 1, cmd, t :: ts => if t = .amp then backs fuel (.back cmd) ts else .ok (cmd, t :: ts)

mutual

def line : ℕ → List Token → Except Stop (Cmd Word × List Token)
  | 0, _ => .error .fuel
  | fuel + 1, ts => do
    let (cmd, ts) ← pipe fuel ts
    let (cmd, ts) ← backs fuel cmd ts
    if ts.head? = some .semi then
      let (right, ts) ← line fuel ts.tail
      return (.list cmd right, ts)
    else return (cmd, ts)

def pipe : ℕ → List Token → Except Stop (Cmd Word × List Token)
  | 0, _ => .error .fuel
  | fuel + 1, ts => do
    let (cmd, ts) ← exec fuel ts
    if ts.head? = some .bar then
      let (right, ts) ← pipe fuel ts.tail
      return (.pipe cmd right, ts)
    else return (cmd, ts)

def exec : ℕ → List Token → Except Stop (Cmd Word × List Token)
  | 0, _ => .error .fuel
  | fuel + 1, ts => do
    if ts.head? = some .lparen then block fuel ts
    else
      let (ret, ts) ← redirs fuel (.exec []) ts
      args fuel 0 ret ts

def block : ℕ → List Token → Except Stop (Cmd Word × List Token)
  | 0, _ => .error .fuel
  | fuel + 1, ts => do
    if ts.head? ≠ some .lparen then throw (.panic "parseblock")
    let (cmd, ts) ← line fuel ts.tail
    if ts.head? ≠ some .rparen then throw (.panic "syntax - missing )")
    redirs fuel cmd ts.tail

end

variable {fuel argc : ℕ} {c d : Cmd Word} {ts us : List Token} {rs : List (Direction × Word)}
  {ws : List Word} {w : Word} {t : Token}

theorem direction_some {e : Direction} (h : t.direction = some e) : t = e.token := by
  cases t <;> cases h <;> rfl

theorem direction_token (e : Direction) : e.token.direction = some e := by
  cases e <;> rfl

@[simp] theorem wrap_nil (c : Cmd Word) : wrap c [] = c := rfl

@[simp] theorem wrap_cons (c : Cmd Word) (r : Direction × Word) (rs : List (Direction × Word)) :
    wrap c (r :: rs) = wrap (.redir c r.2 r.1.mode r.1.fd) rs := rfl

theorem wrap_append (c : Cmd Word) (rs qs : List (Direction × Word)) :
    wrap c (rs ++ qs) = wrap (wrap c rs) qs := by
  unfold wrap
  rw [List.foldl_append]

theorem addArg_wrap (c : Cmd Word) (rs : List (Direction × Word)) (w : Word) :
    (wrap c rs).addArg w = wrap (c.addArg w) rs := by
  induction rs generalizing c with
  | nil => rfl
  | cons r rs ih => rw [wrap_cons, wrap_cons, ih, Cmd.addArg]

theorem bind_ok {α β : Type} {x : Except Stop α} {f : α → Except Stop β} {b : β}
    (h : x >>= f = .ok b) : ∃ a, x = .ok a ∧ f a = .ok b := by
  cases x with
  | error e => cases h
  | ok a => exact ⟨a, rfl, h⟩

theorem head_eq {t : Token} (h : ts.head? = some t) : ts = t :: ts.tail := by
  cases ts with
  | nil => cases h
  | cons u ts => rw [Option.some.inj h, List.tail_cons]

section Sound

theorem redirs_sound (h : redirs fuel c ts = .ok (d, us)) :
    ∃ vs rs, ts = vs ++ us ∧ Redirs vs rs ∧ d = wrap c rs := by
  induction fuel generalizing c ts with
  | zero => cases h
  | succ fuel ih =>
    cases ts with
    | nil =>
      cases h
      exact ⟨[], [], rfl, .nil, rfl⟩
    | cons t ts =>
      simp only [redirs] at h
      split at h
      · cases h
        exact ⟨[], [], rfl, .nil, rfl⟩
      · next e hd =>
        split at h
        · next w ts =>
          obtain ⟨vs, rs, hts, hrs, hd'⟩ := ih h
          exact ⟨_, _, by rw [hts, direction_some hd]; rfl, .cons e w hrs, hd'⟩
        · cases h

theorem args_closes (h : t.Closes) : args (fuel + 1) argc c (t :: ts) = .ok (c, t :: ts) := by
  unfold args
  exact if_pos h

theorem args_word (h : argc + 1 < maxArgs) :
    args (fuel + 1) argc c (.word w :: ts) =
      redirs fuel (c.addArg w) ts >>= fun p => args fuel (argc + 1) p.1 p.2 := by
  have hopen : ¬ (Token.word w).Closes := by simp [Token.Closes]
  conv_lhs => unfold args
  rw [if_neg hopen]
  exact if_neg (Nat.not_le.mpr h)

theorem args_many (h : ¬ argc + 1 < maxArgs) :
    args (fuel + 1) argc c (.word w :: ts) = .error (.panic "too many args") := by
  have hopen : ¬ (Token.word w).Closes := by simp [Token.Closes]
  conv_lhs => unfold args
  rw [if_neg hopen]
  exact if_pos (Nat.not_lt.mp h)

theorem args_other (h : ¬ t.Closes) (hw : ∀ w, t ≠ .word w) :
    args (fuel + 1) argc c (t :: ts) = .error (.panic "syntax") := by
  conv_lhs => unfold args
  rw [if_neg h]
  cases t with
  | word w => exact absurd rfl (hw w)
  | _ => rfl

theorem args_sound (h : args fuel ws.length (wrap (.exec ws) rs) ts = .ok (d, us)) :
    ∃ vs xs qs, ts = vs ++ us ∧ Args vs xs qs ∧ d = wrap (.exec (ws ++ xs)) (rs ++ qs) ∧
      (xs = [] ∨ (ws ++ xs).length ≤ maxArgs - 1) := by
  induction fuel generalizing ws rs ts with
  | zero => cases h
  | succ fuel ih =>
    have hstop : ∃ vs xs qs, us = vs ++ us ∧ Args vs xs qs ∧
        wrap (.exec ws) rs = wrap (.exec (ws ++ xs)) (rs ++ qs) ∧
        (xs = [] ∨ (ws ++ xs).length ≤ maxArgs - 1) :=
      ⟨[], [], [], rfl, .nil, by rw [List.append_nil, List.append_nil], .inl rfl⟩
    cases ts with
    | nil =>
      cases h
      exact hstop
    | cons t ts =>
      by_cases hcloses : t.Closes
      · rw [args_closes hcloses] at h
        cases h
        exact hstop
      by_cases hword : ∃ w, t = .word w
      · obtain ⟨w, rfl⟩ := hword
        by_cases hargc : ws.length + 1 < maxArgs
        · rw [args_word hargc] at h
          obtain ⟨⟨c', ts'⟩, hr, hrest⟩ := bind_ok h
          obtain ⟨vs, qs, hts, hqs, hc'⟩ := redirs_sound hr
          have hwrap : c' = wrap (.exec (ws ++ [w])) (rs ++ qs) := by
            rw [hc', addArg_wrap, Cmd.addArg, wrap_append]
          dsimp only at hrest
          rw [hwrap, show ws.length + 1 = (ws ++ [w]).length by simp] at hrest
          obtain ⟨vs', xs, qs', hts', hargs, hd, hmax⟩ := ih hrest
          refine ⟨.word w :: (vs ++ vs'), w :: xs, qs ++ qs', ?_, .cons w hqs hargs, ?_, ?_⟩
          · rw [hts, hts', List.cons_append, List.append_assoc]
          · rw [hd, List.append_assoc, List.append_assoc]
            rfl
          · right
            rcases hmax with rfl | hle
            · simp only [List.length_append, List.length_singleton]
              omega
            · rwa [List.append_assoc] at hle
        · rw [args_many hargc] at h
          cases h
      · rw [args_other hcloses fun w hw => hword ⟨w, hw⟩] at h
        cases h

theorem backs_sound (h : backs fuel c ts = .ok (d, us)) :
    ∃ n, ts = List.replicate n .amp ++ us ∧ d = Cmd.back^[n] c := by
  induction fuel generalizing c ts with
  | zero => cases h
  | succ fuel ih =>
    cases ts with
    | nil =>
      cases h
      exact ⟨0, rfl, rfl⟩
    | cons t ts =>
      rw [backs] at h
      split_ifs at h with hamp
      · obtain ⟨n, hts, hd⟩ := ih h
        exact ⟨n + 1, by rw [hts, hamp]; rfl, hd⟩
      · cases h
        exact ⟨0, rfl, rfl⟩

/-- What is parsed is derived, for all four functions at once. -/
theorem sound (fuel : ℕ) :
    (∀ ts c us, line fuel ts = .ok (c, us) → ∃ vs, ts = vs ++ us ∧ Derives .line vs c) ∧
    (∀ ts c us, pipe fuel ts = .ok (c, us) → ∃ vs, ts = vs ++ us ∧ Derives .pipe vs c) ∧
    (∀ ts c us, exec fuel ts = .ok (c, us) → ∃ vs, ts = vs ++ us ∧ Derives .exec vs c) ∧
    (∀ ts c us, block fuel ts = .ok (c, us) → ∃ vs, ts = vs ++ us ∧ Derives .exec vs c) := by
  induction fuel with
  | zero =>
    refine ⟨?_, ?_, ?_, ?_⟩
    all_goals
      intro ts c us h
      cases h
  | succ fuel ih =>
    obtain ⟨hline, hpipe, hexec, hblock⟩ := ih
    refine ⟨?_, ?_, ?_, ?_⟩
    · intro ts c us h
      rw [line] at h
      obtain ⟨⟨c1, ts1⟩, h1, hrest⟩ := bind_ok h
      obtain ⟨⟨c2, ts2⟩, h2, hend⟩ := bind_ok hrest
      obtain ⟨vs, hts, hvs⟩ := hpipe _ _ _ h1
      obtain ⟨n, hts1, rfl⟩ := backs_sound h2
      dsimp only at hend
      split_ifs at hend with hsemi
      · obtain ⟨⟨c3, ts3⟩, h3, hret⟩ := bind_ok hend
        cases hret
        obtain ⟨vs', hts2, hvs'⟩ := hline _ _ _ h3
        refine ⟨_, ?_, .seq n hvs hvs'⟩
        rw [hts, hts1, head_eq hsemi, hts2]
        simp
      · cases hend
        exact ⟨_, by rw [hts, hts1, List.append_assoc], .line n hvs⟩
    · intro ts c us h
      rw [pipe] at h
      obtain ⟨⟨c1, ts1⟩, h1, hrest⟩ := bind_ok h
      obtain ⟨vs, hts, hvs⟩ := hexec _ _ _ h1
      dsimp only at hrest
      split_ifs at hrest with hbar
      · obtain ⟨⟨c2, ts2⟩, h2, hret⟩ := bind_ok hrest
        cases hret
        obtain ⟨vs', hts1, hvs'⟩ := hpipe _ _ _ h2
        refine ⟨_, ?_, .bar hvs hvs'⟩
        rw [hts, head_eq hbar, hts1]
        simp
      · cases hrest
        exact ⟨_, hts, .pipe hvs⟩
    · intro ts c us h
      rw [exec] at h
      split_ifs at h with hparen
      · exact hblock _ _ _ h
      · obtain ⟨⟨c1, ts1⟩, h1, hrest⟩ := bind_ok h
        obtain ⟨vs, rs, hts, hrs, rfl⟩ := redirs_sound h1
        have hloop : args fuel ([] : List Word).length (wrap (.exec []) rs) ts1 = .ok (c, us) :=
          hrest
        obtain ⟨vs', ws, qs, hts1, hargs, hc, hmax⟩ := args_sound hloop
        refine ⟨vs ++ vs', by rw [hts, hts1, List.append_assoc], ?_⟩
        rw [hc]
        apply Derives.simple hrs hargs
        rcases hmax with rfl | hle
        · exact Nat.zero_le _
        · exact hle
    · intro ts c us h
      rw [block] at h
      split_ifs at h with hparen
      · cases h
      · obtain ⟨⟨c1, ts1⟩, h1, hrest⟩ := bind_ok h
        dsimp only at hrest
        split_ifs at hrest with hclose
        · cases hrest
        · obtain ⟨vs, hts, hvs⟩ := hline _ _ _ h1
          obtain ⟨vs', rs, hts', hrs, rfl⟩ := redirs_sound hrest
          refine ⟨_, ?_, .block hvs hrs⟩
          rw [head_eq (not_not.mp hparen), hts, head_eq (not_not.mp hclose), hts']
          simp

end Sound

section Complete

/-- The computation gives `a`, unless the fuel runs out. -/
def Gives {α : Type} (x : Except Stop α) (a : α) : Prop := x = .error .fuel ∨ x = .ok a

theorem Gives.bind {α β : Type} {x : Except Stop α} {f : α → Except Stop β} {a : α} {b : β}
    (hx : Gives x a) (hf : Gives (f a) b) : Gives (x >>= f) b := by
  cases hx with
  | inl he => exact .inl (by rw [he]; rfl)
  | inr ha =>
    rw [ha]
    exact hf

theorem redirs_complete {vs : List Token} (h : Redirs vs rs)
    (hus : ∀ t ∈ us.head?, t.direction = none) (fuel : ℕ) (c : Cmd Word) :
    Gives (redirs fuel c (vs ++ us)) (wrap c rs, us) := by
  induction h generalizing fuel c with
  | nil =>
    cases fuel with
    | zero => exact .inl rfl
    | succ fuel =>
      cases us with
      | nil => exact .inr rfl
      | cons t us =>
        right
        simp only [List.nil_append, redirs, hus t rfl, wrap_nil]
  | cons e w _ ih =>
    cases fuel with
    | zero => exact .inl rfl
    | succ fuel =>
      simp only [List.cons_append, redirs, direction_token, wrap_cons]
      exact ih fuel _

theorem args_head {vs : List Token} {xs : List Word} {qs : List (Direction × Word)}
    (h : Args vs xs qs) (hus : ∀ t ∈ us.head?, t.Closes) :
    ∀ t ∈ (vs ++ us).head?, t.direction = none ∧ t ≠ .lparen := by
  cases h with
  | nil =>
    intro t ht
    rcases hus t ht with rfl | rfl | rfl | rfl
    all_goals exact ⟨rfl, by simp⟩
  | cons w _ _ =>
    rintro _ ⟨⟩
    exact ⟨rfl, by simp⟩

theorem args_complete {vs : List Token} {xs : List Word} {qs : List (Direction × Word)}
    (h : Args vs xs qs) (hus : ∀ t ∈ us.head?, t.Closes) (fuel : ℕ) (ws : List Word)
    (rs : List (Direction × Word)) (hmax : (ws ++ xs).length ≤ maxArgs - 1) :
    Gives (args fuel ws.length (wrap (.exec ws) rs) (vs ++ us))
      (wrap (.exec (ws ++ xs)) (rs ++ qs), us) := by
  induction h generalizing fuel ws rs with
  | nil =>
    cases fuel with
    | zero => exact .inl rfl
    | succ fuel =>
      rw [List.nil_append, List.append_nil, List.append_nil]
      cases us with
      | nil => exact .inr rfl
      | cons t us => exact .inr (args_closes (hus t rfl))
  | @cons w ts us' xs qs qs' hqs hargs ih =>
    cases fuel with
    | zero => exact .inl rfl
    | succ fuel =>
      have hlt : ws.length + 1 < maxArgs := by
        simp only [List.length_append, List.length_cons] at hmax
        have : 0 < maxArgs := by decide
        omega
      rw [List.cons_append, args_word hlt, List.append_assoc]
      apply (redirs_complete hqs (fun t ht => (args_head hargs hus t ht).1) fuel _).bind
      have hstep := ih fuel (ws ++ [w]) (rs ++ qs) (by simpa using hmax)
      rw [addArg_wrap, Cmd.addArg, ← wrap_append]
      simpa using hstep

theorem backs_complete (hus : us.head? ≠ some .amp) (n fuel : ℕ) (c : Cmd Word) :
    Gives (backs fuel c (List.replicate n .amp ++ us)) (Cmd.back^[n] c, us) := by
  induction n generalizing fuel c with
  | zero =>
    cases fuel with
    | zero => exact .inl rfl
    | succ fuel =>
      cases us with
      | nil => exact .inr rfl
      | cons t us =>
        right
        have hne : t ≠ .amp := fun he => hus (by rw [he]; rfl)
        rw [List.replicate_zero, List.nil_append, backs, if_neg hne]
        rfl
  | succ n ih =>
    cases fuel with
    | zero => exact .inl rfl
    | succ fuel =>
      rw [List.replicate_succ, List.cons_append, backs, if_pos rfl, Function.iterate_succ_apply]
      exact ih fuel _

/-- What may follow what is derived from a symbol. -/
def Follows : Symbol → Token → Prop
  | .line, t => t = .rparen
  | .pipe, t => t = .rparen ∨ t = .amp ∨ t = .semi
  | .exec, t => t.Closes

def parse : Symbol → ℕ → List Token → Except Stop (Cmd Word × List Token)
  | .line => line
  | .pipe => pipe
  | .exec => exec

/-- What is derived is parsed, with the tree of the derivation. -/
theorem complete {X : Symbol} {vs : List Token} (h : Derives X vs c) (fuel : ℕ)
    (hus : ∀ t ∈ us.head?, Follows X t) : Gives (parse X fuel (vs ++ us)) (c, us) := by
  induction h generalizing fuel us with
  | line n _ ih =>
    cases fuel with
    | zero => exact .inl rfl
    | succ fuel =>
      have hsemi : us.head? ≠ some .semi := fun he => by cases hus _ he
      have hamp : us.head? ≠ some .amp := fun he => by cases hus _ he
      change Gives (line (fuel + 1) _) _
      rw [line, List.append_assoc]
      refine (ih fuel ?_).bind ?_
      · intro t ht
        cases n with
        | zero => exact .inl (hus t ht)
        | succ n =>
          cases ht
          exact .inr (.inl rfl)
      · apply (backs_complete hamp n fuel _).bind
        dsimp only
        rw [if_neg hsemi]
        exact .inr rfl
  | @seq ts ts' c d n _ _ ih1 ih2 =>
    cases fuel with
    | zero => exact .inl rfl
    | succ fuel =>
      change Gives (line (fuel + 1) _) _
      rw [line, List.append_assoc, List.append_assoc, List.cons_append]
      refine (ih1 fuel ?_).bind ?_
      · intro t ht
        cases n with
        | zero =>
          cases ht
          exact .inr (.inr rfl)
        | succ n =>
          cases ht
          exact .inr (.inl rfl)
      · apply (backs_complete (by simp) n fuel _).bind
        dsimp only
        rw [List.head?_cons, if_pos rfl, List.tail_cons]
        apply (ih2 fuel hus).bind
        exact .inr rfl
  | pipe _ ih =>
    cases fuel with
    | zero => exact .inl rfl
    | succ fuel =>
      have hbar : us.head? ≠ some .bar := fun he => by rcases hus _ he with h | h | h <;> cases h
      change Gives (pipe (fuel + 1) _) _
      rw [pipe]
      refine (ih fuel ?_).bind ?_
      · intro t ht
        exact .inr (hus t ht)
      · dsimp only
        rw [if_neg hbar]
        exact .inr rfl
  | bar _ _ ih1 ih2 =>
    cases fuel with
    | zero => exact .inl rfl
    | succ fuel =>
      change Gives (pipe (fuel + 1) _) _
      rw [pipe, List.append_assoc, List.cons_append]
      refine (ih1 fuel ?_).bind ?_
      · rintro _ ⟨⟩
        exact .inl rfl
      · dsimp only
        rw [List.head?_cons, if_pos rfl, List.tail_cons]
        apply (ih2 fuel hus).bind
        exact .inr rfl
  | block _ hrs ih =>
    cases fuel with
    | zero => exact .inl rfl
    | succ fuel =>
      simp only [parse]
      rw [exec, List.cons_append, List.head?_cons, if_pos rfl]
      cases fuel with
      | zero => exact .inl rfl
      | succ fuel =>
        rw [block, if_neg (by simp), List.tail_cons, List.append_assoc, List.cons_append]
        refine (ih fuel ?_).bind ?_
        · rintro _ ⟨⟩
          rfl
        · dsimp only
          rw [if_neg (by simp), List.tail_cons]
          apply redirs_complete hrs
          intro t ht
          rcases hus t ht with rfl | rfl | rfl | rfl
          all_goals rfl
  | @simple ts ts' ws rs qs hrs hargs hmax =>
    cases fuel with
    | zero => exact .inl rfl
    | succ fuel =>
      have hhead := args_head hargs hus
      have hparen : (ts ++ (ts' ++ us)).head? ≠ some .lparen := by
        intro he
        cases hrs with
        | nil => exact (hhead _ he).2 rfl
        | cons e w _ =>
          have := Option.some.inj he
          cases e <;> cases this
      change Gives (exec (fuel + 1) _) _
      rw [exec, List.append_assoc, if_neg hparen]
      apply (redirs_complete hrs (fun t ht => (hhead t ht).1) fuel _).bind
      exact args_complete hargs hus fuel [] rs hmax

end Complete

section Fuel

theorem redirs_fuel (h : ts.length < fuel) : redirs fuel c ts ≠ .error .fuel := by
  induction fuel generalizing c ts with
  | zero => omega
  | succ fuel ih =>
    cases ts with
    | nil => simp [redirs]
    | cons t ts =>
      simp only [redirs]
      split
      · simp
      · split
        · next w ts' =>
          apply ih
          simp only [List.length_cons] at h
          omega
        · simp

theorem bind_fuel {α β : Type} {x : Except Stop α} {f : α → Except Stop β}
    (hx : x ≠ .error .fuel) (hf : ∀ a, x = .ok a → f a ≠ .error .fuel) :
    x >>= f ≠ .error .fuel := by
  cases x with
  | error e =>
    intro he
    cases he
    exact hx rfl
  | ok a => exact hf a rfl

theorem redirs_length (h : redirs fuel c ts = .ok (d, us)) : us.length ≤ ts.length := by
  obtain ⟨vs, -, hts, -⟩ := redirs_sound h
  rw [hts, List.length_append]
  omega

theorem args_fuel (h : ts.length < fuel) : args fuel argc c ts ≠ .error .fuel := by
  induction fuel generalizing argc c ts with
  | zero => omega
  | succ fuel ih =>
    cases ts with
    | nil => simp [args]
    | cons t ts =>
      rw [List.length_cons] at h
      by_cases hcloses : t.Closes
      · rw [args_closes hcloses]
        simp
      by_cases hword : ∃ w, t = .word w
      · obtain ⟨w, rfl⟩ := hword
        by_cases hargc : argc + 1 < maxArgs
        · rw [args_word hargc]
          apply bind_fuel (redirs_fuel (by omega))
          rintro ⟨c', ts'⟩ hr
          have := redirs_length hr
          exact ih (by dsimp only; omega)
        · rw [args_many hargc]
          simp
      · rw [args_other hcloses fun w hw => hword ⟨w, hw⟩]
        simp

theorem backs_fuel (h : ts.length < fuel) : backs fuel c ts ≠ .error .fuel := by
  induction fuel generalizing c ts with
  | zero => omega
  | succ fuel ih =>
    cases ts with
    | nil => simp [backs]
    | cons t ts =>
      rw [List.length_cons] at h
      rw [backs]
      split_ifs
      · exact ih (by omega)
      · simp

/-- Fuel for four calls at each token is enough. -/
theorem enough (fuel : ℕ) :
    (∀ ts, 4 * ts.length + 4 ≤ fuel → line fuel ts ≠ .error .fuel) ∧
    (∀ ts, 4 * ts.length + 3 ≤ fuel → pipe fuel ts ≠ .error .fuel) ∧
    (∀ ts, 4 * ts.length + 2 ≤ fuel → exec fuel ts ≠ .error .fuel) ∧
    (∀ ts, 4 * ts.length + 1 ≤ fuel → block fuel ts ≠ .error .fuel) := by
  induction fuel with
  | zero => exact ⟨fun _ h => by omega, fun _ h => by omega, fun _ h => by omega,
    fun _ h => by omega⟩
  | succ fuel ih =>
    obtain ⟨hline, hpipe, hexec, hblock⟩ := ih
    obtain ⟨sline, spipe, sexec, -⟩ := sound fuel
    refine ⟨?_, ?_, ?_, ?_⟩
    · intro ts h
      rw [line]
      apply bind_fuel (hpipe ts (by omega))
      rintro ⟨c1, ts1⟩ h1
      obtain ⟨vs, rfl, -⟩ := spipe _ _ _ h1
      rw [List.length_append] at h
      apply bind_fuel (backs_fuel (by omega))
      rintro ⟨c2, ts2⟩ h2
      obtain ⟨n, rfl, -⟩ := backs_sound h2
      rw [List.length_append] at h
      dsimp only
      split_ifs with hsemi
      · have hts := congrArg List.length (head_eq hsemi)
        rw [List.length_cons] at hts
        apply bind_fuel (hline _ (by omega))
        rintro ⟨c3, ts3⟩ -
        exact fun he => by cases he
      · exact fun he => by cases he
    · intro ts h
      rw [pipe]
      apply bind_fuel (hexec ts (by omega))
      rintro ⟨c1, ts1⟩ h1
      obtain ⟨vs, rfl, -⟩ := sexec _ _ _ h1
      rw [List.length_append] at h
      dsimp only
      split_ifs with hbar
      · have hts := congrArg List.length (head_eq hbar)
        rw [List.length_cons] at hts
        apply bind_fuel (hpipe _ (by omega))
        rintro ⟨c3, ts3⟩ -
        exact fun he => by cases he
      · exact fun he => by cases he
    · intro ts h
      rw [exec]
      split_ifs with hparen
      · exact hblock ts (by omega)
      · apply bind_fuel (redirs_fuel (by omega))
        rintro ⟨c1, ts1⟩ h1
        have := redirs_length h1
        exact args_fuel (by omega)
    · intro ts h
      rw [block]
      split_ifs with hparen
      · exact fun he => by cases he
      · have hts := congrArg List.length (head_eq (not_not.mp hparen))
        rw [List.length_cons] at hts
        apply bind_fuel (hline _ (by omega))
        rintro ⟨c1, ts1⟩ h1
        obtain ⟨vs, hvs, -⟩ := sline _ _ _ h1
        have hlen := congrArg List.length hvs
        rw [List.length_append] at hlen
        dsimp only
        split_ifs with hclose
        · exact fun he => by cases he
        · have hts1 := congrArg List.length (head_eq (not_not.mp hclose))
          rw [List.length_cons] at hts1
          exact redirs_fuel (by omega)

end Fuel

end Descent

end Xv6.Shell
