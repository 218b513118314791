import Mathlib.Tactic

/-!
# The matcher of grep

`match`, `matchhere` and `matchstar` of `grep.c` decide whether a line contains a string that a
pattern describes. A pointer into a string is the part from there on. Patterns are read as lists
of items, which describe strings on their own.
-/
namespace Xv6.Grep

variable {c t : UInt8} {re text : List UInt8}

/-- A character of a pattern stands for itself, and `.` for every character. -/
def Fits (c t : UInt8) : Prop := c = 46 ∨ c = t

instance (c t : UInt8) : Decidable (Fits c t) := inferInstanceAs (Decidable (_ ∨ _))

/-- `matchstar(c, re, text)`, where `here` is the call of `matchhere` on `re`. -/
def matchstar (here : List UInt8 → Bool) (c : UInt8) : List UInt8 → Bool
  | [] => here []
  | t :: text => here (t :: text) || (decide (Fits c t) && matchstar here c text)

def matchhere : List UInt8 → List UInt8 → Bool
  | [], _ => true
  | [c], text =>
    if c = 36 then text.isEmpty
    else match text with
      | [] => false
      | t :: text => decide (Fits c t) && matchhere [] text
  | c :: d :: re, text =>
    if d = 42 then matchstar (matchhere re) c text
    else match text with
      | [] => false
      | t :: text => decide (Fits c t) && matchhere (d :: re) text

/-- The loop of `match`, which also looks at the empty rest of the text. -/
def matchloop (re : List UInt8) : List UInt8 → Bool
  | [] => matchhere re []
  | t :: text => matchhere re (t :: text) || matchloop re text

/-- The function `match`. -/
def matchText : List UInt8 → List UInt8 → Bool
  | [], text => matchloop [] text
  | c :: re, text => if c = 94 then matchhere re text else matchloop (c :: re) text

section Meaning

/-- A character or `.`, once or repeated. -/
inductive Item
  | one (c : UInt8)
  | star (c : UInt8)
  deriving DecidableEq, Repr

/-- The items of a pattern, and whether a `$` ends it. -/
def readItems : List UInt8 → List Item × Bool
  | [] => ([], false)
  | [c] => if c = 36 then ([], true) else ([.one c], false)
  | c :: d :: re =>
    if d = 42 then ((readItems re).1.cons (.star c), (readItems re).2)
    else ((readItems (d :: re)).1.cons (.one c), (readItems (d :: re)).2)

/-- The strings that a sequence of items describes. -/
def Spells : List Item → List UInt8 → Prop
  | [], w => w = []
  | .one c :: items, w => ∃ t v, w = t :: v ∧ Fits c t ∧ Spells items v
  | .star c :: items, w => ∃ u v, w = u ++ v ∧ (∀ t ∈ u, Fits c t) ∧ Spells items v

/-- The text begins with a string that the pattern describes. -/
def Begins (re text : List UInt8) : Prop :=
  ∃ mid post, text = mid ++ post ∧ Spells (readItems re).1 mid ∧ ((readItems re).2 → post = [])

/-- The text contains a string that the pattern describes, where a leading `^` stands for the
start of the text and a final `$` for its end. -/
def Contains (re text : List UInt8) : Prop :=
  if re.head? = some 94 then Begins re.tail text
  else ∃ pre rest, text = pre ++ rest ∧ Begins re rest

end Meaning

theorem matchstar_iff (here : List UInt8 → Bool) : matchstar here c text = true ↔
    ∃ u v, text = u ++ v ∧ (∀ t ∈ u, Fits c t) ∧ here v = true := by
  induction text with
  | nil =>
    constructor
    · intro h
      exact ⟨[], [], rfl, by simp, h⟩
    · rintro ⟨u, v, huv, -, h⟩
      obtain ⟨-, rfl⟩ := List.nil_eq_append_iff.mp huv
      exact h
  | cons t text ih =>
    simp only [matchstar, Bool.or_eq_true, Bool.and_eq_true, decide_eq_true_eq, ih]
    constructor
    · rintro (h | ⟨ht, u, v, rfl, hu, h⟩)
      · exact ⟨[], t :: text, rfl, by simp, h⟩
      · exact ⟨t :: u, v, rfl, by simpa using ⟨ht, hu⟩, h⟩
    · rintro ⟨u, v, huv, hu, h⟩
      cases u with
      | nil => exact .inl (huv ▸ h)
      | cons t' u =>
        obtain ⟨rfl, rfl⟩ := List.cons.inj huv
        exact .inr ⟨hu t (by simp), u, v, rfl, fun x hx => hu x (by simp [hx]), h⟩

theorem begins_nil : Begins [] text := ⟨[], text, rfl, rfl, fun h => by cases h⟩

theorem begins_dollar : Begins [36] text ↔ text = [] := by
  simp [Begins, readItems, Spells]

theorem begins_one (items : List Item) (e : Bool)
    (h : readItems (c :: re) = (.one c :: items, e)) (hrest : readItems re = (items, e)) :
    Begins (c :: re) text ↔ ∃ t rest, text = t :: rest ∧ Fits c t ∧ Begins re rest := by
  simp only [Begins, h, hrest, Spells]
  constructor
  · rintro ⟨-, post, rfl, ⟨t, v, rfl, ht, hv⟩, he⟩
    exact ⟨t, v ++ post, rfl, ht, v, post, rfl, hv, he⟩
  · rintro ⟨t, -, rfl, ht, v, post, rfl, hv, he⟩
    exact ⟨t :: v, post, rfl, ⟨t, v, rfl, ht, hv⟩, he⟩

theorem begins_star : Begins (c :: 42 :: re) text ↔
    ∃ u v, text = u ++ v ∧ (∀ t ∈ u, Fits c t) ∧ Begins re v := by
  simp only [Begins, readItems, if_true, Spells]
  constructor
  · rintro ⟨-, post, rfl, ⟨u, v, rfl, hu, hv⟩, he⟩
    exact ⟨u, v ++ post, by simp, hu, v, post, rfl, hv, he⟩
  · rintro ⟨u, -, rfl, hu, v, post, rfl, hv, he⟩
    exact ⟨u ++ v, post, by simp, ⟨u, v, rfl, hu, hv⟩, he⟩

theorem step_iff (here : List UInt8 → Bool) (ih : ∀ text, here text = true ↔ Begins re text) :
    (match text with
      | [] => false
      | t :: rest => decide (Fits c t) && here rest) = true ↔
    ∃ t rest, text = t :: rest ∧ Fits c t ∧ Begins re rest := by
  cases text with
  | nil => simp
  | cons t rest => simp [ih]

theorem matchhere_iff (re text : List UInt8) : matchhere re text = true ↔ Begins re text := by
  induction re using readItems.induct generalizing text with
  | case1 => simp [matchhere, begins_nil]
  | case2 => simp [matchhere, begins_dollar]
  | case3 c hc =>
    rw [begins_one [] false (by simp [readItems, hc]) rfl]
    simp only [matchhere, if_neg hc]
    exact step_iff (fun _ => true) fun _ => by simp [begins_nil]
  | case4 c re ih =>
    simp only [matchhere, if_true, matchstar_iff, begins_star, ih]
  | case5 c d re hd ih =>
    rw [begins_one _ _ (by simp [readItems, hd]) rfl]
    simp only [matchhere, if_neg hd]
    exact step_iff _ ih

theorem matchloop_iff : matchloop re text = true ↔
    ∃ pre rest, text = pre ++ rest ∧ Begins re rest := by
  induction text with
  | nil => simp [matchloop, matchhere_iff]
  | cons t text ih =>
    simp only [matchloop, Bool.or_eq_true, ih, matchhere_iff]
    constructor
    · rintro (h | ⟨pre, rest, rfl, h⟩)
      · exact ⟨[], t :: text, rfl, h⟩
      · exact ⟨t :: pre, rest, rfl, h⟩
    · rintro ⟨pre, rest, heq, h⟩
      cases pre with
      | nil => exact .inl (heq ▸ h)
      | cons t' pre =>
        obtain ⟨-, rfl⟩ := List.cons.inj heq
        exact .inr ⟨pre, rest, rfl, h⟩

/-- `match` returns 1 on exactly the texts that contain a string described by the pattern. -/
theorem matchText_iff (re text : List UInt8) : matchText re text = true ↔ Contains re text := by
  cases re with
  | nil => simp [matchText, Contains, matchloop_iff]
  | cons c re =>
    by_cases hc : c = 94
    · simp [matchText, Contains, hc, matchhere_iff]
    · simp [matchText, Contains, hc, matchloop_iff]

end Xv6.Grep
