import RelQuery.Condition.Test
import RelQuery.Proofs.Text.Cutting
import RelQuery.Proofs.Text.Search

/-!
# What is accepted as a test

The two kinds of tests, told from the text of a span alone, whatever it is: all that is asked of the parts of the text
is listed, and what is not listed is free.

* `Test.ofSpan?_eq_equals_iff` : an equality has a column on its left, and on its right anything that is not blank; what
  is bound is the right side as it is written, less two equal quotes at its ends (`BoundAs`);
* `Test.ofSpan?_eq_contains_iff` : a containment is a call whose path has a column; what stands in front of its word,
  between the word and the parenthesis, and in the place of the literal does not matter.
-/

namespace RelQuery

open Text

/-! ## What a text stands for -/

/-- A text and what a test binds for it. -/
inductive BoundAs : List Char → List Char → Prop
  /-- One literal is bound as its value. -/
  | literal (q : Char) (v : List Char) : isQuote q = true → BoundAs (encode q v) v
  /-- More than one literal between two equal quotes loses these two, and its doubled ones become single. -/
  | outer (q : Char) (inner : List Char) : isQuote q = true → (∀ v, inner ≠ double q v) →
      BoundAs (q :: (inner ++ [q])) (collapse q inner)
  /-- Any other text is bound as it is written. -/
  | written (s : List Char) : (∀ q inner, isQuote q = true → s ≠ q :: (inner ++ [q])) → BoundAs s s

theorem decode_quote {q : Char} (hq : isQuote q = true) (inner : List Char) :
    decode (q :: (inner ++ [q])) = collapse q inner := by
  simp [decode, hq]

theorem decode_of_not_quote {s : List Char} (h : ∀ q inner, isQuote q = true → s ≠ q :: (inner ++ [q])) :
    decode s = s := by
  cases s with
  | nil => rfl
  | cons q rest =>
    rw [decode, if_neg]
    rintro ⟨hq, hlast⟩
    obtain ⟨inner, rfl⟩ := List.getLast?_eq_some_iff.1 hlast
    exact h q inner hq rfl

/-- **What is decoded** is what a test binds. -/
theorem decode_eq_iff {s v : List Char} : decode s = v ↔ BoundAs s v := by
  constructor
  · rintro rfl
    by_cases h : ∃ q inner, isQuote q = true ∧ s = q :: (inner ++ [q])
    · obtain ⟨q, inner, hq, rfl⟩ := h
      rw [decode_quote hq]
      by_cases hv : ∃ v, inner = double q v
      · obtain ⟨v, rfl⟩ := hv
        rw [collapse_double]
        exact .literal q v hq
      · exact .outer q inner hq fun v he => hv ⟨v, he⟩
    · have hs : ∀ q inner, isQuote q = true → s ≠ q :: (inner ++ [q]) := fun q inner hq he => h ⟨q, inner, hq, he⟩
      rw [decode_of_not_quote hs]
      exact .written s hs
  · rintro (⟨q, v, hq⟩ | ⟨q, inner, hq, _⟩ | ⟨s, hs⟩)
    · exact decode_encode hq v
    · exact decode_quote hq inner
    · exact decode_of_not_quote hs

namespace Test

variable {span column value : List Char}

/-! ## Calls -/

/-- The parts of a call: the word is followed by `gap(path,literal)rest`. -/
structure IsCall (gap path literal rest : List Char) : Prop where
  gap_open : '(' ∉ gap
  path_balanced : Balanced (atoms path)
  path_comma : NoComma (atoms path)
  literal_balanced : Balanced (atoms literal)
  rest_blank : isBlankText rest = true
  column : columnOf path ≠ []

theorem IsCall.arguments_balanced {gap path literal rest : List Char} (h : IsCall gap path literal rest) :
    Balanced (atoms (path ++ ',' :: literal)) :=
  (balanced_atoms_append_cons_iff rfl (by decide) (by decide) h.literal_balanced).2 h.path_balanced

/-- Behind a path that is balanced in front of its comma, the literal is balanced, too. -/
theorem balanced_literal {path literal : List Char} (h : Balanced (atoms (path ++ ',' :: literal)))
    (hp : Balanced (atoms path)) : Balanced (atoms literal) := by
  show nest 0 (atoms literal) = some 0
  have ha : atoms (path ++ ',' :: literal) = atoms path ++ .char ',' :: atoms literal := by
    rw [atoms_append (by simp [isQuote]) hp.lexed, atoms_cons rfl]
  have hn : nest 0 (.char ',' :: atoms literal) = some 0 := by
    rw [← h, ha, nest_append, hp]
    rfl
  simpa [nest] using hn

/-- **A call is read** from its path and its literal. -/
theorem ofCall?_eq_some_iff {call : List Char} {t : Test} : ofCall? call = some t ↔
    ∃ gap path literal rest, call = gap ++ '(' :: (path ++ ',' :: literal ++ ')' :: rest) ∧
      IsCall gap path literal rest ∧ t = ⟨columnOf path, .contains, decode (trim literal)⟩ := by
  constructor
  · intro h
    simp only [ofCall?, ofArguments?, Option.bind_eq_bind, Option.bind_eq_some_iff] at h
    obtain ⟨⟨gap, opened⟩, hcut, ⟨arguments, rest⟩, hin, h⟩ := h
    dsimp only at hin h
    obtain ⟨rfl, hgap⟩ := cut?_singleton_iff.1 hcut
    obtain ⟨rfl, hb⟩ := insideParen?_eq_some_iff.1 hin
    split at h
    next hrest =>
      obtain ⟨⟨path, literal⟩, hcomma, htest⟩ := Option.bind_eq_some_iff.1 h
      obtain ⟨rfl, hpath, hno⟩ := (aroundComma?_eq_some_iff hb).1 hcomma
      dsimp only at htest
      split at htest
      next => cases htest
      next hcolumn =>
        have hcall : IsCall gap path literal rest :=
          ⟨hgap, hpath, hno, balanced_literal hb hpath, hrest, by simpa using hcolumn⟩
        exact ⟨gap, path, literal, rest, rfl, hcall, (Option.some.inj htest).symm⟩
    next => cases h
  · rintro ⟨gap, path, literal, rest, rfl, h, rfl⟩
    have hcut : cut? ['('] (gap ++ '(' :: (path ++ ',' :: literal ++ ')' :: rest)) =
        some (gap, path ++ ',' :: literal ++ ')' :: rest) := cut?_singleton_iff.2 ⟨rfl, h.gap_open⟩
    have hin : insideParen? (path ++ ',' :: literal ++ ')' :: rest) = some (path ++ ',' :: literal, rest) :=
      insideParen?_eq_some_iff.2 ⟨rfl, h.arguments_balanced⟩
    have hcomma : aroundComma? (path ++ ',' :: literal) = some (path, literal) :=
      (aroundComma?_eq_some_iff h.arguments_balanced).2 ⟨rfl, h.path_balanced, h.path_comma⟩
    simp only [ofCall?, ofArguments?, Option.bind_eq_bind, hcut, Option.bind_some, hin, h.rest_blank, if_true, hcomma]
    simp [h.column]

/-! ## Words outside quotes -/

theorem aroundOutside?_eqWord_iff {path right : List Char} : aroundOutside? eqWord span = some (path, right) ↔
    span = path ++ eqWord ++ right ∧ Lexed (atoms path) ∧ ¬plain eqWord <:+: atoms (path ++ " eq".toList) := by
  have hword : eqWord = " eq".toList ++ [' '] := by decide
  rw [hword]
  exact aroundOutside?_concat_eq_some_iff (by simp [isQuote])

theorem aroundOutside?_containsWord_iff {front call : List Char} :
    aroundOutside? containsWord span = some (front, call) ↔ span = front ++ containsWord ++ call ∧
      Lexed (atoms front) ∧ ¬plain containsWord <:+: atoms (front ++ "contain".toList) := by
  have hword : containsWord = "contain".toList ++ ['s'] := by decide
  rw [hword]
  exact aroundOutside?_concat_eq_some_iff (by simp [isQuote])

/-! ## Equalities -/

/-- The span is an equality of `path` and `right`: its literals are closed up to the first ` eq ` outside them, the path
has a column, and there is something on the right. -/
structure IsEquality (span path right : List Char) : Prop where
  text : span = path ++ eqWord ++ right
  closed : Lexed (atoms path)
  first : ¬plain eqWord <:+: atoms (path ++ " eq".toList)
  column : columnOf path ≠ []
  something : trim right ≠ []

/-- An equality is read from its path and what stands on its right. -/
theorem IsEquality.ofSpan? {path right : List Char} (h : IsEquality span path right) :
    Test.ofSpan? span = some ⟨columnOf path, .equals, decode (trim right)⟩ := by
  have hcut := aroundOutside?_eqWord_iff.2 ⟨h.text, h.closed, h.first⟩
  simp [Test.ofSpan?, hcut, ofSides?, h.column, h.something]

/-- **What is accepted as an equality**: a path with a column, and on the right any text at all that is not blank. Only
if the right side is one literal, what is bound is its value. -/
theorem ofSpan?_eq_equals_iff : ofSpan? span = some ⟨column, .equals, value⟩ ↔
    ∃ path right, IsEquality span path right ∧ column = columnOf path ∧ BoundAs (trim right) value := by
  constructor
  · intro h
    rw [ofSpan?] at h
    cases hcut : aroundOutside? eqWord span with
    | none =>
      rw [hcut] at h
      dsimp only at h
      split at h
      next call _ =>
        -- a call is no equality
        obtain ⟨_, _, _, _, _, _, ht⟩ := ofCall?_eq_some_iff.1 h
        cases (Test.mk.inj ht).2.1
      next => cases h
    | some cut =>
      obtain ⟨path, right⟩ := cut
      obtain ⟨htext, hclosed, hfirst⟩ := aroundOutside?_eqWord_iff.1 hcut
      simp only [hcut, ofSides?] at h
      split at h
      next => cases h
      next hsides =>
        obtain ⟨hcolumn, hright⟩ := not_or.1 hsides
        obtain ⟨rfl, -, rfl⟩ := Test.mk.inj (Option.some.inj h)
        exact ⟨path, right, ⟨htext, hclosed, hfirst, by simpa using hcolumn, by simpa using hright⟩, rfl,
          decode_eq_iff.1 rfl⟩
  · rintro ⟨path, right, h, rfl, hvalue⟩
    rw [h.ofSpan?, decode_eq_iff.2 hvalue]

/-- The right side of an equality may be more than one literal, and may hold quotes and parentheses as they are. -/
theorem not_forall_right_literal :
    ¬∀ span column value path right : List Char, ofSpan? span = some ⟨column, .equals, value⟩ →
      aroundOutside? eqWord span = some (path, right) → (∃ q, isQuote q = true ∧ trim right = encode q value) ∨
        trim right = value ∧ ∀ c ∈ value, isQuote c = false ∧ c ≠ '(' ∧ c ≠ ')' := by
  intro h
  rcases h "x/a eq 'p' 'q'".toList "a".toList "p' 'q".toList "x/a".toList "'p' 'q'".toList (by decide +kernel)
    (by decide +kernel) with ⟨q, hq, he⟩ | ⟨he, _⟩
  · rcases eq_of_isQuote hq with rfl | rfl <;> exact absurd he (by decide +kernel)
  · exact absurd he (by decide +kernel)

/-! ## Containments -/

/-- The span is a call of `path` and `literal`, with `front` in front of its word and `gap` behind it. -/
structure IsContainment (span front gap path literal rest : List Char) : Prop
    extends IsCall gap path literal rest where
  text : span = front ++ containsWord ++ (gap ++ '(' :: (path ++ ',' :: literal ++ ')' :: rest))
  noEquality : aroundOutside? eqWord span = none
  closed : Lexed (atoms front)
  first : ¬plain containsWord <:+: atoms (front ++ "contain".toList)

/-- **What is accepted as a containment**: a call whose path has a column. Neither what stands in front of its word nor
what stands between the word and the parenthesis is read, and the literal may be blank. -/
theorem ofSpan?_eq_contains_iff : ofSpan? span = some ⟨column, .contains, value⟩ ↔
    ∃ front gap path literal rest, IsContainment span front gap path literal rest ∧ column = columnOf path ∧
      value = decode (trim literal) := by
  constructor
  · intro h
    rw [ofSpan?] at h
    split at h
    next path right _ =>
      -- two sides are no call
      rw [ofSides?] at h
      split at h <;> cases h
    next heq =>
      split at h
      next front call hword =>
        obtain ⟨htext, hclosed, hfirst⟩ := aroundOutside?_containsWord_iff.1 hword
        obtain ⟨gap, path, literal, rest, rfl, hcall, ht⟩ := ofCall?_eq_some_iff.1 h
        obtain ⟨rfl, -, rfl⟩ := Test.mk.inj ht
        exact ⟨front, gap, path, literal, rest, ⟨hcall, htext, heq, hclosed, hfirst⟩, rfl, rfl⟩
      next => cases h
  · rintro ⟨front, gap, path, literal, rest, h, rfl, rfl⟩
    have hword := aroundOutside?_containsWord_iff.2 ⟨h.text, h.closed, h.first⟩
    simp only [ofSpan?, h.noEquality, hword]
    exact ofCall?_eq_some_iff.2 ⟨gap, path, literal, rest, rfl, h.toIsCall, rfl⟩

/-- A call may stand behind another word than its path. -/
theorem not_forall_front_blank_or_path :
    ¬∀ span column value front call gap opened arguments rest path literal : List Char,
      ofSpan? span = some ⟨column, .contains, value⟩ → aroundOutside? containsWord span = some (front, call) →
        cut? ['('] call = some (gap, opened) → insideParen? opened = some (arguments, rest) →
          aroundComma? arguments = some (path, literal) →
            (isBlankText front = true ∨ trim front = trim path) ∧ isBlankText gap = true ∧ trim path ≠ [] ∧
              trim literal ≠ [] := by
  intro h
  have hfront := (h "not contains(x/name,'a')".toList "name".toList "a".toList "not ".toList "(x/name,'a')".toList []
    "x/name,'a')".toList "x/name,'a'".toList [] "x/name".toList "'a'".toList (by decide +kernel) (by decide +kernel)
    (by decide +kernel) (by decide +kernel) (by decide +kernel)).1
  exact absurd hfront (by decide +kernel)

end Test

end RelQuery
