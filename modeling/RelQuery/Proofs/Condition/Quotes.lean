import RelQuery.Proofs.Condition.Acceptance
import RelQuery.Proofs.Condition.Reading
import RelQuery.Proofs.Text.Outside

/-!
# Quotes and parentheses of what is accepted

A text is compiled in pieces: calls and groups are cut out by the search for their closing parenthesis, and their inside
is read again from its own beginning. The pieces agree with one reading of the whole text from the left.

* `Condition.compile_closedText` : a text that compiles has its literals and its parentheses closed;
* `Test.ofSpan?_contains_parens` : the parentheses of a call that is accepted are characters of the span, although the
  search for the opening one reads literals as any other text. If it met one in a literal, the quote of that literal
  would be open in the span and closed in the call from there on, and two readings that differ never end alike.
-/

namespace RelQuery

open Text

/-! ## Texts that compile -/

namespace Condition

/-- **A text that compiles is closed**: one reading from the left finds all its literals closed, and outside them no
prefix with more `)` than `(` and as many of both in all. So a text with a literal or a parenthesis left open, or with
a `)` that closes nothing, is refused. -/
theorem compile_closedText (d : Dialect) (source : String) :
    (∀ nodes bound, compile d source = .ok (nodes, bound) → ClosedText source.toList) ∧
      (¬ClosedText source.toList → ∃ e, compile d source = .error e) := by
  have hok : ∀ nodes bound, compile d source = .ok (nodes, bound) → ClosedText source.toList := by
    intro nodes bound h
    obtain ⟨_, hr, _⟩ := compile_iff_reads.1 h
    exact balanced_atoms_iff.1 hr.balanced
  refine ⟨hok, fun hn => ?_⟩
  cases h : compile d source with
  | error e => exact ⟨e, rfl⟩
  | ok compiled => exact absurd (hok compiled.1 compiled.2 h) hn

/-- Parentheses in literals do not count, with the other quote or a doubled one among them; one that only a literal
would close is open. -/
theorem compile_closedText_literals :
    let accepted := "(f(x/a) eq 'it''s )') or contains(y/b,\"'((\")"
    let refused := "(x/a eq ')'"
    compile {} accepted =
        .ok ([.group [.test "a)" .equals "param_0"], .link .or, .test "b" .contains "param_1"],
          ⟨[("param_0", "it's )"), ("param_1", "%'((%")], by decide⟩) ∧
      ClosedText accepted.toList ∧ outside none accepted.toList = "(f(x/a) eq ) or contains(y/b,)".toList ∧
      ¬ClosedText refused.toList ∧ ∃ e, compile {} refused = .error e := by
  intro accepted refused
  have h : compile {} accepted =
      .ok ([.group [.test "a)" .equals "param_0"], .link .or, .test "b" .contains "param_1"],
        ⟨[("param_0", "it's )"), ("param_1", "%'((%")], by decide⟩) := by decide +kernel
  have hopen : ¬ClosedText refused.toList := fun hc => absurd hc.count_eq (by decide +kernel)
  exact ⟨h, (compile_closedText {} accepted).1 _ _ h, by decide +kernel, hopen,
    (compile_closedText {} refused).2 hopen⟩

end Condition

/-! ## Calls that are accepted -/

namespace Test

variable {front gap inside rest : List Char}

/-- Where a call is balanced, and only blanks stand behind it, its parenthesis opens outside the literals that stand in
front, if no quote is open at the end. -/
theorem openQuote_of_call (hi : Balanced (atoms inside)) (hr : isBlankText rest = true)
    (h : openQuote none (front ++ '(' :: (inside ++ ')' :: rest)) = none) : openQuote none front = none := by
  have hnone : QuoteOpen none := by simp [QuoteOpen]
  -- the call alone leaves no quote open, either
  have hcall : openQuote none ('(' :: (inside ++ ')' :: rest)) = none := by
    have hinside : openQuote none inside = none := lexed_atoms_iff.1 hi.lexed
    have hrest : openQuote none rest = none := openQuote_of_not_isQuote hnone (isQuote_of_isBlankText hr)
    rw [openQuote_cons, nextQuote_of_not_isQuote hnone rfl, openQuote_append, hinside, openQuote_cons,
      nextQuote_of_not_isQuote hnone rfl, hrest]
  rw [openQuote_append] at h
  exact openQuote_injective (hnone.open front) hnone (h.trans hcall.symm)

/-- **The parentheses of a call** that is accepted are characters of the span outside all its literals, if these are
closed: the opening one, which is the first behind the word, in a literal or not, and the closing one, which is the last
character of the trimmed span. -/
theorem ofSpan?_contains_parens {span column value : List Char} (hclosed : openQuote none span = none)
    (h : ofSpan? span = some ⟨column, .contains, value⟩) : ∃ front call gap opened inside rest,
      aroundOutside? containsWord span = some (front, call) ∧ cut? ['('] call = some (gap, opened) ∧
      insideParen? opened = some (inside, rest) ∧
      atoms span = atoms (front ++ containsWord ++ gap) ++ .char '(' :: (atoms inside ++ .char ')' :: atoms rest) ∧
      openQuote none (front ++ containsWord ++ gap) = none ∧
      openQuote none (front ++ containsWord ++ gap ++ '(' :: inside) = none ∧
      trimEnd span = front ++ containsWord ++ gap ++ '(' :: inside ++ [')'] ∧ (trim span).getLast? = some ')' := by
  obtain ⟨front, gap, path, literal, rest, hcall, -, -⟩ := ofSpan?_eq_contains_iff.1 h
  let inside := path ++ ',' :: literal
  have hinside : Balanced (atoms inside) := hcall.arguments_balanced
  have hspan : span = front ++ containsWord ++ gap ++ '(' :: (inside ++ ')' :: rest) := by
    rw [hcall.text, List.append_assoc (front ++ containsWord)]
  have hopen : openQuote none (front ++ containsWord ++ gap) = none :=
    openQuote_of_call hinside hcall.rest_blank (hspan ▸ hclosed)
  have hlast : trimEnd span = front ++ containsWord ++ gap ++ '(' :: inside ++ [')'] := by
    have hspan' : span = front ++ containsWord ++ gap ++ '(' :: inside ++ [')'] ++ rest := by simp [hspan]
    rw [hspan']
    refine trimEnd_of_tight hcall.rest_blank ?_
    rw [List.getLast?_concat]
    rintro c ⟨⟩
    rfl
  refine ⟨front, _, gap, _, inside, rest,
    aroundOutside?_containsWord_iff.2 ⟨hcall.text, hcall.closed, hcall.first⟩,
    cut?_singleton_iff.2 ⟨rfl, hcall.gap_open⟩, insideParen?_eq_some_iff.2 ⟨rfl, hinside⟩, ?_, hopen, ?_, hlast, ?_⟩
  · have hlexed : Lexed (atoms (front ++ containsWord ++ gap ++ '(' :: (inside ++ ')' :: rest))) :=
      lexed_atoms_iff.2 (hspan ▸ hclosed)
    rw [hspan, atoms_append_cons rfl hlexed hopen, atoms_append (by simp [isQuote]) hinside.lexed, atoms_cons rfl]
  · rw [openQuote_append, hopen, openQuote_cons, nextQuote_of_not_isQuote (by simp [QuoteOpen]) rfl]
    exact lexed_atoms_iff.1 hinside.lexed
  · rw [getLast?_trim, hlast, List.getLast?_concat]

/-- Literals with parentheses stand in front of the call and in it, and one stands between its word and its
parenthesis. -/
theorem ofSpan?_contains_parens_literals :
    let span := "'(''' contains \"b'\" (f(x)/a,')''(') ".toList
    openQuote none span = none ∧ ofSpan? span = some ⟨"a".toList, .contains, ")'(".toList⟩ ∧
      ∃ front gap inside rest, atoms span = atoms (front ++ containsWord ++ gap) ++
          .char '(' :: (atoms inside ++ .char ')' :: atoms rest) ∧
        openQuote none (front ++ containsWord ++ gap) = none ∧ (trim span).getLast? = some ')' := by
  intro span
  have hclosed : openQuote none span = none := by decide
  have h : ofSpan? span = some ⟨"a".toList, .contains, ")'(".toList⟩ := by decide +kernel
  obtain ⟨front, _, gap, _, inside, rest, _, _, _, hatoms, hopen, _, _, hlast⟩ := ofSpan?_contains_parens hclosed h
  exact ⟨hclosed, h, front, gap, inside, rest, hatoms, hopen, hlast⟩

end Test

end RelQuery
