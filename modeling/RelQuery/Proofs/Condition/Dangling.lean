import RelQuery.Proofs.Condition.Acceptance
import RelQuery.Proofs.Condition.Printing

/-!
# A connective at the end of an expression

A connective is told by the blank on either side of its word. Behind the last operand of an expression the blank behind
the word may be missing, or be another one than a space; then the word belongs to the span of that operand
(`Expression.ofText_append_keyword`), and it depends on the operand what becomes of it (`Expression.swallowed`): an
equality takes it for a part of its literal, a containment and a group do not compile with it.

* `Condition.compile_append_linkWord`, `Condition.compile_append_keyword` : what an expression compiles to with the word
  of a connective behind it, if a space follows the word and if none does.
-/

namespace RelQuery

open Text Outline

/-! ## The last operand -/

namespace Expression

/-- The operand at the end. -/
def lastOperand : Expression → Operand
  | .last _ operand _ => operand
  | .link _ _ _ _ rest => rest.lastOperand

/-- The blanks behind the last operand. -/
def lastBlanks : Expression → Blanks
  | .last _ _ right => right
  | .link _ _ _ _ rest => rest.lastBlanks

/-- The span that the word of a connective belongs to if no space follows it: it goes on behind a test, and begins
behind a group. -/
def lastSpan (k : Connective) (e : Expression) : List Char :=
  match e.lastOperand with
  | .test leaf => leaf.text ++ (e.lastBlanks.1 ++ ' ' :: k.keyword.toList)
  | .group _ => k.keyword.toList

/-- The clauses in front of that span. -/
def fore : Expression → Draft
  | .last _ (.test _) _ => []
  | .last _ (.group inside) _ => [.group inside.draft]
  | .link _ operand _ k rest => operand.clause :: .link k :: rest.fore

/-- What an expression compiles to if the word of a connective belongs to its last span. -/
def swallowed (d : Dialect) (k : Connective) (e : Expression) : Except QueryError (Condition × Bindings) :=
  match e.lastOperand with
  | .test (.equals path literal) =>
    let test : Test := ⟨path.column.chars, .equals, literal.text ++ (e.lastBlanks.1 ++ ' ' :: k.keyword.toList)⟩
    .ok (Draft.nodes d 0 e.draft, Test.bindings d 0 ((Draft.tests e.draft).dropLast ++ [test]))
  | _ => .error (.malformedPredicate (String.ofList (e.lastSpan k)))

/-- The last operand and the blanks behind it end the text. -/
theorem exists_text_eq (e : Expression) : ∃ s, e.text = s ++ (e.lastOperand.text ++ e.lastBlanks.1) := by
  cases e with
  | last left _ _ => exact ⟨left.1, rfl⟩
  | link left operand right k rest =>
    obtain ⟨s, hs⟩ := rest.exists_text_eq
    exact ⟨left.1 ++ (operand.text ++ right.1 ++ (' ' :: (k.keyword.toList ++ [' ']) ++ s)),
      by simp [text, hs, lastOperand, lastBlanks]⟩

/-- The last operand is the last clause, unless it is a group. -/
theorem draft_eq : ∀ e : Expression, e.draft = e.fore ++
    match e.lastOperand with
    | .test leaf => [.test leaf.test]
    | .group _ => []
  | .last _ (.test _) _ => rfl
  | .last _ (.group _) _ => rfl
  | .link _ operand _ k rest => by rw [draft, rest.draft_eq]; rfl

end Expression

/-! ## Words behind an operand -/

theorem solid_keyword (k : Connective) : Solid k.keyword.toList := by
  cases k <;> exact List.all_eq_true.1 (by decide)

theorem keyword_ne_nil (k : Connective) : k.keyword.toList ≠ [] := by
  cases k <;> decide

/-- A text that ends with the word of a connective ends with a letter. -/
theorem exists_getLast?_append_keyword (k : Connective) :
    ∃ x, isSolidChar x = true ∧ ∀ s : List Char, (s ++ k.keyword.toList).getLast? = some x := by
  refine ⟨k.keyword.toList.getLast (keyword_ne_nil k), solid_keyword k _ (List.getLast_mem _), fun s => ?_⟩
  rw [List.getLast?_append_of_ne_nil _ (keyword_ne_nil k), List.getLast?_eq_some_getLast]

/-- **The word of a connective without a space behind it** belongs to the span it stands in. -/
theorem Outline.span_keyword (k : Connective) {l w : List Char} (hl : isBlankText l = true) (hw : isBlankText w = true)
    (hh : w.head? ≠ some ' ') (b : Bool) :
    span b (plain (l ++ (k.keyword.toList ++ w))) = (plain (l ++ (k.keyword.toList ++ w)), .done) := by
  have hblank : ∀ a ∈ (plain w).head?, isBlankAtom a = true := by
    intro a ha
    obtain ⟨c, hc, rfl⟩ := List.mem_map.1 (List.mem_of_mem_head? ha)
    exact mem_of_isBlankText hw c hc
  have hword : NoWord (plain k.keyword.toList ++ plain w) := by
    apply noWord_plain
    · cases k <;> exact List.all_eq_true.1 (by decide)
    · intro c hc
      by_contra ht
      have hb : isBlank c = true := hblank _ hc
      simp [isBlank_of_isSolidChar (c := c) (by simp [isSolidChar, ht])] at hb
    · intro _ hc
      rw [plain, List.head?_map] at hc
      obtain ⟨x, hx, he⟩ := Option.map_eq_some_iff.1 hc
      obtain rfl := Atom.char.inj he
      exact hh hx
  have hcall : ∀ a ∈ (plain w).head?, a ∉ callOpening := by
    have hletters : ∀ a ∈ callOpening, isBlankAtom a = false := by decide
    intro a ha hm
    exact absurd (hblank a ha) (by simp [hletters a hm])
  rw [plain_append, plain_append, span_blanks hl fun s hn hs => hword.link?_eq_none hl hn hs,
    (solid_keyword k).span_append (keyword_ne_nil k) hcall, span_of_isBlankText hw]
  simp [addFront]

/-- A span of one text is its piece. -/
theorem Outline.ofAtoms_span {f : Bool} {as : List Atom} {s : List Char} (h : span true as = (as, .done))
    (hs : trim (join as) = s) (hn : s ≠ []) : ofAtoms f as = [.span s] := by
  rw [ofAtoms_done h, if_neg, hs]
  rw [isBlankText_iff, hs]
  exact hn

/-- No call ends with the word of a connective. -/
theorem Test.ofSpan?_append_keyword {s : List Char} (k : Connective)
    (h : aroundOutside? eqWord (s ++ k.keyword.toList) = none) : ofSpan? (s ++ k.keyword.toList) = none := by
  rw [ofSpan?, h]
  dsimp only
  cases hword : aroundOutside? containsWord (s ++ k.keyword.toList) with
  | none => rfl
  | some cut =>
    obtain ⟨front, call⟩ := cut
    dsimp only
    cases hcall : ofCall? call with
    | none => rfl
    | some t =>
      obtain ⟨gap, path, literal, rest, rfl, hparts, -⟩ := ofCall?_eq_some_iff.1 hcall
      obtain ⟨x, hx, hlast⟩ := exists_getLast?_append_keyword k
      -- the last character would be the parenthesis or a blank behind it
      have hm : x ∈ ')' :: rest := by
        apply List.mem_of_mem_getLast?
        have he := hlast s
        rw [(aroundOutside?_containsWord_iff.1 hword).1, ← List.cons_append, ← List.append_assoc, ← List.append_assoc,
          List.getLast?_append_cons] at he
        exact he
      rcases List.mem_cons.1 hm with rfl | hm
      · exact absurd hx (by decide)
      · exact absurd hm (notMem_of_isBlankText hparts.rest_blank (isBlank_of_isSolidChar hx))

/-- A text that ends with the word of a connective is no literal. -/
theorem decode_append_keyword (k : Connective) (s : List Char) :
    decode (s ++ k.keyword.toList) = s ++ k.keyword.toList := by
  apply decode_of_not_quote
  intro q inner hq he
  obtain ⟨x, hx, hlast⟩ := exists_getLast?_append_keyword k
  have hl := hlast s
  rw [he, ← List.cons_append, List.getLast?_concat] at hl
  obtain rfl := Option.some.inj hl
  simp [Solid.isQuote_eq_false (w := [q]) (by simpa [Solid] using hx)] at hq

/-! ## Tests with a word behind them -/

namespace Leaf

variable (k : Connective)

/-- **An equality takes the word** for a part of its literal. -/
theorem ofSpan?_equals_append (path : Path) (literal : Literal) (r : List Char) :
    Test.ofSpan? ((equals path literal).text ++ (r ++ ' ' :: k.keyword.toList)) =
      some ⟨path.column.chars, .equals, literal.text ++ (r ++ ' ' :: k.keyword.toList)⟩ := by
  have hpath : atoms path.text = plain path.text := atoms_plain path.solid.isQuote_eq_false
  have hlexed : Lexed (atoms path.text) := by
    have hbalanced : Balanced (atoms path.text) := hpath ▸ path.solid.balanced
    exact hbalanced.lexed
  have hcolumn : Test.columnOf path.text = path.column.chars := by
    simpa using path.columnOf_text ⟨[], rfl⟩ ⟨[], rfl⟩
  have hright : trim (literal.text ++ (r ++ ' ' :: k.keyword.toList)) =
      literal.text ++ (r ++ ' ' :: k.keyword.toList) := by
    have htight := tight_append (m := r ++ [' ']) literal.tight literal.text_ne_nil (solid_keyword k).tight
      (keyword_ne_nil k)
    exact trim_eq_self (by simpa using htight)
  have h : Test.IsEquality ((equals path literal).text ++ (r ++ ' ' :: k.keyword.toList)) path.text
      (literal.text ++ (r ++ ' ' :: k.keyword.toList)) := by
    refine ⟨by simp [text, Test.eqWord], hlexed, ?_, ?_, ?_⟩
    · intro hin
      -- the word holds two spaces, and in front of the literal's there is one
      have hcount := hin.sublist.count_le (.char ' ')
      have hspace : .char ' ' ∉ plain path.text := by simpa using path.solid.notMem (x := ' ') rfl
      rw [atoms_append_word hlexed (by simp [isQuote]), hpath, List.count_append,
        List.count_eq_zero_of_not_mem hspace, Nat.zero_add] at hcount
      exact absurd hcount (by decide)
    · rw [hcolumn]
      exact path.column.ne_nil
    · rw [hright]
      simp [literal.text_ne_nil]
  have hdecode := decode_append_keyword k (literal.text ++ (r ++ [' ']))
  rw [h.ofSpan?, hcolumn, hright]
  simpa using hdecode

/-- The word of an equality is not in a containment, nor does it begin there and end behind it. -/
theorem not_infix_eqWord_append (subject : Option Path) (path : Spaced Path) (literal : Spaced Literal) {w : List Char}
    (hw : 'q' ∉ w) : ¬plain Test.eqWord <:+: atoms (contains subject path literal).text ++ plain w := by
  have hleaf : ¬plain Test.eqWord <:+: atoms (contains subject path literal).text :=
    (cutOutside?_eq_none_iff ((contains subject path literal).reads false).closed).1
      (cutOutside?_eqWord_contains subject path literal)
  -- a call ends with its parenthesis, which stands in no word
  obtain ⟨as, has⟩ : ∃ as, atoms (contains subject path literal).text = as ++ [.char ')'] :=
    ⟨plain (subjectText subject) ++ (plain Test.containsWord ++ .char '(' :: arguments path literal),
      by simp [atoms_contains]⟩
  rw [has] at hleaf ⊢
  intro h
  rcases infix_concat_append_of_notMem (by decide) h with h | h
  · exact hleaf h
  · exact hw (char_mem_plain.1 (h.subset (by decide)))

/-- **A containment is no test** with the word behind it. -/
theorem ofSpan?_contains_append (subject : Option Path) (path : Spaced Path) (literal : Spaced Literal) {r : List Char}
    (hr : isBlankText r = true) :
    Test.ofSpan? ((contains subject path literal).text ++ (r ++ ' ' :: k.keyword.toList)) = none := by
  have hq : ∀ c ∈ r ++ ' ' :: k.keyword.toList, isQuote c = false := by
    simp only [List.forall_mem_append, List.forall_mem_cons]
    exact ⟨isQuote_of_isBlankText hr, rfl, (solid_keyword k).isQuote_eq_false⟩
  have hletter : 'q' ∉ r ++ ' ' :: k.keyword.toList := by
    have hr := notMem_of_isBlankText hr (x := 'q') rfl
    cases k <;> simp [hr, Connective.keyword]
  have hread := (contains subject path literal).reads false
  have hatoms := atoms_append_word hread.lexed hq
  have hclosed : ∀ run, .unclosed run ∉ atoms (contains subject path literal).text ++
      plain (r ++ ' ' :: k.keyword.toList) := by
    intro run hm
    rcases List.mem_append.1 hm with hm | hm
    · exact hread.closed run hm
    · simp [plain] at hm
  have hnone : cutOutside? Test.eqWord (atoms (contains subject path literal).text ++
      plain (r ++ ' ' :: k.keyword.toList)) = none :=
    (cutOutside?_eq_none_iff hclosed).2 (not_infix_eqWord_append subject path literal hletter)
  have hsplit : (contains subject path literal).text ++ (r ++ ' ' :: k.keyword.toList) =
      ((contains subject path literal).text ++ (r ++ [' '])) ++ k.keyword.toList := by simp
  rw [hsplit]
  apply Test.ofSpan?_append_keyword
  rw [← hsplit, aroundOutside?, hatoms, hnone]
  rfl

end Leaf

/-! ## Operands with a word behind them -/

theorem isQuote_of_mem_keyword {l w : List Char} (k : Connective) (hl : isBlankText l = true)
    (hw : isBlankText w = true) : ∀ c ∈ l ++ (k.keyword.toList ++ w), isQuote c = false := by
  simp only [List.forall_mem_append]
  exact ⟨isQuote_of_isBlankText hl, (solid_keyword k).isQuote_eq_false, isQuote_of_isBlankText hw⟩

theorem isBlankText_concat_space (r : Blanks) : isBlankText (r.1 ++ [' ']) = true := by
  rw [isBlankText_append, r.2]
  rfl

section Operands

variable (k : Connective) (left : Blanks) {l w : List Char}

/-- The span of a test goes on with the word. -/
theorem Leaf.ofText_append_keyword (leaf : Leaf) (hl : isBlankText l = true) (hn : l ≠ []) (hw : isBlankText w = true)
    (hh : w.head? ≠ some ' ') : Outline.ofText (left.1 ++ (leaf.text ++ (l ++ (k.keyword.toList ++ w)))) =
      [.span (leaf.text ++ (l ++ k.keyword.toList))] := by
  have hq := isQuote_of_mem_keyword k hl hw
  have hatoms : atoms (left.1 ++ (leaf.text ++ (l ++ (k.keyword.toList ++ w)))) =
      plain left.1 ++ (atoms leaf.text ++ plain (l ++ (k.keyword.toList ++ w))) := by
    rw [atoms_plain_append (isQuote_of_isBlankText left.2), atoms_append_word (leaf.reads false).lexed hq]
  have hseam : Seam (atoms leaf.text) (plain (l ++ (k.keyword.toList ++ w))) := by
    apply leaf.clear.seam
    obtain ⟨c, l, rfl⟩ := List.exists_cons_of_ne_nil hn
    rintro a ⟨⟩
    exact mem_of_isBlankText hl c List.mem_cons_self
  have hleaf := Outline.span_append true hseam (by simp [leaf.span_atoms])
  rw [leaf.span_atoms, Stop.extend, span_keyword k hl hw hh] at hleaf
  have hspan : span true (plain left.1 ++ (atoms leaf.text ++ plain (l ++ (k.keyword.toList ++ w)))) =
      (plain left.1 ++ (atoms leaf.text ++ plain (l ++ (k.keyword.toList ++ w))), .done) := by
    rw [span_blanks left.2 fun s hn hs => (leaf.noWord _).link?_eq_none left.2 hn hs, hleaf]
    rfl
  rw [Outline.ofText, hatoms]
  refine ofAtoms_span hspan ?_ (by simp [leaf.text_ne_nil])
  have htight := tight_append (m := l) leaf.tight leaf.text_ne_nil (solid_keyword k).tight (keyword_ne_nil k)
  simpa [join_plain, join_atoms] using trim_of_tight left.2 hw htight

/-- Behind a group the word is a span of its own. -/
theorem Operand.ofText_group_append_keyword (inside : Expression) (hl : isBlankText l = true)
    (hw : isBlankText w = true) (hh : w.head? ≠ some ' ') :
    Outline.ofText (left.1 ++ ((Operand.group inside).text ++ (l ++ (k.keyword.toList ++ w)))) =
      [.group (Outline.ofText inside.text), .span k.keyword.toList] := by
  have hq := isQuote_of_mem_keyword k hl hw
  have hatoms : atoms (left.1 ++ ((Operand.group inside).text ++ (l ++ (k.keyword.toList ++ w)))) =
      plain left.1 ++ .char '(' :: (atoms inside.text ++ .char ')' :: plain (l ++ (k.keyword.toList ++ w))) := by
    rw [atoms_plain_append (isQuote_of_isBlankText left.2),
      atoms_append_word ((Operand.group inside).reads false).lexed hq, Operand.text, inside.reads.atoms_paren]
    simp
  have hparen (as : List Atom) : NoWord (.char '(' :: as) := noWord_cons rfl (by decide)
  have hspan : span true (plain left.1 ++ .char '(' :: (atoms inside.text ++ .char ')' ::
      plain (l ++ (k.keyword.toList ++ w)))) =
        (plain left.1 ++ [], .group (atoms inside.text) (plain (l ++ (k.keyword.toList ++ w)))) := by
    rw [span_blanks left.2 fun s hn hs => (hparen _).link?_eq_none left.2 hn hs,
      span_paren (closeParen?_of_nest _ inside.reads.balanced)]
    rfl
  rw [Outline.ofText, hatoms, ofAtoms_group hspan]
  have hword : ofAtoms true (plain (l ++ (k.keyword.toList ++ w))) = [.span k.keyword.toList] := by
    refine ofAtoms_span (span_keyword k hl hw hh true) ?_ (keyword_ne_nil k)
    rw [join_plain, ← List.append_assoc]
    exact trim_of_tight hl hw (solid_keyword k).tight
  rw [hword]
  rfl

end Operands

/-! ## Ends of expressions -/

/-- More text in front of a text that does not end with the word of a connective, if it is more than a part of it. -/
theorem Outline.Clear.append_left {s t : List Char} {c : Char} (h : Clear s) (hc : c ∈ s)
    (hk : ∀ k : Connective, c ∉ ' ' :: k.keyword.toList) : Clear (t ++ s) := by
  intro k hs
  rcases List.suffix_or_suffix_of_suffix hs (List.suffix_append t s) with hword | hpart
  · exact h k hword
  · exact hk k (hpart.subset hc)

/-- An operand holds a slash or a parenthesis. -/
theorem Operand.exists_mem_text : ∀ operand : Operand, ∃ c ∈ operand.text, c = '/' ∨ c = '('
  | .test (.equals path _) => by
    obtain ⟨s, hs⟩ := path.exists_text_eq
    exact ⟨'/', by simp [Operand.text, Leaf.text, hs], .inl rfl⟩
  | .test (.contains ..) => ⟨'(', by simp [Operand.text, Leaf.text], .inr rfl⟩
  | .group _ => ⟨'(', by simp [Operand.text], .inr rfl⟩

namespace Expression

/-- An expression does not end with the word of a connective. -/
theorem clear (e : Expression) : Clear e.text := by
  obtain ⟨s, hs⟩ := e.exists_text_eq
  obtain ⟨c, hc, hcases⟩ := e.lastOperand.exists_mem_text
  rw [hs]
  refine (e.lastOperand.clear.append_blanks e.lastBlanks).append_left (List.mem_append_left _ hc) fun k => ?_
  rcases hcases with rfl | rfl <;> cases k <;> decide

theorem ends_draft : ∀ e : Expression, Draft.Ends false e.draft
  | .last _ (.test _) _ => rfl
  | .last _ (.group _) _ => rfl
  | .link _ (.test _) _ _ rest => rest.ends_draft
  | .link _ (.group _) _ _ rest => rest.ends_draft

/-! ## The outline of an expression and a word -/

/-- **The word of a connective behind an expression**, no space behind it, is in its last span. -/
theorem ofText_append_keyword (k : Connective) {w : List Char} (hw : isBlankText w = true) (hh : w.head? ≠ some ' ') :
    ∀ e : Expression, ∃ ps, Draft.ofPieces? ps = some e.fore ∧
      Outline.ofText (e.text ++ ' ' :: (k.keyword.toList ++ w)) = ps ++ [.span (e.lastSpan k)]
  | .last left (.test leaf) right => by
    have htext : (Expression.last left (.test leaf) right).text ++ ' ' :: (k.keyword.toList ++ w) =
        left.1 ++ (leaf.text ++ (right.1 ++ [' '] ++ (k.keyword.toList ++ w))) := by simp [text, Operand.text]
    have hspan : (Expression.last left (.test leaf) right).lastSpan k =
        leaf.text ++ (right.1 ++ [' '] ++ k.keyword.toList) := by simp [lastSpan, lastOperand, lastBlanks]
    refine ⟨[], rfl, ?_⟩
    rw [htext, hspan]
    exact leaf.ofText_append_keyword k left (isBlankText_concat_space right) (by simp) hw hh
  | .last left (.group inside) right => by
    have htext : (Expression.last left (.group inside) right).text ++ ' ' :: (k.keyword.toList ++ w) =
        left.1 ++ ((Operand.group inside).text ++ (right.1 ++ [' '] ++ (k.keyword.toList ++ w))) := by simp [text]
    refine ⟨[.group (Outline.ofText inside.text)], ?_, ?_⟩
    · simp [Draft.ofPieces?, Clause.ofPiece?, Outline.ofText, inside.reads.ofPieces?, fore]
    · rw [htext]
      exact Operand.ofText_group_append_keyword k left inside (isBlankText_concat_space right) hw hh
  | .link left operand right k' rest => by
    obtain ⟨ps, hps, ho⟩ := rest.ofText_append_keyword k hw hh
    have hfirst := Expression.reads (.last left operand right)
    have htext : (Expression.link left operand right k' rest).text ++ ' ' :: (k.keyword.toList ++ w) =
        (Expression.last left operand right).text ++
          (linkWord k' ++ (rest.text ++ ' ' :: (k.keyword.toList ++ w))) := by simp [text, linkWord_eq]
    refine ⟨ofAtoms false (atoms (Expression.last left operand right).text) ++ .link k' :: ps, ?_, ?_⟩
    · rw [Draft.ofPieces?_append, hfirst.ofPieces?]
      simp [Draft.ofPieces?, Clause.ofPiece?, hps, draft, fore]
    · rw [Outline.ofText, htext, hfirst.atoms_append (isQuote_of_mem_head?_linkWord_append k' _), atoms_linkWord_append,
        hfirst.ofAtoms_append_link k' (ends_draft _) (seam_linkWord k' (clear _))]
      rw [Outline.ofText] at ho
      rw [ho, List.append_assoc, List.cons_append]
      rfl

end Expression

namespace Condition

/-- With a space behind it, a connective at the end lacks its right operand. -/
theorem compile_append_linkWord (d : Dialect) (e : Expression) (k : Connective) {w : List Char}
    (hw : isBlankText w = true) {source : String} (hs : source.toList = e.text ++ (linkWord k ++ w)) :
    compile d source = .error (.malformedExpression source (.violation .noRightOperand)) := by
  have hblank : Reads false (atoms w) [] := by
    rw [atoms_plain (isQuote_of_isBlankText hw)]
    exact .blank (span_of_isBlankText hw true) (by rwa [join_plain])
  have hread := e.reads.append_link k e.ends_draft (seam_linkWord k e.clear) hblank
  rw [← atoms_linkWord_append, ← e.reads.atoms_append (isQuote_of_mem_head?_linkWord_append k w), ← hs] at hread
  apply compile_eq_violation hread.ofPieces?
  rw [Draft.nodes_append]
  exact violation?_concat_link k (e.violation?_draft d 0)

/-- Without one, it depends on the last operand what becomes of the word. -/
theorem compile_append_keyword (d : Dialect) (e : Expression) (k : Connective) {w : List Char}
    (hw : isBlankText w = true) (hh : w.head? ≠ some ' ') {source : String}
    (hs : source.toList = e.text ++ ' ' :: (k.keyword.toList ++ w)) : compile d source = e.swallowed d k := by
  obtain ⟨ps, hps, ho⟩ := e.ofText_append_keyword k hw hh
  rw [← hs] at ho
  have hfail (h : Test.ofSpan? (e.lastSpan k) = none) :
      compile d source = .error (.malformedPredicate (String.ofList (e.lastSpan k))) :=
    compile_eq_malformedPredicate ho hps h
  have hdraft := e.draft_eq
  unfold Expression.swallowed
  cases hlast : e.lastOperand with
  | group inside =>
    have hspan : e.lastSpan k = k.keyword.toList := by rw [Expression.lastSpan, hlast]
    apply hfail
    rw [hspan]
    cases k <;> decide +kernel
  | test leaf =>
    have hspan : e.lastSpan k = leaf.text ++ (e.lastBlanks.1 ++ ' ' :: k.keyword.toList) := by
      rw [Expression.lastSpan, hlast]
    rw [hlast] at hdraft
    cases leaf with
    | contains subject path literal =>
      apply hfail
      rw [hspan]
      exact Leaf.ofSpan?_contains_append k subject path literal e.lastBlanks.2
    | equals path literal =>
      let test : Test := ⟨path.column.chars, .equals, literal.text ++ (e.lastBlanks.1 ++ ' ' :: k.keyword.toList)⟩
      have htest : Test.ofSpan? (e.lastSpan k) = some test := by
        rw [hspan]
        exact Leaf.ofSpan?_equals_append k path literal e.lastBlanks.1
      refine compile_eq_ok_iff.2 ⟨e.fore ++ [.test test], ?_, e.violation?_draft d 0, ?_, ?_⟩
      · rw [ho, Draft.ofPieces?_append, hps]
        simp [Draft.ofPieces?, Clause.ofPiece?, htest]
      · -- the two drafts differ in a value only
        simp [hdraft, Draft.nodes_append, Draft.nodes, Clause.node, Leaf.test, test]
      · simp [hdraft, Draft.tests_append, Draft.tests, Clause.tests, test]

end Condition

end RelQuery
