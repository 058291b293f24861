import RelQuery.Proofs.Condition.Alternation
import RelQuery.Proofs.Condition.Leaf

/-!
# Compiling undoes writing

The text of an `Expression` compiles to the condition that was written, its parameters numbered from left to right and
bound to the values of its literals (`Condition.compile_text`). There are no conditions on the expression: whatever
stands in a literal, however deep the groups are and wherever there are blanks, the text is read as it was meant.

Each operand is read alone first. It begins with no word of the grammar and does not end with one, so that blanks and
connectives may be put around it.
-/

namespace RelQuery

open Text Outline

/-! ## Ends of texts -/

/-- A text does not end with a connective's word if its last character is not one of theirs. -/
theorem clear_concat {c : Char} (hc : c ∉ ['d', 'r']) (s : List Char) : Clear (s ++ [c]) := by
  rintro k ⟨t, ht⟩
  have hl := congrArg List.getLast? ht
  cases k with
  | and =>
    obtain rfl : 'd' = c := by simpa [Connective.keyword, List.getLast?_append] using hl
    exact hc (by decide)
  | or =>
    obtain rfl : 'r' = c := by simpa [Connective.keyword, List.getLast?_append] using hl
    exact hc (by decide)

/-- Nor if its last word is another. -/
theorem clear_append_word {w : List Char} (hb : ' ' ∉ w) (hw : w ∉ grammarWords) (s : List Char) :
    Clear (s ++ ' ' :: w) := by
  rintro k ⟨t, ht⟩
  have hk : ' ' ∉ k.keyword.toList := by cases k <;> decide
  have hm : k.keyword.toList ∈ grammarWords := by cases k <;> decide
  rcases List.append_eq_append_iff.1 ht with ⟨r, rfl, hr⟩ | ⟨r, rfl, hr⟩
  · cases r with
    | nil =>
      obtain ⟨_, he⟩ := List.cons.inj hr
      exact hw (he ▸ hm)
    | cons x r =>
      obtain ⟨rfl, he⟩ := List.cons.inj hr
      exact hk (he ▸ by simp)
  · cases r with
    | nil =>
      obtain ⟨_, he⟩ := List.cons.inj hr
      exact hw (he ▸ hm)
    | cons x r =>
      obtain ⟨rfl, he⟩ := List.cons.inj hr
      exact hb (he ▸ by simp)

theorem Outline.Clear.append_blanks {s : List Char} (h : Clear s) (l : Blanks) : Clear (s ++ l.1) := by
  rcases List.eq_nil_or_concat l.1 with hl | ⟨r, c, hl⟩
  · simpa [hl] using h
  · have hb := mem_of_isBlankText l.2 c (by simp [hl])
    rw [hl, List.concat_eq_append, ← List.append_assoc]
    apply clear_concat
    intro hc
    have hletters : ∀ c ∈ ['d', 'r'], isBlank c = false := by simp [isBlank]
    simp [hletters c hc] at hb

theorem tight_append {s m t : List Char} (hs : Tight s) (hsn : s ≠ []) (ht : Tight t) (htn : t ≠ []) :
    Tight (s ++ (m ++ t)) := by
  rw [← List.append_assoc]
  apply ht.append_left htn
  cases s with
  | nil => exact absurd rfl hsn
  | cons c s => simpa using hs.1

/-! ## Operands -/

namespace Leaf

theorem tight : ∀ leaf : Leaf, Tight leaf.text
  | equals path literal => tight_append path.solid.tight path.text_ne_nil literal.tight literal.text_ne_nil
  | contains none spaced literal => by
    have hword : Tight "contains".toList := by simp [Tight, isBlank]
    have hclose : Tight [')'] := by simp [Tight, isBlank]
    have h := tight_append (m := '(' :: argumentsText spaced literal) hword (by simp) hclose (by simp)
    simpa [text, subjectText] using h
  | contains (some path) spaced literal => by
    have hclose : Tight [')'] := by simp [Tight, isBlank]
    have h := tight_append (m := " contains(".toList ++ argumentsText spaced literal) path.solid.tight path.text_ne_nil
      hclose (by simp)
    simpa [text, subjectText] using h

theorem text_ne_nil : ∀ leaf : Leaf, leaf.text ≠ []
  | equals path _ => by simp [text, path.text_ne_nil]
  | contains .. => by simp [text]

/-- A test is read, alone. -/
theorem reads (f : Bool) (leaf : Leaf) : Reads f (atoms leaf.text) [.test leaf.test] := by
  have ht := trim_eq_self leaf.tight
  refine .test leaf.span_atoms ?_ ?_
  · rw [join_atoms]
    cases hb : isBlankText leaf.text with
    | false => rfl
    | true => exact absurd (ht.symm.trans (isBlankText_iff.1 hb)) leaf.text_ne_nil
  · rw [join_atoms, ht]
    exact leaf.ofSpan?_text

theorem noWord (as : List Atom) : ∀ leaf : Leaf, NoWord (atoms leaf.text ++ as)
  | equals path literal => by
    rw [atoms_equals, List.append_assoc]
    exact path.noWord _
  | contains none spaced literal => by
    rw [atoms_contains]
    simp only [subjectText, plain, List.map_nil, List.nil_append, List.append_assoc, List.cons_append]
    exact noWord_containsWord _
  | contains (some path) spaced literal => by
    rw [atoms_contains, subjectText, plain_append, List.append_assoc, List.append_assoc]
    exact path.noWord _

theorem clear : ∀ leaf : Leaf, Clear leaf.text
  | equals path (.quoted mark isMark value) => by
    have hm : mark ∉ ['d', 'r'] := by
      intro hm
      have hletters : ∀ c ∈ ['d', 'r'], isQuote c = false := by simp [isQuote]
      simp [hletters mark hm] at isMark
    have h := clear_concat hm (path.text ++ " eq ".toList ++ mark :: double mark value)
    simpa [text, Literal.text, encode] using h
  | equals path (.token value _ valid notWord) => by
    have h := clear_append_word ((Literal.solid_of_token valid).notMem rfl) notWord (path.text ++ " eq".toList)
    simpa [text, Literal.text] using h
  | contains subject spaced literal => by
    have h := clear_concat (c := ')') (by decide)
      (subjectText subject ++ "contains(".toList ++ argumentsText spaced literal)
    simpa [text] using h

end Leaf

theorem Operand.noWord (as : List Atom) : ∀ {operand : Operand}, NoWord (atoms operand.text ++ as)
  | .test leaf => leaf.noWord as
  | .group inside => by
    rw [Operand.text, List.cons_append, atoms_cons rfl]
    exact noWord_cons rfl (by decide)

theorem Operand.clear : ∀ operand : Operand, Clear operand.text
  | .test leaf => leaf.clear
  | .group inside => clear_concat (by decide) ('(' :: inside.text)

/-! ## Expressions -/

/-- Blanks may stand behind an operand. -/
theorem Operand.reads_append_blanks {f : Bool} {operand : Operand} (right : Blanks)
    (h : Reads f (atoms operand.text) [operand.clause]) :
    Reads f (atoms (operand.text ++ right.1)) [operand.clause] := by
  have hq := isQuote_of_mem_head?_blanks_append (s := []) right.2 (by simp)
  rw [List.append_nil] at hq
  have hb : ∀ a ∈ (plain right.1).head?, isBlankAtom a = true := by
    intro a ha
    obtain ⟨c, hc, rfl⟩ := List.mem_map.1 (List.mem_of_mem_head? ha)
    exact mem_of_isBlankText right.2 c hc
  have hatoms := atoms_plain_append (isQuote_of_isBlankText right.2) []
  rw [atoms_nil, List.append_nil, List.append_nil] at hatoms
  rw [h.atoms_append hq, hatoms]
  exact h.append_blanks right.2 (operand.clear.seam hb)

/-- Blanks may stand in front of an operand and what follows it. -/
theorem Operand.reads_blanks_append {f : Bool} {operand : Operand} {t : List Char} {cs : Draft} (left : Blanks)
    (ho : Reads f (atoms operand.text) [operand.clause]) (ht : ∀ c ∈ t.head?, isQuote c = false)
    (h : Reads f (atoms (operand.text ++ t)) cs) : Reads f (atoms (left.1 ++ (operand.text ++ t))) cs := by
  have hword : NoWord (atoms (operand.text ++ t)) := by
    rw [ho.atoms_append ht]
    exact operand.noWord _
  rw [atoms_plain_append (isQuote_of_isBlankText left.2)]
  exact h.blanks_append left.2 fun _ hn hs => hword.link?_eq_none left.2 hn hs

mutual

/-- An operand is read, alone. -/
theorem Operand.reads (f : Bool) : ∀ operand : Operand, Reads f (atoms operand.text) [operand.clause]
  | .test leaf => leaf.reads f
  | .group inside => by
    have h := Expression.reads inside
    rw [Operand.text, h.atoms_paren]
    exact h.paren

/-- **An expression is read** as its draft. -/
theorem Expression.reads : ∀ expression : Expression, Reads false (atoms expression.text) expression.draft
  | .last left operand right => by
    have ho := Operand.reads false operand
    have hq := isQuote_of_mem_head?_blanks_append (s := []) right.2 (by simp)
    rw [List.append_nil] at hq
    exact Operand.reads_blanks_append left ho hq (Operand.reads_append_blanks right ho)
  | .link left operand right k rest => by
    have ho := Operand.reads false operand
    have hr := Operand.reads_append_blanks right ho
    have hends : Draft.Ends false [operand.clause] := by cases operand <;> rfl
    have hlink := hr.append_link k hends (seam_linkWord k (operand.clear.append_blanks right)) (Expression.reads rest)
    have hword := isQuote_of_mem_head?_linkWord_append k rest.text
    have hq := isQuote_of_mem_head?_blanks_append right.2 hword
    rw [← atoms_linkWord_append, ← hr.atoms_append hword, List.append_assoc] at hlink
    have h := Operand.reads_blanks_append left ho hq hlink
    simpa [Expression.text, Expression.draft, linkWord_eq] using h

end

/-! ## Compiling -/

mutual

theorem Operand.violation?_clause (d : Dialect) (n : Nat) : ∀ operand : Operand,
    Condition.violation? [operand.clause.node d n] = none
  | .test _ => rfl
  | .group inside => Condition.violation?_group (Expression.violation?_draft d n inside)

/-- What is written alternates. -/
theorem Expression.violation?_draft (d : Dialect) (n : Nat) : ∀ expression : Expression,
    Condition.violation? (Draft.nodes d n expression.draft) = none
  | .last _ operand _ => Operand.violation?_clause d n operand
  | .link _ operand _ k rest =>
    Condition.violation?_append_link k (Operand.violation?_clause d n operand)
      (Expression.violation?_draft d _ rest)

end

/-- **Compiling undoes writing.** The text of an expression compiles, to the condition that was written and nothing
else: columns are the last segments of their paths, parameters are numbered from left to right, and each is bound to
the value of its literal, between wildcards for a containment. -/
theorem Condition.compile_text (d : Dialect) (expression : Expression) :
    compile d (String.ofList expression.text) =
      .ok (Draft.nodes d 0 expression.draft, Test.bindings d 0 (Draft.tests expression.draft)) := by
  refine compile_iff_reads.2 ⟨expression.draft, ?_, expression.violation?_draft d 0, rfl, rfl⟩
  rw [String.toList_ofList]
  exact expression.reads

/-- A group around a call whose literal holds a quote, a parenthesis and a connective. -/
example :
    let path : Path := ⟨⟨['x'], by simp, by simp [isIdentifierChar]⟩, [], ⟨['a'], by simp, by simp [isIdentifierChar]⟩⟩
    let literal : Literal := .quoted '\'' rfl "b') and (".toList
    let call : Leaf := .contains none ⟨⟨[], rfl⟩, path, ⟨[' '], rfl⟩⟩ ⟨⟨[], rfl⟩, literal, ⟨[], rfl⟩⟩
    let group : Operand := .group (.last ⟨[], rfl⟩ (.test call) ⟨['\n'], rfl⟩)
    let text := String.ofList (Expression.last ⟨[' '], rfl⟩ group ⟨[], rfl⟩).text
    text = " (contains(x/a ,'b'') and (')\n)" ∧
      Condition.compile {} text =
        .ok ([.group [.test "a" .contains "param_0"]], ⟨[("param_0", "%b') and (%")], by decide⟩) := by
  decide +kernel

end RelQuery
