import RelQuery.Condition.Outline
import RelQuery.Proofs.Text.Nesting

/-!
# The steps of an outline

The outline of a text is read span by span, and a span piece by piece. The equations here are those of `span` and
`ofAtoms`, one for each thing that may stand in front, free of the proofs that the recursion ends.

* a connective is recognised by its word with a blank on either side (`link?_eq_some_iff`);
* a span, what ends it and what is left over are the text, and no parenthesis is open where a span ends
  (`splits_span`).
-/

namespace RelQuery.Outline

open Text

/-! ## Connectives -/

/-- The word of a connective between two operands, with the blank on either side. -/
def linkWord : Connective → List Char
  | .and => " and ".toList
  | .or => " or ".toList

theorem link?_eq_some_iff {as rest : List Atom} {k : Connective} :
    link? as = some (k, rest) ↔ as = plain (linkWord k) ++ rest := by
  constructor
  · intro h
    unfold link? at h
    split at h
    next r hr =>
      obtain ⟨rfl, rfl⟩ := by simpa using h
      exact eq_append_of_strip? hr
    next =>
      obtain ⟨r, hr, he⟩ := Option.map_eq_some_iff.1 h
      obtain ⟨rfl, rfl⟩ := by simpa using he
      exact eq_append_of_strip? hr
  · rintro rfl
    cases k with
    | and => rw [link?, linkWord, strip?_append]
    | or =>
      -- the two words differ behind the blank
      have h : strip? (plain " and ".toList) (plain " or ".toList ++ rest) = none := rfl
      rw [link?, linkWord, h, strip?_append]
      rfl

theorem link?_eq_none_iff {as : List Atom} : link? as = none ↔ ∀ k, strip? (plain (linkWord k)) as = none := by
  constructor
  · intro h k
    cases hs : strip? (plain (linkWord k)) as with
    | none => rfl
    | some rest =>
      rw [link?_eq_some_iff.2 (eq_append_of_strip? hs)] at h
      cases h
  · intro h
    cases hl : link? as with
    | none => rfl
    | some cut =>
      obtain ⟨k, rest⟩ := cut
      have hk := h k
      rw [link?_eq_some_iff.1 hl, strip?_append] at hk
      cases hk

/-- A connective begins with a blank. -/
theorem link?_eq_none {c : Char} {as : List Atom} (h : c ≠ ' ') : link? (.char c :: as) = none := by
  cases hl : link? (.char c :: as) with
  | none => rfl
  | some cut =>
    obtain ⟨k, r⟩ := cut
    have he := link?_eq_some_iff.1 hl
    cases k <;> exact absurd (Atom.char.inj (List.cons.inj he).1) h

/-- A containment call begins with its first letter. -/
theorem strip?_callOpening_eq_none {c : Char} {as : List Atom} (h : c ≠ 'c') :
    strip? callOpening (.char c :: as) = none := by
  have hc : Atom.char 'c' ≠ .char c := by simpa using Ne.symm h
  simp [callOpening, plain, strip?, hc]

/-! ## Spans -/

section Steps

variable {b : Bool} {c : Char} {as call inside rest : List Atom}

theorem span_nil : span b [] = ([], .done) := by
  rw [span]

theorem span_unclosed (run : List Char) : span b (.unclosed run :: as) = ([], .fault .unterminatedLiteral) := by
  rw [span]

theorem span_quoted (run : List Char) : span b (.quoted run :: as) = addFront [.quoted run] (span false as) := by
  rw [span]

/-- A span in front of a character. -/
theorem span_cons : span b (.char c :: as) =
    match strip? callOpening (.char c :: as) with
    | some call =>
      match closeParen? 0 call with
      | none => ([], .fault .unclosedContains)
      | some (inside, rest) => addFront (callOpening ++ inside ++ [.char ')']) (span false rest)
    | none =>
      match link? (.char c :: as) with
      | some (k, rest) => ([], .link k rest)
      | none =>
        if c = '(' then
          match closeParen? 0 as with
          | none => ([], .fault .unclosedParen)
          | some (inside, rest) =>
            if b then ([], .group inside rest) else addFront (.char '(' :: inside ++ [.char ')']) (span false rest)
        else if c = ')' then ([], .fault .unexpectedClose)
        else addFront [.char c] (span (b && isBlank c) as) := by
  rw [span]
  split
  next call hs =>
    rw [hs]
    dsimp only
    split
    next hc => rw [hc]
    next inside rest hc => rw [hc]
  next hs =>
    rw [hs]
    dsimp only
    cases link? (.char c :: as) with
    | some found => rfl
    | none =>
      dsimp only
      split
      next =>
        split
        next hc => rw [hc]
        next inside rest hc => rw [hc]
      next => rfl

theorem span_call (hs : strip? callOpening (.char c :: as) = some call)
    (hc : closeParen? 0 call = some (inside, rest)) :
    span b (.char c :: as) = addFront (callOpening ++ inside ++ [.char ')']) (span false rest) := by
  rw [span_cons, hs]
  simp only [hc]

theorem span_callOpening (hc : closeParen? 0 call = some (inside, rest)) :
    span b (callOpening ++ call) = addFront (callOpening ++ inside ++ [.char ')']) (span false rest) := by
  have hs := strip?_append callOpening call
  obtain ⟨t, ht⟩ : ∃ t, callOpening ++ call = .char 'c' :: t := ⟨_, rfl⟩
  rw [ht] at hs ⊢
  exact span_call hs hc

theorem span_link (k : Connective) : span b (plain (linkWord k) ++ rest) = ([], .link k rest) := by
  have hl : link? (plain (linkWord k) ++ rest) = some (k, rest) := link?_eq_some_iff.2 rfl
  obtain ⟨s, hs⟩ : ∃ s, plain (linkWord k) ++ rest = .char ' ' :: s := by cases k <;> exact ⟨_, rfl⟩
  rw [hs] at hl ⊢
  rw [span_cons, strip?_callOpening_eq_none (by decide), hl]

/-- A parenthesis opens a group behind blanks, and belongs to the span behind anything else. -/
theorem span_paren (hc : closeParen? 0 as = some (inside, rest)) : span b (.char '(' :: as) =
    if b then ([], .group inside rest) else addFront (.char '(' :: inside ++ [.char ')']) (span false rest) := by
  rw [span_cons, strip?_callOpening_eq_none (by decide), link?_eq_none (by decide), hc]
  rfl

theorem span_char (hs : strip? callOpening (.char c :: as) = none) (hl : link? (.char c :: as) = none)
    (ho : c ≠ '(') (hc : c ≠ ')') : span b (.char c :: as) = addFront [.char c] (span (b && isBlank c) as) := by
  rw [span_cons, hs, hl]
  simp only [ho, hc, if_false]

/-- Characters that are no parentheses, and at none of which a call or a connective begins, belong to the span. -/
theorem span_plain : ∀ {w : List Char} {b : Bool}, '(' ∉ w → ')' ∉ w →
    (∀ s, s ≠ [] → s <:+ plain w → strip? callOpening (s ++ as) = none ∧ link? (s ++ as) = none) →
      span b (plain w ++ as) = addFront (plain w) (span (b && isBlankText w) as)
  | [], b, _, _, _ => by simp [plain, addFront, isBlankText]
  | c :: w, b, ho, hc, h => by
    obtain ⟨hs, hl⟩ := h (plain (c :: w)) (List.cons_ne_nil _ _) List.suffix_rfl
    have hsuf : plain w <:+ plain (c :: w) := ⟨[.char c], rfl⟩
    have ih := span_plain (b := b && isBlank c) (fun hm => ho (List.mem_cons_of_mem c hm))
      (fun hm => hc (List.mem_cons_of_mem c hm)) fun s hn hm => h s hn (hm.trans hsuf)
    have hstep : span b (.char c :: (plain w ++ as)) = addFront [.char c] (span (b && isBlank c) (plain w ++ as)) :=
      span_char hs hl (fun e => ho (by simp [e])) fun e => hc (by simp [e])
    show span b (.char c :: (plain w ++ as)) = _
    rw [hstep, ih]
    simp [addFront, isBlankText, Bool.and_assoc, plain]

end Steps

/-! ## Outlines -/

section Pieces

variable {f : Bool} {as text inside rest : List Atom} {k : Connective}

theorem ofAtoms_done (h : span true as = (text, .done)) :
    ofAtoms f as = if isBlankText (join text) then [] else [.span (trim (join text))] := by
  rw [ofAtoms]
  split <;> simp_all

theorem ofAtoms_group (h : span true as = (text, .group inside rest)) :
    ofAtoms f as = .group (ofAtoms false inside) :: ofAtoms true rest := by
  rw [ofAtoms]
  split <;> simp_all

theorem ofAtoms_link (h : span true as = (text, .link k rest)) : ofAtoms f as =
    if isBlankText (join text) then if f then .link k :: ofAtoms false rest else [.fault .missingOperand]
    else .span (trim (join text)) :: .link k :: ofAtoms false rest := by
  rw [ofAtoms]
  split <;> simp_all

end Pieces

/-! ## What a span leaves over -/

/-- A blank character outside quotes. -/
def isBlankAtom : Atom → Bool
  | .char c => isBlank c
  | _ => false

/-- The span `text` of the atoms `as` and what its end leaves over are these atoms, the connective or the parentheses
between them put back. Only blanks stand in front of a group, and only where the span was blank before. -/
def Stop.Splits (blank : Bool) (as text : List Atom) : Stop → Prop
  | .done => as = text ∧ Balanced text
  | .link k rest => as = text ++ plain (linkWord k) ++ rest ∧ Balanced text
  | .group inside rest =>
    as = text ++ (.char '(' :: inside ++ .char ')' :: rest) ∧ Balanced inside ∧ blank = true ∧ text.all isBlankAtom
  | .fault _ => True

/-- More atoms in front of a span; they are blank where a group may still follow. -/
theorem Stop.Splits.addFront {b b' : Bool} {front as as' text : List Atom} {stop : Stop} (h : stop.Splits b' as' text)
    (he : as = front ++ as') (hf : Balanced front) (hb : b' = true → b = true ∧ front.all isBlankAtom) :
    stop.Splits b as (front ++ text) := by
  subst he
  cases stop with
  | done => exact ⟨by rw [h.1], hf.append h.2⟩
  | link k rest => exact ⟨by simp [h.1], hf.append h.2⟩
  | group inside rest =>
    obtain ⟨rfl, hi, hb', ht⟩ := h
    exact ⟨by simp, hi, (hb hb').1, by simp [(hb hb').2, ht]⟩
  | fault _ => trivial

/-- **A span and what is left over are the text**, whatever ends the span. -/
theorem splits_span (b : Bool) (as : List Atom) : (span b as).2.Splits b as (span b as).1 := by
  fun_induction span b as with
  | case1 => exact ⟨rfl, balanced_nil⟩
  | case2 => trivial
  | case3 b run rest ih => exact ih.addFront rfl (Balanced.quoted run balanced_nil) (by simp)
  | case4 => trivial
  | case5 b c rest call hs inside rest' hc ih =>
    obtain ⟨rfl, hi⟩ := closeParen?_eq_some_iff.1 hc
    have hp : Balanced (callOpening ++ inside ++ [.char ')']) := by
      have hw : Balanced (plain "contains".toList) := by decide
      exact hw.append (Balanced.paren hi balanced_nil)
    exact ih.addFront (by rw [eq_append_of_strip? hs]; simp) hp (by simp)
  | case6 b c rest hs k rest' hl => exact ⟨link?_eq_some_iff.1 hl, balanced_nil⟩
  | case7 => trivial
  | case8 rest inside rest' hc =>
    obtain ⟨rfl, hi⟩ := closeParen?_eq_some_iff.1 hc
    exact ⟨rfl, hi, rfl, rfl⟩
  | case9 b rest inside rest' hc _ _ _ ih =>
    obtain ⟨rfl, hi⟩ := closeParen?_eq_some_iff.1 hc
    exact ih.addFront (by simp) (Balanced.paren hi balanced_nil) (by simp)
  | case10 => trivial
  | case11 b c rest _ _ ho hc ih =>
    exact ih.addFront rfl (Balanced.char ho hc balanced_nil) (by simp [isBlankAtom])

section Splits

variable {b : Bool} {as text inside rest : List Atom}

theorem splits_of_span {stop : Stop} (hs : span b as = (text, stop)) : stop.Splits b as text := by
  simpa [hs] using splits_span b as

/-- What stands behind a connective ends the text. -/
theorem suffix_of_link {k : Connective} (hs : span b as = (text, .link k rest)) : rest <:+ as := by
  rw [(splits_of_span hs).1]
  exact List.suffix_append _ _

/-- What stands in a group is a part of the text. -/
theorem infix_of_group (hs : span b as = (text, .group inside rest)) : inside <:+: as := by
  rw [(splits_of_span hs).1]
  exact ⟨text ++ [.char '('], .char ')' :: rest, by simp⟩

/-- What stands behind a group ends the text. -/
theorem suffix_of_group (hs : span b as = (text, .group inside rest)) : rest <:+ as := by
  rw [(splits_of_span hs).1]
  exact ⟨text ++ .char '(' :: inside ++ [.char ')'], by simp⟩

end Splits

end RelQuery.Outline
