import RelQuery.Error
import RelQuery.Text.Atom

/-!
# Outlines

The outline of a filter expression is its structure before any test is read: the texts of the tests, the connectives and
the groups, from left to right. A fault stands in the outline at the place where it is met and ends it.

* `Outline.below_span` : what follows a span is shorter than the text it was cut from.
-/

namespace RelQuery

/-- One piece of an outline. -/
inductive Piece where
  /-- The text of a test, trimmed and not blank. -/
  | span (text : List Char)
  | link (connective : Connective)
  | group (pieces : List Piece)
  | fault (fault : Fault)
  deriving Repr

namespace Outline

open Text

/-- What ends a span: the text, a connective, a parenthesis that opens a group, or a fault. -/
inductive Stop where
  | done
  | link (connective : Connective) (rest : List Atom)
  | group (inside rest : List Atom)
  | fault (fault : Fault)
  deriving DecidableEq

/-- The connective that the text begins with, a blank on both sides, and what follows it. -/
def link? (as : List Atom) : Option (Connective × List Atom) :=
  match strip? (plain " and ".toList) as with
  | some rest => some (.and, rest)
  | none => (strip? (plain " or ".toList) as).map fun rest => (.or, rest)

theorem length_lt_of_link? {as rest : List Atom} {k : Connective} (h : link? as = some (k, rest)) :
    rest.length < as.length := by
  unfold link? at h
  split at h
  next r hr =>
    obtain ⟨rfl, rfl⟩ := by simpa using h
    simp [eq_append_of_strip? hr, plain]
    omega
  next =>
    obtain ⟨r, hr, he⟩ := Option.map_eq_some_iff.1 h
    obtain ⟨rfl, rfl⟩ := by simpa using he
    simp [eq_append_of_strip? hr, plain]
    omega

/-- The beginning of a containment call. -/
def callOpening : List Atom := plain "contains(".toList

/-- Puts atoms in front of a span. -/
def addFront (as : List Atom) (cut : List Atom × Stop) : List Atom × Stop :=
  (as ++ cut.1, cut.2)

/-- The atoms up to the end of the span that the text begins with, and what ends it. Parentheses behind a text that is
not blank belong to the span, as do those of a containment call; `blank` says that the span so far is blank. -/
def span (blank : Bool) (as : List Atom) : List Atom × Stop :=
  match as with
  | [] => ([], .done)
  | .unclosed _ :: _ => ([], .fault .unterminatedLiteral)
  | .quoted run :: rest => addFront [.quoted run] (span false rest)
  | .char c :: rest =>
    match _hs : strip? callOpening (.char c :: rest) with
    | some call =>
      match _hc : closeParen? 0 call with
      | none => ([], .fault .unclosedContains)
      | some (inside, rest) => addFront (callOpening ++ inside ++ [.char ')']) (span false rest)
    | none =>
      match link? (.char c :: rest) with
      | some (connective, rest) => ([], .link connective rest)
      | none =>
        if c = '(' then
          match _hc : closeParen? 0 rest with
          | none => ([], .fault .unclosedParen)
          | some (inside, rest) =>
            if blank then ([], .group inside rest)
            else addFront (.char '(' :: inside ++ [.char ')']) (span false rest)
        else if c = ')' then ([], .fault .unexpectedClose)
        else addFront [.char c] (span (blank && isBlank c) rest)
termination_by as.length
decreasing_by
  · simp
  · have hs := length_le_of_strip? _hs
    have hc := (length_lt_of_closeParen? _hc).2
    omega
  · have hc := (length_lt_of_closeParen? _hc).2
    simp only [List.length_cons]
    omega
  · simp

/-- Whatever an end leaves over is shorter than `n`. -/
def Stop.Below (n : Nat) : Stop → Prop
  | .done | .fault _ => True
  | .link _ rest => rest.length < n
  | .group inside rest => inside.length < n ∧ rest.length < n

theorem Stop.Below.mono {m n : Nat} (h : m ≤ n) {stop : Stop} (hs : stop.Below m) : stop.Below n := by
  cases stop <;> simp only [Stop.Below] at hs ⊢ <;> omega

/-- What a span's end leaves over is shorter than the text. -/
theorem below_span (blank : Bool) (as : List Atom) : (span blank as).2.Below as.length := by
  fun_induction span blank as with
  | case1 => trivial
  | case2 => trivial
  | case3 blank run rest ih => exact ih.mono (by simp)
  | case4 => trivial
  | case5 blank c rest call hs inside rest' hc ih =>
    have hs := length_le_of_strip? hs
    have hc := (length_lt_of_closeParen? hc).2
    exact ih.mono (by omega)
  | case6 blank c rest hs k rest' hl => exact length_lt_of_link? hl
  | case7 => trivial
  | case8 rest inside rest' hc =>
    have hc := length_lt_of_closeParen? hc
    simp only [Stop.Below, List.length_cons]
    omega
  | case9 blank rest inside rest' hc _ _ _ ih =>
    have hc := (length_lt_of_closeParen? hc).2
    exact ih.mono (by simp only [List.length_cons]; omega)
  | case10 => trivial
  | case11 blank c rest _ _ _ _ ih => exact ih.mono (by simp)

/-- The outline of a text, from its atoms. A blank text may stand before a connective only behind a group, which is what
`afterGroup` says. -/
def ofAtoms (afterGroup : Bool) (as : List Atom) : List Piece :=
  match _h : span true as with
  | (text, .done) => if isBlankText (join text) then [] else [.span (trim (join text))]
  | (_, .fault fault) => [.fault fault]
  | (_, .group inside rest) => .group (ofAtoms false inside) :: ofAtoms true rest
  | (text, .link connective rest) =>
    if isBlankText (join text) then
      if afterGroup then .link connective :: ofAtoms false rest else [.fault .missingOperand]
    else .span (trim (join text)) :: .link connective :: ofAtoms false rest
termination_by as.length
decreasing_by
  all_goals
    have h := below_span true as
    simp only [_h, Stop.Below] at h
    omega

/-- The outline of a text. -/
def ofText (s : List Char) : List Piece :=
  ofAtoms false (atoms s)

end Outline

end RelQuery
