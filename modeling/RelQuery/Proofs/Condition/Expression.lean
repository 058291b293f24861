import RelQuery.Proofs.Condition.Draft
import RelQuery.Text.Quoted

/-!
# Filter expressions as they are written

An `Expression` is what the author of a filter writes: operands and connectives, groups to any depth, for each literal
how it is quoted, and the blanks around everything that may stand between blanks. Its text and its draft are read off
it; that the text compiles to the draft is shown in `RelQuery.Proofs.Condition.Printing`.
-/

namespace RelQuery

open Text

/-! ## Paths and literals -/

/-- The characters of an identifier: ASCII letters and digits and `_`. -/
def isIdentifierChar (c : Char) : Bool :=
  c.isAlphanum || c == '_'

/-- A nonempty text of identifier characters. -/
def IsIdentifier (s : List Char) : Prop :=
  s ≠ [] ∧ ∀ c ∈ s, isIdentifierChar c = true

instance (s : List Char) : Decidable (IsIdentifier s) :=
  decidable_of_iff (s ≠ [] ∧ s.all isIdentifierChar = true) (by simp [IsIdentifier])

/-- The characters of a literal that is not quoted. -/
def isTokenChar (c : Char) : Bool :=
  isIdentifierChar c || c == '.' || c == '-'

/-- One segment of a path. -/
structure Identifier where
  chars : List Char
  ne_nil : chars ≠ []
  valid : ∀ c ∈ chars, isIdentifierChar c = true

/-- A path of at least two segments, the last of which is the column. -/
structure Path where
  first : Identifier
  inner : List Identifier
  column : Identifier

/-- The segments, parted by slashes. -/
def Path.text (path : Path) : List Char :=
  path.first.chars ++ path.inner.flatMap (fun segment => '/' :: segment.chars) ++ '/' :: path.column.chars

/-- The words that mean something between blanks. -/
def grammarWords : List (List Char) :=
  ["and".toList, "or".toList, "eq".toList]

/-- A literal: any value between quotes of either kind, or a token that is no word of the grammar. -/
inductive Literal where
  | quoted (mark : Char) (isMark : isQuote mark = true) (value : List Char)
  | token (value : List Char) (ne_nil : value ≠ []) (valid : ∀ c ∈ value, isTokenChar c = true)
      (notWord : value ∉ grammarWords)

namespace Literal

/-- The literal as it is written; the quotes of its kind are doubled. -/
def text : Literal → List Char
  | quoted mark _ value => encode mark value
  | token value .. => value

/-- What the literal stands for. -/
def value : Literal → List Char
  | quoted _ _ value => value
  | token value .. => value

end Literal

/-! ## Tests, operands and expressions -/

/-- White space. -/
abbrev Blanks := {s : List Char // isBlankText s = true}

/-- Something between blanks. -/
structure Spaced (α : Type) where
  left : Blanks
  body : α
  right : Blanks

/-- The blanks and the text between them. -/
def Spaced.text {α : Type} (text : α → List Char) (spaced : Spaced α) : List Char :=
  spaced.left.1 ++ (text spaced.body ++ spaced.right.1)

/-- A test as it is written. A path may stand in front of a call; it is not read. -/
inductive Leaf where
  | equals (path : Path) (literal : Literal)
  | contains (subject : Option Path) (path : Spaced Path) (literal : Spaced Literal)

namespace Leaf

/-- What stands in front of a call. -/
def subjectText : Option Path → List Char
  | none => []
  | some path => path.text ++ [' ']

/-- What stands between the parentheses of a call. -/
def argumentsText (path : Spaced Path) (literal : Spaced Literal) : List Char :=
  path.text Path.text ++ ',' :: literal.text Literal.text

/-- The text of a test. -/
def text : Leaf → List Char
  | equals path literal => path.text ++ (" eq ".toList ++ literal.text)
  | contains subject path literal =>
    subjectText subject ++ ("contains".toList ++ '(' :: (argumentsText path literal ++ [')']))

/-- The test that is written. -/
def test : Leaf → Test
  | equals path literal => ⟨path.column.chars, .equals, literal.value⟩
  | contains _ path literal => ⟨path.body.column.chars, .contains, literal.body.value⟩

end Leaf

mutual

/-- A test or a group. -/
inductive Operand where
  | test (leaf : Leaf)
  | group (inside : Expression)

/-- Operands between blanks, with connectives between them. -/
inductive Expression where
  | last (left : Blanks) (operand : Operand) (right : Blanks)
  | link (left : Blanks) (operand : Operand) (right : Blanks) (connective : Connective) (rest : Expression)

end

mutual

/-- The text of an operand. -/
def Operand.text : Operand → List Char
  | .test leaf => leaf.text
  | .group inside => '(' :: inside.text ++ [')']

/-- The text of an expression. -/
def Expression.text : Expression → List Char
  | .last left operand right => left.1 ++ (operand.text ++ right.1)
  | .link left operand right k rest =>
    left.1 ++ (operand.text ++ right.1 ++ (' ' :: (k.keyword.toList ++ [' ']) ++ rest.text))

end

mutual

/-- The element of a draft that an operand is. -/
def Operand.clause : Operand → Clause
  | .test leaf => .test leaf.test
  | .group inside => .group inside.draft

/-- The draft that an expression is. -/
def Expression.draft : Expression → Draft
  | .last _ operand _ => [operand.clause]
  | .link _ operand _ k rest => operand.clause :: .link k :: rest.draft

end

end RelQuery
