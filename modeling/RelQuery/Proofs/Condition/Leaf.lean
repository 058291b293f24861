import RelQuery.Proofs.Condition.Expression
import RelQuery.Proofs.Condition.Seam
import RelQuery.Proofs.Text.Cutting
import RelQuery.Proofs.Text.Search

/-!
# Written tests are read

The text of a `Leaf` is one span, and the span reads as the leaf's test, whatever the literal holds: its quotes make it
one atom, in which no search looks.

* `Path.columnOf_text` : the column of a path between blanks;
* `Literal.decode_text` : what a written literal stands for;
* `Leaf.ofSpan?_text`, `Leaf.span_atoms` : the test of a leaf, and its span.
-/

namespace RelQuery

open Text Outline

/-! ## Characters of paths and tokens -/

/-- The characters of paths and tokens. -/
def isSolidChar (c : Char) : Bool :=
  isTokenChar c || c == '/'

/-- Words of solid characters. -/
def Solid (w : List Char) : Prop :=
  ∀ c ∈ w, isSolidChar c = true

/-- Letters and digits lie between `0` and `z`. -/
theorem toNat_of_isAlphanum {c : Char} (h : c.isAlphanum = true) : 48 ≤ c.toNat ∧ c.toNat ≤ 122 := by
  rcases Bool.or_eq_true_iff.1 h with h | h
  · rcases Bool.or_eq_true_iff.1 h with h | h
    · obtain ⟨hl, hu⟩ : c.val ≥ 'A'.val ∧ c.val ≤ 'Z'.val := of_decide_eq_true h
      have hl : 65 ≤ c.toNat := UInt32.le_iff_toNat_le.1 hl
      have hu : c.toNat ≤ 90 := UInt32.le_iff_toNat_le.1 hu
      omega
    · obtain ⟨hl, hu⟩ := Bool.and_eq_true_iff.1 h
      have hl : 97 ≤ c.toNat := UInt32.le_iff_toNat_le.1 (of_decide_eq_true hl)
      have hu : c.toNat ≤ 122 := UInt32.le_iff_toNat_le.1 (of_decide_eq_true hu)
      omega
  · obtain ⟨hl, hu⟩ := Bool.and_eq_true_iff.1 h
    have hl : 48 ≤ c.toNat := UInt32.le_iff_toNat_le.1 (of_decide_eq_true hl)
    have hu : c.toNat ≤ 57 := UInt32.le_iff_toNat_le.1 (of_decide_eq_true hu)
    omega

theorem isBlank_of_isSolidChar {c : Char} (h : isSolidChar c = true) : isBlank c = false := by
  -- solid characters lie between `-` and `z`, and there are no blanks between them
  have hn : 45 ≤ c.toNat ∧ c.toNat ≤ 122 := by
    simp only [isSolidChar, isTokenChar, isIdentifierChar, Bool.or_eq_true, beq_iff_eq] at h
    rcases h with (((h | rfl) | rfl) | rfl) | rfl
    · have h := toNat_of_isAlphanum h
      omega
    all_goals decide
  simp [isBlank]
  omega

namespace Solid

variable {v w : List Char}

/-- What the grammar takes for something else stands in no word. -/
theorem notMem (hw : Solid w) {x : Char} (hx : isSolidChar x = false) : x ∉ w := by
  intro hm
  simp [hw x hm] at hx

theorem isQuote_eq_false (hw : Solid w) : ∀ c ∈ w, isQuote c = false := by
  intro c hc
  cases hq : isQuote c with
  | false => rfl
  | true =>
    have hs : isSolidChar c = false := by rcases eq_of_isQuote hq with rfl | rfl <;> rfl
    exact absurd hc (hw.notMem hs)

theorem append (hv : Solid v) (hw : Solid w) : Solid (v ++ w) := by
  intro c hc
  rcases List.mem_append.1 hc with h | h
  · exact hv c h
  · exact hw c h

theorem balanced (hw : Solid w) : Balanced (plain w) :=
  balanced_plain (hw.notMem rfl) (hw.notMem rfl)

theorem tight (hw : Solid w) : Tight w := by
  constructor
  · intro c hc
    exact isBlank_of_isSolidChar (hw c (List.mem_of_mem_head? hc))
  · intro c hc
    exact isBlank_of_isSolidChar (hw c (List.mem_of_mem_getLast? hc))

/-- No call begins in a word that no character of a call's beginning follows. -/
theorem strip?_callOpening (hw : Solid w) {as s : List Atom} (ha : ∀ a ∈ as.head?, a ∉ callOpening)
    (hs : s <:+ plain w) : strip? callOpening (s ++ as) = none := by
  have hrest : strip? callOpening (s ++ as) = (strip? callOpening s).map (· ++ as) := by
    apply strip?_append_of_rest
    intro r hr hrn
    cases r with
    | nil => exact absurd rfl hrn
    | cons x r =>
      apply strip?_cons_eq_none
      rintro a hm rfl
      exact ha x hm (hr ▸ List.mem_append_right s List.mem_cons_self)
  rw [hrest]
  cases hcall : strip? callOpening s with
  | none => rfl
  | some r =>
    -- the parenthesis of a call stands in no word
    have hm : Atom.char '(' ∈ s := by
      rw [eq_append_of_strip? hcall]
      exact List.mem_append_left _ (by decide)
    exact absurd (char_mem_plain.1 (hs.subset hm)) (hw.notMem rfl)

/-- A word belongs to the span it stands in, unless it begins a call. -/
theorem span_append (hw : Solid w) (hn : w ≠ []) {b : Bool} {as : List Atom}
    (ha : ∀ a ∈ as.head?, a ∉ callOpening) : span b (plain w ++ as) = addFront (plain w) (span false as) := by
  have hb : isBlankText w = false := by
    cases w with
    | nil => exact absurd rfl hn
    | cons c w => simp [isBlankText, isBlank_of_isSolidChar (hw c List.mem_cons_self)]
  have hlink : ∀ s, s ≠ [] → s <:+ plain w → link? (s ++ as) = none := by
    intro s hsn hs
    obtain ⟨c, t, hc, rfl⟩ := exists_cons_of_suffix_plain hsn hs
    apply link?_eq_none
    rintro rfl
    exact absurd hc (hw.notMem rfl)
  rw [span_plain (hw.notMem rfl) (hw.notMem rfl) fun s hsn hs => ⟨hw.strip?_callOpening ha hs, hlink s hsn hs⟩, hb,
    Bool.and_false]

end Solid

/-! ## Words between blanks -/

/-- No word of the grammar, with a blank behind it, stands here. -/
def NoWord (as : List Atom) : Prop :=
  ∀ word ∈ grammarWords, strip? (plain (word ++ [' '])) as = none

/-- Here stands another word, or one that goes on otherwise than with a blank. -/
theorem noWord_plain {v : List Char} {as : List Atom} (hv : ∀ c ∈ v, isTokenChar c = true)
    (ha : ∀ c, .char c ∈ as.head? → isTokenChar c = false) (h : v ∈ grammarWords → .char ' ' ∉ as.head?) :
    NoWord (plain v ++ as) := by
  have htoken : ∀ word ∈ grammarWords, ∀ c ∈ word, isTokenChar c = true := by
    simp [grammarWords, isTokenChar, isIdentifierChar]
  intro word hm
  exact strip?_plain_eq_none (p := isTokenChar) rfl (htoken word hm) hv ha fun e => h (e ▸ hm)

/-- No word at all stands here. -/
theorem noWord_cons {c : Char} {as : List Atom} (ht : isTokenChar c = false) (hb : c ≠ ' ') :
    NoWord (.char c :: as) := by
  have h : NoWord (plain [] ++ .char c :: as) := noWord_plain (by simp) (by simpa using ht) fun _ => by simpa using hb
  exact h

/-- The word of a call is none of the grammar. -/
theorem noWord_containsWord (as : List Atom) : NoWord (plain Test.containsWord ++ .char '(' :: as) := by
  apply noWord_plain
  · exact List.all_eq_true.1 (by decide)
  · simp [isTokenChar, isIdentifierChar]
  · intro hm
    exact absurd hm (by decide)

namespace NoWord

variable {l : List Char} {as s : List Atom}

/-- No connective begins among the blanks in front. -/
theorem link?_eq_none (hl : isBlankText l = true) (h : NoWord as) (hn : s ≠ []) (hs : s <:+ plain l) :
    link? (s ++ as) = none := by
  rw [link?_eq_none_iff]
  intro k
  cases k with
  | and => exact strip?_blanks_eq_none rfl hl (h "and".toList (by decide)) hn hs
  | or => exact strip?_blanks_eq_none rfl hl (h "or".toList (by decide)) hn hs

/-- Nor is the word of an equality found among them. -/
theorem cutOutside?_eq_none (hl : isBlankText l = true) (h : NoWord as) (hc : cutOutside? Test.eqWord as = none) :
    cutOutside? Test.eqWord (plain l ++ as) = none := by
  have hfree : ∀ s, s ≠ [] → s <:+ plain l → strip? (plain Test.eqWord) (s ++ as) = none :=
    fun s hn hs => strip?_blanks_eq_none rfl hl (h "eq".toList (by decide)) hn hs
  rw [cutOutside?_plain_append hfree, hc]
  rfl

end NoWord

/-- The word of an equality begins with a blank. -/
theorem cutOutside?_eqWord_plain {w : List Char} {as : List Atom} (hw : ' ' ∉ w)
    (hc : cutOutside? Test.eqWord as = none) : cutOutside? Test.eqWord (plain w ++ as) = none := by
  have h : cutOutside? Test.eqWord (plain w ++ as) = _ := cutOutside?_append_of_notMem as hw
  rw [h]
  show (cutOutside? Test.eqWord as).map _ = none
  rw [hc]
  rfl

/-! ## Paths -/

theorem Identifier.isTokenChar (i : Identifier) : ∀ c ∈ i.chars, isTokenChar c = true := by
  intro c hc
  simp [RelQuery.isTokenChar, i.valid c hc]

theorem Identifier.solid (i : Identifier) : Solid i.chars := by
  intro c hc
  simp [isSolidChar, i.isTokenChar c hc]

theorem Identifier.slash_notMem (i : Identifier) : '/' ∉ i.chars := by
  intro hm
  exact absurd (i.valid '/' hm) (by decide)

namespace Path

variable (path : Path)

theorem solid : Solid path.text := by
  have hslash : Solid ['/'] := by simp [Solid, isSolidChar]
  have hinner : Solid (path.inner.flatMap fun segment => '/' :: segment.chars) := by
    intro c hc
    obtain ⟨segment, _, hm⟩ := List.mem_flatMap.1 hc
    exact hslash.append segment.solid c hm
  exact (path.first.solid.append hinner).append (hslash.append path.column.solid)

/-- A path goes on with a slash behind its first segment. -/
theorem exists_text_eq : ∃ s, path.text = path.first.chars ++ '/' :: s := by
  unfold text
  cases path.inner with
  | nil => exact ⟨path.column.chars, by simp⟩
  | cons segment inner =>
    exact ⟨segment.chars ++ inner.flatMap (fun s => '/' :: s.chars) ++ '/' :: path.column.chars, by simp⟩

theorem text_ne_nil : path.text ≠ [] := by
  simp [text]

theorem noWord (as : List Atom) : NoWord (plain path.text ++ as) := by
  obtain ⟨s, hs⟩ := path.exists_text_eq
  have h : NoWord (plain path.first.chars ++ (.char '/' :: (plain s ++ as))) :=
    noWord_plain path.first.isTokenChar (by simp [isTokenChar, isIdentifierChar]) (by simp)
  simpa [hs, plain] using h

/-- The column of a path, whatever blanks stand around it. -/
theorem columnOf_text (l r : Blanks) : Test.columnOf (l.1 ++ (path.text ++ r.1)) = path.column.chars := by
  rw [Test.columnOf, ← List.append_assoc, trim_of_tight l.2 r.2 path.solid.tight, text]
  exact lastSegment_append_cons _ path.column.slash_notMem

end Path

/-! ## Literals -/

namespace Literal

/-- A written literal as atoms. -/
def atoms : Literal → List Atom
  | quoted mark _ value => [.quoted (encode mark value)]
  | token value .. => plain value

theorem solid_of_token {value : List Char} (h : ∀ c ∈ value, isTokenChar c = true) : Solid value := by
  intro c hc
  simp [isSolidChar, h c hc]

/-- A literal is scanned whole, if it is not followed by a quote that would double its own. -/
theorem atoms_text_append {s : List Char} (hs : ∀ c ∈ s.head?, isQuote c = false) (literal : Literal) :
    Text.atoms (literal.text ++ s) = literal.atoms ++ Text.atoms s := by
  cases literal with
  | quoted mark isMark value =>
    apply atoms_encode isMark
    intro e
    simp [hs mark e] at isMark
  | token value _ valid _ => exact atoms_plain_append (solid_of_token valid).isQuote_eq_false s

theorem join_atoms : ∀ literal : Literal, join literal.atoms = literal.text
  | quoted .. => by simp [atoms, text, Atom.text]
  | token .. => join_plain _

theorem balanced : ∀ literal : Literal, Balanced literal.atoms
  | quoted .. => rfl
  | token _ _ valid _ => (solid_of_token valid).balanced

theorem text_ne_nil : ∀ literal : Literal, literal.text ≠ []
  | quoted .. => by simp [text, encode]
  | token _ ne_nil .. => ne_nil

theorem tight : ∀ literal : Literal, Tight literal.text
  | quoted mark isMark value => by
    have hb := isBlank_of_isQuote isMark
    constructor
    · simpa [text, encode] using hb
    · rw [text, encode, ← List.cons_append, List.getLast?_concat]
      simpa using hb
  | token _ _ valid _ => (solid_of_token valid).tight

/-- What a written literal stands for. -/
theorem decode_text : ∀ literal : Literal, decode literal.text = literal.value
  | quoted _ isMark value => decode_encode isMark value
  | token value ne_nil valid _ => by
    cases value with
    | nil => exact absurd rfl ne_nil
    | cons c s =>
      have hq := (solid_of_token valid).isQuote_eq_false c List.mem_cons_self
      simp [text, Literal.value, decode, hq]

theorem noWord {as : List Atom} (ha : ∀ c, .char c ∈ as.head? → isTokenChar c = false) :
    ∀ literal : Literal, NoWord (literal.atoms ++ as)
  | quoted mark _ value => by
    intro word hm
    have hne : ∀ word ∈ grammarWords, word ≠ [] := by decide
    cases word with
    | nil => exact absurd rfl (hne [] hm)
    | cons c word => simp [plain, atoms, strip?]
  | token _ _ valid notWord => noWord_plain valid ha fun hm => absurd hm notWord

theorem cutOutside?_eq_none {as : List Atom} (hc : cutOutside? Test.eqWord as = none) :
    ∀ literal : Literal, cutOutside? Test.eqWord (literal.atoms ++ as) = none
  | quoted mark _ value => by simp [atoms, cutOutside?, hc]
  | token _ _ valid _ => cutOutside?_eqWord_plain ((solid_of_token valid).notMem rfl) hc

/-- A literal ends the span it stands in. -/
theorem span_atoms : ∀ literal : Literal, span false literal.atoms = (literal.atoms, .done)
  | quoted .. => by simp [atoms, span_quoted, span_nil, addFront]
  | token value ne_nil valid _ => by
    have h : span false (plain value ++ []) = _ := (solid_of_token valid).span_append ne_nil (by simp)
    simpa [atoms, span_nil, addFront] using h

end Literal

/-! ## Tests -/

namespace Leaf

variable (path : Path) (subject : Option Path) (spaced : Spaced Path) (literal : Spaced Literal)

/-- What stands between the parentheses of a call, as atoms. -/
def arguments : List Atom :=
  plain (spaced.text Path.text) ++ .char ',' :: (plain literal.left.1 ++ (literal.body.atoms ++ plain literal.right.1))

theorem isBlank_or_isSolidChar {c : Char} (hc : c ∈ spaced.text Path.text) :
    isBlank c = true ∨ isSolidChar c = true := by
  simp only [Spaced.text, List.mem_append] at hc
  rcases hc with h | h | h
  · exact .inl (mem_of_isBlankText spaced.left.2 c h)
  · exact .inr (spaced.body.solid c h)
  · exact .inl (mem_of_isBlankText spaced.right.2 c h)

theorem isQuote_of_mem_spaced : ∀ c ∈ spaced.text Path.text, isQuote c = false := by
  intro c hc
  simp only [Spaced.text, List.mem_append] at hc
  rcases hc with h | h | h
  · exact isQuote_of_isBlankText spaced.left.2 c h
  · exact spaced.body.solid.isQuote_eq_false c h
  · exact isQuote_of_isBlankText spaced.right.2 c h

theorem atoms_argumentsText_append {s : List Char} (hs : ∀ c ∈ s.head?, isQuote c = false) :
    atoms (argumentsText spaced literal ++ s) = arguments spaced literal ++ atoms s := by
  have hright := isQuote_of_mem_head?_blanks_append literal.right.2 hs
  have hl : literal.text Literal.text ++ s = literal.left.1 ++ (literal.body.text ++ (literal.right.1 ++ s)) := by
    simp [Spaced.text]
  rw [argumentsText, List.append_assoc, atoms_plain_append (isQuote_of_mem_spaced spaced), List.cons_append,
    atoms_cons rfl, hl, atoms_plain_append (isQuote_of_isBlankText literal.left.2),
    literal.body.atoms_text_append hright, atoms_plain_append (isQuote_of_isBlankText literal.right.2), arguments]
  simp

theorem isQuote_of_mem_eqWord : ∀ c ∈ Test.eqWord, isQuote c = false := by
  simp [Test.eqWord, isQuote]

theorem isQuote_of_mem_containsWord : ∀ c ∈ Test.containsWord, isQuote c = false := by
  have h : Test.containsWord.all (fun c => !isQuote c) = true := by decide
  simpa using h

theorem atoms_equals (literal : Literal) :
    atoms (equals path literal).text = plain path.text ++ (plain Test.eqWord ++ literal.atoms) := by
  have hl : atoms literal.text = literal.atoms := by
    simpa [atoms_nil] using literal.atoms_text_append (s := []) (by simp)
  have hword : atoms (Test.eqWord ++ literal.text) = plain Test.eqWord ++ literal.atoms := by
    rw [atoms_plain_append isQuote_of_mem_eqWord, hl]
  rw [text, atoms_plain_append path.solid.isQuote_eq_false]
  exact congrArg _ hword

theorem isQuote_of_mem_subjectText : ∀ c ∈ subjectText subject, isQuote c = false := by
  cases subject with
  | none => simp [subjectText]
  | some path =>
    intro c hc
    rcases List.mem_append.1 hc with h | h
    · exact path.solid.isQuote_eq_false c h
    · obtain rfl := List.mem_singleton.1 h
      rfl

theorem atoms_contains : atoms (contains subject spaced literal).text =
    plain (subjectText subject) ++
      (plain Test.containsWord ++ .char '(' :: (arguments spaced literal ++ [.char ')'])) := by
  have hcall : atoms (Test.containsWord ++ '(' :: (argumentsText spaced literal ++ [')'])) =
      plain Test.containsWord ++ .char '(' :: (arguments spaced literal ++ [.char ')']) := by
    rw [atoms_plain_append isQuote_of_mem_containsWord, atoms_cons rfl,
      atoms_argumentsText_append spaced literal (by simp [isQuote]), atoms_cons rfl, atoms_nil]
  rw [text, atoms_plain_append (isQuote_of_mem_subjectText subject)]
  exact congrArg _ hcall

/-! ### The span of a test -/

theorem span_eqWord {b : Bool} {as : List Atom} (h : NoWord as) :
    span b (plain Test.eqWord ++ as) = addFront (plain Test.eqWord) (span false as) := by
  have hfree : ∀ s, s ≠ [] → s <:+ plain Test.eqWord →
      strip? callOpening (s ++ as) = none ∧ link? (s ++ as) = none := by
    intro s hn hs
    have hcases : s = plain [' ', 'e', 'q', ' '] ∨ s = plain ['e', 'q', ' '] ∨ s = plain ['q', ' '] ∨
        s = plain [' '] := by
      simpa [Test.eqWord, plain, List.suffix_cons_iff, hn] using hs
    rcases hcases with rfl | rfl | rfl | rfl
    · exact ⟨strip?_callOpening_eq_none (by decide), link?_eq_none_iff.2 fun k => by cases k <;> rfl⟩
    · exact ⟨strip?_callOpening_eq_none (by decide), link?_eq_none (by decide)⟩
    · exact ⟨strip?_callOpening_eq_none (by decide), link?_eq_none (by decide)⟩
    · have hblank : isBlankText [' '] = true := by decide
      exact ⟨strip?_callOpening_eq_none (by decide), h.link?_eq_none hblank hn List.suffix_rfl⟩
  rw [span_plain (by decide) (by decide) hfree]
  simp [Test.eqWord, isBlankText, isBlank]

theorem balanced_arguments : Balanced (arguments spaced literal) := by
  have hblanks : ∀ l : Blanks, Balanced (plain l.1) := fun l =>
    balanced_plain (notMem_of_isBlankText l.2 rfl) (notMem_of_isBlankText l.2 rfl)
  have hpath : Balanced (plain (spaced.text Path.text)) := by
    rw [Spaced.text, plain_append, plain_append]
    exact (hblanks _).append (spaced.body.solid.balanced.append (hblanks _))
  have hliteral := literal.body.balanced.append (hblanks literal.right)
  exact hpath.append (Balanced.char (by decide) (by decide) ((hblanks literal.left).append hliteral))

theorem containsWord_append (as : List Atom) : plain Test.containsWord ++ .char '(' :: as = callOpening ++ as := by
  have h : callOpening = plain Test.containsWord ++ [.char '('] := by decide
  rw [h, List.append_assoc]
  rfl

theorem span_call_arguments {b : Bool} :
    span b (plain Test.containsWord ++ .char '(' :: (arguments spaced literal ++ [.char ')'])) =
      (plain Test.containsWord ++ .char '(' :: (arguments spaced literal ++ [.char ')']), .done) := by
  have hc := closeParen?_of_nest [] (balanced_arguments spaced literal)
  rw [containsWord_append, span_callOpening hc, span_nil]
  simp [addFront]

/-- **The text of a test is one span.** -/
theorem span_atoms : ∀ leaf : Leaf, span true (atoms leaf.text) = (atoms leaf.text, .done)
  | equals path literal => by
    have hword : NoWord (literal.atoms ++ []) := literal.noWord (by simp)
    rw [List.append_nil] at hword
    rw [atoms_equals, path.solid.span_append path.text_ne_nil (by simp [Test.eqWord, callOpening, plain]),
      span_eqWord hword, literal.span_atoms]
    rfl
  | contains none spaced literal => by
    rw [atoms_contains]
    exact span_call_arguments spaced literal
  | contains (some path) spaced literal => by
    have hword := noWord_containsWord (arguments spaced literal ++ [.char ')'])
    have hblank := span_blanks (b := false) (l := [' ']) rfl fun s hn hs => hword.link?_eq_none rfl hn hs
    rw [atoms_contains, subjectText, plain_append, List.append_assoc,
      path.solid.span_append path.text_ne_nil (by simp [callOpening, plain]), hblank, span_call_arguments]
    simp [addFront]

/-! ### Reading a test -/

theorem ofSpan?_equals (literal : Literal) :
    Test.ofSpan? (equals path literal).text = some (equals path literal).test := by
  have hcut : cutOutside? Test.eqWord (atoms (equals path literal).text) = some (plain path.text, literal.atoms) := by
    have hpath : cutOutside? Test.eqWord (plain path.text ++ (plain Test.eqWord ++ literal.atoms)) = _ :=
      cutOutside?_append_of_notMem _ (path.solid.notMem rfl)
    have hword : cutOutside? Test.eqWord (plain Test.eqWord ++ literal.atoms) = _ := cutOutside?_word literal.atoms
    rw [atoms_equals, hpath]
    show (cutOutside? Test.eqWord (plain Test.eqWord ++ literal.atoms)).map _ = _
    rw [hword]
    simp
  have hcolumn : Test.columnOf path.text = path.column.chars := by
    simpa using path.columnOf_text ⟨[], rfl⟩ ⟨[], rfl⟩
  simp [Test.ofSpan?, aroundOutside?, hcut, join_plain, Literal.join_atoms, Test.ofSides?, hcolumn,
    trim_eq_self literal.tight, path.column.ne_nil, literal.text_ne_nil, Literal.decode_text, test]

/-- A search for ` eq ` goes through the arguments of a call. -/
theorem cutOutside?_eqWord_arguments :
    cutOutside? Test.eqWord (arguments spaced literal ++ [.char ')']) = none := by
  have hend : ∀ c, .char c ∈ (plain literal.right.1 ++ [Atom.char ')']).head? → isTokenChar c = false := by
    intro c hc
    cases hr : literal.right.1 with
    | nil =>
      obtain rfl : ')' = c := by simpa [hr, plain] using hc
      decide
    | cons x r =>
      obtain rfl : x = c := by simpa [hr, plain] using hc
      have hb := mem_of_isBlankText literal.right.2 x (by simp [hr])
      by_cases hx : isTokenChar x = true
      · simp [isBlank_of_isSolidChar (c := x) (by simp [isSolidChar, hx])] at hb
      · simpa using hx
  -- from the end of the call to its beginning
  have hright : cutOutside? Test.eqWord (plain literal.right.1 ++ [.char ')']) = none :=
    (noWord_cons rfl (by decide)).cutOutside?_eq_none literal.right.2 rfl
  have hliteral : cutOutside? Test.eqWord (plain literal.left.1 ++
      (literal.body.atoms ++ (plain literal.right.1 ++ [.char ')']))) = none :=
    (literal.body.noWord hend).cutOutside?_eq_none literal.left.2 (literal.body.cutOutside?_eq_none hright)
  have hcomma := cutOutside?_eqWord_plain (w := [',']) (by decide) hliteral
  have hpath := cutOutside?_eqWord_plain (spaced.body.solid.notMem rfl)
    ((noWord_cons rfl (by decide)).cutOutside?_eq_none spaced.right.2 hcomma)
  have hleft := (spaced.body.noWord _).cutOutside?_eq_none spaced.left.2 hpath
  simpa [arguments, Spaced.text, plain] using hleft

theorem cutOutside?_eqWord_contains :
    cutOutside? Test.eqWord (atoms (contains subject spaced literal).text) = none := by
  have hparen := cutOutside?_eqWord_plain (w := ['(']) (by decide) (cutOutside?_eqWord_arguments spaced literal)
  have hcall := cutOutside?_eqWord_plain (w := Test.containsWord) (by decide) hparen
  rw [atoms_contains]
  cases subject with
  | none => exact hcall
  | some path =>
    have hword := noWord_containsWord (arguments spaced literal ++ [.char ')'])
    have hblank := hword.cutOutside?_eq_none (l := [' ']) rfl hcall
    have hsubject := cutOutside?_eqWord_plain (path.solid.notMem rfl) hblank
    simpa [subjectText, plain] using hsubject

theorem join_arguments : join (arguments spaced literal) = argumentsText spaced literal := by
  simp [arguments, argumentsText, Spaced.text, join_plain, Literal.join_atoms, Atom.text]

theorem atoms_argumentsText : atoms (argumentsText spaced literal) = arguments spaced literal := by
  simpa [atoms_nil] using atoms_argumentsText_append spaced literal (s := []) (by simp)

/-- The arguments of a call are parted at their comma. -/
theorem ofArguments?_text : Test.ofArguments? (argumentsText spaced literal) =
    some ⟨spaced.body.column.chars, .contains, literal.body.value⟩ := by
  have hspaced : ∀ {c : Char}, isBlank c = false → isSolidChar c = false → c ∉ spaced.text Path.text := by
    intro c hb hs hm
    rcases isBlank_or_isSolidChar spaced hm with h | h
    · simp [h] at hb
    · simp [h] at hs
  have hcut : aroundComma? (argumentsText spaced literal) =
      some (spaced.text Path.text, literal.text Literal.text) := by
    rw [aroundComma?, atoms_argumentsText, arguments,
      cutComma?_plain (hspaced rfl rfl) (hspaced rfl rfl) (hspaced rfl rfl)]
    simp [join_plain, Literal.join_atoms, Spaced.text]
  have hcolumn : Test.columnOf (spaced.text Path.text) = spaced.body.column.chars :=
    spaced.body.columnOf_text spaced.left spaced.right
  have hvalue : trim (literal.text Literal.text) = literal.body.text := by
    rw [Spaced.text, ← List.append_assoc]
    exact trim_of_tight literal.left.2 literal.right.2 literal.body.tight
  simp [Test.ofArguments?, hcut, hcolumn, spaced.body.column.ne_nil, hvalue, Literal.decode_text]

theorem ofCall?_text {m : List Char} (hm : '(' ∉ m) :
    Test.ofCall? (m ++ '(' :: (argumentsText spaced literal ++ [')'])) =
      some ⟨spaced.body.column.chars, .contains, literal.body.value⟩ := by
  have hinside : insideParen? (argumentsText spaced literal ++ [')']) = some (argumentsText spaced literal, []) := by
    rw [insideParen?, atoms_argumentsText_append spaced literal (by simp [isQuote]), atoms_cons rfl, atoms_nil,
      closeParen?_of_nest [] (balanced_arguments spaced literal)]
    simp [join_arguments]
  rw [Test.ofCall?, cut?_singleton_iff.2 ⟨rfl, hm⟩]
  simp only [Option.bind_eq_bind, Option.bind_some, hinside]
  exact ofArguments?_text spaced literal

theorem ofSpan?_contains :
    Test.ofSpan? (contains subject spaced literal).text = some (contains subject spaced literal).test := by
  obtain ⟨b, m, he, hcut⟩ : ∃ b m : List Char,
      b ++ Test.containsWord ++ m = subjectText subject ++ Test.containsWord ∧
        cutOutside? Test.containsWord (atoms (contains subject spaced literal).text) =
          some (plain b, plain m ++ .char '(' :: (arguments spaced literal ++ [.char ')'])) := by
    rw [atoms_contains]
    exact exists_cutOutside?_plain _ (subjectText subject)
  have hm : '(' ∉ m := by
    intro h
    have hmem : '(' ∈ subjectText subject ++ Test.containsWord := he ▸ List.mem_append_right _ h
    rcases List.mem_append.1 hmem with h | h
    · cases subject with
      | none => cases h
      | some path =>
        rcases List.mem_append.1 h with h | h
        · exact path.solid.notMem rfl h
        · exact absurd h (by decide)
    · exact absurd h (by decide)
  have hcall := ofCall?_text spaced literal hm
  simp [Test.ofSpan?, aroundOutside?, cutOutside?_eqWord_contains, hcut, join_plain, join_arguments, Atom.text, hcall,
    test]

/-- **The text of a test is read as the test.** -/
theorem ofSpan?_text : ∀ leaf : Leaf, Test.ofSpan? leaf.text = some leaf.test
  | equals path literal => ofSpan?_equals path literal
  | contains subject spaced literal => ofSpan?_contains subject spaced literal

end Leaf

end RelQuery
