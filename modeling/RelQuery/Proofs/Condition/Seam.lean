import RelQuery.Proofs.Condition.Reading
import RelQuery.Proofs.Text.Trim

/-!
# Texts put together

A text is scanned with what follows it in view: a word that begins in it may end behind it. Where no word does so, at a
`Seam`, the first text is read as it is read alone.

* `span_append` : a span goes on behind a seam as it would end there;
* `seam_of_blank` : in front of a blank there is a seam, unless the text ends with the word of a connective, the blank
  behind it missing;
* `Reads.ofAtoms_append_link` : a connective parts the outlines of the texts on its two sides;
* `Reads.append_link`, `Reads.paren`, `Reads.blanks_append`, `Reads.append_blanks` : how readings are put together.
-/

namespace RelQuery

open Text Outline

/-! ## Words that a text ends in -/

/-- A word is found in front of two texts as it is in front of the first, if what the first leaves of it is not found
in front of the second. -/
theorem Text.strip?_append_of_rest {α : Type} [DecidableEq α] {word s t : List α}
    (h : ∀ r, word = s ++ r → r ≠ [] → strip? r t = none) : strip? word (s ++ t) = (strip? word s).map (· ++ t) := by
  induction word generalizing s with
  | nil => simp [strip?]
  | cons a word ih =>
    cases s with
    | nil => simpa [strip?] using h (a :: word) rfl (by simp)
    | cons c s =>
      by_cases hc : a = c
      · subst hc
        simpa [strip?] using ih fun r hr hn => h r (by simp [hr]) hn
      · simp [strip?, hc]

namespace Outline

/-- No connective and no containment call that begins in `as` is completed by what follows, `tail`. -/
def Seam (as tail : List Atom) : Prop :=
  ∀ s, s ≠ [] → s <:+ as → strip? callOpening (s ++ tail) = (strip? callOpening s).map (· ++ tail) ∧
    link? (s ++ tail) = (link? s).map fun (k, rest) => (k, rest ++ tail)

theorem Seam.of_suffix {as bs tail : List Atom} (h : Seam as tail) (hs : bs <:+ as) : Seam bs tail :=
  fun s hn hb => h s hn (hb.trans hs)

/-- The span behind a seam goes on as a span of the tail does; `b` says whether all in front of the text is blank. -/
def Stop.extend (b : Bool) (text tail : List Atom) : Stop → List Atom × Stop
  | .done => addFront text (span (b && text.all isBlankAtom) tail)
  | .link k rest => (text, .link k (rest ++ tail))
  | .group inside rest => (text, .group inside (rest ++ tail))
  | .fault e => (text, .fault e)

/-- More atoms in front of a span stay in front of what it goes on to. -/
theorem Stop.extend_addFront {b b' : Bool} {front text tail : List Atom} (stop : Stop)
    (hb : b' = (b && front.all isBlankAtom)) :
    addFront front (stop.extend b' text tail) = stop.extend b (front ++ text) tail := by
  subst hb
  cases stop <;> simp [Stop.extend, addFront, Bool.and_assoc]

/-- **A span behind a seam** ends where it ends alone, or else goes on into the tail. -/
theorem span_append {as tail : List Atom} (b : Bool) (hs : Seam as tail) (hf : ∀ fault, (span b as).2 ≠ .fault fault) :
    span b (as ++ tail) = (span b as).2.extend b (span b as).1 tail := by
  fun_induction span b as with
  | case1 => simp [Stop.extend, addFront]
  | case2 => exact absurd rfl (hf _)
  | case3 b run rest ih =>
    rw [List.cons_append, span_quoted, ih (hs.of_suffix (List.suffix_cons _ _)) hf]
    exact Stop.extend_addFront _ (by simp [isBlankAtom])
  | case4 => exact absurd rfl (hf _)
  | case5 b c rest call hcall inside rest' hc ih =>
    have hc' := hc
    obtain ⟨rfl, _⟩ := closeParen?_eq_some_iff.1 hc
    have hr : rest' <:+ .char c :: rest := by
      rw [eq_append_of_strip? hcall]
      exact ⟨callOpening ++ inside ++ [.char ')'], by simp⟩
    have hcall' := (hs _ (List.cons_ne_nil _ _) List.suffix_rfl).1
    rw [hcall] at hcall'
    rw [List.cons_append] at hcall' ⊢
    rw [span_call hcall' (closeParen?_append tail hc'), ih (hs.of_suffix hr) hf]
    exact Stop.extend_addFront _ (by simp [callOpening, plain, isBlankAtom, isBlank])
  | case6 b c rest hcall k rest' hl =>
    rw [link?_eq_some_iff.1 hl, List.append_assoc, span_link]
    rfl
  | case7 => exact absurd rfl (hf _)
  | case8 rest inside rest' hc =>
    rw [List.cons_append, span_paren (closeParen?_append tail hc)]
    rfl
  | case9 b rest inside rest' hc hb _ _ ih =>
    have hc' := hc
    obtain ⟨rfl, _⟩ := closeParen?_eq_some_iff.1 hc
    have hr : rest' <:+ .char '(' :: (inside ++ .char ')' :: rest') := ⟨.char '(' :: inside ++ [.char ')'], by simp⟩
    rw [List.cons_append, span_paren (closeParen?_append tail hc'), if_neg hb, ih (hs.of_suffix hr) hf]
    exact Stop.extend_addFront _ (by simp [isBlankAtom, isBlank])
  | case10 => exact absurd rfl (hf _)
  | case11 b c rest hcall hl ho hc ih =>
    have h := hs _ (List.cons_ne_nil _ _) List.suffix_rfl
    rw [hcall, hl] at h
    rw [List.cons_append] at h ⊢
    rw [span_char h.1 h.2 ho hc, ih (hs.of_suffix (List.suffix_cons _ _)) hf]
    exact Stop.extend_addFront _ (by simp [isBlankAtom])

/-! ## Seams in front of blanks -/

theorem linkWord_eq (k : Connective) : linkWord k = ' ' :: (k.keyword.toList ++ [' ']) := by
  cases k <;> rfl

theorem link?_append {s tail : List Atom}
    (h : ∀ k, strip? (plain (linkWord k)) (s ++ tail) = (strip? (plain (linkWord k)) s).map (· ++ tail)) :
    link? (s ++ tail) = (link? s).map fun (k, rest) => (k, rest ++ tail) := by
  have hand := h .and
  have hor := h .or
  simp only [linkWord] at hand hor
  unfold link?
  rw [hand, hor]
  cases strip? (plain " and ".toList) s with
  | some rest => rfl
  | none => cases strip? (plain " or ".toList) s <;> rfl

/-- A word is not found in front of a text that begins with another character. -/
theorem strip?_cons_eq_none {α : Type} [DecidableEq α] {x : α} {word t : List α} (h : ∀ a ∈ t.head?, x ≠ a) :
    strip? (x :: word) t = none := by
  cases t with
  | nil => rfl
  | cons a t => simp [strip?, h a rfl]

/-- Where only the last element of a list has a property, a part that goes on with it is all in front of the last. -/
theorem eq_of_append_cons {α : Type} {p : α → Prop} {x z : α} (hx : p x) {r : List α} :
    ∀ {m s : List α}, (∀ a ∈ m, ¬p a) → m ++ [z] = s ++ x :: r → s = m
  | [], [], _, _ => rfl
  | [], _ :: s, _, h => by simp at h
  | a :: m, [], hm, h => by
    obtain ⟨rfl, _⟩ := List.cons.inj h
    exact absurd hx (hm a List.mem_cons_self)
  | a :: m, b :: s, hm, h => by
    obtain ⟨rfl, he⟩ := List.cons.inj h
    rw [eq_of_append_cons hx (fun a ha => hm a (List.mem_cons_of_mem _ ha)) he]

/-- **A seam in front of a blank**: only the word of a connective could go on there, from its last letter. -/
theorem seam_of_blank {as tail : List Atom} (hl : ∀ k : Connective, ¬plain (' ' :: k.keyword.toList) <:+ as)
    (ht : ∀ a ∈ tail.head?, isBlankAtom a = true) : Seam as tail := by
  intro s hn hs
  constructor
  · apply strip?_append_of_rest
    intro r hr hrn
    cases r with
    | nil => exact absurd rfl hrn
    | cons x r =>
      have hw : ∀ a ∈ callOpening, isBlankAtom a = false := by decide
      have hx := hw x (by simp [hr])
      apply strip?_cons_eq_none
      rintro a ha rfl
      simp [ht x ha] at hx
  · apply link?_append
    intro k
    apply strip?_append_of_rest
    intro r hr hrn
    cases r with
    | nil => exact absurd rfl hrn
    | cons x r =>
      by_cases hx : isBlankAtom x = true
      · -- the blank behind the word stands in the tail, so the text ends with the word
        have hw : ∀ a ∈ plain k.keyword.toList, ¬isBlankAtom a = true := by cases k <;> decide
        cases s with
        | nil => exact absurd rfl hn
        | cons y s =>
          rw [linkWord_eq] at hr
          obtain ⟨rfl, hr⟩ := List.cons.inj hr
          have he : s = plain k.keyword.toList :=
            eq_of_append_cons (p := fun a => isBlankAtom a = true) hx hw (by simpa [plain] using hr)
          exact absurd (by simpa [he, plain] using hs) (hl k)
      · apply strip?_cons_eq_none
        rintro a ha rfl
        exact hx (ht x ha)

/-- The text does not end with the word of a connective, a blank in front. -/
def Clear (s : List Char) : Prop :=
  ∀ k : Connective, ¬(' ' :: k.keyword.toList) <:+ s

theorem Clear.seam {s : List Char} {tail : List Atom} (h : Clear s) (ht : ∀ a ∈ tail.head?, isBlankAtom a = true) :
    Seam (atoms s) tail := by
  apply seam_of_blank _ ht
  intro k hs
  -- what the atoms end with, the text ends with
  obtain ⟨as, ha⟩ := hs
  exact h k ⟨join as, by rw [← join_atoms s, ← ha, join_append, join_plain]⟩

theorem seam_linkWord {s : List Char} {as : List Atom} (k : Connective) (h : Clear s) :
    Seam (atoms s) (plain (linkWord k) ++ as) := by
  apply h.seam
  intro a ha
  obtain rfl : .char ' ' = a := by cases k <;> simpa [linkWord, plain] using ha
  rfl

theorem atoms_linkWord_append (k : Connective) (s : List Char) :
    atoms (linkWord k ++ s) = plain (linkWord k) ++ atoms s :=
  atoms_plain_append (by cases k <;> simp [linkWord, isQuote]) s

/-- The word of a connective begins with no quote, which might double one in front. -/
theorem isQuote_of_mem_head?_linkWord_append (k : Connective) (s : List Char) :
    ∀ c ∈ (linkWord k ++ s).head?, isQuote c = false := by
  cases k <;> simp [linkWord, isQuote]

/-- Blanks in front of a span belong to it, unless the last of them begins a connective. -/
theorem span_blanks {b : Bool} {as : List Atom} {l : List Char} (hl : isBlankText l = true)
    (h : ∀ s, s ≠ [] → s <:+ plain l → link? (s ++ as) = none) :
    span b (plain l ++ as) = addFront (plain l) (span b as) := by
  have hcall : ∀ s, s ≠ [] → s <:+ plain l → strip? callOpening (s ++ as) = none := by
    intro s hn hs
    obtain ⟨c, t, hc, rfl⟩ := exists_cons_of_suffix_plain hn hs
    -- a call begins with a letter
    apply strip?_callOpening_eq_none
    rintro rfl
    exact notMem_of_isBlankText hl rfl hc
  rw [span_plain (notMem_of_isBlankText hl rfl) (notMem_of_isBlankText hl rfl) fun s hn hs =>
    ⟨hcall s hn hs, h s hn hs⟩, hl, Bool.and_true]

/-- A connective holds letters, and there are none among blanks. -/
theorem link?_eq_none_of_suffix_blanks {l : List Char} {s : List Atom} (hl : isBlankText l = true)
    (hs : s <:+ plain l) : link? s = none := by
  cases hk : link? s with
  | none => rfl
  | some cut =>
    obtain ⟨k, rest⟩ := cut
    obtain ⟨x, hx, hxb⟩ : ∃ x ∈ linkWord k, isBlank x = false := by cases k <;> simp [linkWord, isBlank]
    have hm : Atom.char x ∈ plain l := by
      apply hs.subset
      rw [link?_eq_some_iff.1 hk]
      exact List.mem_append_left _ (char_mem_plain.2 hx)
    exact absurd (char_mem_plain.1 hm) (notMem_of_isBlankText hl hxb)

/-- Blanks alone are one span. -/
theorem span_of_isBlankText {l : List Char} (hl : isBlankText l = true) (b : Bool) :
    span b (plain l) = (plain l, .done) := by
  have h : span b (plain l ++ []) = addFront (plain l) (span b []) := by
    apply span_blanks hl
    intro s _ hs
    rw [List.append_nil]
    exact link?_eq_none_of_suffix_blanks hl hs
  simpa [span_nil, addFront] using h

end Outline

/-! ## Readings put together -/

/-- The clauses end behind an operand; `operand` says that one stands in front of them. -/
def Draft.Ends : Bool → List Clause → Prop
  | operand, [] => operand = true
  | _, .link _ :: clauses => Draft.Ends false clauses
  | _, .test _ :: clauses => Draft.Ends true clauses
  | _, .group _ :: clauses => Draft.Ends true clauses

namespace Reads

variable {f : Bool} {as bs : List Atom} {cs ds : Draft}

/-- A text that is read, behind a seam: the span at its end goes on into what follows. -/
theorem span_append {as text tail : List Atom} {stop : Stop} (hs : span true as = (text, stop)) (h : Seam as tail)
    (hf : ∀ fault, stop ≠ .fault fault) : span true (as ++ tail) = stop.extend true text tail := by
  have he := Outline.span_append true h (by simpa [hs] using hf)
  rwa [hs] at he

/-- A connective behind a text that ends with an operand: the outlines of both sides are those of the texts alone,
whether or not what stands behind the connective is read. -/
theorem ofAtoms_append_link (k : Connective) (h : Reads f as cs) (hc : Draft.Ends f cs)
    (hs : Seam as (plain (linkWord k) ++ bs)) :
    ofAtoms f (as ++ (plain (linkWord k) ++ bs)) = ofAtoms f as ++ .link k :: ofAtoms false bs := by
  induction h with
  | @blank f as text hsp hblank =>
    obtain rfl : f = true := hc
    have he : span true (as ++ (plain (linkWord k) ++ bs)) = (text, .link k bs) := by
      rw [span_append hsp hs (by simp), Stop.extend, span_link, addFront, List.append_nil]
    rw [ofAtoms_link he, ofAtoms_done hsp, if_pos hblank, if_pos hblank]
    rfl
  | @test f as text t hsp hblank ht =>
    have he : span true (as ++ (plain (linkWord k) ++ bs)) = (text, .link k bs) := by
      rw [span_append hsp hs (by simp), Stop.extend, span_link, addFront, List.append_nil]
    rw [ofAtoms_link he, ofAtoms_done hsp, hblank]
    rfl
  | group hsp _ _ _ ih₂ =>
    have hr := suffix_of_group hsp
    rw [ofAtoms_group (span_append hsp hs (by simp)), ofAtoms_group hsp, ih₂ hc (hs.of_suffix hr)]
    rfl
  | link hsp hblank _ ih =>
    have hr := suffix_of_link hsp
    rw [ofAtoms_link (span_append hsp hs (by simp)), ofAtoms_link hsp, hblank, ih hc (hs.of_suffix hr)]
    rfl
  | testLink hsp hblank _ _ ih =>
    have hr := suffix_of_link hsp
    rw [ofAtoms_link (span_append hsp hs (by simp)), ofAtoms_link hsp, hblank, ih hc (hs.of_suffix hr)]
    rfl

/-- **A connective between two texts** that end and begin with operands. -/
theorem append_link (k : Connective) (h : Reads f as cs) (hc : Draft.Ends f cs)
    (hs : Seam as (plain (linkWord k) ++ bs)) (hb : Reads false bs ds) :
    Reads f (as ++ (plain (linkWord k) ++ bs)) (cs ++ .link k :: ds) := by
  rw [reads_iff, h.ofAtoms_append_link k hc hs, Draft.ofPieces?_append, h.ofPieces?]
  simp [Draft.ofPieces?, Clause.ofPiece?, hb.ofPieces?]

/-- The parentheses around a text that is read are atoms of their own. -/
theorem atoms_paren {s : List Char} (h : Reads f (atoms s) cs) :
    atoms ('(' :: s ++ [')']) = .char '(' :: atoms s ++ [.char ')'] := by
  rw [List.cons_append, atoms_cons rfl, h.atoms_append (by simp [isQuote]), atoms_cons rfl, atoms_nil]
  rfl

/-- **Parentheses around a text** make it a group. -/
theorem paren (h : Reads false as cs) : Reads f (.char '(' :: as ++ [.char ')']) [.group cs] := by
  have hc : closeParen? 0 (as ++ [.char ')']) = some (as, []) := closeParen?_of_nest [] h.balanced
  have hs : span true (.char '(' :: as ++ [.char ')']) = ([], .group as []) := by
    rw [List.cons_append, span_paren hc]
    rfl
  exact .group hs h (.blank span_nil rfl)

/-- Blanks in front of a text do not matter, unless the last of them begins a connective. -/
theorem blanks_append {l : List Char} (hl : isBlankText l = true)
    (hk : ∀ s, s ≠ [] → s <:+ plain l → link? (s ++ as) = none) (h : Reads f as cs) : Reads f (plain l ++ as) cs := by
  have hsp : ∀ {text stop}, span true as = (text, stop) → span true (plain l ++ as) = (plain l ++ text, stop) := by
    intro text stop hs
    rw [span_blanks hl hk, hs]
    rfl
  have hblank : ∀ text, isBlankText (join (plain l ++ text)) = isBlankText (join text) := by
    intro text
    simp [join_plain, hl]
  have htrim : ∀ text, trim (join (plain l ++ text)) = trim (join text) := by
    intro text
    rw [join_append, join_plain, trim_blanks_append hl]
  cases h with
  | blank hs hb => exact .blank (hsp hs) (by rwa [hblank])
  | test hs hb ht => exact .test (hsp hs) (by rwa [hblank]) (by rwa [htrim])
  | group hs h₁ h₂ => exact .group (hsp hs) h₁ h₂
  | link hs hb h' => exact .link (hsp hs) (by rwa [hblank]) h'
  | testLink hs hb ht h' => exact .testLink (hsp hs) (by rwa [hblank]) (by rwa [htrim]) h'

/-- Blanks behind a text do not matter. -/
theorem append_blanks {r : List Char} (hr : isBlankText r = true) (hs : Seam as (plain r)) (h : Reads f as cs) :
    Reads f (as ++ plain r) cs := by
  have hblank : ∀ text, isBlankText (join (text ++ plain r)) = isBlankText (join text) := by
    intro text
    simp [join_plain, hr]
  have htrim : ∀ text, trim (join (text ++ plain r)) = trim (join text) := by
    intro text
    rw [join_append, join_plain, trim_append_blanks hr]
  induction h with
  | blank hsp hb =>
    have he := span_append hsp hs (by simp)
    rw [Stop.extend, span_of_isBlankText hr] at he
    exact .blank he (by rwa [hblank])
  | test hsp hb ht =>
    have he := span_append hsp hs (by simp)
    rw [Stop.extend, span_of_isBlankText hr] at he
    exact .test he (by rwa [hblank]) (by rwa [htrim])
  | group hsp h₁ _ _ ih₂ =>
    have hsuf := suffix_of_group hsp
    exact .group (span_append hsp hs (by simp)) h₁ (ih₂ (hs.of_suffix hsuf))
  | link hsp hb _ ih =>
    have hsuf := suffix_of_link hsp
    exact .link (span_append hsp hs (by simp)) hb (ih (hs.of_suffix hsuf))
  | testLink hsp hb ht _ ih =>
    have hsuf := suffix_of_link hsp
    exact .testLink (span_append hsp hs (by simp)) hb ht (ih (hs.of_suffix hsuf))

end Reads

end RelQuery
