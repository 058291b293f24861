import RelQuery.Proofs.Condition.Compile
import RelQuery.Proofs.Condition.Outline
import RelQuery.Proofs.Text.Lexing

/-!
# Reading a text as a draft

`Reads f as cs` derives the draft `cs` of the atoms `as` span by span; `f` says that a group stands in front, behind
which a connective needs no test. It is the outline followed by the reading of its spans (`reads_iff`), and what proofs
about accepted texts run over.

* `Condition.compile_iff_reads` : a text compiles exactly if it reads as a draft that alternates;
* `Reads.balanced` : what is read has its parentheses balanced and its literals closed.
-/

namespace RelQuery

open Text Outline

/-- The atoms `as` read as the draft `cs`; `f` says that they stand behind a group. -/
inductive Reads : Bool → List Atom → Draft → Prop
  /-- Blanks at the end hold nothing. -/
  | blank {f : Bool} {as text : List Atom} : span true as = (text, .done) → isBlankText (join text) = true →
      Reads f as []
  /-- The last span is a test. -/
  | test {f : Bool} {as text : List Atom} {t : Test} : span true as = (text, .done) →
      isBlankText (join text) = false → Test.ofSpan? (trim (join text)) = some t → Reads f as [.test t]
  /-- A group, and what stands behind it. -/
  | group {f : Bool} {as text inside rest : List Atom} {cs ds : Draft} : span true as = (text, .group inside rest) →
      Reads false inside cs → Reads true rest ds → Reads f as (.group cs :: ds)
  /-- A connective right behind a group. -/
  | link {as text rest : List Atom} {k : Connective} {ds : Draft} : span true as = (text, .link k rest) →
      isBlankText (join text) = true → Reads false rest ds → Reads true as (.link k :: ds)
  /-- A test in front of a connective. -/
  | testLink {f : Bool} {as text rest : List Atom} {k : Connective} {t : Test} {ds : Draft} :
      span true as = (text, .link k rest) → isBlankText (join text) = false →
      Test.ofSpan? (trim (join text)) = some t → Reads false rest ds → Reads f as (.test t :: .link k :: ds)

theorem Draft.ofPieces?_cons {piece : Piece} {pieces : List Piece} {cs : Draft} :
    Draft.ofPieces? (piece :: pieces) = some cs ↔
      ∃ c ds, Clause.ofPiece? piece = some c ∧ Draft.ofPieces? pieces = some ds ∧ cs = c :: ds := by
  rw [Draft.ofPieces?, Option.bind_eq_some_iff]
  constructor
  · rintro ⟨c, hc, h⟩
    obtain ⟨ds, hd, rfl⟩ := Option.map_eq_some_iff.1 h
    exact ⟨c, ds, hc, hd, rfl⟩
  · rintro ⟨c, ds, hc, hd, rfl⟩
    exact ⟨c, hc, by rw [hd]; rfl⟩

theorem Reads.ofPieces? {f : Bool} {as : List Atom} {cs : Draft} (h : Reads f as cs) :
    Draft.ofPieces? (ofAtoms f as) = some cs := by
  induction h with
  | blank hs hb => rw [ofAtoms_done hs, if_pos hb]; rfl
  | test hs hb ht => simp [ofAtoms_done hs, hb, Draft.ofPieces?, Clause.ofPiece?, ht]
  | group hs _ _ ih₁ ih₂ => simp [ofAtoms_group hs, Draft.ofPieces?, Clause.ofPiece?, ih₁, ih₂]
  | link hs hb _ ih => simp [ofAtoms_link hs, hb, Draft.ofPieces?, Clause.ofPiece?, ih]
  | testLink hs hb ht _ ih => simp [ofAtoms_link hs, hb, Draft.ofPieces?, Clause.ofPiece?, ht, ih]

theorem reads_of_ofPieces? {f : Bool} {as : List Atom} {cs : Draft} (h : Draft.ofPieces? (ofAtoms f as) = some cs) :
    Reads f as cs := by
  fun_induction ofAtoms f as generalizing cs with
  | case1 f as text hs hb =>
    obtain rfl : [] = cs := by simpa [Draft.ofPieces?] using h
    exact .blank hs hb
  | case2 f as text hs hb =>
    obtain ⟨c, ds, hc, hd, rfl⟩ := Draft.ofPieces?_cons.1 h
    obtain rfl : [] = ds := by simpa [Draft.ofPieces?] using hd
    obtain ⟨t, ht, rfl⟩ := Option.map_eq_some_iff.1 hc
    exact .test hs (by simpa using hb) ht
  | case3 => simp [Draft.ofPieces?, Clause.ofPiece?] at h
  | case4 f as text inside rest hs ih₁ ih₂ =>
    obtain ⟨c, ds, hc, hd, rfl⟩ := Draft.ofPieces?_cons.1 h
    obtain ⟨cs, hcs, rfl⟩ := Option.map_eq_some_iff.1 hc
    exact .group hs (ih₁ hcs) (ih₂ hd)
  | case5 as text k rest hs hb ih =>
    obtain ⟨c, ds, hc, hd, rfl⟩ := Draft.ofPieces?_cons.1 h
    obtain rfl : .link k = c := by simpa [Clause.ofPiece?] using hc
    exact .link hs hb (ih hd)
  | case6 => simp [Draft.ofPieces?, Clause.ofPiece?] at h
  | case7 f as text k rest hs hb ih =>
    obtain ⟨c, ds, hc, hd, rfl⟩ := Draft.ofPieces?_cons.1 h
    obtain ⟨t, ht, rfl⟩ := Option.map_eq_some_iff.1 hc
    obtain ⟨c, es, hc, he, rfl⟩ := Draft.ofPieces?_cons.1 hd
    obtain rfl : .link k = c := by simpa [Clause.ofPiece?] using hc
    exact .testLink hs (by simpa using hb) ht (ih he)

/-- **Reading** is the outline and the reading of its spans. -/
theorem reads_iff {f : Bool} {as : List Atom} {cs : Draft} :
    Reads f as cs ↔ Draft.ofPieces? (ofAtoms f as) = some cs :=
  ⟨Reads.ofPieces?, reads_of_ofPieces?⟩

/-! ## What is read is well formed -/

theorem balanced_blanks {as : List Atom} (h : as.all isBlankAtom = true) : Balanced as := by
  induction as with
  | nil => rfl
  | cons a as ih =>
    obtain ⟨ha, has⟩ := by simpa using h
    cases a with
    | char c =>
      -- no parenthesis is a blank
      have ho : c ≠ '(' := by rintro rfl; exact absurd ha (by decide)
      have hc : c ≠ ')' := by rintro rfl; exact absurd ha (by decide)
      exact Balanced.char ho hc (ih (by simpa using has))
    | quoted run => cases ha
    | unclosed run => cases ha

theorem balanced_linkWord (k : Connective) : Balanced (plain (linkWord k)) := by
  cases k <;> decide

namespace Reads

variable {f : Bool} {as : List Atom} {cs : Draft}

/-- What is read has its parentheses balanced, and its literals are closed. -/
theorem balanced (h : Reads f as cs) : Balanced as := by
  induction h with
  | blank hs _ =>
    obtain ⟨rfl, hb⟩ := splits_of_span hs
    exact hb
  | test hs _ _ =>
    obtain ⟨rfl, hb⟩ := splits_of_span hs
    exact hb
  | group hs _ _ ih₁ ih₂ =>
    obtain ⟨rfl, _, _, ht⟩ := splits_of_span hs
    exact (balanced_blanks ht).append (Balanced.paren ih₁ ih₂)
  | link hs _ _ ih | testLink hs _ _ _ ih =>
    obtain ⟨rfl, hb⟩ := splits_of_span hs
    exact (hb.append (balanced_linkWord _)).append ih

theorem closed (h : Reads f as cs) (run : List Char) : .unclosed run ∉ as :=
  closed_of_nest h.balanced run

theorem lexed {s : List Char} (h : Reads f (atoms s) cs) : Lexed (atoms s) :=
  lexed_atoms h.closed

/-- The atoms of a text that is read are those of every text that begins with it and goes on with no quote. -/
theorem atoms_append {s t : List Char} (h : Reads f (atoms s) cs) (ht : ∀ c ∈ t.head?, isQuote c = false) :
    atoms (s ++ t) = atoms s ++ atoms t :=
  Text.atoms_append ht h.lexed

end Reads

/-- **A text compiles** exactly if it reads as a draft that alternates. -/
theorem Condition.compile_iff_reads {d : Dialect} {source : String} {nodes : Condition} {bound : Bindings} :
    compile d source = .ok (nodes, bound) ↔ ∃ cs, Reads false (atoms source.toList) cs ∧
      violation? nodes = none ∧ nodes = Draft.nodes d 0 cs ∧ bound = Test.bindings d 0 (Draft.tests cs) := by
  rw [compile_eq_ok_iff]
  simp only [reads_iff, Outline.ofText]

end RelQuery
