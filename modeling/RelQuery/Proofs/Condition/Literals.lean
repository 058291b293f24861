import RelQuery.Proofs.Condition.Outline

/-!
# Literals do not matter to the structure of a text

Every search on atoms looks at characters only, and a literal is one atom. So where the literals of a text are changed,
each search finds what it found before, its literals changed: words (`cutOutside?_map`), parentheses
(`closeParen?_map`), commas (`cutComma?_map`) and spans (`span_map`).
-/

namespace RelQuery

namespace Text

/-- The atoms with their literals changed. -/
def mapLiterals (g : List Char → List Char) : List Atom → List Atom
  | [] => []
  | .quoted run :: as => .quoted (g run) :: mapLiterals g as
  | .char c :: as => .char c :: mapLiterals g as
  | .unclosed run :: as => .unclosed run :: mapLiterals g as

/-- Both sides of a cut with their literals changed. -/
def mapCut (g : List Char → List Char) (cut : List Atom × List Atom) : List Atom × List Atom :=
  (mapLiterals g cut.1, mapLiterals g cut.2)

section

variable (g : List Char → List Char)

@[simp] theorem mapLiterals_append : ∀ as bs : List Atom,
    mapLiterals g (as ++ bs) = mapLiterals g as ++ mapLiterals g bs
  | [], _ => rfl
  | .char _ :: as, bs | .quoted _ :: as, bs | .unclosed _ :: as, bs => by
    simp [mapLiterals, mapLiterals_append as bs]

@[simp] theorem mapLiterals_plain : ∀ w : List Char, mapLiterals g (plain w) = plain w
  | [] => rfl
  | c :: w => by
    show .char c :: mapLiterals g (plain w) = .char c :: plain w
    rw [mapLiterals_plain w]

theorem strip?_map : ∀ (word : List Char) (as : List Atom),
    strip? (plain word) (mapLiterals g as) = (strip? (plain word) as).map (mapLiterals g)
  | [], _ => rfl
  | _ :: _, [] => rfl
  | c :: word, .char x :: as => by
    have ih := strip?_map word as
    by_cases hc : c = x
    · subst hc
      simpa [plain, strip?, mapLiterals] using ih
    · simp [plain, strip?, mapLiterals, hc]
  | c :: word, .quoted run :: as => by simp [plain, strip?, mapLiterals]
  | c :: word, .unclosed run :: as => by simp [plain, strip?, mapLiterals]

/-- A cut of which the first atom goes to the left commutes if the cut behind it does. -/
theorem map_consLeft {cut cut' : Option (List Atom × List Atom)} (h : cut' = cut.map (mapCut g)) {a a' : Atom}
    (ha : ∀ as, a' :: mapLiterals g as = mapLiterals g (a :: as)) :
    cut'.map (consLeft a') = (cut.map (consLeft a)).map (mapCut g) := by
  subst h
  cases cut <;> simp [consLeft, mapCut, ha]

theorem closeParen?_map : ∀ (depth : Nat) (as : List Atom),
    closeParen? depth (mapLiterals g as) = (closeParen? depth as).map (mapCut g)
  | _, [] => rfl
  | _, .unclosed _ :: _ => rfl
  | depth, .quoted _ :: as => map_consLeft g (closeParen?_map depth as) fun _ => rfl
  | depth, .char c :: as => by
    simp only [mapLiterals, closeParen?]
    split
    · exact map_consLeft g (closeParen?_map (depth + 1) as) fun _ => rfl
    · split
      · cases depth with
        | zero => rfl
        | succ depth => exact map_consLeft g (closeParen?_map depth as) fun _ => rfl
      · exact map_consLeft g (closeParen?_map depth as) fun _ => rfl

theorem cutOutside?_map (word : List Char) : ∀ as : List Atom,
    cutOutside? word (mapLiterals g as) = (cutOutside? word as).map (mapCut g)
  | [] => rfl
  | .unclosed _ :: _ => rfl
  | .quoted _ :: as => map_consLeft g (cutOutside?_map word as) fun _ => rfl
  | .char c :: as => by
    have hs : strip? (plain word) (.char c :: mapLiterals g as) = _ := strip?_map g word (.char c :: as)
    simp only [mapLiterals, cutOutside?, hs]
    cases strip? (plain word) (.char c :: as) with
    | some rest => rfl
    | none => exact map_consLeft g (cutOutside?_map word as) fun _ => rfl

theorem cutComma?_map : ∀ (depth : Nat) (as : List Atom),
    cutComma? depth (mapLiterals g as) = (cutComma? depth as).map (mapCut g)
  | _, [] => rfl
  | _, .unclosed _ :: _ => rfl
  | depth, .quoted _ :: as => map_consLeft g (cutComma?_map depth as) fun _ => rfl
  | depth, .char c :: as => by
    simp only [mapLiterals, cutComma?]
    split
    · rfl
    · exact map_consLeft g (cutComma?_map _ as) fun _ => rfl

end

end Text

namespace Outline

open Text

/-- What is left over, its literals changed. -/
def Stop.mapLiterals (g : List Char → List Char) : Stop → Stop
  | .done => .done
  | .link k rest => .link k (Text.mapLiterals g rest)
  | .group inside rest => .group (Text.mapLiterals g inside) (Text.mapLiterals g rest)
  | .fault e => .fault e

section

variable (g : List Char → List Char)

theorem link?_map (as : List Atom) :
    link? (mapLiterals g as) = (link? as).map fun (k, rest) => (k, mapLiterals g rest) := by
  unfold link?
  rw [strip?_map, strip?_map]
  cases strip? (plain " and ".toList) as with
  | some rest => rfl
  | none => cases strip? (plain " or ".toList) as <;> rfl

/-- The cut of a span with its literals changed. -/
def mapSpan (cut : List Atom × Stop) : List Atom × Stop :=
  (mapLiterals g cut.1, cut.2.mapLiterals g)

theorem mapSpan_addFront (as : List Atom) (cut : List Atom × Stop) :
    mapSpan g (addFront as cut) = addFront (mapLiterals g as) (mapSpan g cut) := by
  simp [mapSpan, addFront]

/-- A span in front of a character, the literals behind it changed. -/
theorem span_cons_map (b : Bool) (c : Char) (as : List Atom) : span b (mapLiterals g (.char c :: as)) =
    match (strip? callOpening (.char c :: as)).map (mapLiterals g) with
    | some call =>
      match closeParen? 0 call with
      | none => ([], .fault .unclosedContains)
      | some (inside, rest) => addFront (callOpening ++ inside ++ [.char ')']) (span false rest)
    | none =>
      match (link? (.char c :: as)).map fun (k, rest) => (k, mapLiterals g rest) with
      | some (k, rest) => ([], .link k rest)
      | none =>
        if c = '(' then
          match (closeParen? 0 as).map (mapCut g) with
          | none => ([], .fault .unclosedParen)
          | some (inside, rest) =>
            if b then ([], .group inside rest) else addFront (.char '(' :: inside ++ [.char ')']) (span false rest)
        else if c = ')' then ([], .fault .unexpectedClose)
        else addFront [.char c] (span (b && isBlank c) (mapLiterals g as)) := by
  have hs : strip? callOpening (mapLiterals g (.char c :: as)) = _ := strip?_map g _ (.char c :: as)
  have hl := link?_map g (.char c :: as)
  rw [mapLiterals] at hs hl ⊢
  rw [span_cons, hs, hl, closeParen?_map]
  rfl

/-- **Spans do not depend on literals.** -/
theorem span_map (b : Bool) (as : List Atom) : span b (mapLiterals g as) = mapSpan g (span b as) := by
  fun_induction span b as with
  | case1 => rw [mapLiterals, span_nil]; rfl
  | case2 => rw [mapLiterals, span_unclosed]; rfl
  | case3 b run rest ih => rw [mapLiterals, span_quoted, ih, mapSpan_addFront]; rfl
  | case4 b c rest call hs hc =>
    rw [span_cons_map, hs]
    simp [closeParen?_map, hc, mapSpan, mapLiterals, Stop.mapLiterals]
  | case5 b c rest call hs inside rest' hc ih =>
    rw [span_cons_map, hs]
    simp [closeParen?_map, hc, mapCut, ih, mapSpan_addFront, callOpening, mapLiterals]
  | case6 b c rest hs k rest' hl =>
    rw [span_cons_map, hs, hl]
    rfl
  | case7 b rest hc hs hl =>
    rw [span_cons_map, hs, hl, hc]
    rfl
  | case8 rest inside rest' hc hs hl =>
    rw [span_cons_map, hs, hl, hc]
    rfl
  | case9 b rest inside rest' hc hb hs hl ih =>
    rw [span_cons_map, hs, hl, hc]
    simp [mapCut, hb, ih, mapSpan_addFront, mapLiterals]
  | case10 b rest hs hl =>
    rw [span_cons_map, hs, hl]
    rfl
  | case11 b c rest hs hl ho hc ih =>
    rw [span_cons_map, hs, hl]
    simp [ho, hc, ih, mapSpan_addFront, mapLiterals]

end

end Outline

end RelQuery
