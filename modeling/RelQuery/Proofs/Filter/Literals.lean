import RelQuery.Proofs.Filter.Lambda

/-!
# Markers in literals

The search for a lambda filter reads the text of a leaf as it is, its literals included, so a literal that holds the
marker counts as a lambda filter. What it is resolved to is seldom a filter: the property in front of the marker then
holds the quote that opens the literal.

* `Filter.lambda?_eq_find?` : the first leaf of a filter that holds the marker, anywhere in its text;
* `Filter.resolve_of_unmarked` : what a filter is resolved to whose leaves hold the marker in literals only.
-/

namespace RelQuery

open Text

namespace Filter

/-! ## Leaves -/

/-- The texts of the leaves, from left to right. -/
def leaves : Filter → List String
  | .leaf raw => [raw]
  | .both _ left right => left.leaves ++ right.leaves
  | .group inner => inner.leaves

theorem contains_marker_iff {s : List Char} : contains marker.toList s = true ↔ marker.toList <:+: s := by
  rw [contains, toList_marker, ← not_iff_not, ← cut?_eq_none_iff]
  simp

/-- **The first leaf** that holds the marker is found, wherever in its text the marker stands. -/
theorem lambda?_eq_find? (f : Filter) :
    f.lambda? = f.leaves.find? fun raw => decide (marker.toList <:+: raw.toList) := by
  induction f with
  | leaf raw =>
    by_cases h : marker.toList <:+: raw.toList
    · simp [lambda?, leaves, contains_marker_iff, h]
    · simp [lambda?, leaves, contains_marker_iff, h]
  | both connective left right ihl ihr => rw [lambda?, leaves, List.find?_append, ihl, ihr]
  | group inner ih => rw [lambda?, leaves, ih]

theorem resolve_of_lambda?_eq_none {d : Dialect} {target : String} {root : Entity} {f : Filter} (h : f.lambda? = none) :
    resolve d target root (some f) = .ok none := by
  rw [resolve, Option.bind_some, h]

theorem resolve_of_lambda?_eq_some {d : Dialect} {target : String} {root : Entity} {f : Filter} {raw : String}
    (h : f.lambda? = some raw) :
    resolve d target root (some f) = (LambdaFilter.ofText d target root raw).map some := by
  simp only [resolve, Option.bind_some, h]
  cases LambdaFilter.ofText d target root raw <;> rfl

/-! ## Texts that hold the marker in literals only -/

/-- The literals of a text are closed, and the marker stands nowhere outside them. -/
structure Unmarked (s : List Char) : Prop where
  closed : ∀ run, .unclosed run ∉ atoms s
  outside : ¬plain marker.toList <:+: atoms s

/-- Literals are closed where the parentheses outside them can be counted. -/
theorem unmarked_of_nest {s : List Char} {k : Nat} (h : nest 0 (atoms s) = some k)
    (ho : ¬plain marker.toList <:+: atoms s) : Unmarked s :=
  ⟨closed_of_nest h, ho⟩

/-- Where the marker stands in such a text, a quote is open in front of it. -/
theorem Unmarked.openQuote_ne_none {front opened : List Char} (h : Unmarked (front ++ marker.toList ++ opened)) :
    openQuote none front ≠ none := by
  intro ho
  have hl := lexed_atoms h.closed
  have hmarker : front ++ marker.toList ++ opened = front ++ '/' :: ("any(".toList ++ opened) := by
    simp [toList_marker]
  rw [hmarker] at hl
  -- no quote is open, so the marker's slash is an atom, and so are its letters
  refine h.outside ⟨atoms front, atoms opened, ?_⟩
  rw [hmarker, atoms_append_cons rfl hl ho, atoms_plain_append (by simp [isQuote]), toList_marker]
  simp [plain]

end Filter

namespace LambdaText

/-- A quote in front of the marker belongs to the property. -/
theorem mem_propertyOf {c : Char} {front : List Char} (hq : isQuote c = true) (hc : c ∈ front) :
    c ∈ propertyOf front := by
  have hblank : isBlank c = false := isBlank_of_isQuote hq
  have mem_trim {s : List Char} (hs : c ∈ s) : c ∈ trim s := by
    have hsqueeze : c ∈ squeeze (trim s) := by
      rw [squeeze_trim, squeeze, List.mem_filter]
      exact ⟨hs, by simp [hblank]⟩
    exact (List.mem_filter.1 hsqueeze).1
  apply mem_trim
  have hsplit : c ∈ (trim front).takeWhile (· == '(') ++ (trim front).dropWhile (· == '(') := by
    rw [List.takeWhile_append_dropWhile]
    exact mem_trim hc
  rcases List.mem_append.1 hsplit with h | h
  · -- a parenthesis is no quote
    obtain rfl : c = '(' := by simpa using List.all_eq_true.1 List.all_takeWhile c h
    cases hq
  · exact h

end LambdaText

open LambdaText in
/-- A text whose marker stands in a literal is resolved only if a quote is part of a relation's name. -/
theorem LambdaFilter.exists_quote_of_ofText {d : Dialect} {target : String} {root : Entity} {raw : String}
    {l : LambdaFilter} (hraw : Filter.Unmarked raw.toList) (h : ofText d target root raw = .ok l) :
    l.relation ∈ root.relations ∧ ∃ c ∈ l.relation.property.toList, isQuote c = true := by
  obtain ⟨front, inside, rest, rfl, hf, hi⟩ := exists_callText_of_ofText h
  obtain ⟨v, body, -, -, hresolves⟩ := (ofText_callText_eq_ok_iff hf hi rest).1 h
  rw [String.toList_ofList, callText] at hraw
  obtain ⟨c, hc, hq⟩ : ∃ c ∈ front, isQuote c = true := by
    by_contra hno
    have hplain : ∀ c ∈ front, isQuote c = false := by simpa using hno
    exact hraw.openQuote_ne_none (openQuote_of_not_isQuote (by simp [QuoteOpen]) hplain)
  refine ⟨List.mem_of_find?_eq_some hresolves.related, c, ?_, hq⟩
  rw [hresolves.property, String.toList_ofList]
  exact mem_propertyOf hq hc

namespace Filter

/-- **A marker in a literal counts.** If the leaves of a filter hold the marker in literals only, then still the first
leaf that holds it is taken for a lambda filter; only a filter that holds it in no literal is resolved to none. It is
resolved to a filter on no relation but one that has a quote in its name. -/
theorem resolve_of_unmarked (d : Dialect) (target : String) (root : Entity) {f : Filter}
    (hf : ∀ raw ∈ f.leaves, Unmarked raw.toList) :
    f.lambda? = f.leaves.find? (fun raw => decide (marker.toList <:+: raw.toList)) ∧
      (resolve d target root (some f) = .ok none ↔ ∀ raw ∈ f.leaves, ¬marker.toList <:+: raw.toList) ∧
      ∀ l, resolve d target root (some f) = .ok (some l) →
        l.relation ∈ root.relations ∧ ∃ c ∈ l.relation.property.toList, isQuote c = true := by
  refine ⟨lambda?_eq_find? f, ?_⟩
  cases hfind : f.leaves.find? fun raw => decide (marker.toList <:+: raw.toList) with
  | none =>
    have hresolve : resolve d target root (some f) = .ok none :=
      resolve_of_lambda?_eq_none ((lambda?_eq_find? f).trans hfind)
    refine ⟨iff_of_true hresolve (by simpa using hfind), fun l hl => ?_⟩
    cases hresolve.symm.trans hl
  | some raw =>
    have hresolve : resolve d target root (some f) = (LambdaFilter.ofText d target root raw).map some :=
      resolve_of_lambda?_eq_some ((lambda?_eq_find? f).trans hfind)
    have hmem : raw ∈ f.leaves := List.mem_of_find?_eq_some hfind
    have hmarker : marker.toList <:+: raw.toList := by simpa using List.find?_some hfind
    have hnot : ¬∀ raw ∈ f.leaves, ¬marker.toList <:+: raw.toList := fun hnone => hnone raw hmem hmarker
    cases hl : LambdaFilter.ofText d target root raw with
    | error e =>
      rw [hl] at hresolve
      refine ⟨iff_of_false (fun hn => by cases hresolve.symm.trans hn) hnot, fun l h => ?_⟩
      cases hresolve.symm.trans h
    | ok l =>
      rw [hl] at hresolve
      refine ⟨iff_of_false (fun hn => by cases hresolve.symm.trans hn) hnot, fun l' h => ?_⟩
      cases hresolve.symm.trans h
      exact LambdaFilter.exists_quote_of_ofText (hf raw hmem) hl

/-- A comparison with a text that holds the marker is refused. -/
theorem resolve_of_unmarked_title :
    let tags : Relation := ⟨"tags", "Post", "Tag", "tag", "post_id", "id"⟩
    let post : Entity := { name := "Post", table := "post", relations := [tags] }
    let f : Filter := .both .and (.leaf "title eq 'x'") (.group (.leaf "body eq 'a/any(b'"))
    (∀ raw ∈ f.leaves, Unmarked raw.toList) ∧ f.lambda? = some "body eq 'a/any(b'" ∧
      ∃ e, resolve {} "post" post (some f) = .error e := by
  intro tags post f
  have hf : ∀ raw ∈ f.leaves, Unmarked raw.toList := by
    have htitle : Unmarked "title eq 'x'".toList :=
      unmarked_of_nest (k := 0) (by decide +kernel) (by decide +kernel)
    have hbody : Unmarked "body eq 'a/any(b'".toList :=
      unmarked_of_nest (k := 0) (by decide +kernel) (by decide +kernel)
    simpa [f, leaves] using ⟨htitle, hbody⟩
  obtain ⟨hlambda, hnone, hsome⟩ := resolve_of_unmarked {} "post" post hf
  refine ⟨hf, hlambda.trans (by decide +kernel), ?_⟩
  cases hr : resolve {} "post" post (some f) with
  | error e => exact ⟨e, rfl⟩
  | ok l? =>
    cases l? with
    | none => exact absurd (hnone.1 hr) (by decide +kernel)
    | some l =>
      obtain ⟨hl, c, hc, hq⟩ := hsome l hr
      have hrelation : l.relation = tags := List.mem_singleton.1 hl
      have hplain : tags.property.toList.all (fun c => !isQuote c) = true := by decide
      rw [hrelation] at hc
      simpa [hq] using List.all_eq_true.1 hplain c hc

/-- A filter may hold no marker outside its literals and still be taken for a lambda filter. -/
theorem not_forall_resolve_eq_none :
    ¬∀ (d : Dialect) (target : String) (root : Entity) (f : Filter), (∀ raw ∈ f.leaves, Unmarked raw.toList) →
      f.lambda? = none ∧ resolve d target root (some f) = .ok none := by
  intro h
  have hclosed : Unmarked "title eq 'a/any(b'".toList :=
    unmarked_of_nest (k := 0) (by decide +kernel) (by decide +kernel)
  have hlambda := (h {} "post" { name := "Post", table := "post" } (.leaf "title eq 'a/any(b'")
    (by simpa [leaves] using hclosed)).1
  exact absurd hlambda (by decide +kernel)

end Filter

end RelQuery
