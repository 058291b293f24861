import Mathlib.Data.List.Infix
import RelQuery.Proofs.Condition.Printing

/-!
# What a containment matches

A containment is compared by SQL's `LIKE` with the value of its literal between two `%`. The value is bound as it is, so
its own `%` and `_` are read as a pattern reads them.

* `like_append_iff` : a pattern in two parts matches a text in two parts;
* `like_wrap_iff` : a value between two `%` matches the texts with a part that the value, as a pattern, matches;
* `finds_wrap_iff` : these are the texts that hold the value, exactly if it has neither `%` nor `_`; for another value
  there is no such pattern at all (`isPatternChar_of_finds`);
* `Condition.compile_contains_like` : all of it for the pattern that a written containment binds.
-/

namespace RelQuery

open Text

/-! ## Patterns -/

/-- Whether a text matches a pattern of SQL's `LIKE`: a `%` stands for any text, a `_` for any one character, and any
other character for itself. No character takes these meanings away. -/
def like : List Char → List Char → Bool
  | [], s => s.isEmpty
  | p :: pattern, s =>
    if p = '%' then s.tails.any (like pattern)
    else
      match s with
      | [] => false
      | c :: s => (p = '_' ∨ p = c) && like pattern s

/-- The characters that do not stand for themselves in a pattern. -/
def isPatternChar (c : Char) : Bool :=
  c == '%' || c == '_'

variable {pattern value s : List Char} {p c : Char}

theorem like_nil_iff : like [] s = true ↔ s = [] := by
  simp [like]

theorem like_percent_iff : like ('%' :: pattern) s = true ↔ ∃ t, t <:+ s ∧ like pattern t = true := by
  simp [like]

theorem like_cons_iff (hp : p ≠ '%') :
    like (p :: pattern) s = true ↔ ∃ c t, s = c :: t ∧ (p = '_' ∨ p = c) ∧ like pattern t = true := by
  cases s <;> simp [like, hp]

/-- **A pattern in two parts** matches the texts in two parts that they match. -/
theorem like_append_iff {pattern' : List Char} : like (pattern ++ pattern') s = true ↔
    ∃ t u, s = t ++ u ∧ like pattern t = true ∧ like pattern' u = true := by
  induction pattern generalizing s with
  | nil => simp [like_nil_iff]
  | cons p pattern ih =>
    rw [List.cons_append]
    by_cases hp : p = '%'
    · subst hp
      simp only [like_percent_iff, ih]
      constructor
      · rintro ⟨_, ⟨r, rfl⟩, t, u, rfl, ht, hu⟩
        exact ⟨r ++ t, u, (List.append_assoc r t u).symm, ⟨t, List.suffix_append r t, ht⟩, hu⟩
      · rintro ⟨_, u, rfl, ⟨t, ⟨r, rfl⟩, ht⟩, hu⟩
        exact ⟨t ++ u, ⟨r, (List.append_assoc r t u).symm⟩, t, u, rfl, ht, hu⟩
    · simp only [like_cons_iff hp, ih]
      constructor
      · rintro ⟨c, _, rfl, hc, t, u, rfl, ht, hu⟩
        exact ⟨c :: t, u, rfl, ⟨c, t, rfl, hc, ht⟩, hu⟩
      · rintro ⟨_, u, rfl, ⟨c, t, rfl, hc, ht⟩, hu⟩
        exact ⟨c, t ++ u, rfl, hc, t, u, rfl, ht, hu⟩

/-- A text matches itself. -/
theorem like_self : ∀ s : List Char, like s s = true
  | [] => rfl
  | c :: s => by
    by_cases hc : c = '%'
    · subst hc
      exact like_percent_iff.2 ⟨s, List.suffix_cons _ s, like_self s⟩
    · exact (like_cons_iff hc).2 ⟨c, s, rfl, .inr rfl, like_self s⟩

/-- A pattern whose characters all stand for themselves matches itself only. -/
theorem eq_of_like (hv : ∀ c ∈ value, isPatternChar c = false) (h : like value s = true) : s = value := by
  induction value generalizing s with
  | nil => exact like_nil_iff.1 h
  | cons p value ih =>
    have hp : p ≠ '%' ∧ p ≠ '_' := by simpa [isPatternChar] using hv p List.mem_cons_self
    obtain ⟨c, t, rfl, hc, ht⟩ := (like_cons_iff hp.1).1 h
    obtain rfl := hc.resolve_left hp.2
    rw [ih (fun x hx => hv x (List.mem_cons_of_mem _ hx)) ht]

/-! ## Values between two `%` -/

/-- **A value between two `%`** matches the texts with a part that the value, as a pattern, matches. -/
theorem like_wrap_iff :
    like ('%' :: (value ++ ['%'])) s = true ↔ ∃ part, part <:+: s ∧ like value part = true := by
  rw [like_percent_iff]
  constructor
  · rintro ⟨_, ⟨r, rfl⟩, h⟩
    obtain ⟨t, u, rfl, ht, _⟩ := like_append_iff.1 h
    exact ⟨t, ⟨r, u, List.append_assoc r t u⟩, ht⟩
  · rintro ⟨t, ⟨r, u, rfl⟩, ht⟩
    have hany : like ['%'] u = true := like_percent_iff.2 ⟨[], List.nil_suffix, rfl⟩
    exact ⟨t ++ u, ⟨r, (List.append_assoc r t u).symm⟩, like_append_iff.2 ⟨t, u, rfl, ht, hany⟩⟩

/-- The pattern matches exactly the texts that hold the value. -/
def Finds (pattern value : List Char) : Prop :=
  ∀ s, like pattern s = true ↔ value <:+: s

/-- The character with nothing that a pattern could tell from another in its place. -/
def blur (c : Char) : Char :=
  if isPatternChar c then 'x' else c

/-- Only a `%` and a `_` of a pattern match a `%` or a `_`, and these match any other character as well. -/
theorem like_map_blur (h : like pattern s = true) : like pattern (s.map blur) = true := by
  induction pattern generalizing s with
  | nil => rw [like_nil_iff.1 h]; rfl
  | cons p pattern ih =>
    by_cases hp : p = '%'
    · subst hp
      obtain ⟨t, ht, hl⟩ := like_percent_iff.1 h
      exact like_percent_iff.2 ⟨t.map blur, ht.map blur, ih hl⟩
    · obtain ⟨c, t, rfl, hc, hl⟩ := (like_cons_iff hp).1 h
      refine (like_cons_iff hp).2 ⟨blur c, t.map blur, rfl, ?_, ih hl⟩
      rcases hc with hc | rfl
      · exact .inl hc
      · by_cases hu : p = '_'
        · exact .inl hu
        · exact .inr (by simp [blur, isPatternChar, hp, hu])

/-- **No pattern finds a value that holds a `%` or a `_`**: it would match another text of the same length, too. -/
theorem isPatternChar_of_finds (h : Finds pattern value) : ∀ c ∈ value, isPatternChar c = false := by
  have hblur : value <:+: value.map blur := (h _).1 (like_map_blur ((h value).2 List.infix_rfl))
  have heq : value = value.map blur := hblur.eq_of_length (List.length_map _).symm
  intro c hc
  have hfix : blur c = c := List.map_inj_left.1 (heq.symm.trans (List.map_id value).symm) c hc
  by_cases hp : isPatternChar c = true
  · rw [blur, if_pos hp] at hfix
    subst hfix
    exact absurd hp (by decide)
  · simpa using hp

/-- **A value between two `%` finds the value** exactly if all its characters stand for themselves. -/
theorem finds_wrap_iff :
    Finds ('%' :: (value ++ ['%'])) value ↔ ∀ c ∈ value, isPatternChar c = false := by
  refine ⟨isPatternChar_of_finds, fun hv s => like_wrap_iff.trans ⟨?_, ?_⟩⟩
  · rintro ⟨part, hpart, hl⟩
    rwa [eq_of_like hv hl] at hpart
  · exact fun h => ⟨value, h, like_self value⟩

/-! ## Written containments -/

namespace Condition

/-- A test, alone, compiles to itself. -/
theorem compile_leaf (d : Dialect) (leaf : Leaf) : compile d (String.ofList leaf.text) =
    .ok ([.test (String.ofList leaf.test.column) leaf.test.comparison (d.paramName 0)],
      Test.bindings d 0 [leaf.test]) := by
  refine compile_iff_reads.2 ⟨[.test leaf.test], ?_, rfl, rfl, rfl⟩
  rw [String.toList_ofList]
  exact leaf.reads false

/-- **A containment matches the texts with a part that its literal, as a pattern, matches.** It is bound to the value
`v` of its literal between two `%`. So a text that holds `v` always matches, and to match is to hold `v` exactly if `v`
has neither `%` nor `_`; where it has one of them, no pattern matches exactly the texts that hold `v`. -/
theorem compile_contains_like {mark : Char} (hmark : isQuote mark = true) (v : List Char) (subject : Option Path)
    (path : Spaced Path) (left right : Blanks) :
    ∃ bound pattern, compile {} (String.ofList
        (Leaf.contains subject path ⟨left, .quoted mark hmark v, right⟩).text) =
          .ok ([.test (String.ofList path.body.column.chars) .contains "param_0"], bound) ∧
      bound.entries = [("param_0", String.ofList pattern)] ∧
      (∀ s, like pattern s = true ↔ ∃ part, part <:+: s ∧ like v part = true) ∧
      (∀ s, v <:+: s → like pattern s = true) ∧
      (Finds pattern v ↔ ∀ c ∈ v, isPatternChar c = false) ∧
      ((∃ p, Finds p v) → Finds pattern v) := by
  have hwrap : Dialect.wrap {} (String.ofList v) = String.ofList ('%' :: (v ++ ['%'])) := by
    apply String.toList_inj.1
    simp [Dialect.wrap]
  have hcompile := compile_leaf {} (Leaf.contains subject path ⟨left, .quoted mark hmark v, right⟩)
  have hname : Dialect.paramName {} 0 = "param_0" := by decide +kernel
  rw [hname] at hcompile
  refine ⟨_, '%' :: (v ++ ['%']), hcompile, ?_, fun s => like_wrap_iff, fun s hs => ?_, finds_wrap_iff, ?_⟩
  · show [(Dialect.paramName {} 0, Dialect.wrap {} (String.ofList v))] = _
    rw [hname, hwrap]
  · exact like_wrap_iff.2 ⟨v, hs, like_self v⟩
  · rintro ⟨p, hp⟩
    exact finds_wrap_iff.2 (isPatternChar_of_finds hp)

/-- The texts that hold `a_b` match, and so does `axb`; no pattern could tell them apart. -/
theorem compile_contains_like_underscore :
    compile {} "contains(x/c,'a_b')" =
        .ok ([.test "c" .contains "param_0"], ⟨[("param_0", "%a_b%")], by decide⟩) ∧
      isQuote '\'' = true ∧
      (∀ s, "a_b".toList <:+: s → like "%a_b%".toList s = true) ∧
      like "%a_b%".toList "axb".toList = true ∧ ¬"a_b".toList <:+: "axb".toList ∧
      ¬∃ pattern, Finds pattern "a_b".toList := by
  let path : Path := ⟨⟨['x'], by simp, by simp [isIdentifierChar]⟩, [], ⟨['c'], by simp, by simp [isIdentifierChar]⟩⟩
  let tight : Blanks := ⟨[], rfl⟩
  have hmark : isQuote '\'' = true := rfl
  have htext : String.ofList (Leaf.contains none ⟨tight, path, tight⟩
      ⟨tight, .quoted '\'' hmark "a_b".toList, tight⟩).text = "contains(x/c,'a_b')" := rfl
  have h : compile {} "contains(x/c,'a_b')" =
      .ok ([.test "c" .contains "param_0"], ⟨[("param_0", "%a_b%")], by decide⟩) := by decide +kernel
  obtain ⟨bound, pattern, hcompile, hentries, _, hholds, hfinds, hany⟩ :=
    compile_contains_like hmark "a_b".toList none ⟨tight, path, tight⟩ tight tight
  rw [htext, h] at hcompile
  obtain ⟨_, rfl⟩ := Prod.mk.inj (Except.ok.inj hcompile)
  obtain rfl : pattern = "%a_b%".toList := by
    apply String.ofList_injective
    simpa using hentries.symm
  refine ⟨h, hmark, hholds, by decide +kernel, by decide +kernel, fun hp => ?_⟩
  exact absurd (hfinds.1 (hany hp) '_' (by decide)) (by decide)

/-- Not every literal is compared as a part of the text: `_` is any character. -/
theorem not_forall_like_iff_infix : ¬∀ v s bound pattern,
    compile {} (String.ofList ("contains(x/c,".toList ++ encode '\'' v ++ [')'])) =
        .ok ([.test "c" .contains "param_0"], bound) →
      bound.get? "param_0" = some pattern → (like pattern.toList s = true ↔ v <:+: s) := by
  intro hall
  have h : compile {} (String.ofList ("contains(x/c,".toList ++ encode '\'' "a_b".toList ++ [')'])) =
      .ok ([.test "c" .contains "param_0"], ⟨[("param_0", "%a_b%")], by decide⟩) := by decide +kernel
  have hiff := hall "a_b".toList "axb".toList _ "%a_b%" h (by decide)
  exact absurd (hiff.1 (by decide +kernel)) (by decide +kernel)

end Condition

end RelQuery
