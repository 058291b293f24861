import RelQuery.Bytes.Parts
import RelQuery.Proofs.Bytes.Scanner
import RelQuery.Proofs.Bytes.Slices
import RelQuery.Proofs.Script.Dangling
import RelQuery.Proofs.Text.Cutting
import RelQuery.Proofs.Text.Replacing

/-!
# Cutting by position gives the parts of the text

No cut by position ends the run: each slice lies between two characters, since its ends are found positions, which stand
between characters, or differ from one by the width of ASCII. The parts are those that reading from the front gives.

* `splitComma_eq`, `unquote_eq` : the two sides of a comma, and the value of a literal;
* `readTest_eq` : the test that a span stands for;
* `splitLambda_eq`, `dropDanglingAnd_eq` : the parts of a lambda filter, and a condition without an `AND` at its end.
-/

namespace RelQuery.Bytes

open Text

variable {s span : String}

/-! ## Positions behind some characters -/

/-- The bytes that are left behind some characters. -/
theorem drop_bytes {a b : List Char} (h : s.toList = a ++ b) : (bytes s).drop (width UInt8 a) = units b := by
  rw [bytes_eq_units, h, units_append]
  exact List.drop_left

/-- The parenthesis that closes the one behind some characters. -/
theorem matchingParen_bytes {a opened : List Char} {i : Nat} (h : s.toList = a ++ '(' :: opened)
    (hi : i = width UInt8 a) :
    matchingParen (bytes s) i = .ok ((insideParen? opened).map fun cut => i + 1 + width UInt8 cut.1) := by
  subst hi
  exact matchingParen_units (drop_bytes h)

section Paren

variable {a inside rest : List Char} {i : Nat}

theorem width_open (a s : List Char) : width UInt8 (a ++ '(' :: s) = width UInt8 a + 1 + width UInt8 s := by
  rw [width_append, width_cons, width_of_ascii (by decide), Nat.add_assoc]

/-- The text between two parentheses. -/
theorem slice_inside (h : s.toList = a ++ '(' :: (inside ++ ')' :: rest)) (hi : i = width UInt8 a) :
    slice s (i + 1) (i + 1 + width UInt8 inside) = .ok (String.ofList inside) :=
  slice_eq (a := a ++ ['(']) (c := ')' :: rest) (by simp [h]) (by rw [width_open, hi]; rfl)
    (by rw [List.append_assoc, List.singleton_append, width_open, hi])

/-- The text behind two parentheses. -/
theorem slice_behind (h : s.toList = a ++ '(' :: (inside ++ ')' :: rest)) (hi : i = width UInt8 a) :
    slice s (i + 1 + width UInt8 inside + 1) s.utf8ByteSize = .ok (String.ofList rest) :=
  slice_right (a := a ++ '(' :: (inside ++ [')'])) (by simp [h]) (by
    rw [width_open, width_append, width_of_ascii (by decide), hi, Nat.add_assoc (_ + _)])

end Paren

/-! ## Commas and literals -/

theorem splitComma_eq (s : String) : splitComma s =
    .ok ((aroundComma? s.toList).map fun cut => (String.ofList cut.1, String.ofList cut.2)) := by
  rw [splitComma, bytes_eq_units, commaAt_units, Checked.bind_ok]
  cases h : aroundComma? s.toList with
  | none => rfl
  | some cut =>
    obtain ⟨left, right⟩ := cut
    have hs : s.toList = left ++ ',' :: right := eq_append_of_aroundComma? h
    have hright : slice s (width UInt8 left + 1) s.utf8ByteSize = .ok (String.ofList right) :=
      slice_right (a := left ++ [',']) (by simp [hs]) (by simp [width_of_ascii])
    simp only [Option.map_some, slice_left hs rfl, hright, Checked.bind_ok, Checked.pure_eq]

example : splitComma "x/name,'a,b'" = .ok (some ("x/name", "'a,b'")) := by decide +kernel

theorem unitAt_last {α : Type} {us vs : List α} {v : α} (h : us = vs ++ [v]) : unitAt us (us.length - 1) = .ok v := by
  subst h
  exact unitAt_of_drop (by rw [List.length_append, List.length_singleton, Nat.add_sub_cancel, List.drop_left])

/-- A text that begins with no quote stands for itself. -/
theorem unquote_of_not_isQuote (h : ∀ c ∈ s.toList.head?, isQuote c = false) : unquote s = .ok s := by
  unfold unquote
  split
  next => rfl
  next hlen =>
    cases hs : s.toList with
    | nil =>
      rw [bytes_eq_units, hs] at hlen
      exact absurd (by decide) hlen
    | cons c rest =>
      obtain ⟨u, vs, hu⟩ := List.exists_cons_of_ne_nil (CodeUnit.encode_ne_nil (α := UInt8) c)
      have hbytes : bytes s = u :: (vs ++ units rest) := by rw [bytes_eq_units, hs, units_cons, hu, List.cons_append]
      have hfirst : unitAt (bytes s) 0 = .ok u := unitAt_of_drop (List.drop_zero.trans hbytes)
      have hmark : isMark u = false := (isMark_head hu).trans (h c (by rw [hs]; rfl))
      simp only [hfirst, Checked.bind_ok, hmark, Bool.not_false, if_true, Checked.pure_eq]

/-- A text in quotes stands for what is between them; between quotes that differ, for itself. -/
theorem unquote_of_isQuote {q x : Char} {inner : List Char} (hq : isQuote q = true)
    (h : s.toList = q :: (inner ++ [x])) :
    unquote s = .ok (if x = q then String.ofList (collapse q inner) else s) := by
  have hascii := toNat_lt_of_isQuote hq
  obtain ⟨u, hu, hcode⟩ := CodeUnit.encode_ascii (α := UInt8) q hascii
  have hbytes : bytes s = u :: (units inner ++ CodeUnit.encode x) := by
    rw [bytes_eq_units, h, units_cons, hu, units_append, units_cons, units_nil, List.append_nil]
    rfl
  obtain ⟨vs, v, hv⟩ := (List.eq_nil_or_concat' (CodeUnit.encode x : List UInt8)).resolve_left
    (CodeUnit.encode_ne_nil x)
  have hlen : ¬(bytes s).length < 2 := by
    rw [hbytes, hv, List.length_cons, List.length_append, List.length_append, List.length_singleton]
    omega
  have hconcat : bytes s = u :: (units inner ++ vs) ++ [v] := by rw [hbytes, hv]; simp
  have hfirst : unitAt (bytes s) 0 = .ok u := unitAt_of_drop (List.drop_zero.trans hbytes)
  have hlast : unitAt (bytes s) ((bytes s).length - 1) = .ok v := unitAt_last hconcat
  have hmark : isMark u = true := (isMark_eq hcode).trans hq
  rw [unquote, if_neg hlen, hfirst, Checked.bind_ok, hmark, hlast]
  by_cases hx : x = q
  · subst hx
    obtain rfl : u = v := by simpa using congrArg List.getLast? (hu.symm.trans hv)
    have hinner : slice s 1 (s.utf8ByteSize - 1) = .ok (String.ofList inner) :=
      slice_eq (a := [x]) (c := [x]) (by rw [h]; rfl) (width_of_ascii hascii).symm (by
        rw [utf8ByteSize_eq_width, h, width_cons, width_append, width_of_ascii hascii, List.singleton_append,
          width_cons, width_of_ascii hascii]
        omega)
    have hquote : (if stands '\'' u then '\'' else '"') = x := by
      rw [stands_eq hcode]
      simp only [isQuote, Bool.or_eq_true, beq_iff_eq] at hq
      rcases hq with rfl | rfl <;> rfl
    simp only [hinner, Checked.bind_ok, hquote, String.toList_ofList, replace_double, Checked.pure_eq, Bool.not_true,
      ne_eq, not_true_eq_false, if_false, if_true, Bool.false_eq_true]
    split
    next => rfl
    next hc => rw [collapse_of_contains_eq_false (by simpa using hc)]
  · have hne : u ≠ v := by
      rintro rfl
      exact code_ne_of_mem_encode hascii hx u (by rw [hv]; simp) hcode
    simp [hx, hne]

theorem unquote_eq (s : String) : unquote s = .ok (String.ofList (decode s.toList)) := by
  have hself : s = String.ofList s.toList := String.ofList_toList.symm
  cases hs : s.toList with
  | nil =>
    rw [unquote_of_not_isQuote (by simp [hs]), decode, ← hs, ← hself]
  | cons q rest =>
    by_cases hq : isQuote q = true
    · rcases List.eq_nil_or_concat' rest with rfl | ⟨inner, x, rfl⟩
      · have hlen : (bytes s).length < 2 := by
          have hw : width UInt8 s.toList = 1 := by rw [hs, width_of_ascii (toNat_lt_of_isQuote hq)]
          rw [length_bytes, utf8ByteSize_eq_width, hw]
          decide
        rw [unquote, if_pos hlen, decode, if_neg (fun h => by simp at h), ← hs, ← hself]
        rfl
      · rw [unquote_of_isQuote hq hs, decode]
        by_cases hx : x = q
        · simp [hq, hx]
        · simp [hx, ← hs]
    · rw [unquote_of_not_isQuote (by simpa [hs] using hq), decode, if_neg (fun h => hq h.1), ← hs, ← hself]

example : unquote "'it''s'" = .ok "it's" := by decide +kernel

theorem unquote_trimmed (l : List Char) :
    unquote (trimmed (String.ofList l)) = .ok (String.ofList (decode (trim l))) := by
  rw [unquote_eq, trimmed, String.toList_ofList, String.toList_ofList]

/-! ## Tests -/

theorem readSides_eq {path literal : List Char} (h : span.toList = path ++ (Test.eqWord ++ literal)) :
    readSides span (width UInt8 path) = .ok (Test.ofSides? path literal) := by
  have hright : slice span (width UInt8 path + width UInt8 Test.eqWord) span.utf8ByteSize =
      .ok (String.ofList literal) :=
    slice_right (a := path ++ Test.eqWord) (by rw [h, List.append_assoc]) (width_append path Test.eqWord).symm
  simp only [readSides, slice_left h rfl, hright, Checked.bind_ok, String.toList_ofList, unquote_trimmed, Test.ofSides?]
  split <;> rfl

theorem readCall_eq {front call : List Char} (h : span.toList = front ++ (Test.containsWord ++ call)) :
    readCall span (width UInt8 front) = .ok (Test.ofCall? call) := by
  have hcall : slice span (width UInt8 front) span.utf8ByteSize = .ok (String.ofList (Test.containsWord ++ call)) :=
    slice_right h rfl
  have hnot : '(' ∉ Test.containsWord := by decide
  rw [readCall, hcall, Checked.bind_ok, offset?, String.toList_ofList, cut?_append_of_notMem hnot, Test.ofCall?]
  cases hcut : cut? ['('] call with
  | none => rfl
  | some cut =>
    obtain ⟨gap, opened⟩ := cut
    have hopened : span.toList = front ++ (Test.containsWord ++ gap) ++ '(' :: opened := by
      rw [h, append_of_cut? hcut]
      simp
    have hstart := (width_append (α := UInt8) front (Test.containsWord ++ gap)).symm
    simp only [Option.map_some, matchingParen_bytes hopened hstart, Checked.bind_ok, Option.bind_eq_bind,
      Option.bind_some]
    cases hinside : insideParen? opened with
    | none => rfl
    | some cut =>
      obtain ⟨arguments, rest⟩ := cut
      rw [(insideParen?_eq_some_iff.1 hinside).1] at hopened
      simp only [Option.map_some, slice_behind hopened hstart, slice_inside hopened hstart, Checked.bind_ok,
        String.toList_ofList, splitComma_eq, Option.bind_some, Test.ofArguments?]
      split
      · cases aroundComma? arguments with
        | none => rfl
        | some cut =>
          simp only [Option.map_some, unquote_trimmed, Checked.bind_ok, String.toList_ofList, Option.bind_eq_bind,
            Option.bind_some]
          split <;> rfl
      · rfl

theorem readTest_eq (span : String) : readTest span = .ok (Test.ofSpan? span.toList) := by
  have hsides : ∀ c ∈ Test.eqWord, c.toNat < 128 ∧ isQuote c = false := ascii_and_unquoted (by decide)
  have hcall : ∀ c ∈ Test.containsWord, c.toNat < 128 ∧ isQuote c = false := ascii_and_unquoted (by decide)
  have heq := findOutside_units (α := UInt8) hsides span.toList
  have hcontains := findOutside_units (α := UInt8) hcall span.toList
  rw [readTest, bytes_eq_units, heq, Checked.bind_ok, Test.ofSpan?]
  cases hsides : aroundOutside? Test.eqWord span.toList with
  | some cut => exact readSides_eq (eq_append_of_aroundOutside? (by decide) hsides)
  | none =>
    simp only [Option.map_none, hcontains, Checked.bind_ok]
    cases hcall : aroundOutside? Test.containsWord span.toList with
    | some cut => exact readCall_eq (eq_append_of_aroundOutside? (by decide) hcall)
    | none => rfl

/-! ## Lambda filters -/

theorem splitLambda_eq (raw : String) : splitLambda raw = .ok (LambdaText.ofText raw) := by
  rw [splitLambda, offset?, LambdaText.ofText]
  cases hcut : cut? Filter.marker.toList raw.toList with
  | none => rfl
  | some cut =>
    obtain ⟨front, opened⟩ := cut
    have hraw : raw.toList = front ++ (Filter.marker.toList ++ opened) := by rw [append_of_cut? hcut, List.append_assoc]
    have hopened : raw.toList = front ++ "/any".toList ++ '(' :: opened := by simpa [Filter.marker] using hraw
    have hstart : width UInt8 front + width UInt8 Filter.marker.toList - 1 = width UInt8 (front ++ "/any".toList) := by
      rw [width_append]
      rfl
    simp only [Option.map_some, slice_left hraw rfl, Checked.bind_ok, String.toList_ofList,
      matchingParen_bytes hopened hstart]
    split
    · rfl
    · cases hinside : insideParen? opened with
      | none => rfl
      | some cut =>
        obtain ⟨lambda, rest⟩ := cut
        rw [(insideParen?_eq_some_iff.1 hinside).1] at hopened
        simp only [Option.map_some, slice_inside hopened hstart, Checked.bind_ok, offset?, String.toList_ofList]
        cases hcolon : cut? [':'] lambda with
        | none => rfl
        | some cut =>
          obtain ⟨name, body⟩ := cut
          have hbody : slice (String.ofList lambda) (width UInt8 name + 1) (String.ofList lambda).utf8ByteSize =
              .ok (String.ofList body) :=
            slice_right (a := name ++ [':']) (by simp [append_of_cut? hcolon])
              (by rw [width_append, width_of_ascii (by decide)])
          simp only [Option.map_some, hbody, Checked.bind_ok, trimmed, String.toList_ofList]
          rfl

/-! ## An `AND` at the end -/

theorem toNat_lt_of_toLower {c : Char} (h : c.toLower.toNat < 128) : c.toNat < 128 := by
  unfold Char.toLower at h
  split at h
  next hc =>
    have hz : c.toNat ≤ 'Z'.toNat := hc.2
    exact Nat.lt_of_le_of_lt hz (by decide)
  next => exact h

/-- The word `AND` takes three bytes, in any case. -/
theorem width_of_isAnd {word : List Char} (h : QueryParts.IsAnd word) : width UInt8 word = 3 := by
  have hlen : word.length = 3 := by simpa using congrArg List.length h
  rw [width_word, hlen]
  intro c hc
  have hmem : c.toLower ∈ "and".toList := h ▸ List.mem_map_of_mem hc
  exact toNat_lt_of_toLower (ascii_and_unquoted (by decide) _ hmem).1

/-- An `AND` at the end goes, and the blanks in front of it. -/
theorem dropAnd_append {text : String} {front word : List Char} {blank : Char}
    (h : text.toList = front ++ blank :: word) (hb : isBlank blank = true) (hw : QueryParts.IsAnd word) :
    dropAnd text = .ok (String.ofList (trimEnd front)) := by
  have htext : text.toList = front ++ [blank] ++ word := by simp [h]
  have hsize : text.utf8ByteSize = width UInt8 (front ++ [blank]) + 3 := by
    rw [utf8ByteSize_eq_width, htext, width_append, width_of_isAnd hw]
  have hfront : front? text (text.utf8ByteSize - 3) = some (String.ofList (front ++ [blank])) :=
    front?_eq_some_iff.2 ⟨word, by rw [htext, String.toList_ofList], by rw [hsize, String.toList_ofList]; rfl⟩
  have htail : slice text (String.ofList (front ++ [blank])).utf8ByteSize text.utf8ByteSize =
      .ok (String.ofList word) :=
    slice_right htext (by rw [utf8ByteSize_eq_width, String.toList_ofList])
  have hlt : ¬text.utf8ByteSize < 3 := by omega
  have hcond : word.map Char.toLower = "and".toList ∧ (front ++ [blank]).getLast?.any isBlank := ⟨hw, by simp [hb]⟩
  have hblank : isBlankText [blank] = true := by simp [isBlankText, hb]
  rw [dropAnd, if_neg hlt, hfront]
  simp only [htail, Checked.bind_ok, String.toList_ofList, if_pos hcond, trimEnd_append_blanks hblank, Checked.pure_eq]

/-- A text that does not end in `AND` stays. -/
theorem dropAnd_of_not_endsInAnd {text : String} (h : ¬QueryParts.EndsInAnd text.toList) : dropAnd text = .ok text := by
  unfold dropAnd
  split
  next => rfl
  next =>
    split
    next => rfl
    next head hhead =>
      obtain ⟨word, htext, _⟩ := front?_eq_some_iff.1 hhead
      have htail : slice text head.utf8ByteSize text.utf8ByteSize = .ok (String.ofList word) :=
        slice_right htext (utf8ByteSize_eq_width head)
      have hcond : ¬(word.map Char.toLower = "and".toList ∧ head.toList.getLast?.any isBlank) := by
        rintro ⟨hw, hlast⟩
        obtain ⟨blank, hmem, hb⟩ := (Option.any_eq_true _ _).1 hlast
        obtain ⟨front, hfront⟩ := List.getLast?_eq_some_iff.1 hmem
        exact h ⟨front, blank, word, by rw [htext, hfront]; simp, hb, hw⟩
      rw [htail, Checked.bind_ok, String.toList_ofList, if_neg hcond]
      rfl

theorem dropDanglingAnd_eq (s : String) :
    dropDanglingAnd s = .ok (String.ofList (QueryParts.withoutDanglingAnd s.toList)) := by
  have htext : (String.ofList (trimEnd s.toList)).toList = trimEnd s.toList := String.toList_ofList
  by_cases he : QueryParts.EndsInAnd (trimEnd s.toList)
  · obtain ⟨front, blank, word, ht, hb, hw⟩ := he
    rw [dropDanglingAnd, dropAnd_append (htext.trans ht) hb hw, QueryParts.withoutDanglingAnd_of_eq ht hb hw]
  · rw [dropDanglingAnd, dropAnd_of_not_endsInAnd (by rwa [htext]), QueryParts.withoutDanglingAnd_of_not_endsInAnd he]

end RelQuery.Bytes
