import RelQuery.Proofs.Bytes.Compile

/-!
# Positions of bytes and positions of characters

The same scanner runs on the bytes of a text and on its characters. Neither run ends in a `Crash`, and the byte offset
that the one finds is that of the character which the other finds.

* `exists_character` : a byte that looks like ASCII is a character of its own;
* `ScansAlike` : the two runs find the same place;
* `scans_alike_without_crash` : all scanners, and all that is cut out at the positions they find.
-/

namespace RelQuery.Bytes

open Text

/-! ## Characters as their own units -/

theorem units_char (s : List Char) : (units s : List Char) = s :=
  List.flatMap_singleton' s

theorem width_char (s : List Char) : width Char s = s.length := by
  rw [width, units_char]

/-! ## Offsets -/

/-- The byte offset behind the first `k` characters. -/
def offset (s : String) (k : Nat) : Nat :=
  (String.ofList (s.toList.take k)).utf8ByteSize

theorem offset_of_append {s : String} {a b : List Char} (h : s.toList = a ++ b) :
    offset s (width Char a) = width UInt8 a := by
  rw [offset, utf8ByteSize_eq_width, String.toList_ofList, h, width_char, List.take_left]

theorem isValid_offset (s : String) (k : Nat) : (⟨offset s k⟩ : String.Pos.Raw).IsValid s := by
  refine isValid_iff.2 ⟨s.toList.take k, s.toList.drop k, (List.take_append_drop k _).symm, ?_⟩
  rw [offset, utf8ByteSize_eq_width, String.toList_ofList]

/-- A unit that looks like ASCII is a character of its own. -/
theorem exists_character {α : Type} [CodeUnit α] {u : α} (hu : code u < 128) : ∀ {s : List Char} {i : Nat},
    (units s : List α)[i]? = some u → ∃ a c b, s = a ++ c :: b ∧ i = width α a ∧ c.toNat = code u
  | [], _, h => by simp at h
  | x :: s, i, h => by
    rw [units_cons] at h
    by_cases hi : i < (CodeUnit.encode x : List α).length
    · rw [List.getElem?_append_left hi] at h
      have hmem : u ∈ (CodeUnit.encode x : List α) := List.mem_of_getElem? h
      have hx : x.toNat < 128 := by
        by_contra hx
        have := CodeUnit.le_code x (Nat.not_lt.1 hx) u hmem
        omega
      obtain ⟨v, hv, hcode⟩ := CodeUnit.encode_ascii (α := α) x hx
      rw [hv] at hi hmem
      obtain rfl := List.mem_singleton.1 hmem
      exact ⟨[], x, s, rfl, Nat.lt_one_iff.1 hi, hcode.symm⟩
    · rw [List.getElem?_append_right (Nat.not_lt.1 hi)] at h
      obtain ⟨a, c, b, rfl, hwidth, hc⟩ := exists_character hu h
      refine ⟨x :: a, c, b, rfl, ?_, hc⟩
      have hx : width α [x] = (CodeUnit.encode x : List α).length := by
        rw [width, units_cons, units_nil, List.append_nil]
      rw [width_cons, hx, ← hwidth]
      omega

/-! ## Two runs of one scanner -/

/-- A scan of the bytes of a text and a scan of its characters come to an end and find the same place, which stands
between two characters, if they find one. -/
def ScansAlike (s : String) (onBytes onChars : Checked (Option Nat)) : Prop :=
  ∃ found, onChars = .ok found ∧ onBytes = .ok (found.map (offset s)) ∧
    ∀ k ∈ found, k ≤ s.toList.length ∧ (⟨offset s k⟩ : String.Pos.Raw).IsValid s

/-- Two scans that end behind the same characters. -/
theorem scansAlike_of_cut {s : String} {onBytes onChars : Checked (Option Nat)} (cut : Option (List Char × List Char))
    (front : List Char × List Char → List Char) (hb : onBytes = .ok (cut.map fun c => width UInt8 (front c)))
    (hc : onChars = .ok (cut.map fun c => width Char (front c)))
    (hf : ∀ c ∈ cut, ∃ behind, s.toList = front c ++ behind) : ScansAlike s onBytes onChars := by
  refine ⟨_, hc, ?_, ?_⟩
  · rw [hb, Option.map_map]
    refine congrArg Except.ok (Option.map_congr fun c hmem => ?_)
    obtain ⟨behind, hs⟩ := hf c hmem
    exact (offset_of_append hs).symm
  · intro k hk
    obtain ⟨c, hmem, rfl⟩ := Option.map_eq_some_iff.1 hk
    obtain ⟨behind, hs⟩ := hf c hmem
    refine ⟨?_, isValid_offset s _⟩
    rw [width_char, hs, List.length_append]
    omega

section

variable {s : String} {a b : List Char} {c : Char}

theorem drop_chars (h : s.toList = a ++ b) : s.toList.drop (width Char a) = units b := by
  rw [units_char, h, width_char, List.drop_left]

theorem scansAlike_skipQuoted (hc : c.toNat < 128) (h : s.toList = a ++ c :: b) :
    ScansAlike s (skipQuoted (bytes s) (width UInt8 a)) (skipQuoted s.toList (width Char a)) := by
  refine scansAlike_of_cut (closeQuote? c b) (fun cut => a ++ c :: cut.1) ?_ ?_ fun cut hcut => ?_
  · simp only [skipQuoted_units hc (drop_bytes h), width_append]
  · simp only [skipQuoted_units hc (drop_chars h), width_append]
  · exact ⟨cut.2, by rw [h, eq_append_of_closeQuote? hcut]; simp⟩

theorem scansAlike_matchingParen (h : s.toList = a ++ '(' :: b) :
    ScansAlike s (matchingParen (bytes s) (width UInt8 a)) (matchingParen s.toList (width Char a)) := by
  have hopen {α : Type} [CodeUnit α] (t : List Char) : width α (a ++ '(' :: t) = width α a + 1 + width α t := by
    rw [width_append, width_cons, width_of_ascii (by decide), Nat.add_assoc]
  refine scansAlike_of_cut (insideParen? b) (fun cut => a ++ '(' :: cut.1) ?_ ?_ fun cut hcut => ?_
  · simp only [matchingParen_units (drop_bytes h), hopen]
  · simp only [matchingParen_units (drop_chars h), hopen]
  · exact ⟨')' :: cut.2, by rw [h, (insideParen?_eq_some_iff.1 hcut).1]; simp⟩

theorem scansAlike_findOutside {word : List Char} (hn : word ≠ []) (hw : ∀ c ∈ word, c.toNat < 128 ∧ isQuote c = false)
    (s : String) : ScansAlike s (findOutside word (bytes s)) (findOutside word s.toList) := by
  refine scansAlike_of_cut (aroundOutside? word s.toList) Prod.fst ?_ ?_ fun cut hcut => ?_
  · rw [bytes_eq_units, findOutside_units hw]
  · rw [← findOutside_units hw, units_char]
  · exact ⟨_, eq_append_of_aroundOutside? hn hcut⟩

theorem scansAlike_commaAt (s : String) : ScansAlike s (commaAt (bytes s)) (commaAt s.toList) := by
  refine scansAlike_of_cut (aroundComma? s.toList) Prod.fst ?_ ?_ fun cut hcut => ?_
  · rw [bytes_eq_units, commaAt_units]
  · rw [← commaAt_units, units_char]
  · exact ⟨',' :: cut.2, eq_append_of_aroundComma? hcut⟩

end

/-- **Bytes are scanned as characters are, and no scan or cut ends in a crash.** A byte that looks like ASCII is a
character of its own; from it, the end of a literal and the parenthesis that closes are found as from that character.
A word of ASCII without quotes, and a comma, are found as among the characters. What is cut out at these places is
what reading from the front gives: both sides of a comma, the value of a literal, the test of a span, the condition of
an expression, the parts of a lambda filter, and a condition without an `AND` at its end. -/
theorem scans_alike_without_crash (s : String) :
    (∀ i u, (bytes s)[i]? = some u → code u < 128 → ∃ k c, s.toList[k]? = some c ∧ c.toNat = code u ∧ i = offset s k ∧
      ScansAlike s (skipQuoted (bytes s) i) (skipQuoted s.toList k) ∧
      (c = '(' → ScansAlike s (matchingParen (bytes s) i) (matchingParen s.toList k))) ∧
    (∀ word, word ≠ [] → (∀ c ∈ word, c.toNat < 128 ∧ isQuote c = false) →
      ScansAlike s (findOutside word (bytes s)) (findOutside word s.toList)) ∧
    ScansAlike s (commaAt (bytes s)) (commaAt s.toList) ∧
    splitComma s = .ok ((aroundComma? s.toList).map fun cut => (String.ofList cut.1, String.ofList cut.2)) ∧
    unquote s = .ok (String.ofList (decode s.toList)) ∧
    readTest s = .ok (Test.ofSpan? s.toList) ∧
    (∀ d, compile d s = .ok (Condition.compile d s)) ∧
    splitLambda s = .ok (LambdaText.ofText s) ∧
    dropDanglingAnd s = .ok (String.ofList (QueryParts.withoutDanglingAnd s.toList)) := by
  refine ⟨fun i u hi hu => ?_, fun word hn hw => scansAlike_findOutside hn hw s, scansAlike_commaAt s, splitComma_eq s,
    unquote_eq s, readTest_eq s, fun d => compile_eq d s, splitLambda_eq s, dropDanglingAnd_eq s⟩
  rw [bytes_eq_units] at hi
  obtain ⟨a, c, b, hs, rfl, hc⟩ := exists_character hu hi
  have hget : s.toList[width Char a]? = some c := by
    rw [hs, width_char, List.getElem?_append_right (Nat.le_refl _), Nat.sub_self, List.getElem?_cons_zero]
  refine ⟨width Char a, c, hget, hc, (offset_of_append hs).symm, scansAlike_skipQuoted (hc ▸ hu) hs, ?_⟩
  rintro rfl
  exact scansAlike_matchingParen hs

/-- The literal and the parentheses of a text with accents. -/
theorem scans_alike_with_accents :
    let s := "(é,'ù')"
    (bytes s)[0]? = some 40 ∧ (bytes s)[4]? = some 39 ∧
      (∃ k c, s.toList[k]? = some c ∧ c.toNat = 39 ∧ 4 = offset s k ∧
        ScansAlike s (skipQuoted (bytes s) 4) (skipQuoted s.toList k)) ∧
      (∃ k, s.toList[k]? = some '(' ∧ 0 = offset s k ∧
        ScansAlike s (matchingParen (bytes s) 0) (matchingParen s.toList k)) ∧
      ScansAlike s (findOutside Test.containsWord (bytes s)) (findOutside Test.containsWord s.toList) := by
  intro s
  have hopen : (bytes s)[0]? = some 40 := by decide +kernel
  have hquote : (bytes s)[4]? = some 39 := by decide +kernel
  obtain ⟨hascii, hword, -⟩ := scans_alike_without_crash s
  obtain ⟨k, c, hk, hc, hoffset, hskip, -⟩ := hascii 4 39 hquote (by decide)
  obtain ⟨k', c', hk', hc', hoffset', -, hparen⟩ := hascii 0 40 hopen (by decide)
  obtain rfl : c' = '(' := toNat_injective hc'
  exact ⟨hopen, hquote, ⟨k, c, hk, hc, hoffset, hskip⟩, ⟨k', hk', hoffset', hparen rfl⟩,
    hword Test.containsWord (by decide) (ascii_and_unquoted (by decide))⟩

end RelQuery.Bytes
