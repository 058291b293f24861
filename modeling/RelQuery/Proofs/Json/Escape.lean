import RelQuery.Json.Basic

/-!
# Strings of a JSON text, written and read

What stands for a character between quotes is the character itself, a one-letter escape, or a `\u` escape of a control
(`Spells`). Reading takes one spelling at a time, whatever follows it.

* `literal?_escape` : a text that is written ends at the quote behind it;
* `unescape?_escape` : a text that is written reads back.
-/

namespace RelQuery.Json

open Text

/-- The spellings of a character that are written. -/
inductive Spells : Char → List Char → Prop
  | plain (c : Char) : c ≠ '"' → c ≠ '\\' → 0x20 ≤ c.toNat → Spells c [c]
  | short (c e : Char) : shortEscape? e = some c → Spells c ['\\', e]
  | control (c a b : Char) : c.toNat < 0x20 → hex? ['0', '0', a, b] = some c.toNat →
      Spells c ['\\', 'u', '0', '0', a, b]

theorem hex?_hexDigits : ∀ n < 0x20, hex? ['0', '0', hexDigit (n / 16), hexDigit (n % 16)] = some n := by
  decide

theorem spells_escapeChar (c : Char) : Spells c (escapeChar c) := by
  unfold escapeChar
  split
  case h_8 h₁ h₂ _ _ _ _ _ =>
    split
    next h => exact .control c _ _ h (hex?_hexDigits c.toNat h)
    next h => exact .plain c h₁ h₂ (Nat.le_of_not_lt h)
  all_goals exact .short _ _ rfl

/-- No one-letter escape is that of a `\u` escape. -/
theorem ne_u_of_shortEscape? {e c : Char} (h : shortEscape? e = some c) : e ≠ 'u' := by
  rintro rfl
  cases h

section

variable {c : Char} {w : List Char}

theorem literal?_spells (h : Spells c w) (s : List Char) :
    literal? (w ++ s) = (literal? s).map fun (text, rest) => (w ++ text, rest) := by
  cases h with
  | plain hq hb hc => simp [literal?, hb, Nat.not_lt.2 hc]
  | short e he => simp [literal?, ne_u_of_shortEscape? he, he]
  | control a b hc hx => simp [literal?, hx]

/-- The unit of a control stands for it, whatever follows. -/
theorem joinUnits?_control {n : Nat} (hn : n < 0x20) (us : List Unit16) :
    joinUnits? (.unit n :: us) = (joinUnits? us).map (Char.ofNat n :: ·) := by
  have hhigh : ¬(0xD800 ≤ n ∧ n < 0xDC00) := by omega
  have hlow : ¬(0xDC00 ≤ n ∧ n < 0xE000) := by omega
  have halone : ¬(0xD800 ≤ n ∧ n < 0xE000) := by omega
  cases us with
  | nil => simp only [joinUnits?, if_neg halone]
  | cons u us =>
    cases u with
    | char c => simp only [joinUnits?, if_neg halone]
    | unit low => simp only [joinUnits?, if_neg hhigh, if_neg hlow]

/-- A spelling is read as one unit, which stands for its character. -/
theorem exists_units?_spells (h : Spells c w) (s : List Char) : ∃ u, units? (w ++ s) = (units? s).map (u :: ·) ∧
    ∀ us, joinUnits? (u :: us) = (joinUnits? us).map (c :: ·) := by
  cases h with
  | plain hq hb hc => exact ⟨.char c, by simp [units?, hb], fun us => by rw [joinUnits?]⟩
  | short e he =>
    refine ⟨.char c, ?_, fun us => by rw [joinUnits?]⟩
    cases hs : units? s <;> simp [units?, ne_u_of_shortEscape? he, he, hs]
  | control a b hc hx =>
    refine ⟨.unit c.toNat, ?_, fun us => by rw [joinUnits?_control hc, Char.ofNat_toNat]⟩
    cases hs : units? s <;> simp [units?, hx, hs]

theorem unescape?_spells (h : Spells c w) (s : List Char) : unescape? (w ++ s) = (unescape? s).map (c :: ·) := by
  obtain ⟨u, hu, hj⟩ := exists_units?_spells h s
  rw [unescape?, unescape?, hu]
  cases units? s with
  | none => rfl
  | some us => exact hj us

end

theorem escape_cons (c : Char) (s : List Char) : escape (c :: s) = escapeChar c ++ escape s :=
  List.flatMap_cons

/-- **A text that is written** is a string up to the quote behind it. -/
theorem literal?_escape (s rest : List Char) : literal? (escape s ++ '"' :: rest) = some (escape s, rest) := by
  induction s with
  | nil => rfl
  | cons c s ih => rw [escape_cons, List.append_assoc, literal?_spells (spells_escapeChar c), ih, Option.map_some]

/-- **A text that is written reads back.** -/
theorem unescape?_escape (s : List Char) : unescape? (escape s) = some s := by
  induction s with
  | nil => rfl
  | cons c s ih => rw [escape_cons, unescape?_spells (spells_escapeChar c), ih, Option.map_some]

theorem text?_ofText (s : String) : (ofText s).text? = some s := by
  rw [ofText, text?, unescape?_escape, Option.map_some, String.ofList_toList]

end RelQuery.Json
