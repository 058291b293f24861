/-!
# Blank characters

The white space of every text this library reads is the Unicode property White_Space, which is larger than the ASCII
blanks and excludes the information separators U+001C to U+001F.

* `trim_eq_nil_iff` : trimming leaves nothing exactly of texts made of blanks only.
-/

namespace RelQuery.Text

/-- The Unicode property White_Space. -/
def isBlank (c : Char) : Bool :=
  let n := c.toNat
  (9 ≤ n && n ≤ 13) || n == 0x20 || n == 0x85 || n == 0xA0 || n == 0x1680 || (0x2000 ≤ n && n ≤ 0x200A) ||
    n == 0x2028 || n == 0x2029 || n == 0x202F || n == 0x205F || n == 0x3000

/-! ## Trimming -/

/-- The text without its leading blanks. -/
def trimStart (s : List Char) : List Char :=
  s.dropWhile isBlank

/-- The text without its trailing blanks. -/
def trimEnd (s : List Char) : List Char :=
  (s.reverse.dropWhile isBlank).reverse

/-- The text without its leading and trailing blanks. -/
def trim (s : List Char) : List Char :=
  trimEnd (trimStart s)

/-- A text of blanks only. -/
def isBlankText (s : List Char) : Bool :=
  s.all isBlank

theorem trimStart_eq_nil_iff {s : List Char} : trimStart s = [] ↔ ∀ c ∈ s, isBlank c = true := by
  induction s with
  | nil => simp [trimStart]
  | cons c s ih =>
    by_cases h : isBlank c = true
    · have hs : trimStart (c :: s) = trimStart s := by simp [trimStart, h]
      rw [hs, ih, List.forall_mem_cons]
      exact ⟨fun hb => ⟨h, hb⟩, fun hb => hb.2⟩
    · simp [trimStart, h]

theorem trimEnd_eq_nil_iff {s : List Char} : trimEnd s = [] ↔ ∀ c ∈ s, isBlank c = true := by
  have h := trimStart_eq_nil_iff (s := s.reverse)
  simp only [trimStart] at h
  simp [trimEnd, h]

/-- What is left after the leading blanks begins with no blank. -/
theorem trimStart_eq_cons {s r : List Char} {c : Char} (h : trimStart s = c :: r) : isBlank c = false := by
  induction s with
  | nil => simp [trimStart] at h
  | cons a s ih =>
    by_cases ha : isBlank a = true
    · exact ih (by simpa [trimStart, ha] using h)
    · obtain ⟨rfl, _⟩ : a = c ∧ s = r := by simpa [trimStart, ha] using h
      simpa using ha

/-- A trimmed text is empty only if the text was blank throughout. -/
theorem trim_eq_nil_iff {s : List Char} : trim s = [] ↔ ∀ c ∈ s, isBlank c = true := by
  constructor
  · intro h
    apply trimStart_eq_nil_iff.1
    match hs : trimStart s with
    | [] => rfl
    | c :: r =>
      have hc : isBlank c = true := trimEnd_eq_nil_iff.1 h c (by simp [hs])
      simp [trimStart_eq_cons hs] at hc
  · intro h
    simp [trim, trimStart_eq_nil_iff.2 h, trimEnd]

theorem isBlankText_iff {s : List Char} : isBlankText s = true ↔ trim s = [] := by
  simp [isBlankText, trim_eq_nil_iff]

end RelQuery.Text
