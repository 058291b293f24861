import RelQuery.Text.Blank

/-!
# Cutting a text at a character or at a word

* `eq_append_of_strip?` : what is left after a given front is the rest of the text;
* `append_of_cut?` : the two sides of a cut and the word between them are the text;
* `intercalate_pieces` : the pieces, put together again, are the text.
-/

namespace RelQuery.Text

/-! ## Words at the front and inside -/

section

variable {α : Type} [DecidableEq α]

/-- What follows `front` if the text begins with it. -/
def strip? : List α → List α → Option (List α)
  | [], s => some s
  | _ :: _, [] => none
  | a :: front, c :: s => if a = c then strip? front s else none

theorem eq_append_of_strip? {front s rest : List α} (h : strip? front s = some rest) : s = front ++ rest := by
  induction front generalizing s with
  | nil => simpa [strip?] using h
  | cons a front ih =>
    cases s with
    | nil => simp [strip?] at h
    | cons c s =>
      by_cases hc : a = c
      · subst hc
        simp only [strip?, if_pos] at h
        simp [ih h]
      · simp [strip?, hc] at h

theorem strip?_append (front s : List α) : strip? front (front ++ s) = some s := by
  induction front with
  | nil => rfl
  | cons a front ih => simpa [strip?] using ih

/-- Stripping a front that is present never makes the text longer. -/
theorem length_le_of_strip? {front s rest : List α} (h : strip? front s = some rest) : rest.length ≤ s.length := by
  rw [eq_append_of_strip? h]
  simp

/-- The text before and after the first occurrence of `word`. -/
def cut? (word : List α) : List α → Option (List α × List α)
  | [] => if word.isEmpty then some ([], []) else none
  | c :: s =>
    match strip? word (c :: s) with
    | some rest => some ([], rest)
    | none => (cut? word s).map fun (before, rest) => (c :: before, rest)

theorem append_of_cut? {word s before rest : List α} (h : cut? word s = some (before, rest)) :
    s = before ++ word ++ rest := by
  induction s generalizing before with
  | nil =>
    cases word with
    | nil => simp_all [cut?]
    | cons a word => simp [cut?] at h
  | cons c s ih =>
    simp only [cut?] at h
    split at h
    next r hr =>
      obtain ⟨rfl, rfl⟩ := by simpa using h
      simpa using eq_append_of_strip? hr
    next =>
      obtain ⟨⟨b, r⟩, hb, he⟩ := Option.map_eq_some_iff.1 h
      obtain ⟨rfl, rfl⟩ := by simpa using he
      simp [ih hb]

end

/-- Whether `word` occurs in the text. -/
def contains (word s : List Char) : Bool :=
  (cut? word s).isSome

/-- Every occurrence of the word `a :: word`, taken from left to right without overlaps, becomes `new`. -/
def replaceWord (a : Char) (word new : List Char) : List Char → List Char
  | [] => []
  | c :: s =>
    if a = c then
      match _h : strip? word s with
      | some rest => new ++ replaceWord a word new rest
      | none => c :: replaceWord a word new s
    else c :: replaceWord a word new s
termination_by s => s.length
decreasing_by
  · have := length_le_of_strip? _h
    simp only [List.length_cons]
    omega
  all_goals simp

/-- Every occurrence of `word` becomes `new`; the empty word occurs nowhere. -/
def replace (word new s : List Char) : List Char :=
  match word with
  | [] => s
  | a :: word => replaceWord a word new s

/-! ## Pieces between separators -/

/-- Puts a character in front of the first piece. -/
def consPiece (c : Char) : List (List Char) → List (List Char)
  | [] => [[c]]
  | w :: ws => (c :: w) :: ws

/-- The pieces between the characters that satisfy `p`: always one more than there are such characters. -/
def pieces (p : Char → Bool) : List Char → List (List Char)
  | [] => [[]]
  | c :: s => if p c then [] :: pieces p s else consPiece c (pieces p s)

theorem pieces_ne_nil (p : Char → Bool) (s : List Char) : pieces p s ≠ [] := by
  cases s with
  | nil => simp [pieces]
  | cons c s =>
    simp only [pieces]
    split
    · simp
    · cases pieces p s <;> simp [consPiece]

/-- The pieces at one separator, joined by it, are the text. -/
theorem intercalate_pieces (sep : Char) (s : List Char) :
    [sep].intercalate (pieces (· == sep) s) = s := by
  induction s with
  | nil => simp [pieces, List.intercalate]
  | cons c s ih =>
    have hne := pieces_ne_nil (· == sep) s
    by_cases h : c = sep
    · subst h
      simp only [pieces, beq_self_eq_true, if_true]
      cases hp : pieces (· == c) s with
      | nil => exact absurd hp hne
      | cons w ws => rw [hp] at ih; simpa [List.intercalate] using ih
    · have hc : (c == sep) = false := by simpa using h
      simp only [pieces, hc]
      cases hp : pieces (· == sep) s with
      | nil => exact absurd hp hne
      | cons w ws =>
        rw [hp] at ih
        cases ws <;> simp_all [consPiece, List.intercalate]

/-- The maximal runs of characters that are not blank. -/
def words (s : List Char) : List (List Char) :=
  (pieces isBlank s).filter (!·.isEmpty)

/-- The entries of a comma-separated list: trimmed, and without the blank ones. -/
def entries (s : List Char) : List (List Char) :=
  ((pieces (· == ',') s).map trim).filter (!·.isEmpty)

/-- The part of a path after its last slash. -/
def lastSegment (path : List Char) : List Char :=
  (path.reverse.takeWhile (· ≠ '/')).reverse

end RelQuery.Text
