import RelQuery.Text.Quoted
import RelQuery.Text.Split

/-!
# Replacing a word

A text is the pieces between the occurrences of a word that are replaced, with the word between them; replacing puts
another word there.

* `intercalate_fragments`, `replaceWord_eq_intercalate` : the pieces, joined by the one word and by the other;
* `takeWhile_replaceWord` : in a run of characters that the word consists of, it is replaced as in the whole text;
* `replace_double` : replacing a doubled quote by a single one collapses it.
-/

namespace RelQuery.Text

variable {a : Char} {word new : List Char}

/-! ## One occurrence at a time -/

theorem replaceWord_strip? {s rest : List Char} (h : strip? (a :: word) s = some rest) :
    replaceWord a word new s = new ++ replaceWord a word new rest := by
  cases s with
  | nil => cases h
  | cons c s =>
    rw [strip?] at h
    split at h
    next hc =>
      subst hc
      rw [replaceWord, if_pos rfl]
      split
      next r hr =>
        obtain rfl : r = rest := Option.some.inj (hr.symm.trans h)
        rfl
      next hr =>
        rw [h] at hr
        cases hr
    next => cases h

theorem replaceWord_cons {c : Char} {s : List Char} (h : strip? (a :: word) (c :: s) = none) :
    replaceWord a word new (c :: s) = c :: replaceWord a word new s := by
  rw [strip?] at h
  rw [replaceWord]
  split at h
  next hc =>
    rw [if_pos hc]
    split
    next r hr =>
      rw [h] at hr
      cases hr
    next => rfl
  next hc => rw [if_neg hc]

/-! ## Pieces between occurrences -/

/-- The pieces of a text between the occurrences of `a :: word`, taken from left to right without overlaps. -/
def fragments (a : Char) (word : List Char) : List Char → List (List Char)
  | [] => [[]]
  | c :: s =>
    match _h : strip? (a :: word) (c :: s) with
    | some rest => [] :: fragments a word rest
    | none => consPiece c (fragments a word s)
termination_by s => s.length
decreasing_by
  · rw [eq_append_of_strip? _h]
    simp only [List.cons_append, List.length_cons, List.length_append]
    omega
  · simp

theorem fragments_ne_nil (a : Char) (word s : List Char) : fragments a word s ≠ [] := by
  fun_cases fragments a word s with
  | case1 => simp
  | case2 => simp
  | case3 c s => cases fragments a word s <;> simp [consPiece]

theorem intercalate_consPiece (sep : List Char) (c : Char) {ws : List (List Char)} (h : ws ≠ []) :
    sep.intercalate (consPiece c ws) = c :: sep.intercalate ws := by
  match ws with
  | [] => exact absurd rfl h
  | [_] => simp [consPiece]
  | _ :: _ :: _ => simp [consPiece, List.intercalate_cons_cons]

/-- The pieces, joined by the word, are the text. -/
theorem intercalate_fragments (a : Char) (word s : List Char) :
    (a :: word).intercalate (fragments a word s) = s := by
  fun_induction fragments a word s with
  | case1 => rfl
  | case2 c s rest h ih =>
    rw [List.intercalate_cons_of_ne_nil (fragments_ne_nil a word rest), ih, List.nil_append, ← eq_append_of_strip? h]
  | case3 c s h ih => rw [intercalate_consPiece _ c (fragments_ne_nil a word s), ih]

/-- **Replacing a word** is joining the pieces by another. -/
theorem replaceWord_eq_intercalate (a : Char) (word new s : List Char) :
    replaceWord a word new s = new.intercalate (fragments a word s) := by
  fun_induction fragments a word s with
  | case1 => simp [replaceWord]
  | case2 c s rest h ih =>
    rw [replaceWord_strip? h, List.intercalate_cons_of_ne_nil (fragments_ne_nil a word rest), ih, List.nil_append]
  | case3 c s h ih => rw [replaceWord_cons h, intercalate_consPiece _ c (fragments_ne_nil a word s), ih]

/-- A text is not empty because a word of it is replaced by one that is not. -/
theorem isEmpty_replace {word new : List Char} (hnew : new ≠ []) (s : List Char) :
    (replace word new s).isEmpty = s.isEmpty := by
  cases word with
  | nil => rfl
  | cons a word =>
    rw [replace]
    cases s with
    | nil => rw [replaceWord]
    | cons c s =>
      cases h : strip? (a :: word) (c :: s) with
      | some rest => simp [replaceWord_strip? h, hnew]
      | none => simp [replaceWord_cons h]

/-! ## Runs -/

/-- **In a run** of characters that the two words consist of, the one is replaced as in the whole text. -/
theorem takeWhile_replaceWord {p : Char → Bool} (hword : ∀ x ∈ a :: word, p x = true) (hnew : ∀ x ∈ new, p x = true)
    (s : List Char) : (replaceWord a word new s).takeWhile p = replaceWord a word new (s.takeWhile p) := by
  fun_induction fragments a word s with
  | case1 => simp [replaceWord]
  | case2 c s rest h ih =>
    have hrun : (c :: s).takeWhile p = (a :: word) ++ rest.takeWhile p := by
      rw [eq_append_of_strip? h, List.takeWhile_append_of_pos hword]
    rw [hrun, replaceWord_strip? h, replaceWord_strip? (strip?_append _ _), List.takeWhile_append_of_pos hnew, ih]
  | case3 c s h ih =>
    rw [replaceWord_cons h]
    by_cases hc : p c = true
    · -- the word does not begin in the run either
      have hrun : strip? (a :: word) (c :: s.takeWhile p) = none := by
        cases hr : strip? (a :: word) (c :: s.takeWhile p) with
        | none => rfl
        | some r =>
          have he : c :: s = (a :: word) ++ (r ++ s.dropWhile p) := by
            rw [← List.append_assoc, ← eq_append_of_strip? hr, List.cons_append, List.takeWhile_append_dropWhile]
          rw [he, strip?_append] at h
          cases h
      rw [List.takeWhile_cons_of_pos hc, List.takeWhile_cons_of_pos hc, replaceWord_cons hrun, ih]
    · rw [List.takeWhile_cons_of_neg hc, List.takeWhile_cons_of_neg hc, replaceWord]

/-! ## Doubled quotes -/

/-- Doubled quotes are collapsed by replacing them. -/
theorem replace_double (q : Char) (s : List Char) : replace [q, q] [q] s = collapse q s := by
  show replaceWord q [q] [q] s = collapse q s
  fun_induction collapse q s with
  | case1 => rw [replaceWord]
  | case2 c => rw [replaceWord_cons (by simp [strip?]), replaceWord]
  | case3 c d s h ih =>
    obtain ⟨rfl, rfl⟩ := h
    have hs : strip? [d, d] (d :: d :: s) = some s := strip?_append [d, d] s
    rw [replaceWord_strip? hs, ih]
    rfl
  | case4 c d s h ih =>
    have hn : strip? [q, q] (c :: d :: s) = none := by
      simp only [strip?]
      grind
    rw [replaceWord_cons hn, ih]

theorem collapse_of_contains_eq_false {q : Char} {s : List Char} (h : contains [q, q] s = false) :
    collapse q s = s := by
  fun_induction collapse q s with
  | case1 => rfl
  | case2 => rfl
  | case3 c d s hc => simp [contains, cut?, strip?, hc] at h
  | case4 c d s hc ih =>
    rw [ih]
    simp only [contains, cut?, Option.isSome_eq_false_iff] at h ⊢
    split at h
    · cases h
    · simpa using h

end RelQuery.Text
