import RelQuery.Text.Split
import RelQuery.Proofs.Text.Trim
import Mathlib.Data.List.Basic

/-!
# Pieces of a text

A text is parted at its separators, and what is parted is put together again by joining the pieces. The entries of a
comma-separated list are its pieces, trimmed, without those of which nothing is left.

* `Text.pieces_intercalate` : words without the separator, joined by it, are the pieces;
* `Text.entries_trim` : blanks around a list do not matter;
* `Text.entries_eq_nil_iff` : the lists without an entry.
-/

namespace RelQuery.Text

/-! ## Parting at a separator -/

theorem pieces_eq_splitOn (c : Char) (s : List Char) : pieces (· == c) s = s.splitOn c := by
  induction s with
  | nil => rfl
  | cons x s ih =>
    rw [pieces, ih, List.splitOn_cons_eq_if_modifyHead]
    cases hs : s.splitOn c with
    | nil => exact absurd hs (List.splitOn_ne_nil c s)
    | cons w ws => rfl

/-- Words without the separator, joined by it, are parted again. -/
theorem pieces_intercalate {c : Char} {ws : List (List Char)} (hc : ∀ w ∈ ws, c ∉ w) (hn : ws ≠ []) :
    pieces (· == c) ([c].intercalate ws) = ws := by
  rw [pieces_eq_splitOn, List.splitOn_intercalate c hc hn]

section

variable {p : Char → Bool}

/-- A property of all characters of the pieces is one of all characters but the separators. -/
theorem forall_mem_pieces_iff {q : Char → Prop} {s : List Char} :
    (∀ w ∈ pieces p s, ∀ c ∈ w, q c) ↔ ∀ c ∈ s, p c = true ∨ q c := by
  induction s with
  | nil => simp [pieces]
  | cons c s ih =>
    rw [List.forall_mem_cons, ← ih, pieces]
    by_cases hc : p c = true
    · simp [hc]
    · cases hs : pieces p s with
      | nil => exact absurd hs (pieces_ne_nil p s)
      | cons w ws => simp [hc, consPiece, and_assoc]

/-- No piece holds the separator. -/
theorem notMem_of_mem_pieces {c : Char} {s w : List Char} (h : w ∈ pieces (· == c) s) : c ∉ w := by
  have hne : ∀ v ∈ pieces (· == c) s, ∀ x ∈ v, x ≠ c :=
    forall_mem_pieces_iff.2 fun x _ => by simpa using Decidable.em (x = c)
  exact fun hm => hne w h c hm rfl

/-- Text without a separator stands in front of the first piece. -/
theorem exists_pieces_append_left {l : List Char} (hl : ∀ c ∈ l, p c = false) (s : List Char) :
    ∃ first rest, pieces p s = first :: rest ∧ pieces p (l ++ s) = (l ++ first) :: rest := by
  induction l with
  | nil =>
    obtain ⟨first, rest, hs⟩ := List.exists_cons_of_ne_nil (pieces_ne_nil p s)
    exact ⟨first, rest, hs, hs⟩
  | cons c l ih =>
    obtain ⟨hc, hl⟩ := List.forall_mem_cons.1 hl
    obtain ⟨first, rest, hs, hls⟩ := ih hl
    exact ⟨first, rest, hs, by simp [pieces, hc, hls, consPiece]⟩

/-- A text without a separator is not parted. -/
theorem pieces_eq_singleton {s : List Char} (hs : ∀ c ∈ s, p c = false) : pieces p s = [s] := by
  obtain ⟨first, rest, hnil, hpieces⟩ := exists_pieces_append_left hs []
  obtain ⟨rfl, rfl⟩ : first = [] ∧ rest = [] := by simpa [pieces] using hnil.symm
  simpa using hpieces

/-- Text without a separator stands behind the last piece. -/
theorem exists_pieces_append_right {r : List Char} (hr : ∀ c ∈ r, p c = false) (s : List Char) :
    ∃ front last, pieces p s = front ++ [last] ∧ pieces p (s ++ r) = front ++ [last ++ r] := by
  induction s with
  | nil =>
    obtain ⟨first, rest, hs, hrs⟩ := exists_pieces_append_left hr []
    obtain ⟨rfl, rfl⟩ := by simpa [pieces] using hs
    exact ⟨[], [], rfl, by simpa using hrs⟩
  | cons c s ih =>
    obtain ⟨front, last, hs, hsr⟩ := ih
    by_cases hc : p c = true
    · exact ⟨[] :: front, last, by simp [pieces, hc, hs], by simp [pieces, hc, hsr]⟩
    · cases front with
      | nil => exact ⟨[], c :: last, by simp [pieces, hc, hs, consPiece], by simp [pieces, hc, hsr, consPiece]⟩
      | cons w front =>
        exact ⟨(c :: w) :: front, last, by simp [pieces, hc, hs, consPiece], by simp [pieces, hc, hsr, consPiece]⟩

/-- A text is parted at each separator on its own. -/
theorem pieces_append_cons {c : Char} (hc : p c = true) (s t : List Char) :
    pieces p (s ++ c :: t) = pieces p s ++ pieces p t := by
  induction s with
  | nil => simp [pieces, hc]
  | cons a s ih =>
    obtain ⟨first, rest, hs⟩ := List.exists_cons_of_ne_nil (pieces_ne_nil p s)
    by_cases ha : p a = true
    · simp [pieces, ha, ih]
    · simp [pieces, ha, ih, hs, consPiece]

end

/-! ## The entries of a list -/

/-- Blanks around a list are blanks around its first and its last entry. -/
theorem entries_trim (s : List Char) : entries (trim s) = entries s := by
  obtain ⟨l, r, hl, hr, hs⟩ := exists_blanks_trim s
  have hcomma {t : List Char} (ht : isBlankText t = true) : ∀ c ∈ t, (c == ',') = false := fun c hc => by
    simpa using fun he : c = ',' => notMem_of_isBlankText ht (x := ',') (by decide) (he ▸ hc)
  obtain ⟨first, rest, hm, hlm⟩ := exists_pieces_append_left (hcomma hl) (trim s)
  obtain ⟨front, last, hlm', hlmr⟩ := exists_pieces_append_right (hcomma hr) (l ++ trim s)
  have hpieces : (pieces (· == ',') s).map trim = (pieces (· == ',') (trim s)).map trim := by
    calc (pieces (· == ',') s).map trim = (front ++ [last ++ r]).map trim := by rw [← hlmr, ← hs]
      _ = (front ++ [last]).map trim := by simp [trim_append_blanks hr]
      _ = ((l ++ first) :: rest).map trim := by rw [← hlm', hlm]
      _ = (first :: rest).map trim := by simp [trim_blanks_append hl]
      _ = (pieces (· == ',') (trim s)).map trim := by rw [hm]
  rw [entries, entries, hpieces]

/-- A list has no entry exactly if it is commas and blanks only. -/
theorem entries_eq_nil_iff {s : List Char} : entries s = [] ↔ ∀ c ∈ s, c = ',' ∨ isBlank c = true := by
  have hpieces : entries s = [] ↔ ∀ w ∈ pieces (· == ',') s, ∀ c ∈ w, isBlank c = true := by
    simp [entries, trim_eq_nil_iff]
  rw [hpieces, forall_mem_pieces_iff]
  simp

end RelQuery.Text
