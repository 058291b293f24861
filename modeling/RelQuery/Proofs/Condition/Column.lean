import RelQuery.Condition.Test
import RelQuery.Proofs.Text.Search

/-!
# The column of a path

A column is what stands behind the last slash of its path, blanks around the path apart. So text in front of a slash
does not matter to it (`columnOf_append`), and all text behind the last one shows in it (`squeeze_columnOf_append`).
-/

namespace RelQuery.Test

open Text

/-- A path that begins with a slash keeps it. -/
theorem exists_trim_slash (y : List Char) :
    ∃ e r, trim ('/' :: y) = '/' :: e ∧ y = e ++ r ∧ isBlankText r = true := by
  have hstart : trimStart ('/' :: y) = '/' :: y := by simp [trimStart, show isBlank '/' = false from rfl]
  obtain ⟨r, hr, hy⟩ := exists_blanks_trimEnd ('/' :: y)
  have ht : trim ('/' :: y) = trimEnd ('/' :: y) := by rw [trim, hstart]
  rw [ht]
  cases he : trimEnd ('/' :: y) with
  | nil =>
    rw [he, List.nil_append] at hy
    subst hy
    exact absurd List.mem_cons_self (notMem_of_isBlankText hr (x := '/') rfl)
  | cons c e =>
    rw [he] at hy
    obtain ⟨rfl, hye⟩ := List.cons.inj hy
    exact ⟨e, r, rfl, hye, hr⟩

/-- Behind the last slash, nothing in front of it matters. -/
theorem columnOf_append_cons {y : List Char} (h : '/' ∉ y) (z : List Char) :
    columnOf (z ++ '/' :: y) = columnOf ('/' :: y) := by
  obtain ⟨e, r, ht, rfl, hr⟩ := exists_trim_slash y
  obtain ⟨l, hl, hz⟩ := exists_blanks_trimStart z
  have he : '/' ∉ e := fun hm => h (List.mem_append_left r hm)
  have htight : Tight (trimStart z ++ '/' :: e) := by
    refine Tight.append_left (ht ▸ tight_trim _) (by simp) ?_
    intro c hc
    obtain ⟨m, hm⟩ := List.head?_eq_some_iff.1 hc
    exact trimStart_eq_cons hm
  have hsplit : z ++ '/' :: (e ++ r) = l ++ (trimStart z ++ '/' :: e) ++ r := by
    generalize trimStart z = m at hz
    simp [hz]
  rw [columnOf, columnOf, hsplit, trim_of_tight hl hr htight, ht, lastSegment_append_cons _ he]
  exact (lastSegment_append_cons [] he).symm

/-- The last slash of a text. -/
theorem exists_append_slash {y : List Char} (h : '/' ∈ y) : ∃ a b, y = a ++ '/' :: b ∧ '/' ∉ b := by
  induction y with
  | nil => cases h
  | cons c y ih =>
    by_cases hy : '/' ∈ y
    · obtain ⟨a, b, rfl, hb⟩ := ih hy
      exact ⟨c :: a, b, rfl, hb⟩
    · obtain rfl : '/' = c := by simpa [hy] using h
      exact ⟨[], y, rfl, hy⟩

/-- **In front of a slash, text does not matter** to the column. -/
theorem columnOf_append {y : List Char} (h : '/' ∈ y) (x : List Char) : columnOf (x ++ y) = columnOf y := by
  obtain ⟨a, b, rfl, hb⟩ := exists_append_slash h
  rw [← List.append_assoc, columnOf_append_cons hb, columnOf_append_cons hb]

/-- Blanks may be deleted before the last segment is taken, or after. -/
theorem squeeze_lastSegment (s : List Char) : squeeze (lastSegment s) = lastSegment (squeeze s) := by
  have h : ∀ s : List Char, (s.takeWhile (· ≠ '/')).filter (fun c => !isBlank c) =
      (s.filter fun c => !isBlank c).takeWhile (· ≠ '/') := by
    intro s
    induction s with
    | nil => rfl
    | cons c s ih =>
      by_cases hc : c = '/'
      · subst hc
        simp [show isBlank '/' = false from rfl]
      · by_cases hb : isBlank c = true
        · simpa [hc, hb] using ih
        · simpa [hc, hb] using ih
  rw [squeeze, squeeze, lastSegment, lastSegment, List.filter_reverse, h, List.filter_reverse]

/-- **Behind the last slash, all text shows** in the column, blanks apart. -/
theorem squeeze_columnOf_append {y : List Char} (h : '/' ∉ y) (x : List Char) :
    ∃ u, squeeze (columnOf (x ++ y)) = u ++ squeeze y := by
  have hy : ∀ c ∈ (squeeze y).reverse, decide (c ≠ '/') = true := by
    intro c hc
    have hm : c ∈ y := (List.mem_filter.1 (List.mem_reverse.1 hc)).1
    have hne : c ≠ '/' := by
      rintro rfl
      exact h hm
    simpa using hne
  rw [columnOf, squeeze_lastSegment, squeeze_trim, squeeze_append, lastSegment, List.reverse_append,
    List.takeWhile_append_of_pos hy]
  exact ⟨_, by rw [List.reverse_append, List.reverse_reverse]⟩

end RelQuery.Test
