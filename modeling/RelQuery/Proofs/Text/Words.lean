import RelQuery.Proofs.Text.Pieces

/-!
# The words of a text

A word has no blank in it and is not empty. The words of a text are what stands between its blanks; they come apart at
every blank (`words_append_cons`), and the first of them is followed by a blank or by nothing.

* `Text.words_eq_nil_iff` : the texts without a word;
* `Text.words_eq_singleton_iff` : the texts of one word;
* `Text.words_eq_pair_iff` : the texts of two words.
-/

namespace RelQuery.Text

variable {s l m r w v : List Char}

/-- A text that is not empty and has no blank in it. -/
def IsWord (w : List Char) : Prop :=
  w ≠ [] ∧ ∀ c ∈ w, isBlank c = false

/-- **Words come apart** at a blank. -/
theorem words_append_cons {c : Char} (hc : isBlank c = true) (s t : List Char) :
    words (s ++ c :: t) = words s ++ words t := by
  rw [words, pieces_append_cons hc, List.filter_append]
  rfl

theorem IsWord.words (h : IsWord w) : words w = [w] := by
  simp [Text.words, pieces_eq_singleton h.2, h.1]

/-- A word is there exactly if some character is no blank. -/
theorem words_eq_nil_iff : words s = [] ↔ isBlankText s = true := by
  have hpieces : words s = [] ↔ ∀ w ∈ pieces isBlank s, ∀ c ∈ w, False := by
    simp [words, List.eq_nil_iff_forall_not_mem]
  rw [hpieces, forall_mem_pieces_iff]
  simp [isBlankText]

theorem words_blanks_append (hl : isBlankText l = true) (s : List Char) : words (l ++ s) = words s := by
  induction l with
  | nil => rfl
  | cons c l ih =>
    obtain ⟨hc, hl⟩ : isBlank c = true ∧ isBlankText l = true := by simpa [isBlankText] using hl
    rw [List.cons_append, ← ih hl]
    exact words_append_cons hc [] (l ++ s)

/-- Blanks behind a text, and whatever follows them. -/
theorem words_append_of_head? (hr : ∀ c ∈ r.head?, isBlank c = true) (s : List Char) :
    words (s ++ r) = words s ++ words r := by
  cases r with
  | nil => simp [words_eq_nil_iff.2 (show isBlankText [] = true from rfl)]
  | cons c r =>
    have hc : isBlank c = true := hr c rfl
    rw [words_append_cons hc, ← List.nil_append (c :: r), words_append_cons hc]
    rfl

theorem isBlank_of_mem_head? (hr : isBlankText r = true) : ∀ c ∈ r.head?, isBlank c = true := fun c hc =>
  mem_of_isBlankText hr c (List.mem_of_mem_head? hc)

theorem words_append_blanks (hr : isBlankText r = true) (s : List Char) : words (s ++ r) = words s := by
  rw [words_append_of_head? (isBlank_of_mem_head? hr), words_eq_nil_iff.2 hr, List.append_nil]

theorem words_trim (s : List Char) : words (trim s) = words s := by
  obtain ⟨l, r, hl, hr, hs⟩ := exists_blanks_trim s
  calc words (trim s) = words (l ++ trim s ++ r) := by rw [words_append_blanks hr, words_blanks_append hl]
    _ = words s := by rw [← hs]

/-! ## The first word -/

/-- In a text that is not blank, the first word stands behind blanks, and in front of a blank or of nothing. -/
theorem exists_first_word (h : isBlankText s = false) :
    ∃ l w rest, s = l ++ w ++ rest ∧ isBlankText l = true ∧ IsWord w ∧ ∀ c ∈ rest.head?, isBlank c = true := by
  obtain ⟨l, hl, hs⟩ := exists_blanks_trimStart s
  cases ht : trimStart s with
  | nil =>
    have hblank : isBlankText s = true := List.all_eq_true.2 (trimStart_eq_nil_iff.1 ht)
    cases hblank.symm.trans h
  | cons c t =>
    rw [ht] at hs
    refine ⟨l, c :: t.takeWhile (!isBlank ·), t.dropWhile (!isBlank ·), ?_, hl, ⟨nofun, ?_⟩, fun x hx => ?_⟩
    · rw [List.append_assoc, List.cons_append, List.takeWhile_append_dropWhile, ← hs]
    · refine List.forall_mem_cons.2 ⟨trimStart_eq_cons ht, fun x hx => ?_⟩
      simpa using List.all_eq_true.1 (List.all_takeWhile (p := (!isBlank ·)) (l := t)) x hx
    · have hstop := List.head?_dropWhile_not (!isBlank ·) t
      rw [hx] at hstop
      simpa using hstop

theorem words_first_word (hl : isBlankText l = true) (hw : IsWord w) (hr : ∀ c ∈ r.head?, isBlank c = true) :
    words (l ++ w ++ r) = w :: words r := by
  rw [words_append_of_head? hr, words_blanks_append hl, hw.words]
  rfl

theorem words_eq_cons_iff {ws : List (List Char)} : words s = w :: ws ↔
    ∃ l rest, s = l ++ w ++ rest ∧ isBlankText l = true ∧ IsWord w ∧ (∀ c ∈ rest.head?, isBlank c = true) ∧
      words rest = ws := by
  constructor
  · intro h
    have hs : isBlankText s = false := by
      rw [Bool.eq_false_iff, ne_eq, ← words_eq_nil_iff, h]
      nofun
    obtain ⟨l, w', rest, rfl, hl, hw', hr⟩ := exists_first_word hs
    obtain ⟨rfl, rfl⟩ := List.cons.inj ((words_first_word hl hw' hr).symm.trans h)
    exact ⟨l, rest, rfl, hl, hw', hr, rfl⟩
  · rintro ⟨l, rest, rfl, hl, hw, hr, rfl⟩
    exact words_first_word hl hw hr

/-- **A text of one word** is the word between blanks. -/
theorem words_eq_singleton_iff : words s = [w] ↔
    ∃ l r, s = l ++ w ++ r ∧ isBlankText l = true ∧ isBlankText r = true ∧ IsWord w := by
  rw [words_eq_cons_iff]
  constructor
  · rintro ⟨l, r, rfl, hl, hw, -, hr⟩
    exact ⟨l, r, rfl, hl, words_eq_nil_iff.1 hr, hw⟩
  · rintro ⟨l, r, rfl, hl, hr, hw⟩
    exact ⟨l, r, rfl, hl, hw, isBlank_of_mem_head? hr, words_eq_nil_iff.2 hr⟩

/-- **A text of two words** is the words between blanks, with one blank at least between them. -/
theorem words_eq_pair_iff : words s = [w, v] ↔
    ∃ l m r, s = l ++ w ++ m ++ v ++ r ∧ isBlankText l = true ∧ isBlankText m = true ∧ isBlankText r = true ∧
      m ≠ [] ∧ IsWord w ∧ IsWord v := by
  rw [words_eq_cons_iff]
  constructor
  · rintro ⟨l, rest, rfl, hl, hw, hhead, hrest⟩
    obtain ⟨m, r, rfl, hm, hr, hv⟩ := words_eq_singleton_iff.1 hrest
    refine ⟨l, m, r, by simp, hl, hm, hr, ?_, hw, hv⟩
    rintro rfl
    -- without a blank in between, the second word would begin with one
    obtain ⟨c, t, rfl⟩ := List.exists_cons_of_ne_nil hv.1
    have hc := hv.2 c List.mem_cons_self
    simp [hhead c rfl] at hc
  · rintro ⟨l, m, r, rfl, hl, hm, hr, hne, hw, hv⟩
    refine ⟨l, m ++ v ++ r, by simp, hl, hw, ?_, words_eq_singleton_iff.2 ⟨m, r, rfl, hm, hr, hv⟩⟩
    obtain ⟨c, t, rfl⟩ := List.exists_cons_of_ne_nil hne
    exact fun x hx => isBlank_of_mem_head? hm x hx

end RelQuery.Text
