import RelQuery.Text.Blank

/-!
# What trimming leaves

Trimming leaves the one part of a text that is `Tight`, with blanks before and behind it: such a part is there
(`exists_blanks_trim`, `tight_trim`), and there is no other (`trim_of_tight`). Nothing but blanks is taken away
(`squeeze_trim`).
-/

namespace RelQuery.Text

/-- No blank is a capital letter. -/
theorem toLower_of_isBlank {c : Char} (h : isBlank c = true) : c.toLower = c := by
  have hn : ¬(65 ≤ c.toNat ∧ c.toNat ≤ 90) := by
    simp only [isBlank, Bool.or_eq_true, Bool.and_eq_true, decide_eq_true_eq, beq_iff_eq] at h
    omega
  unfold Char.toLower
  split
  next hc => exact absurd ⟨hc.1, hc.2⟩ hn
  next => rfl

/-- Neither the first nor the last character is a blank. -/
def Tight (s : List Char) : Prop :=
  (∀ c ∈ s.head?, isBlank c = false) ∧ ∀ c ∈ s.getLast?, isBlank c = false

theorem mem_of_isBlankText {s : List Char} (h : isBlankText s = true) : ∀ c ∈ s, isBlank c = true := by
  simpa [isBlankText] using h

theorem notMem_of_isBlankText {s : List Char} (h : isBlankText s = true) {x : Char} (hx : isBlank x = false) :
    x ∉ s := by
  intro hm
  simp [mem_of_isBlankText h x hm] at hx

@[simp] theorem isBlankText_append (s t : List Char) : isBlankText (s ++ t) = (isBlankText s && isBlankText t) := by
  simp [isBlankText]

/-- The blanks in front, and what is left of them. -/
theorem exists_blanks_trimStart (s : List Char) : ∃ l, isBlankText l = true ∧ s = l ++ trimStart s :=
  ⟨s.takeWhile isBlank, List.all_takeWhile, List.takeWhile_append_dropWhile.symm⟩

theorem exists_blanks_trimEnd (s : List Char) : ∃ r, isBlankText r = true ∧ s = trimEnd s ++ r := by
  obtain ⟨l, hl, hs⟩ := exists_blanks_trimStart s.reverse
  refine ⟨l.reverse, by simpa [isBlankText] using hl, ?_⟩
  have h := congrArg List.reverse hs
  simpa [trimEnd, trimStart] using h

theorem exists_blanks_trim (s : List Char) :
    ∃ l r, isBlankText l = true ∧ isBlankText r = true ∧ s = l ++ trim s ++ r := by
  obtain ⟨l, hl, hs⟩ := exists_blanks_trimStart s
  obtain ⟨r, hr, ht⟩ := exists_blanks_trimEnd (trimStart s)
  refine ⟨l, r, hl, hr, ?_⟩
  calc s = l ++ trimStart s := hs
    _ = l ++ (trim s ++ r) := by rw [ht, trim]
    _ = l ++ trim s ++ r := (List.append_assoc ..).symm

/-- The last character that is left is no blank. -/
theorem isBlank_of_mem_getLast?_trimEnd {s : List Char} : ∀ c ∈ (trimEnd s).getLast?, isBlank c = false := by
  intro c hc
  have hh : (trimStart s.reverse).head? = some c := by
    rw [trimEnd, List.getLast?_reverse] at hc
    exact hc
  obtain ⟨m, hm⟩ := List.head?_eq_some_iff.1 hh
  exact trimStart_eq_cons hm

theorem tight_trim (s : List Char) : Tight (trim s) := by
  obtain ⟨r, _, ht⟩ := exists_blanks_trimEnd (trimStart s)
  constructor
  · intro c hc
    -- the first character of the trimmed text is the first behind the leading blanks
    obtain ⟨m, hm⟩ := List.head?_eq_some_iff.1 hc
    rw [trim] at hm
    rw [hm] at ht
    exact trimStart_eq_cons ht
  · exact isBlank_of_mem_getLast?_trimEnd

theorem trimStart_of_tight {l s : List Char} (hl : isBlankText l = true) (h : ∀ c ∈ s.head?, isBlank c = false) :
    trimStart (l ++ s) = s := by
  rw [trimStart, List.dropWhile_append_of_pos (mem_of_isBlankText hl)]
  cases s with
  | nil => rfl
  | cons c s => simp [h c rfl]

theorem trimEnd_of_tight {r s : List Char} (hr : isBlankText r = true) (h : ∀ c ∈ s.getLast?, isBlank c = false) :
    trimEnd (s ++ r) = s := by
  have hl : isBlankText r.reverse = true := by simpa [isBlankText] using hr
  have := trimStart_of_tight hl (s := s.reverse) (by simpa using h)
  rw [trimStart] at this
  simp [trimEnd, this]

theorem trimEnd_trimEnd (s : List Char) : trimEnd (trimEnd s) = trimEnd s := by
  simpa using trimEnd_of_tight (r := []) rfl (isBlank_of_mem_getLast?_trimEnd (s := s))

/-- More blanks behind a text do not matter. -/
theorem trimEnd_append_blanks {r : List Char} (hr : isBlankText r = true) (s : List Char) :
    trimEnd (s ++ r) = trimEnd s := by
  obtain ⟨r', hr', hs⟩ := exists_blanks_trimEnd s
  have he : s ++ r = trimEnd s ++ (r' ++ r) := by
    rw [← List.append_assoc, ← hs]
  rw [he, trimEnd_of_tight (by simp [hr, hr']) isBlank_of_mem_getLast?_trimEnd]

/-- More text in front of a tight one, beginning with no blank, leaves it tight. -/
theorem Tight.append_left {s t : List Char} (ht : Tight t) (hn : t ≠ []) (hs : ∀ c ∈ s.head?, isBlank c = false) :
    Tight (s ++ t) := by
  constructor
  · cases s with
    | nil => exact ht.1
    | cons c s => simpa using hs
  · intro c hc
    rw [List.getLast?_append, List.getLast?_eq_some_getLast hn] at hc
    exact ht.2 c (by rw [List.getLast?_eq_some_getLast hn]; exact hc)

/-- **A tight text between blanks** is what trimming leaves. -/
theorem trim_of_tight {l m r : List Char} (hl : isBlankText l = true) (hr : isBlankText r = true) (hm : Tight m) :
    trim (l ++ m ++ r) = m := by
  cases m with
  | nil =>
    rw [trim_eq_nil_iff]
    intro c hc
    rcases List.mem_append.1 hc with hc | hc
    · exact mem_of_isBlankText hl c (by simpa using hc)
    · exact mem_of_isBlankText hr c hc
  | cons c m =>
    rw [trim, List.append_assoc, trimStart_of_tight hl (by simpa using hm.1), trimEnd_of_tight hr hm.2]

theorem trim_eq_self {s : List Char} (h : Tight s) : trim s = s := by
  simpa using trim_of_tight (l := []) (r := []) rfl rfl h

/-- The last character is left whether blanks in front are taken away or not. -/
theorem getLast?_trim (s : List Char) : (trim s).getLast? = (trimEnd s).getLast? := by
  by_cases hn : trim s = []
  · rw [hn, trimEnd_eq_nil_iff.2 (trim_eq_nil_iff.1 hn)]
  · obtain ⟨l, r, _, hr, hs⟩ := exists_blanks_trim s
    have hlast : (l ++ trim s).getLast? = (trim s).getLast? := by
      rw [List.getLast?_append, List.getLast?_eq_some_getLast hn]
      rfl
    have hend : trimEnd s = l ++ trim s :=
      (congrArg trimEnd hs).trans (trimEnd_of_tight hr (hlast ▸ (tight_trim s).2))
    rw [hend, hlast]

/-- Blanks around a text do not matter. -/
theorem trim_blanks {l r : List Char} (hl : isBlankText l = true) (hr : isBlankText r = true) (s : List Char) :
    trim (l ++ s ++ r) = trim s := by
  obtain ⟨l', r', hl', hr', hs⟩ := exists_blanks_trim s
  have hll : isBlankText (l ++ l') = true := by simp [hl, hl']
  have hrr : isBlankText (r' ++ r) = true := by simp [hr, hr']
  have he : l ++ s ++ r = (l ++ l') ++ trim s ++ (r' ++ r) := by
    generalize trim s = m at hs
    simp [hs]
  rw [he]
  exact trim_of_tight hll hrr (tight_trim s)

theorem trim_append_blanks {r : List Char} (hr : isBlankText r = true) (s : List Char) : trim (s ++ r) = trim s := by
  simpa using trim_blanks (l := []) rfl hr s

theorem trim_blanks_append {l : List Char} (hl : isBlankText l = true) (s : List Char) : trim (l ++ s) = trim s := by
  simpa using trim_blanks hl (r := []) rfl s

/-! ## Texts without their blanks -/

/-- The text without its blanks. -/
def squeeze (s : List Char) : List Char :=
  s.filter fun c => !isBlank c

@[simp] theorem squeeze_append (s t : List Char) : squeeze (s ++ t) = squeeze s ++ squeeze t :=
  List.filter_append ..

theorem squeeze_cons {c : Char} (h : isBlank c = false) (s : List Char) : squeeze (c :: s) = c :: squeeze s := by
  simp [squeeze, h]

theorem squeeze_of_isBlankText {s : List Char} (h : isBlankText s = true) : squeeze s = [] := by
  simpa [squeeze] using mem_of_isBlankText h

theorem squeeze_trim (s : List Char) : squeeze (trim s) = squeeze s := by
  obtain ⟨l, r, hl, hr, hs⟩ := exists_blanks_trim s
  have h := congrArg squeeze hs
  simpa [squeeze_of_isBlankText hl, squeeze_of_isBlankText hr] using h.symm

end RelQuery.Text
