import RelQuery.Proofs.Text.Lexing

/-!
# The quote that is open

Read character by character, a text has at each place at most one quote open. A quote opens, its like closes, and
everything else leaves it; the doubled quote of a literal closes and opens at once.

* `nextQuote_injective` : the character read and the quote open behind it tell which was open in front, so two readings
  of one text that end alike began alike;
* `openQuote_join` : no quote is open behind the atoms of a text;
* `exists_atoms_of_openQuote` : a character that no quote is open in front of is an atom, so that the atoms of the text
  part there (`atoms_append_cons`).
-/

namespace RelQuery.Text

/-- The quote open behind a character, for the one open in front of it. -/
def nextQuote (q : Option Char) (c : Char) : Option Char :=
  match q with
  | none => if isQuote c then some c else none
  | some q => if c = q then none else some q

/-- The quote open behind a text, for the one open in front of it. -/
def openQuote (q : Option Char) (s : List Char) : Option Char :=
  s.foldl nextQuote q

/-- What is open is a quote. -/
def QuoteOpen (q : Option Char) : Prop :=
  ∀ c ∈ q, isQuote c = true

@[simp] theorem openQuote_nil (q : Option Char) : openQuote q [] = q := rfl

@[simp] theorem openQuote_cons (q : Option Char) (c : Char) (s : List Char) :
    openQuote q (c :: s) = openQuote (nextQuote q c) s := rfl

theorem openQuote_append (q : Option Char) (s t : List Char) : openQuote q (s ++ t) = openQuote (openQuote q s) t :=
  List.foldl_append

theorem QuoteOpen.next {q : Option Char} (h : QuoteOpen q) (c : Char) : QuoteOpen (nextQuote q c) := by
  cases q with
  | none =>
    by_cases hc : isQuote c = true
    · simp [nextQuote, hc, QuoteOpen]
    · simp [nextQuote, hc, QuoteOpen]
  | some q =>
    by_cases hc : c = q
    · simp [nextQuote, hc, QuoteOpen]
    · simpa [nextQuote, hc] using h

theorem QuoteOpen.open {q : Option Char} (h : QuoteOpen q) (s : List Char) : QuoteOpen (openQuote q s) := by
  induction s generalizing q with
  | nil => exact h
  | cons c s ih => exact ih (h.next c)

/-- A character other than a quote changes nothing. -/
theorem nextQuote_of_not_isQuote {q : Option Char} (h : QuoteOpen q) {c : Char} (hc : isQuote c = false) :
    nextQuote q c = q := by
  cases q with
  | none => simp [nextQuote, hc]
  | some q =>
    have hne : c ≠ q := by
      rintro rfl
      simp [h c rfl] at hc
    simp [nextQuote, hne]

theorem openQuote_of_not_isQuote {q : Option Char} (h : QuoteOpen q) {s : List Char}
    (hs : ∀ c ∈ s, isQuote c = false) : openQuote q s = q := by
  induction s with
  | nil => rfl
  | cons c s ih =>
    rw [openQuote_cons, nextQuote_of_not_isQuote h (hs c List.mem_cons_self)]
    exact ih fun x hx => hs x (List.mem_cons_of_mem c hx)

/-- **What is read tells what was open in front.** -/
theorem nextQuote_injective {p q : Option Char} (hp : QuoteOpen p) (hq : QuoteOpen q) {c : Char}
    (h : nextQuote p c = nextQuote q c) : p = q := by
  by_cases hc : isQuote c = true
  · cases p with
    | none =>
      cases q with
      | none => rfl
      | some q => by_cases he : c = q <;> simp_all [nextQuote]
    | some p =>
      cases q with
      | none => by_cases he : c = p <;> simp_all [nextQuote]
      | some q => by_cases he : c = p <;> by_cases he' : c = q <;> simp_all [nextQuote]
  · have hc : isQuote c = false := by simpa using hc
    rwa [nextQuote_of_not_isQuote hp hc, nextQuote_of_not_isQuote hq hc] at h

theorem openQuote_injective {p q : Option Char} (hp : QuoteOpen p) (hq : QuoteOpen q) {s : List Char}
    (h : openQuote p s = openQuote q s) : p = q := by
  induction s generalizing p q with
  | nil => exact h
  | cons c s ih => exact nextQuote_injective hp hq (ih (hp.next c) (hq.next c) h)

/-! ## Literals -/

theorem openQuote_double {q : Char} (hq : isQuote q = true) (s : List Char) :
    openQuote (some q) (double q s) = some q := by
  induction s with
  | nil => rfl
  | cons c s ih =>
    by_cases hc : c = q
    · simp [double, hc, nextQuote, hq, ih]
    · simp [double, hc, nextQuote, ih]

theorem openQuote_encode {q : Char} (hq : isQuote q = true) (s : List Char) : openQuote none (encode q s) = none := by
  rw [encode, openQuote_cons]
  simp [nextQuote, hq, openQuote_append, openQuote_double]

/-- Behind the atoms of a text no quote is open. -/
theorem openQuote_join : ∀ {as : List Atom}, Lexed as → openQuote none (join as) = none
  | [], _ => rfl
  | .char c :: as, h => by
    have hc : nextQuote none c = none := by simp [nextQuote, h.1]
    simpa [Atom.text, hc] using openQuote_join h.2
  | .quoted run :: as, h => by
    obtain ⟨⟨q, s, hq, rfl, _⟩, hl⟩ := h
    rw [join_cons, Atom.text, openQuote_append, openQuote_encode hq, openQuote_join hl]
  | .unclosed _ :: _, h => absurd h id

/-- Inside a literal the quote is closed only in front of its like. -/
theorem eq_of_openQuote_double {q c : Char} (hq : isQuote q = true) {s b t : List Char}
    (he : double q s ++ [q] = b ++ c :: t) (h : openQuote (some q) b = none) : c = q := by
  induction s generalizing b with
  | nil =>
    cases b with
    | nil => simp at h
    | cons x b => simp [double] at he
  | cons y s ih =>
    cases b with
    | nil => simp at h
    | cons x b =>
      by_cases hy : y = q
      · subst hy
        cases b with
        | nil =>
          obtain ⟨_, hyc, _⟩ : y = x ∧ y = c ∧ double y s ++ [y] = t := by simpa [double] using he
          exact hyc.symm
        | cons z b =>
          obtain ⟨rfl, rfl, ht⟩ : y = x ∧ y = z ∧ double y s ++ [y] = b ++ c :: t := by simpa [double] using he
          exact ih ht (by simpa [nextQuote, hq] using h)
      · obtain ⟨rfl, ht⟩ : y = x ∧ double q s ++ [q] = b ++ c :: t := by simpa [double, hy] using he
        exact ih ht (by simpa [nextQuote, hy] using h)

/-- Nor does a literal hold another character that no quote is open in front of. -/
theorem isQuote_of_openQuote_encode {q c : Char} (hq : isQuote q = true) {s b t : List Char}
    (he : encode q s = b ++ c :: t) (h : openQuote none b = none) : isQuote c = true := by
  cases b with
  | nil =>
    obtain ⟨rfl, _⟩ := List.cons.inj he
    exact hq
  | cons x b =>
    obtain ⟨rfl, ht⟩ := List.cons.inj he
    rw [eq_of_openQuote_double hq ht (by simpa [nextQuote, hq] using h)]
    exact hq

/-- **A character outside literals is an atom**: if no quote is open in front of it, the atoms part there. -/
theorem exists_atoms_of_openQuote {c : Char} (hc : isQuote c = false) {t : List Char} :
    ∀ {as : List Atom} {s : List Char}, Lexed as → join as = s ++ c :: t → openQuote none s = none →
      ∃ bs cs, as = bs ++ .char c :: cs ∧ join bs = s ∧ join cs = t
  | [], s, _, he, _ => by simp at he
  | .char x :: as, [], _, he, _ => by
    obtain ⟨rfl, rfl⟩ : x = c ∧ join as = t := by simpa [Atom.text] using he
    exact ⟨[], as, rfl, rfl, rfl⟩
  | .char x :: as, y :: s, h, he, ho => by
    obtain ⟨rfl, ht⟩ : x = y ∧ join as = s ++ c :: t := by simpa [Atom.text] using he
    have hx : nextQuote none x = none := by simp [nextQuote, h.1]
    obtain ⟨bs, cs, hb, hs, hc⟩ := exists_atoms_of_openQuote hc h.2 ht (by simpa [hx] using ho)
    exact ⟨.char x :: bs, cs, by rw [hb, List.cons_append], by simp [Atom.text, hs], hc⟩
  | .quoted run :: as, s, h, he, ho => by
    obtain ⟨⟨q, v, hq, rfl, _⟩, hl⟩ := h
    have he : encode q v ++ join as = s ++ c :: t := he
    -- the literal ends in front of the character, which otherwise would have to be its quote
    obtain ⟨r, rfl, ht⟩ : ∃ r, s = encode q v ++ r ∧ join as = r ++ c :: t := by
      rcases List.append_eq_append_iff.1 he with h | ⟨r, hr, ht⟩
      · exact h
      · cases r with
        | nil => exact ⟨[], by simpa using hr.symm, by simpa using ht.symm⟩
        | cons x r =>
          obtain ⟨rfl, _⟩ := List.cons.inj ht
          simp [isQuote_of_openQuote_encode hq hr ho] at hc
    rw [openQuote_append, openQuote_encode hq] at ho
    obtain ⟨bs, cs, hb, hs, hc⟩ := exists_atoms_of_openQuote hc hl ht ho
    exact ⟨.quoted (encode q v) :: bs, cs, by rw [hb, List.cons_append], by simp [Atom.text, hs], hc⟩
  | .unclosed _ :: _, _, h, _, _ => absurd h id

/-- The atoms of a text part at a character outside literals. -/
theorem atoms_append_cons {c : Char} (hc : isQuote c = false) {s t : List Char} (h : Lexed (atoms (s ++ c :: t)))
    (ho : openQuote none s = none) : atoms (s ++ c :: t) = atoms s ++ .char c :: atoms t := by
  obtain ⟨bs, cs, he, rfl, rfl⟩ := exists_atoms_of_openQuote hc h (join_atoms _) ho
  rw [he] at h
  rw [he, atoms_join h.left, atoms_join h.right.2]

/-- Characters that are no quotes are atoms at the end of a text, if its literals are closed. -/
theorem atoms_append_plain {s w : List Char} (hw : ∀ c ∈ w, isQuote c = false) (h : Lexed (atoms (s ++ w))) :
    atoms (s ++ w) = atoms s ++ plain w := by
  cases w with
  | nil => simp [plain]
  | cons c w =>
    -- the characters behind leave a quote open that is open in front of them
    have ho : openQuote none s = none := by
      have hj := openQuote_join h
      rwa [join_atoms, openQuote_append,
        openQuote_of_not_isQuote ((by simp [QuoteOpen] : QuoteOpen none).open s) hw] at hj
    rw [atoms_append_cons (hw c List.mem_cons_self) h ho, atoms_plain fun x hx => hw x (List.mem_cons_of_mem c hx)]
    rfl

end RelQuery.Text
