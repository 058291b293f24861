import RelQuery.Proofs.Text.Lexing
import RelQuery.Proofs.Text.Trim

/-!
# Searching among plain characters

What a search finds, where the text is known up to the place of the find.

* `strip?_plain_eq_none` : a word with a blank behind it is not found in front of another word;
* `cutOutside?_plain_append` : a search goes on behind characters at none of which the word stands, and behind blanks
  that is a matter of the last blank alone (`strip?_blanks_eq_none`);
* `exists_cutOutside?_plain` : a word is found where it stands, or where it stands before.
-/

namespace RelQuery.Text

theorem eq_of_isQuote {q : Char} (hq : isQuote q = true) : q = '\'' ∨ q = '"' := by
  simpa [isQuote] using hq

/-- No quote is a blank. -/
theorem isBlank_of_isQuote {q : Char} (hq : isQuote q = true) : isBlank q = false := by
  rcases eq_of_isQuote hq with rfl | rfl <;> rfl

theorem isQuote_of_isBlankText {l : List Char} (hl : isBlankText l = true) : ∀ c ∈ l, isQuote c = false := by
  intro c hc
  cases hq : isQuote c with
  | false => rfl
  | true =>
    exact absurd hc (notMem_of_isBlankText hl (isBlank_of_isQuote hq))

/-- If no quote is at the front of a text, there is none when blanks come before it. -/
theorem isQuote_of_mem_head?_blanks_append {l s : List Char} (hl : isBlankText l = true)
    (hs : ∀ c ∈ s.head?, isQuote c = false) : ∀ c ∈ (l ++ s).head?, isQuote c = false := by
  cases l with
  | nil => exact hs
  | cons x l =>
    intro c hc
    obtain rfl : x = c := by simpa using hc
    exact isQuote_of_isBlankText hl x List.mem_cons_self

/-! ## Words at the front -/

/-- Two words are equal if what follows each of them goes on with no character of a word. -/
theorem eq_of_plain_append {p : Char → Bool} {as bs : List Atom} (ha : ∀ c, .char c ∈ as.head? → p c = false)
    (hb : ∀ c, .char c ∈ bs.head? → p c = false) : ∀ {v w : List Char}, (∀ c ∈ v, p c = true) →
      (∀ c ∈ w, p c = true) → plain v ++ as = plain w ++ bs → v = w ∧ as = bs
  | [], [], _, _, h => ⟨rfl, h⟩
  | [], c :: w, _, hw, h => by
    have hc := ha c (by simp [show as = plain (c :: w) ++ bs from h, plain])
    simp [hw c List.mem_cons_self] at hc
  | c :: v, [], hv, _, h => by
    have hc := hb c (by simp [show bs = plain (c :: v) ++ as from h.symm, plain])
    simp [hv c List.mem_cons_self] at hc
  | c :: v, x :: w, hv, hw, h => by
    obtain ⟨hx, ht⟩ := List.cons.inj h
    obtain rfl := Atom.char.inj hx
    obtain ⟨rfl, he⟩ := eq_of_plain_append ha hb (fun y hy => hv y (List.mem_cons_of_mem c hy))
      (fun y hy => hw y (List.mem_cons_of_mem c hy)) ht
    exact ⟨rfl, he⟩

/-- A word and the blank behind it are not found in front of another word, nor in front of this one where it goes on
otherwise. -/
theorem strip?_plain_eq_none {p : Char → Bool} {word v : List Char} {as : List Atom} (hp : p ' ' = false)
    (hw : ∀ c ∈ word, p c = true) (hv : ∀ c ∈ v, p c = true) (ha : ∀ c, .char c ∈ as.head? → p c = false)
    (h : v = word → .char ' ' ∉ as.head?) : strip? (plain (word ++ [' '])) (plain v ++ as) = none := by
  cases hs : strip? (plain (word ++ [' '])) (plain v ++ as) with
  | none => rfl
  | some r =>
    have he : plain v ++ as = plain word ++ (.char ' ' :: r) := by
      rw [eq_append_of_strip? hs, plain_append, List.append_assoc]
      rfl
    have hb : ∀ c, .char c ∈ (Atom.char ' ' :: r).head? → p c = false := by
      intro c hc
      obtain rfl : ' ' = c := by simpa using hc
      exact hp
    obtain ⟨rfl, rfl⟩ := eq_of_plain_append ha hb hv hw he
    exact absurd rfl (h rfl)

/-- A word with a blank in front is not found among blanks, unless it goes on behind the last of them. -/
theorem strip?_blanks_eq_none {x : Char} {word l : List Char} {as s : List Atom} (hx : isBlank x = false)
    (hl : isBlankText l = true) (h : strip? (plain (x :: word)) as = none) (hn : s ≠ []) (hs : s <:+ plain l) :
    strip? (plain (' ' :: x :: word)) (s ++ as) = none := by
  have hb : ∀ a ∈ s, a ≠ .char x := by
    rintro a ha rfl
    exact notMem_of_isBlankText hl hx (char_mem_plain.1 (hs.subset ha))
  match s, hn with
  | [a], _ =>
    by_cases ha : Atom.char ' ' = a
    · subst ha
      simpa [plain, strip?] using h
    · simp [plain, strip?, ha]
  | a :: b :: s, _ =>
    have hbx : Atom.char x ≠ b := fun e => hb b (by simp) e.symm
    by_cases ha : Atom.char ' ' = a <;> simp [plain, strip?, ha, hbx]

/-! ## Words inside -/

/-- A search goes on behind characters at none of which the word stands. -/
theorem cutOutside?_plain_append {word : List Char} {as : List Atom} : ∀ {w : List Char},
    (∀ s, s ≠ [] → s <:+ plain w → strip? (plain word) (s ++ as) = none) →
      cutOutside? word (plain w ++ as) = (cutOutside? word as).map (Prod.map (plain w ++ ·) id)
  | [], _ => by
    cases h : cutOutside? word as <;> simp [plain, h, Prod.map]
  | c :: w, h => by
    have hc : strip? (plain word) (.char c :: (plain w ++ as)) = none :=
      h (plain (c :: w)) (List.cons_ne_nil _ _) List.suffix_rfl
    have hsuf : plain w <:+ plain (c :: w) := ⟨[.char c], rfl⟩
    have ih := cutOutside?_plain_append (w := w) fun s hn hs => h s hn (hs.trans hsuf)
    show cutOutside? word (.char c :: (plain w ++ as)) = _
    rw [cutOutside?, hc]
    dsimp only
    rw [ih, Option.map_map]
    rfl

/-- A search goes on behind characters that the word does not begin with. -/
theorem cutOutside?_append_of_notMem {x : Char} {word w : List Char} (as : List Atom) (h : x ∉ w) :
    cutOutside? (x :: word) (plain w ++ as) = (cutOutside? (x :: word) as).map (Prod.map (plain w ++ ·) id) := by
  apply cutOutside?_plain_append
  intro s hn hs
  obtain ⟨c, t, hc, rfl⟩ := exists_cons_of_suffix_plain hn hs
  have hxc : Atom.char x ≠ .char c := by
    intro e
    obtain rfl := Atom.char.inj e
    exact h hc
  simp [plain, strip?, hxc]

/-- A search ends at the word. -/
theorem cutOutside?_word {x : Char} {word : List Char} (as : List Atom) :
    cutOutside? (x :: word) (plain (x :: word) ++ as) = some ([], as) := by
  have h : strip? (plain (x :: word)) (.char x :: (plain word ++ as)) = some as := strip?_append (plain (x :: word)) as
  show cutOutside? (x :: word) (.char x :: (plain word ++ as)) = _
  rw [cutOutside?, h]

/-- The first place of a word is where it is known to stand, or in front of that. -/
theorem exists_cutOutside?_plain {x : Char} {word : List Char} (as : List Atom) : ∀ w : List Char, ∃ b m : List Char,
    b ++ (x :: word) ++ m = w ++ (x :: word) ∧
      cutOutside? (x :: word) (plain w ++ (plain (x :: word) ++ as)) = some (plain b, plain m ++ as)
  | [] => ⟨[], [], by simp, cutOutside?_word as⟩
  | c :: w => by
    obtain ⟨b, m, he, hc⟩ := exists_cutOutside?_plain as w
    show ∃ b m, b ++ (x :: word) ++ m = c :: w ++ (x :: word) ∧
      cutOutside? (x :: word) (.char c :: (plain w ++ (plain (x :: word) ++ as))) = some (plain b, plain m ++ as)
    rw [cutOutside?]
    cases hs : strip? (plain (x :: word)) (.char c :: (plain w ++ (plain (x :: word) ++ as))) with
    | none =>
      refine ⟨c :: b, m, by simpa using he, ?_⟩
      dsimp only
      rw [hc]
      rfl
    | some r =>
      -- the word stands here, and it ends in front of `as`
      have hr : plain (c :: w ++ (x :: word)) ++ as = plain (x :: word) ++ r := by
        rw [← eq_append_of_strip? hs, plain_append, List.append_assoc]
        rfl
      obtain ⟨t, ht, rfl⟩ : ∃ t, plain (c :: w ++ (x :: word)) = plain (x :: word) ++ t ∧ r = t ++ as := by
        rcases List.append_eq_append_iff.1 hr with ⟨t, ht, hrt⟩ | ⟨t, ht, hrt⟩
        · have hlen := congrArg List.length ht
          simp [plain] at hlen
          omega
        · exact ⟨t, ht, hrt⟩
      obtain ⟨v, m, he, hv, rfl⟩ := List.map_eq_append_iff.1 ht
      obtain rfl : v = x :: word := List.map_inj_right (fun _ _ => Atom.char.inj) |>.1 hv
      exact ⟨[], m, he.symm, rfl⟩

/-- Plain characters in front of a comma, no parenthesis among them, are what is cut off there. -/
theorem cutComma?_plain {as : List Atom} : ∀ {w : List Char}, ',' ∉ w → '(' ∉ w → ')' ∉ w →
    cutComma? 0 (plain w ++ .char ',' :: as) = some (plain w, as)
  | [], _, _, _ => by simp [plain, cutComma?]
  | c :: w, hc, ho, hp => by
    have ih : cutComma? 0 (plain w ++ .char ',' :: as) = some (plain w, as) :=
      cutComma?_plain (fun h => hc (List.mem_cons_of_mem c h)) (fun h => ho (List.mem_cons_of_mem c h))
        fun h => hp (List.mem_cons_of_mem c h)
    have h₁ : c ≠ ',' := fun e => hc (by simp [e])
    have h₂ : c ≠ '(' := fun e => ho (by simp [e])
    have h₃ : c ≠ ')' := fun e => hp (by simp [e])
    show cutComma? 0 (.char c :: (plain w ++ .char ',' :: as)) = _
    simp only [cutComma?, h₁, h₂, h₃, if_false, false_and]
    rw [ih]
    rfl

theorem lastSegment_append_cons {c : List Char} (p : List Char) (h : '/' ∉ c) : lastSegment (p ++ '/' :: c) = c := by
  have hr : ∀ x ∈ c.reverse, (x ≠ '/' : Bool) = true := by
    intro x hx
    have hne : x ≠ '/' := by
      rintro rfl
      exact h (List.mem_reverse.1 hx)
    simpa using hne
  rw [lastSegment, List.reverse_append, List.reverse_cons, List.append_assoc, List.takeWhile_append_of_pos hr]
  simp

end RelQuery.Text
