import RelQuery.Script
import RelQuery.Proofs.Text.Trim

/-!
# An AND at the end of a condition

A parser leaves blanks at the end of a condition, and the word `AND` where it did not translate what followed. The
blanks are dropped, and one `AND` with them; of two, the first one stays.

* `QueryParts.withoutDanglingAnd_cases` : what is dropped is blanks, or blanks and one `AND`;
* `QueryParts.conditionText_eq_empty_iff` : the conditions of which nothing is left;
* `QueryParts.conditionText_drops_one` : what is left ends in `AND` again exactly if the condition ends in two of them.
-/

namespace RelQuery

open Text

namespace QueryParts

/-! ## The word -/

/-- The word `AND`, in any case. -/
def IsAnd (word : List Char) : Prop :=
  word.map Char.toLower = "and".toList

instance (word : List Char) : Decidable (IsAnd word) :=
  inferInstanceAs (Decidable (_ = _))

/-- The text ends in the word `AND`, behind a blank. -/
def EndsInAnd (s : List Char) : Prop :=
  ∃ front blank word, s = front ++ blank :: word ∧ isBlank blank = true ∧ IsAnd word

/-- Blanks, and the word `AND` so many times among them, each time behind a blank. -/
inductive AndTail : Nat → List Char → Prop
  | blanks (rest : List Char) : isBlankText rest = true → AndTail 0 rest
  | and {n : Nat} (gap : List Char) (blank : Char) (word tail : List Char) : isBlankText gap = true →
      isBlank blank = true → IsAnd word → AndTail n tail → AndTail (n + 1) (gap ++ blank :: word ++ tail)

variable {s front word tail : List Char} {blank : Char}

theorem IsAnd.exists_eq (h : IsAnd word) : ∃ a n d, word = [a, n, d] ∧ isBlank d = false := by
  match word, h with
  | [a, n, d], h =>
    refine ⟨a, n, d, rfl, Bool.eq_false_iff.2 fun hd => ?_⟩
    have hlower : d.toLower = 'd' := by
      rw [IsAnd] at h
      injection h with _ h
      injection h with _ h
      injection h
    rw [toLower_of_isBlank hd] at hlower
    rw [hlower] at hd
    exact absurd hd (by decide)
  | [], h | [_], h | [_, _], h | _ :: _ :: _ :: _ :: _, h => simp [IsAnd] at h

/-- A text that ends in the word ends in no blank. -/
theorem IsAnd.isBlank_of_mem_getLast? (h : IsAnd word) (s : List Char) :
    ∀ c ∈ (s ++ word).getLast?, isBlank c = false := by
  obtain ⟨a, n, d, rfl, hd⟩ := h.exists_eq
  intro c hc
  obtain rfl : d = c := by simpa using hc
  exact hd

/-! ## What is dropped -/

theorem withoutDanglingAnd_of_eq (hs : trimEnd s = front ++ blank :: word) (hb : isBlank blank = true)
    (hw : IsAnd word) : withoutDanglingAnd s = trimEnd front := by
  obtain ⟨a, n, d, rfl, -⟩ := hw.exists_eq
  have hreverse : (front ++ [blank, a, n, d]).reverse = d :: n :: a :: blank :: front.reverse := by simp
  unfold withoutDanglingAnd
  dsimp only
  rw [hs, hreverse]
  dsimp only
  rw [if_pos ⟨hw, hb⟩, List.reverse_reverse]

theorem withoutDanglingAnd_of_not_endsInAnd (h : ¬EndsInAnd (trimEnd s)) : withoutDanglingAnd s = trimEnd s := by
  unfold withoutDanglingAnd
  dsimp only
  split
  next d n a blank front hr =>
    refine if_neg fun ⟨hw, hb⟩ => h ⟨front.reverse, blank, [a, n, d], ?_, hb, hw⟩
    rw [← List.reverse_reverse (trimEnd s), hr]
    simp
  next => rfl

/-- Behind what is left stand blanks, or one `AND`; in the first case, what is left ends in no `AND`. -/
theorem withoutDanglingAnd_cases (s : List Char) :
    (∃ tail, s = withoutDanglingAnd s ++ tail ∧ AndTail 0 tail ∧ ¬EndsInAnd (withoutDanglingAnd s)) ∨
      ∃ tail, s = withoutDanglingAnd s ++ tail ∧ AndTail 1 tail := by
  obtain ⟨rest, hrest, hs⟩ := exists_blanks_trimEnd s
  by_cases he : EndsInAnd (trimEnd s)
  · right
    obtain ⟨front, blank, word, ht, hb, hw⟩ := he
    obtain ⟨gap, hgap, hfront⟩ := exists_blanks_trimEnd front
    refine ⟨gap ++ blank :: word ++ rest, ?_, .and gap blank word rest hgap hb hw (.blanks rest hrest)⟩
    rw [withoutDanglingAnd_of_eq ht hb hw]
    calc s = front ++ blank :: word ++ rest := by rw [← ht, ← hs]
      _ = trimEnd front ++ gap ++ blank :: word ++ rest := by rw [← hfront]
      _ = trimEnd front ++ (gap ++ blank :: word ++ rest) := by simp only [List.append_assoc]
  · left
    rw [withoutDanglingAnd_of_not_endsInAnd he]
    exact ⟨rest, hs, .blanks rest hrest, he⟩

/-- No blank stands at the end of what is left. -/
theorem trimEnd_withoutDanglingAnd (s : List Char) : trimEnd (withoutDanglingAnd s) = withoutDanglingAnd s := by
  by_cases he : EndsInAnd (trimEnd s)
  · obtain ⟨front, blank, word, ht, hb, hw⟩ := he
    rw [withoutDanglingAnd_of_eq ht hb hw, trimEnd_trimEnd]
  · rw [withoutDanglingAnd_of_not_endsInAnd he, trimEnd_trimEnd]

/-- The text that is left of one with an `AND` behind it, and blanks alone behind the `AND`. -/
theorem withoutDanglingAnd_append (h : AndTail 1 tail) (front : List Char) :
    withoutDanglingAnd (front ++ tail) = trimEnd front := by
  obtain _ | ⟨gap, blank, word, rest, hgap, hb, hw, hrest⟩ := h
  obtain ⟨rest, hrest⟩ := hrest
  have ht : trimEnd (front ++ (gap ++ blank :: word ++ rest)) = (front ++ gap) ++ blank :: word := by
    have he : front ++ (gap ++ blank :: word ++ rest) = (front ++ gap ++ [blank]) ++ word ++ rest := by simp
    rw [he, trimEnd_of_tight hrest (hw.isBlank_of_mem_getLast? _)]
    simp
  rw [withoutDanglingAnd_of_eq ht hb hw, trimEnd_append_blanks hgap]

/-- What is left ends in `AND` exactly if the text ends in two of them. -/
theorem endsInAnd_withoutDanglingAnd_iff :
    EndsInAnd (withoutDanglingAnd s) ↔ ∃ front tail, s = front ++ tail ∧ AndTail 2 tail := by
  constructor
  · intro h
    rcases withoutDanglingAnd_cases s with ⟨_, _, _, hn⟩ | ⟨tail, hs, ht⟩
    · exact absurd h hn
    · obtain ⟨front, blank, word, hleft, hb, hw⟩ := h
      refine ⟨front, [] ++ blank :: word ++ tail, ?_, .and [] blank word tail rfl hb hw ht⟩
      calc s = front ++ blank :: word ++ tail := by rw [← hleft, ← hs]
        _ = front ++ ([] ++ blank :: word ++ tail) := by simp
  · rintro ⟨front, _, rfl, _ | ⟨gap, blank, word, tail, hgap, hb, hw, ht⟩⟩
    refine ⟨front ++ gap, blank, word, ?_, hb, hw⟩
    have he : front ++ (gap ++ blank :: word ++ tail) = (front ++ gap ++ [blank] ++ word) ++ tail := by simp
    rw [he, withoutDanglingAnd_append ht]
    simpa using trimEnd_of_tight (r := []) rfl (hw.isBlank_of_mem_getLast? (front ++ gap ++ [blank]))

/-- A text without blanks at its end is left as it is exactly if it ends in no `AND`. -/
theorem withoutDanglingAnd_eq_self_iff (ht : trimEnd s = s) : withoutDanglingAnd s = s ↔ ¬EndsInAnd s := by
  constructor
  · rintro h ⟨front, blank, word, hs, hb, hw⟩
    rw [withoutDanglingAnd_of_eq (ht.trans hs) hb hw] at h
    obtain ⟨rest, -, hfront⟩ := exists_blanks_trimEnd front
    -- the word is gone
    have hlength := congrArg List.length hfront
    rw [h, hs] at hlength
    simp only [List.length_append, List.length_cons] at hlength
    omega
  · intro h
    rw [withoutDanglingAnd_of_not_endsInAnd (by rwa [ht]), ht]

/-! ## The parser's condition -/

theorem toList_conditionText (q : QueryParts) : q.conditionText.toList = withoutDanglingAnd q.condition.toList :=
  String.toList_ofList

/-- A blank text that is left is empty. -/
theorem isBlankText_conditionText {q : QueryParts} :
    isBlankText q.conditionText.toList = true ↔ q.conditionText = "" := by
  rw [← String.toList_eq_nil_iff, toList_conditionText]
  constructor
  · intro h
    rw [← trimEnd_withoutDanglingAnd]
    exact trimEnd_eq_nil_iff.2 (mem_of_isBlankText h)
  · intro h
    rw [h]
    rfl

/-- Nothing is left of a condition that is blank, or that is blank but for one `AND` behind a blank. -/
theorem conditionText_eq_empty_iff {q : QueryParts} :
    q.conditionText = "" ↔ AndTail 0 q.condition.toList ∨ AndTail 1 q.condition.toList := by
  rw [← String.toList_eq_nil_iff, toList_conditionText]
  constructor
  · intro h
    rcases withoutDanglingAnd_cases q.condition.toList with ⟨tail, hs, ht, -⟩ | ⟨tail, hs, ht⟩
    · rw [h, List.nil_append] at hs
      exact .inl (hs ▸ ht)
    · rw [h, List.nil_append] at hs
      exact .inr (hs ▸ ht)
  · rintro (⟨_, hrest⟩ | h)
    · have ht : trimEnd q.condition.toList = [] := trimEnd_eq_nil_iff.2 (mem_of_isBlankText hrest)
      rw [withoutDanglingAnd_of_not_endsInAnd, ht]
      rw [ht]
      rintro ⟨front, blank, word, hs, -, -⟩
      simp at hs
    · exact withoutDanglingAnd_append h []

/-- **One `AND` is dropped.** The condition's text is the condition without its end: blanks, or blanks with one `AND`
among them, behind a blank. It ends in no blank; it ends in `AND`, behind a blank, exactly if the condition ends in two
of them; and exactly if it does not, it is its own condition's text. -/
theorem conditionText_drops_one (q : QueryParts) :
    let text := q.conditionText.toList
    (∃ tail, q.condition.toList = text ++ tail ∧ (AndTail 0 tail ∨ AndTail 1 tail)) ∧
      (∀ c ∈ text.getLast?, isBlank c = false) ∧
      (EndsInAnd text ↔ ∃ front tail, q.condition.toList = front ++ tail ∧ AndTail 2 tail) ∧
      ({ q with condition := q.conditionText }.conditionText = q.conditionText ↔ ¬EndsInAnd text) := by
  intro text
  have htext : text = withoutDanglingAnd q.condition.toList := q.toList_conditionText
  have htrim : trimEnd text = text := by rw [htext, trimEnd_withoutDanglingAnd]
  refine ⟨?_, ?_, ?_, ?_⟩
  · rw [htext]
    rcases withoutDanglingAnd_cases q.condition.toList with ⟨tail, hs, ht, -⟩ | ⟨tail, hs, ht⟩
    · exact ⟨tail, hs, .inl ht⟩
    · exact ⟨tail, hs, .inr ht⟩
  · rw [← htrim]
    exact isBlank_of_mem_getLast?_trimEnd
  · rw [htext]
    exact endsInAnd_withoutDanglingAnd_iff
  · rw [← withoutDanglingAnd_eq_self_iff htrim, ← String.toList_inj, toList_conditionText]

/-- Of two `AND` at the end of a condition, the first one stays. -/
theorem not_forall_conditionText_eq_self :
    ¬∀ q : QueryParts,
      let text := q.conditionText.toList
      (∃ n tail, q.condition.toList = text ++ tail ∧ AndTail n tail) ∧
        (∀ c ∈ text.getLast?, isBlank c = false) ∧ ¬EndsInAnd text ∧
        { q with condition := q.conditionText }.conditionText = q.conditionText := by
  intro h
  obtain ⟨-, -, -, hself⟩ := h { condition := "a AND AND" }
  exact absurd hself (by decide +kernel)

end QueryParts

end RelQuery
