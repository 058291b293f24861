import RelQuery.Text.Atom

/-!
# Parentheses outside quotes

* `nest` counts the parentheses that are open behind a list of atoms;
* the search for the end of a parenthesis is this count (`closeParen?_eq_some_iff`): it cuts at the first `)` in front
  of which no parenthesis of the inside is open, and it depends on nothing behind that (`closeParen?_append`);
* `Balanced` atoms leave every count as it was (`Balanced.nest`).
-/

namespace RelQuery.Text

/-- The parentheses open behind the atoms, for `depth` open ones in front of them. A `)` too many has no count, and
neither has a literal that is not closed. -/
def nest : Nat → List Atom → Option Nat
  | depth, [] => some depth
  | _, .unclosed _ :: _ => none
  | depth, .quoted _ :: as => nest depth as
  | depth, .char c :: as =>
    if c = '(' then nest (depth + 1) as
    else if c = ')' then
      match depth with
      | 0 => none
      | depth + 1 => nest depth as
    else nest depth as

theorem nest_append : ∀ (depth : Nat) (as bs : List Atom),
    nest depth (as ++ bs) = (nest depth as).bind fun d => nest d bs
  | _, [], _ => rfl
  | _, .unclosed _ :: _, _ => rfl
  | depth, .quoted _ :: as, bs => nest_append depth as bs
  | depth, .char c :: as, bs => by
    simp only [List.cons_append, nest]
    split
    · exact nest_append (depth + 1) as bs
    · split
      · cases depth with
        | zero => rfl
        | succ depth => exact nest_append depth as bs
      · exact nest_append depth as bs

/-- More open parentheses in front are open behind, too. -/
theorem nest_add {as : List Atom} {depth k : Nat} (e : Nat) (h : nest depth as = some k) :
    nest (depth + e) as = some (k + e) := by
  induction as generalizing depth with
  | nil =>
    obtain rfl := by simpa [nest] using h
    rfl
  | cons a as ih =>
    cases a with
    | unclosed run => cases h
    | quoted run => exact ih h
    | char c =>
      simp only [nest] at h ⊢
      split at h
      next hc =>
        rw [if_pos hc, Nat.add_right_comm]
        exact ih h
      next hc =>
        rw [if_neg hc]
        split at h
        next hd =>
          rw [if_pos hd]
          cases depth with
          | zero => cases h
          | succ depth =>
            rw [Nat.add_right_comm]
            exact ih h
        next hd =>
          rw [if_neg hd]
          exact ih h

theorem closed_of_nest {as : List Atom} {depth k : Nat} (h : nest depth as = some k) (run : List Char) :
    .unclosed run ∉ as := by
  induction as generalizing depth with
  | nil => simp
  | cons a as ih =>
    cases a with
    | unclosed run => cases h
    | quoted r => simpa using ih h
    | char c =>
      simp only [nest] at h
      split at h
      · simpa using ih h
      · split at h
        · cases depth with
          | zero => cases h
          | succ depth => simpa using ih h
        · simpa using ih h

/-! ## The end of a parenthesis -/

theorem nest_of_closeParen? {as inside rest : List Atom} {depth : Nat}
    (h : closeParen? depth as = some (inside, rest)) : nest depth inside = some 0 := by
  induction as generalizing depth inside with
  | nil => cases h
  | cons a as ih =>
    -- all cases but the last `)` put the first atom in front of a shorter inside
    have step : ∀ {d : Nat}, (closeParen? d as).map (consLeft a) = some (inside, rest) →
        ∃ i, inside = a :: i ∧ nest d i = some 0 := by
      intro d hd
      obtain ⟨⟨i, r⟩, hi, he⟩ := Option.map_eq_some_iff.1 hd
      obtain ⟨rfl, rfl⟩ := by simpa [consLeft] using he
      exact ⟨i, rfl, ih hi⟩
    cases a with
    | unclosed run => cases h
    | quoted run =>
      obtain ⟨i, rfl, hi⟩ := step h
      exact hi
    | char c =>
      simp only [closeParen?] at h
      split at h
      next hc =>
        obtain ⟨i, rfl, hi⟩ := step h
        simpa [nest, hc] using hi
      next hc =>
        split at h
        next hd =>
          cases depth with
          | zero =>
            obtain ⟨rfl, _⟩ := by simpa using h
            rfl
          | succ depth =>
            obtain ⟨i, rfl, hi⟩ := step h
            simpa [nest, hd] using hi
        next hd =>
          obtain ⟨i, rfl, hi⟩ := step h
          simpa [nest, hc, hd] using hi

theorem closeParen?_of_nest {inside : List Atom} {depth : Nat} (rest : List Atom) (h : nest depth inside = some 0) :
    closeParen? depth (inside ++ .char ')' :: rest) = some (inside, rest) := by
  induction inside generalizing depth with
  | nil =>
    obtain rfl : depth = 0 := by simpa [nest] using h
    simp [closeParen?]
  | cons a as ih =>
    cases a with
    | unclosed run => cases h
    | quoted run => simp [closeParen?, ih h, consLeft]
    | char c =>
      simp only [nest] at h
      split at h
      next hc => simp [closeParen?, hc, ih h, consLeft]
      next hc =>
        split at h
        next hd =>
          cases depth with
          | zero => cases h
          | succ depth => simp [closeParen?, hd, ih h, consLeft]
        next hd => simp [closeParen?, hc, hd, ih h, consLeft]

/-- **The end of a parenthesis** is the `)` in front of which none of those inside it is open. -/
theorem closeParen?_eq_some_iff {as inside rest : List Atom} {depth : Nat} :
    closeParen? depth as = some (inside, rest) ↔ as = inside ++ .char ')' :: rest ∧ nest depth inside = some 0 :=
  ⟨fun h => ⟨eq_append_of_closeParen? h, nest_of_closeParen? h⟩, fun ⟨he, hn⟩ => he ▸ closeParen?_of_nest rest hn⟩

/-- What is found does not depend on what follows. -/
theorem closeParen?_append {as inside rest : List Atom} {depth : Nat} (bs : List Atom)
    (h : closeParen? depth as = some (inside, rest)) : closeParen? depth (as ++ bs) = some (inside, rest ++ bs) := by
  obtain ⟨rfl, hn⟩ := closeParen?_eq_some_iff.1 h
  simpa using closeParen?_of_nest (rest ++ bs) hn

/-! ## Balanced atoms -/

/-- Every parenthesis that opens is closed, none closes that was not open, and every literal is closed. -/
def Balanced (as : List Atom) : Prop :=
  nest 0 as = some 0

instance (as : List Atom) : Decidable (Balanced as) :=
  inferInstanceAs (Decidable (nest 0 as = some 0))

theorem Balanced.nest {as : List Atom} (h : Balanced as) (depth : Nat) : nest depth as = some depth := by
  simpa using nest_add depth h

theorem Balanced.append {as bs : List Atom} (ha : Balanced as) (hb : Balanced bs) : Balanced (as ++ bs) := by
  rw [Balanced, nest_append, ha.nest]
  exact hb

theorem balanced_nil : Balanced [] := rfl

theorem Balanced.quoted {as : List Atom} (run : List Char) (h : Balanced as) : Balanced (.quoted run :: as) := h

theorem Balanced.char {c : Char} {as : List Atom} (ho : c ≠ '(') (hc : c ≠ ')') (h : Balanced as) :
    Balanced (.char c :: as) := by
  simpa [Balanced, Text.nest, ho, hc] using h

/-- A parenthesis around balanced atoms, with balanced atoms behind it. -/
theorem Balanced.paren {inside rest : List Atom} (hi : Balanced inside) (hr : Balanced rest) :
    Balanced (.char '(' :: inside ++ .char ')' :: rest) := by
  rw [Balanced, List.cons_append, Text.nest, if_pos rfl, nest_append, hi.nest]
  simpa [Text.nest, Balanced] using hr

theorem balanced_plain : ∀ {word : List Char}, '(' ∉ word → ')' ∉ word → Balanced (plain word)
  | [], _, _ => rfl
  | c :: _, ho, hc =>
    Balanced.char (fun e => ho (by simp [e])) (fun e => hc (by simp [e]))
      (balanced_plain (fun h => ho (List.mem_cons_of_mem c h)) fun h => hc (List.mem_cons_of_mem c h))

end RelQuery.Text
