import RelQuery.Proofs.Text.Nesting
import RelQuery.Proofs.Text.OpenQuote

/-!
# One reading from the left

A text is read once, character by character, with the quote that is open and nothing else in mind. `outside` are the
characters met while no quote is open; a doubled quote inside a literal closes it and opens it at once, so nothing of
the literal is among them.

* `lexed_atoms_iff` : no quote is open at the end exactly if all literals of the text are closed;
* `nest_eq_some_iff` : the parentheses that are open behind atoms are those of the characters outside;
* `balanced_atoms_iff` : what is balanced piece by piece is what one reading finds balanced (`ClosedText`).
-/

namespace RelQuery.Text

/-- The characters of a text that stand outside its literals, for the quote open in front of it. -/
def outside (q : Option Char) : List Char → List Char
  | [] => []
  | c :: s => if q = none ∧ isQuote c = false then c :: outside q s else outside (nextQuote q c) s

/-- One reading from the left finds every literal closed, no `)` outside literals that closes nothing, and as many `)`
as `(` there. -/
structure ClosedText (s : List Char) : Prop where
  literals : openQuote none s = none
  count_le : ∀ p, p <+: s → (outside none p).count ')' ≤ (outside none p).count '('
  count_eq : (outside none s).count '(' = (outside none s).count ')'

variable {s : List Char} {as : List Atom} {depth k : Nat}

@[simp] theorem outside_nil (q : Option Char) : outside q [] = [] := rfl

theorem outside_cons {c : Char} (h : isQuote c = false) (s : List Char) :
    outside none (c :: s) = c :: outside none s := by
  simp [outside, h]

theorem outside_append (q : Option Char) (s t : List Char) :
    outside q (s ++ t) = outside q s ++ outside (openQuote q s) t := by
  induction s generalizing q with
  | nil => rfl
  | cons c s ih =>
    by_cases h : q = none ∧ isQuote c = false
    · obtain ⟨rfl, hc⟩ := h
      simp [outside, hc, nextQuote, ih]
    · simp [outside, h, ih]

theorem outside_double {q : Char} (hq : isQuote q = true) (s : List Char) : outside (some q) (double q s) = [] := by
  induction s with
  | nil => rfl
  | cons c s ih =>
    by_cases hc : c = q
    · simp [double, hc, outside, nextQuote, hq, ih]
    · simp [double, hc, outside, nextQuote, ih]

/-- Nothing of a literal stands outside it, whatever quotes are doubled in it. -/
theorem outside_encode {q : Char} (hq : isQuote q = true) (s : List Char) : outside none (encode q s) = [] := by
  simp [encode, outside, hq, nextQuote, outside_append, outside_double hq, openQuote_double hq]

/-- What stands outside the literals of a prefix is a prefix of what stands outside those of the text. -/
theorem outside_isPrefix (q : Option Char) {p s : List Char} (h : p <+: s) : outside q p <+: outside q s := by
  obtain ⟨t, rfl⟩ := h
  rw [outside_append]
  exact List.prefix_append _ _

/-- And each of its prefixes stands outside the literals of a prefix. -/
theorem exists_isPrefix_outside {q : Option Char} {r s : List Char} (h : r <+: outside q s) :
    ∃ p, p <+: s ∧ outside q p = r := by
  induction s generalizing q r with
  | nil => exact ⟨[], List.nil_prefix, (List.prefix_nil.1 h).symm⟩
  | cons c s ih =>
    by_cases hc : q = none ∧ isQuote c = false
    · rw [outside, if_pos hc] at h
      cases r with
      | nil => exact ⟨[], List.nil_prefix, rfl⟩
      | cons x r =>
        obtain ⟨rfl, hr⟩ := List.cons_prefix_cons.1 h
        obtain ⟨p, hp, rfl⟩ := ih hr
        exact ⟨x :: p, List.cons_prefix_cons.2 ⟨rfl, hp⟩, by rw [outside, if_pos hc]⟩
    · rw [outside, if_neg hc] at h
      obtain ⟨p, hp, rfl⟩ := ih h
      exact ⟨c :: p, List.cons_prefix_cons.2 ⟨rfl, hp⟩, by rw [outside, if_neg hc]⟩

/-! ## Literals -/

theorem openQuote_of_closeQuote?_eq_none {q : Char} (hq : isQuote q = true) (h : closeQuote? q s = none) :
    openQuote (some q) s = some q := by
  fun_induction closeQuote? q s with
  | case1 => rfl
  | case2 => simp at h
  | case3 c hc => simp [nextQuote, hc]
  | case4 s ih => simpa [nextQuote, hq] using ih (by simpa using h)
  | case5 => simp at h
  | case6 c d s hc ih =>
    rw [openQuote_cons, show nextQuote (some q) c = some q by simp [nextQuote, hc]]
    exact ih (by simpa using h)

/-- **The literals of a text are closed** exactly if no quote is open at its end. -/
theorem lexed_atoms_iff : Lexed (atoms s) ↔ openQuote none s = none := by
  constructor
  · intro h
    simpa [join_atoms] using openQuote_join h
  · intro h
    fun_induction atoms s with
    | case1 => trivial
    | case2 c s hc run rest hr ih =>
      obtain ⟨⟨v, rfl⟩, hh⟩ := exists_double_of_closeQuote? hr
      refine ⟨⟨c, v, hc, rfl, by rwa [join_atoms]⟩, ih ?_⟩
      have he : c :: s = encode c v ++ rest := congrArg (c :: ·) (eq_append_of_closeQuote? hr)
      rwa [he, openQuote_append, openQuote_encode hc] at h
    | case3 c s hc hr =>
      rw [openQuote_cons, show nextQuote none c = some c by simp [nextQuote, hc],
        openQuote_of_closeQuote?_eq_none hc hr] at h
      cases h
    | case4 c s hc ih =>
      have hc : isQuote c = false := by simpa using hc
      exact ⟨hc, ih (by rwa [openQuote_cons, show nextQuote none c = none by simp [nextQuote, hc]] at h)⟩

/-! ## Parentheses -/

/-- No prefix of the text closes more parentheses than it opens and `depth` more. -/
def ClosesWithin (depth : Nat) (s : List Char) : Prop :=
  ∀ p, p <+: s → p.count ')' ≤ depth + p.count '('

theorem closesWithin_nil : ClosesWithin depth [] := by
  intro p hp
  rw [List.prefix_nil.1 hp]
  exact Nat.zero_le _

theorem closesWithin_cons {c : Char} : ClosesWithin depth (c :: s) ↔
    ∀ p, p <+: s → (c :: p).count ')' ≤ depth + (c :: p).count '(' := by
  constructor
  · exact fun h p hp => h (c :: p) (List.cons_prefix_cons.2 ⟨rfl, hp⟩)
  · intro h p hp
    cases p with
    | nil => exact Nat.zero_le _
    | cons x p =>
      obtain ⟨rfl, hp'⟩ := List.cons_prefix_cons.1 hp
      exact h p hp'

theorem closesWithin_open : ClosesWithin depth ('(' :: s) ↔ ClosesWithin (depth + 1) s := by
  rw [closesWithin_cons]
  refine forall₂_congr fun p _ => ?_
  rw [List.count_cons_of_ne (by decide), List.count_cons_self]
  omega

theorem closesWithin_close : ClosesWithin depth (')' :: s) ↔ ∃ d, depth = d + 1 ∧ ClosesWithin d s := by
  rw [closesWithin_cons]
  cases depth with
  | zero => simpa using ⟨[], List.nil_prefix, by decide⟩
  | succ d =>
    simp only [Nat.add_right_cancel_iff, exists_eq_left']
    refine forall₂_congr fun p _ => ?_
    rw [List.count_cons_self, List.count_cons_of_ne (by decide)]
    omega

theorem closesWithin_other {c : Char} (ho : c ≠ '(') (hc : c ≠ ')') :
    ClosesWithin depth (c :: s) ↔ ClosesWithin depth s := by
  rw [closesWithin_cons]
  simp [ho, hc, ClosesWithin]

/-- **The count of open parentheses** is that of the characters outside literals, if it never falls below none. -/
theorem nest_eq_some_iff : ∀ {as : List Atom} {depth : Nat}, Lexed as → (nest depth as = some k ↔
    ClosesWithin depth (outside none (join as)) ∧
      depth + (outside none (join as)).count '(' = k + (outside none (join as)).count ')')
  | [], depth, _ => by simp [nest, closesWithin_nil]
  | .quoted run :: as, depth, h => by
    obtain ⟨⟨q, v, hq, rfl, _⟩, hl⟩ := h
    have hj : outside none (join (.quoted (encode q v) :: as)) = outside none (join as) := by
      rw [join_cons, Atom.text, outside_append, outside_encode hq, openQuote_encode hq, List.nil_append]
    rw [hj, ← nest_eq_some_iff hl]
    rfl
  | .char c :: as, depth, h => by
    have hj : outside none (join (.char c :: as)) = c :: outside none (join as) := outside_cons h.1 (join as)
    simp only [hj, nest]
    by_cases ho : c = '('
    · subst ho
      rw [if_pos rfl, nest_eq_some_iff h.2, closesWithin_open, List.count_cons_self,
        List.count_cons_of_ne (by decide)]
      exact and_congr_right fun _ => by omega
    · rw [if_neg ho]
      by_cases hc : c = ')'
      · subst hc
        rw [if_pos rfl, closesWithin_close]
        cases depth with
        | zero => simp
        | succ depth =>
          simp only [nest_eq_some_iff h.2, Nat.add_right_cancel_iff, exists_eq_left']
          rw [List.count_cons_self, List.count_cons_of_ne (by decide)]
          exact and_congr_right fun _ => by omega
      · rw [if_neg hc, nest_eq_some_iff h.2, closesWithin_other ho hc, List.count_cons_of_ne ho,
          List.count_cons_of_ne hc]
  | .unclosed _ :: _, _, h => absurd h id

/-- **What is balanced piece by piece** is what one reading from the left finds balanced. -/
theorem balanced_atoms_iff : Balanced (atoms s) ↔ ClosedText s := by
  constructor
  · intro h
    have hl : Lexed (atoms s) := lexed_atoms (closed_of_nest h)
    obtain ⟨hle, heq⟩ := (nest_eq_some_iff hl).1 h
    rw [join_atoms] at hle heq
    refine ⟨lexed_atoms_iff.1 hl, fun p hp => ?_, by omega⟩
    simpa using hle _ (outside_isPrefix none hp)
  · intro h
    refine (nest_eq_some_iff (lexed_atoms_iff.2 h.literals)).2 ?_
    rw [join_atoms]
    refine ⟨fun r hr => ?_, by rw [h.count_eq]⟩
    obtain ⟨p, hp, rfl⟩ := exists_isPrefix_outside hr
    simpa using h.count_le p hp

end RelQuery.Text
