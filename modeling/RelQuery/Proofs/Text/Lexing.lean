import RelQuery.Text.Atom

/-!
# Reading the atoms of a text again

A list of atoms that a text can have is recognised from the list alone: its characters are no quotes, its quoted runs
are whole literals, and no run is followed by its own quote, which would double it.

* a run that is closed is a literal, and every literal is closed (`closeQuote?_double`, `exists_double_of_closeQuote?`);
* such a list, joined, is cut into the same atoms again (`atoms_join_append`), and so is every part of it
  (`Lexed.left`, `Lexed.right`);
* the atoms of a text whose literals are all closed are such a list (`lexed_atoms`).
-/

namespace RelQuery.Text

/-! ## Closing a literal -/

/-- A text with its quotes doubled, closed by a quote that no other follows, is closed there. -/
theorem closeQuote?_double {q : Char} {rest : List Char} (h : rest.head? ≠ some q) :
    ∀ s, closeQuote? q (double q s ++ q :: rest) = some (double q s ++ [q], rest)
  | [] => by
    cases rest with
    | nil => simp [double, closeQuote?]
    | cons c rest =>
      have hc : c ≠ q := by simpa using h
      simp [double, closeQuote?, hc]
  | c :: s => by
    have ih := closeQuote?_double h s
    by_cases hc : c = q
    · subst hc
      simp [double, closeQuote?, ih]
    · -- the character in front is no quote, so the run goes on whatever follows
      cases hs : double q s ++ q :: rest with
      | nil => simp at hs
      | cons x xs =>
        rw [hs] at ih
        simp [double, hc, hs, closeQuote?, ih]

/-- A run that is closed is a text with its quotes doubled, and no further quote follows it. -/
theorem exists_double_of_closeQuote? {q : Char} {s run rest : List Char}
    (h : closeQuote? q s = some (run, rest)) : (∃ v, run = double q v ++ [q]) ∧ rest.head? ≠ some q := by
  fun_induction closeQuote? q s generalizing run with
  | case1 => simp at h
  | case2 =>
    obtain ⟨rfl, rfl⟩ := by simpa using h
    exact ⟨⟨[], rfl⟩, by simp⟩
  | case3 => simp at h
  | case4 s ih =>
    obtain ⟨⟨r, t⟩, hr, he⟩ := Option.map_eq_some_iff.1 h
    obtain ⟨rfl, rfl⟩ := by simpa using he
    obtain ⟨⟨v, rfl⟩, ht⟩ := ih hr
    exact ⟨⟨q :: v, by simp [double]⟩, ht⟩
  | case5 d s hd =>
    obtain ⟨rfl, rfl⟩ := by simpa using h
    exact ⟨⟨[], rfl⟩, by simpa using hd⟩
  | case6 c d s hc ih =>
    obtain ⟨⟨r, t⟩, hr, he⟩ := Option.map_eq_some_iff.1 h
    obtain ⟨rfl, rfl⟩ := by simpa using he
    obtain ⟨⟨v, rfl⟩, ht⟩ := ih hr
    exact ⟨⟨c :: v, by simp [double, hc]⟩, ht⟩

/-- A text without the quote is doubled to itself. -/
theorem double_of_notMem {q : Char} : ∀ {s : List Char}, q ∉ s → double q s = s
  | [], _ => rfl
  | c :: s, h => by
    have hc : c ≠ q := fun e => h (by simp [e])
    simp [double, hc, double_of_notMem fun hs => h (List.mem_cons_of_mem c hs)]

/-! ## Lists of atoms that a text can have -/

/-- Every atom stands for itself in front of what follows it, and every literal is closed. -/
def Lexed : List Atom → Prop
  | [] => True
  | .char c :: as => isQuote c = false ∧ Lexed as
  | .quoted run :: as => (∃ q s, isQuote q = true ∧ run = encode q s ∧ (join as).head? ≠ some q) ∧ Lexed as
  | .unclosed _ :: _ => False

theorem atoms_nil : atoms [] = [] := by
  rw [atoms]

theorem atoms_cons {c : Char} (h : isQuote c = false) (s : List Char) : atoms (c :: s) = .char c :: atoms s := by
  rw [atoms]
  simp [h]

/-- A literal that its quote does not follow is one atom. -/
theorem atoms_encode {q : Char} {rest : List Char} (hq : isQuote q = true) (h : rest.head? ≠ some q) (s : List Char) :
    atoms (encode q s ++ rest) = .quoted (encode q s) :: atoms rest := by
  have hc : closeQuote? q (double q s ++ [q] ++ rest) = some (double q s ++ [q], rest) := by
    simpa using closeQuote?_double h s
  rw [encode, List.cons_append, atoms, if_pos hq]
  split
  next run r hr =>
    rw [hc] at hr
    obtain ⟨rfl, rfl⟩ := by simpa using hr
    rfl
  next hr =>
    rw [hc] at hr
    cases hr

/-- **Reading again**: atoms that a text can have are the first atoms of every text that begins with theirs and goes on
with no quote. -/
theorem atoms_join_append {t : List Char} (ht : ∀ c ∈ t.head?, isQuote c = false) :
    ∀ {as : List Atom}, Lexed as → atoms (join as ++ t) = as ++ atoms t
  | [], _ => rfl
  | .char c :: as, h => by
    rw [join_cons, Atom.text, List.append_assoc, List.singleton_append, atoms_cons h.1, atoms_join_append ht h.2]
    rfl
  | .quoted run :: as, h => by
    obtain ⟨⟨q, s, hq, rfl, hh⟩, hl⟩ := h
    have hr : (join as ++ t).head? ≠ some q := by
      cases hj : join as with
      | nil =>
        intro e
        have := ht q (by simpa using e)
        simp [hq] at this
      | cons c r => simpa [hj] using hh
    rw [join_cons, Atom.text, List.append_assoc, atoms_encode hq hr, atoms_join_append ht hl]
    rfl
  | .unclosed _ :: _, h => absurd h id

/-- A text whose literals are all closed is read by itself, if no quote follows it. -/
theorem atoms_append {s t : List Char} (ht : ∀ c ∈ t.head?, isQuote c = false) (h : Lexed (atoms s)) :
    atoms (s ++ t) = atoms s ++ atoms t := by
  have ha : atoms (join (atoms s) ++ t) = atoms s ++ atoms t := atoms_join_append ht h
  rwa [join_atoms] at ha

theorem atoms_join {as : List Atom} (h : Lexed as) : atoms (join as) = as := by
  simpa [atoms_nil] using atoms_join_append (t := []) (by simp) h

/-- A text whose literals are all closed has atoms of this kind. -/
theorem lexed_atoms {s : List Char} (h : ∀ run, .unclosed run ∉ atoms s) : Lexed (atoms s) := by
  fun_induction atoms s with
  | case1 => trivial
  | case2 c s hc run rest hr ih =>
    obtain ⟨⟨v, rfl⟩, hh⟩ := exists_double_of_closeQuote? hr
    refine ⟨⟨c, v, hc, rfl, by rwa [join_atoms]⟩, ih fun run hm => h run (List.mem_cons_of_mem _ hm)⟩
  | case3 c s => exact absurd (List.mem_singleton.2 rfl) (h (c :: s))
  | case4 c s hc ih => exact ⟨by simpa using hc, ih fun run hm => h run (List.mem_cons_of_mem _ hm)⟩

/-- The first character of what an atom begins does not depend on what stands behind the atom. -/
theorem head?_join_append_of_lexed {as bs : List Atom} {c : Char} (h : Lexed as) (hc : c ∈ (join as).head?) :
    c ∈ (join (as ++ bs)).head? := by
  cases as with
  | nil => simp at hc
  | cons a as =>
    cases a with
    | char x => simpa [Atom.text] using hc
    | quoted run =>
      obtain ⟨⟨q, s, _, rfl, _⟩, _⟩ := h
      simpa [Atom.text, encode] using hc
    | unclosed run => exact absurd h id

/-- The first atoms of any text are of this kind, up to a literal that is not closed. -/
theorem lexed_of_atoms_eq_append {s : List Char} {as bs : List Atom} (h : atoms s = as ++ bs)
    (hc : ∀ run, .unclosed run ∉ as) : Lexed as := by
  fun_induction atoms s generalizing as with
  | case1 =>
    obtain ⟨rfl, _⟩ := List.append_eq_nil_iff.1 h.symm
    trivial
  | case2 c s hq run rest hr ih =>
    cases as with
    | nil => trivial
    | cons a as =>
      obtain rfl := (List.cons.inj h).1
      have he : atoms rest = as ++ bs := (List.cons.inj h).2
      have hl : Lexed as := ih he fun r hm => hc r (List.mem_cons_of_mem _ hm)
      obtain ⟨⟨v, rfl⟩, hh⟩ := exists_double_of_closeQuote? hr
      refine ⟨⟨c, v, hq, rfl, fun e => hh ?_⟩, hl⟩
      -- what follows the literal among these atoms follows it in the text
      have hrest : c ∈ (join (as ++ bs)).head? := head?_join_append_of_lexed hl e
      rwa [← he, join_atoms] at hrest
  | case3 c s =>
    cases as with
    | nil => trivial
    | cons a as =>
      obtain ⟨rfl, _⟩ := List.cons.inj h
      exact absurd List.mem_cons_self (hc (c :: s))
  | case4 c s hq ih =>
    cases as with
    | nil => trivial
    | cons a as =>
      obtain ⟨rfl, he⟩ := List.cons.inj h
      exact ⟨by simpa using hq, ih he fun r hm => hc r (List.mem_cons_of_mem _ hm)⟩

theorem Lexed.right : ∀ {as bs : List Atom}, Lexed (as ++ bs) → Lexed bs
  | [], _, h => h
  | .char _ :: _, _, h => Lexed.right h.2
  | .quoted _ :: _, _, h => Lexed.right h.2
  | .unclosed _ :: _, _, h => absurd h id

theorem Lexed.left : ∀ {as bs : List Atom}, Lexed (as ++ bs) → Lexed as
  | [], _, _ => trivial
  | .char _ :: _, _, h => ⟨h.1, Lexed.left h.2⟩
  | .quoted _ :: as, bs, h => by
    obtain ⟨⟨q, s, hq, rfl, hh⟩, hl⟩ := h
    exact ⟨⟨q, s, hq, rfl, fun e => hh (head?_join_append_of_lexed (Lexed.left hl) e)⟩, Lexed.left hl⟩
  | .unclosed _ :: _, _, h => absurd h id

theorem Lexed.of_isInfix {as bs : List Atom} (h : Lexed as) (hs : bs <:+: as) : Lexed bs := by
  obtain ⟨l, r, rfl⟩ := hs
  exact h.left.right

theorem Lexed.closed : ∀ {as : List Atom}, Lexed as → ∀ run, .unclosed run ∉ as
  | [], _, _ => by simp
  | .char _ :: _, h, run => by simpa using Lexed.closed h.2 run
  | .quoted _ :: _, h, run => by simpa using Lexed.closed h.2 run
  | .unclosed _ :: _, h, _ => absurd h id

/-! ## Words -/

@[simp] theorem plain_append (v w : List Char) : plain (v ++ w) = plain v ++ plain w := by
  simp [plain]

@[simp] theorem char_mem_plain {c : Char} {w : List Char} : .char c ∈ plain w ↔ c ∈ w := by
  simp [plain]

/-- What a word ends with begins with one of its characters. -/
theorem exists_cons_of_suffix_plain {w : List Char} {s : List Atom} (hn : s ≠ []) (hs : s <:+ plain w) :
    ∃ c t, c ∈ w ∧ s = .char c :: t := by
  cases s with
  | nil => exact absurd rfl hn
  | cons a t =>
    obtain ⟨c, hc, rfl⟩ := List.mem_map.1 (hs.subset List.mem_cons_self)
    exact ⟨c, t, hc, rfl⟩

/-- The characters of a word without quotes are atoms, whatever follows it. -/
theorem atoms_plain_append : ∀ {word : List Char}, (∀ c ∈ word, isQuote c = false) → ∀ s : List Char,
    atoms (word ++ s) = plain word ++ atoms s
  | [], _, _ => rfl
  | c :: word, h, s => by
    rw [List.cons_append, atoms_cons (h c List.mem_cons_self),
      atoms_plain_append (fun x hx => h x (List.mem_cons_of_mem c hx))]
    rfl

theorem atoms_plain {word : List Char} (h : ∀ c ∈ word, isQuote c = false) : atoms word = plain word := by
  simpa [atoms_nil] using atoms_plain_append h []

/-- A word without quotes stands at the front of the atoms where it stands at the front of the text. -/
theorem strip?_plain_atoms (hw : ∀ c ∈ word, isQuote c = false) (s : List Char) :
    strip? (plain word) (atoms s) = (strip? word s).map atoms := by
  cases hs : strip? word s with
  | some t => rw [eq_append_of_strip? hs, atoms_plain_append hw, strip?_append, Option.map_some]
  | none =>
    cases ha : strip? (plain word) (atoms s) with
    | none => rfl
    | some as =>
      have he : s = word ++ join as := by
        rw [← join_atoms s, eq_append_of_strip? ha, join_append, join_plain]
      rw [he, strip?_append] at hs
      cases hs

end RelQuery.Text
