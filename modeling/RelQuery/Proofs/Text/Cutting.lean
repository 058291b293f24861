import Mathlib.Data.List.Infix
import RelQuery.Proofs.Text.Nesting
import RelQuery.Proofs.Text.OpenQuote

/-!
# Where a text is cut

A cut is told by what it leaves on both sides.

* `cut?_concat_eq_some_iff` : a word is cut out where it does not begin in front, and if it cannot overlap itself, where
  the text in front does not hold it (`cut?_eq_some_iff`);
* `aroundOutside?_concat_eq_some_iff` : outside quotes the same holds for the atoms in front, all literals among them
  closed;
* `insideParen?_eq_some_iff` : the inside of a parenthesis is the balanced text in front of a `)`, whatever follows;
* `balanced_atoms_append_cons_iff` : what a balanced text begins with is balanced if what it ends with is;
* `aroundComma?_eq_some_iff` : the arguments of a call part at the first comma that has a balanced text in front.
-/

namespace RelQuery.Text

/-! ## Cutting out a word -/

/-- A word whose first element does not occur again in it cannot begin in one text and end in its own beginning. -/
theorem infix_append_iff_of_notMem {α : Type} {x z : α} {word w before : List α} (hw : x :: word = w ++ [z])
    (hx : x ∉ word) : (x :: word) <:+: before ++ w ↔ (x :: word) <:+: before := by
  have hlong : w.length < (x :: word).length := by simp [hw]
  constructor
  · intro h
    rcases List.infix_append_iff.1 h with h | h | ⟨u, v, he, hu, hv⟩
    · exact h
    · exact absurd h.length_le (by omega)
    · cases u with
      | nil =>
        rw [List.nil_append] at he
        exact absurd hv.length_le (by rw [← he]; omega)
      | cons y u =>
        obtain ⟨rfl, hword⟩ : x = y ∧ word = u ++ v := List.cons.inj he
        cases v with
        | nil =>
          rw [hword, List.append_nil]
          exact hu.isInfix
        | cons y v =>
          -- what stands behind `before` begins with the word's first element
          obtain ⟨t, rfl⟩ := hv
          obtain rfl := (List.cons.inj hw).1
          exact absurd (by rw [hword]; simp) hx
  · exact fun h => h.trans (List.prefix_append before w).isInfix

/-- A word stands on one side of an element that is not in it. -/
theorem infix_concat_append_of_notMem {α : Type} {a : α} {word s t : List α} (ha : a ∉ word)
    (h : word <:+: s ++ [a] ++ t) : word <:+: s ++ [a] ∨ word <:+: t := by
  rcases List.infix_append_iff.1 h with h | h | ⟨u, v, rfl, hu, hv⟩
  · exact .inl h
  · exact .inr h
  · rcases List.eq_nil_or_concat u with rfl | ⟨u, z, rfl⟩
    · exact .inr hv.isInfix
    · obtain ⟨l, hl⟩ := hu
      rw [List.concat_eq_append, ← List.append_assoc] at hl
      obtain rfl := (List.cons.inj (List.append_inj' hl rfl).2).1
      exact absurd (by simp) ha

section

variable {α : Type} [DecidableEq α] {x : α} {word s before rest : List α}

/-- A word is not found exactly in a text that does not hold it. -/
theorem cut?_eq_none_iff : cut? (x :: word) s = none ↔ ¬(x :: word) <:+: s := by
  constructor
  · intro h hin
    induction s with
    | nil => simp at hin
    | cons c s ih =>
      rw [cut?] at h
      split at h
      next => cases h
      next hs =>
        rcases List.infix_cons_iff.1 hin with ⟨t, ht⟩ | hin
        · rw [← ht, strip?_append] at hs
          cases hs
        · exact ih (Option.map_eq_none_iff.1 h) hin
  · intro h
    cases hc : cut? (x :: word) s with
    | none => rfl
    | some cut => exact absurd ⟨cut.1, cut.2, (append_of_cut? hc).symm⟩ h

/-- **Cutting out a word** `w ++ [z]`: it does not begin in front of its first place. -/
theorem cut?_concat_eq_some_iff {w : List α} {z : α} : cut? (w ++ [z]) s = some (before, rest) ↔
    s = before ++ (w ++ [z]) ++ rest ∧ ¬(w ++ [z]) <:+: before ++ w := by
  constructor
  · intro h
    refine ⟨append_of_cut? h, ?_⟩
    induction s generalizing before with
    | nil => simp [cut?] at h
    | cons c s ih =>
      rw [cut?] at h
      split at h
      next =>
        obtain ⟨rfl, rfl⟩ := Prod.mk.inj (Option.some.inj h)
        intro hin
        have hlen := hin.length_le
        simp only [List.nil_append, List.length_append, List.length_cons, List.length_nil] at hlen
        omega
      next hs =>
        obtain ⟨⟨b, r⟩, hb, he⟩ := Option.map_eq_some_iff.1 h
        obtain ⟨rfl, rfl⟩ := Prod.mk.inj he
        intro hin
        rcases List.infix_cons_iff.1 hin with ⟨t, ht⟩ | hin
        · -- the word would begin with `c`, where it was not found
          have hword : c :: s = (w ++ [z]) ++ (t ++ z :: r) := by
            calc c :: s = (c :: (b ++ w)) ++ z :: r := by simp [append_of_cut? hb]
              _ = (w ++ [z]) ++ t ++ z :: r := by rw [ht]; rfl
              _ = (w ++ [z]) ++ (t ++ z :: r) := List.append_assoc ..
          rw [hword, strip?_append] at hs
          cases hs
        · exact ih hb hin
  · rintro ⟨rfl, hno⟩
    induction before with
    | nil =>
      obtain ⟨c, v, hc⟩ := List.exists_cons_of_ne_nil (List.concat_ne_nil z w)
      have hs := strip?_append (w ++ [z]) rest
      rw [List.nil_append]
      rw [hc, List.cons_append] at hs ⊢
      rw [cut?, hs]
    | cons c before ih =>
      obtain ⟨hpre, hin⟩ := not_or.1 ((not_congr List.infix_cons_iff).1 hno)
      have hs : strip? (w ++ [z]) (c :: (before ++ (w ++ [z]) ++ rest)) = none := by
        cases hr : strip? (w ++ [z]) (c :: (before ++ (w ++ [z]) ++ rest)) with
        | none => rfl
        | some r =>
          -- the word would begin in front of its last element
          have hwhole : (w ++ [z]) <+: (c :: (before ++ w)) ++ z :: rest :=
            ⟨r, (eq_append_of_strip? hr).symm.trans (by simp)⟩
          have hlen : (w ++ [z]).length ≤ (c :: (before ++ w)).length := by
            simp only [List.length_cons, List.length_append, List.length_nil]
            omega
          exact absurd (List.prefix_of_prefix_length_le hwhole (List.prefix_append _ _) hlen) hpre
      show cut? (w ++ [z]) (c :: (before ++ (w ++ [z]) ++ rest)) = _
      rw [cut?, hs]
      dsimp only
      rw [ih hin]
      rfl

/-- **Cutting out a word** that cannot overlap itself. -/
theorem cut?_eq_some_iff (hx : x ∉ word) : cut? (x :: word) s = some (before, rest) ↔
    s = before ++ (x :: word) ++ rest ∧ ¬(x :: word) <:+: before := by
  obtain ⟨w, z, hw⟩ : ∃ w z, x :: word = w ++ [z] :=
    ⟨_, _, (List.dropLast_concat_getLast (List.cons_ne_nil x word)).symm⟩
  rw [← infix_append_iff_of_notMem hw hx, hw]
  exact cut?_concat_eq_some_iff

/-- **Cutting at one element**: it is not in front of its first place. -/
theorem cut?_singleton_iff {a : α} : cut? [a] s = some (before, rest) ↔ s = before ++ a :: rest ∧ a ∉ before := by
  rw [cut?_eq_some_iff List.not_mem_nil, List.singleton_infix_iff]
  simp

/-- Elements in front that are not cut at stand in front of the cut. -/
theorem cut?_append_of_notMem {a : α} {l : List α} (h : a ∉ l) (s : List α) :
    cut? [a] (l ++ s) = (cut? [a] s).map fun cut => (l ++ cut.1, cut.2) := by
  induction l with
  | nil => simp
  | cons c l ih =>
    obtain ⟨hc, hl⟩ := not_or.1 (mt List.mem_cons.2 h)
    simp only [List.cons_append, cut?, strip?, if_neg hc, ih hl, Option.map_map]
    rfl

end

/-! ## Cutting outside quotes -/

section

variable {word : List Char} {as left right : List Atom}

/-- No word begins with an atom that is not a character. -/
theorem strip?_plain_cons_eq_none {a : Atom} (hn : word ≠ []) (ha : ∀ c, a ≠ .char c) :
    strip? (plain word) (a :: as) = none := by
  cases word with
  | nil => exact absurd rfl hn
  | cons c word => simp [plain, strip?, (ha c).symm]

/-- An atom in front at which a word is not found stands in front of both cuts. -/
theorem cutOutside?_iff_cons {a : Atom} {cut cut' : Option (List Atom × List Atom)} (ha : ∀ run, a ≠ .unclosed run)
    (h : ∀ left, cut = some (left, right) ↔ cut' = some (left, right) ∧ ∀ run, .unclosed run ∉ left) :
    cut.map (consLeft a) = some (left, right) ↔
      cut'.map (fun (before, rest) => (a :: before, rest)) = some (left, right) ∧ ∀ run, .unclosed run ∉ left := by
  simp only [Option.map_eq_some_iff, Prod.exists, consLeft, Prod.mk.injEq]
  constructor
  · rintro ⟨l, r, hl, rfl, rfl⟩
    obtain ⟨hcut, hc⟩ := (h l).1 hl
    exact ⟨⟨l, r, hcut, rfl, rfl⟩, fun run hm => (List.mem_cons.1 hm).elim (fun e => ha run e.symm) (hc run)⟩
  · rintro ⟨⟨l, r, hl, rfl, rfl⟩, hc⟩
    exact ⟨l, r, (h l).2 ⟨hl, fun run hm => hc run (List.mem_cons_of_mem a hm)⟩, rfl, rfl⟩

/-- A word is cut out outside quotes where it is among the atoms, if the literals in front of it are closed. -/
theorem cutOutside?_eq_some_iff_cut? (hn : word ≠ []) : cutOutside? word as = some (left, right) ↔
    cut? (plain word) as = some (left, right) ∧ ∀ run, .unclosed run ∉ left := by
  induction as generalizing left with
  | nil =>
    have hempty : (plain word).isEmpty = false := by simpa [plain] using hn
    simp [cutOutside?, cut?, hempty]
  | cons a as ih =>
    cases a with
    | unclosed run =>
      simp only [cutOutside?, cut?, strip?_plain_cons_eq_none hn (a := .unclosed run) (by simp)]
      refine iff_of_false (by simp) ?_
      rintro ⟨h, hc⟩
      obtain ⟨⟨l, r⟩, _, he⟩ := Option.map_eq_some_iff.1 h
      obtain ⟨rfl, rfl⟩ := Prod.mk.inj he
      exact hc run List.mem_cons_self
    | quoted run =>
      simp only [cutOutside?, cut?, strip?_plain_cons_eq_none hn (a := .quoted run) (by simp)]
      exact cutOutside?_iff_cons (by simp) fun _ => ih
    | char c =>
      rw [cutOutside?, cut?]
      cases strip? (plain word) (.char c :: as) with
      | some rest =>
        refine ⟨fun h => ⟨h, ?_⟩, fun h => h.1⟩
        obtain ⟨rfl, _⟩ := Prod.mk.inj (Option.some.inj h)
        simp
      | none => exact cutOutside?_iff_cons (by simp) fun _ => ih

/-- What stands around a word outside quotes, and the word between, are the atoms. -/
theorem eq_append_of_cutOutside? (hn : word ≠ []) (h : cutOutside? word as = some (left, right)) :
    as = left ++ (plain word ++ right) := by
  rw [append_of_cut? ((cutOutside?_eq_some_iff_cut? hn).1 h).1, List.append_assoc]

/-- A search for one character ends at the first atom that is it. -/
theorem cutOutside?_singleton {c : Char} (hl : Lexed left) (hc : .char c ∉ left) :
    cutOutside? [c] (left ++ .char c :: right) = some (left, right) :=
  (cutOutside?_eq_some_iff_cut? (List.cons_ne_nil c [])).2 ⟨cut?_singleton_iff.2 ⟨rfl, hc⟩, hl.closed⟩

/-- A word is not found outside quotes exactly where it is not among the atoms, if all literals are closed. -/
theorem cutOutside?_eq_none_iff {x : Char} {word : List Char} (hc : ∀ run, .unclosed run ∉ as) :
    cutOutside? (x :: word) as = none ↔ ¬plain (x :: word) <:+: as := by
  have hiff : cutOutside? (x :: word) as = none ↔ cut? (plain (x :: word)) as = none := by
    simp only [Option.eq_none_iff_forall_ne_some, Prod.forall, ne_eq,
      cutOutside?_eq_some_iff_cut? (List.cons_ne_nil x word)]
    constructor
    · intro h left right hcut
      refine h left right ⟨hcut, fun run hm => hc run ?_⟩
      rw [append_of_cut? hcut, List.append_assoc]
      exact List.mem_append_left _ hm
    · intro h left right hcut
      exact h left right hcut.1
  exact hiff.trans cut?_eq_none_iff

/-- The parts around a word outside quotes, and the word between, are the text. -/
theorem eq_append_of_aroundOutside? {word s left right : List Char} (hn : word ≠ [])
    (h : aroundOutside? word s = some (left, right)) : s = left ++ (word ++ right) := by
  obtain ⟨⟨l, r⟩, hcut, he⟩ := Option.map_eq_some_iff.1 h
  obtain ⟨rfl, rfl⟩ := Prod.mk.inj he
  rw [← join_atoms s, eq_append_of_cutOutside? hn hcut, join_append, join_append, join_plain]

/-- Characters that are no quotes are atoms behind a text whose literals are closed. -/
theorem atoms_append_word {s w : List Char} (hs : Lexed (atoms s)) (hw : ∀ c ∈ w, isQuote c = false) :
    atoms (s ++ w) = atoms s ++ plain w := by
  rw [atoms_append (fun c hc => hw c (List.mem_of_mem_head? hc)) hs, atoms_plain hw]

/-- **Parting a text at a word** `w ++ [z]` without quotes: the literals in front of its place are closed, and outside
them it does not begin there. -/
theorem aroundOutside?_concat_eq_some_iff {s front rest w : List Char} {z : Char}
    (hq : ∀ c ∈ w ++ [z], isQuote c = false) : aroundOutside? (w ++ [z]) s = some (front, rest) ↔
      s = front ++ (w ++ [z]) ++ rest ∧ Lexed (atoms front) ∧ ¬plain (w ++ [z]) <:+: atoms (front ++ w) := by
  have hw : ∀ c ∈ w, isQuote c = false := fun c hc => hq c (List.mem_append_left _ hc)
  have hhead (t : List Char) : ∀ c ∈ ((w ++ [z]) ++ t).head?, isQuote c = false := by
    obtain ⟨x, v, hx⟩ := List.exists_cons_of_ne_nil (List.concat_ne_nil z w)
    rw [hx] at hq ⊢
    simpa using hq x List.mem_cons_self
  have hcut {left right : List Atom} : cutOutside? (w ++ [z]) (atoms s) = some (left, right) ↔
      (atoms s = left ++ plain (w ++ [z]) ++ right ∧ ¬plain (w ++ [z]) <:+: left ++ plain w) ∧
        ∀ run, .unclosed run ∉ left := by
    rw [cutOutside?_eq_some_iff_cut? (List.concat_ne_nil z w), plain_append, show plain [z] = [.char z] from rfl,
      cut?_concat_eq_some_iff]
  constructor
  · intro h
    obtain ⟨⟨left, right⟩, hlr, he⟩ := Option.map_eq_some_iff.1 h
    obtain ⟨rfl, rfl⟩ := Prod.mk.inj he
    obtain ⟨⟨ha, hf⟩, hc⟩ := hcut.1 hlr
    have hl : Lexed left := lexed_of_atoms_eq_append (by rw [ha, List.append_assoc]) hc
    refine ⟨?_, by rwa [atoms_join hl], ?_⟩
    · rw [← join_atoms s, ha, join_append, join_append, join_plain]
    · rwa [atoms_append_word (by rwa [atoms_join hl]) hw, atoms_join hl]
  · rintro ⟨rfl, hl, hf⟩
    have ha : atoms (front ++ (w ++ [z]) ++ rest) = atoms front ++ plain (w ++ [z]) ++ atoms rest := by
      rw [List.append_assoc, atoms_append (hhead rest) hl, atoms_plain_append hq, List.append_assoc]
    rw [atoms_append_word hl hw] at hf
    rw [aroundOutside?, hcut.2 ⟨⟨ha, hf⟩, hl.closed⟩]
    simp [join_atoms]

end

/-! ## The inside of a parenthesis -/

theorem Balanced.lexed {s : List Char} (h : Balanced (atoms s)) : Lexed (atoms s) :=
  lexed_atoms (closed_of_nest h)

/-- **The inside of a parenthesis** is the balanced text in front of a `)`. -/
theorem insideParen?_eq_some_iff {s inside rest : List Char} :
    insideParen? s = some (inside, rest) ↔ s = inside ++ ')' :: rest ∧ Balanced (atoms inside) := by
  constructor
  · intro h
    obtain ⟨⟨i, r⟩, hc, he⟩ := Option.map_eq_some_iff.1 h
    obtain ⟨rfl, rfl⟩ := Prod.mk.inj he
    obtain ⟨ha, hn⟩ := closeParen?_eq_some_iff.1 hc
    have hl : Lexed i := lexed_of_atoms_eq_append ha (closed_of_nest hn)
    refine ⟨?_, by rw [atoms_join hl]; exact hn⟩
    rw [← join_atoms s, ha]
    simp [Atom.text]
  · rintro ⟨rfl, hb⟩
    have ha : atoms (inside ++ ')' :: rest) = atoms inside ++ .char ')' :: atoms rest := by
      rw [atoms_append (by simp [isQuote]) hb.lexed, atoms_cons rfl]
    simp only [insideParen?, ha, closeParen?_of_nest _ hb, Option.map_some, join_atoms]

/-- The end of a parenthesis among the atoms of a text is that in the text. -/
theorem closeParen?_atoms (s : List Char) :
    closeParen? 0 (atoms s) = (insideParen? s).map fun cut => (atoms cut.1, atoms cut.2) := by
  cases h : insideParen? s with
  | none => exact Option.map_eq_none_iff.1 h
  | some cut =>
    obtain ⟨inside, rest⟩ := cut
    obtain ⟨rfl, hb⟩ := insideParen?_eq_some_iff.1 h
    have ha : atoms (inside ++ ')' :: rest) = atoms inside ++ .char ')' :: atoms rest := by
      rw [atoms_append (by simp [isQuote]) hb.lexed, atoms_cons rfl]
    rw [ha, closeParen?_of_nest _ hb, Option.map_some]

/-- **A balanced text parts** at a character outside its literals and parentheses: if it is balanced behind, then in
front of the character, too. -/
theorem balanced_atoms_append_cons_iff {c : Char} {s t : List Char} (hq : isQuote c = false) (ho : c ≠ '(')
    (hc : c ≠ ')') (ht : Balanced (atoms t)) : Balanced (atoms (s ++ c :: t)) ↔ Balanced (atoms s) := by
  constructor
  · intro h
    have hnone : QuoteOpen none := by simp [QuoteOpen]
    -- the quotes come out even in the whole and behind the character, so none is open in front of it
    have hopen : openQuote none s = none := by
      have hwhole := openQuote_join h.lexed
      have hbehind := openQuote_join ht.lexed
      rw [join_atoms] at hwhole hbehind
      rw [openQuote_append, openQuote_cons, nextQuote_of_not_isQuote (hnone.open s) hq] at hwhole
      exact openQuote_injective (hnone.open s) hnone (hwhole.trans hbehind.symm)
    have hn : nest 0 (atoms s ++ .char c :: atoms t) = some 0 := by
      rw [← atoms_append_cons hq h.lexed hopen]
      exact h
    -- and every parenthesis open in front of it is still open at the end
    obtain ⟨depth, hs, hd⟩ := Option.bind_eq_some_iff.1 (nest_append 0 _ _ ▸ hn)
    obtain rfl : depth = 0 := Option.some.inj ((Balanced.char ho hc ht).nest depth ▸ hd)
    exact hs
  · intro h
    rw [atoms_append (by simpa using hq) h.lexed, atoms_cons hq]
    exact h.append (Balanced.char ho hc ht)

/-! ## The first comma -/

/-- No comma of the atoms stands outside parentheses. -/
def NoComma (as : List Atom) : Prop :=
  ∀ left right, as = left ++ .char ',' :: right → ¬Balanced left

/-- An atom in front that is no comma to cut at stands in front of the path. -/
theorem cutComma?_iff_cons {a : Atom} {as left right : List Atom} {depth inner : Nat}
    (hnest : ∀ as, nest depth (a :: as) = nest inner as) (ha : a = .char ',' → depth ≠ 0)
    (h : ∀ left, cutComma? inner as = some (left, right) ↔ as = left ++ .char ',' :: right ∧ nest inner left = some 0 ∧
      ∀ l r, left = l ++ .char ',' :: r → nest inner l ≠ some 0) :
    (cutComma? inner as).map (consLeft a) = some (left, right) ↔
      a :: as = left ++ .char ',' :: right ∧ nest depth left = some 0 ∧
        ∀ l r, left = l ++ .char ',' :: r → nest depth l ≠ some 0 := by
  have hnil : a = .char ',' → nest depth [] ≠ some 0 := fun he hn => ha he (Option.some.inj hn)
  constructor
  · intro hcut
    obtain ⟨⟨left, r⟩, hl, he⟩ := Option.map_eq_some_iff.1 hcut
    obtain ⟨rfl, rfl⟩ := Prod.mk.inj he
    obtain ⟨rfl, hn, hno⟩ := (h left).1 hl
    refine ⟨rfl, by rwa [hnest], fun front r hfront => ?_⟩
    cases front with
    | nil => exact hnil (List.cons.inj hfront).1
    | cons b front =>
      obtain ⟨rfl, hleft⟩ := List.cons.inj hfront
      rw [hnest]
      exact hno front r hleft
  · rintro ⟨he, hn, hno⟩
    cases left with
    | nil => exact absurd hn (hnil (List.cons.inj he).1)
    | cons b left =>
      obtain ⟨rfl, rfl⟩ := List.cons.inj he
      rw [hnest] at hn
      rw [(h left).2 ⟨rfl, hn, fun l r he => by rw [← hnest]; exact hno (a :: l) r (by rw [he]; rfl)⟩]
      rfl

/-- The first comma outside parentheses, where every parenthesis that closes was open. -/
theorem cutComma?_eq_some_iff {as left right : List Atom} {depth k : Nat} (h : nest depth as = some k) :
    cutComma? depth as = some (left, right) ↔ as = left ++ .char ',' :: right ∧ nest depth left = some 0 ∧
      ∀ l r, left = l ++ .char ',' :: r → nest depth l ≠ some 0 := by
  induction as generalizing depth left with
  | nil => simp [cutComma?]
  | cons a as ih =>
    cases a with
    | unclosed run => cases h
    | quoted run => exact cutComma?_iff_cons (fun _ => rfl) (by simp) fun _ => ih h
    | char c =>
      rw [cutComma?]
      split
      next hc =>
        obtain ⟨rfl, rfl⟩ := hc
        constructor
        · intro he
          obtain ⟨rfl, rfl⟩ := Prod.mk.inj (Option.some.inj he)
          exact ⟨rfl, rfl, by simp⟩
        · rintro ⟨he, _, hno⟩
          cases left with
          | nil => rw [(List.cons.inj he).2]
          | cons b left =>
            obtain ⟨rfl, _⟩ := List.cons.inj he
            exact absurd rfl (hno [] left rfl)
      next hc =>
        have hcomma : Atom.char c = .char ',' → depth ≠ 0 := fun he hd => hc ⟨Atom.char.inj he, hd⟩
        dsimp only
        by_cases ho : c = '('
        · have hnest : ∀ as, nest depth (.char c :: as) = nest (depth + 1) as := fun as => by simp [nest, ho]
          rw [if_pos ho]
          exact cutComma?_iff_cons hnest hcomma fun _ => ih (hnest as ▸ h)
        · by_cases hp : c = ')'
          · cases depth with
            | zero => simp [nest, hp] at h
            | succ depth =>
              have hnest : ∀ as, nest (depth + 1) (.char c :: as) = nest depth as := fun as => by
                simp [nest, hp]
              rw [if_neg ho, if_pos hp]
              exact cutComma?_iff_cons hnest hcomma fun _ => ih (hnest as ▸ h)
          · have hnest : ∀ as, nest depth (.char c :: as) = nest depth as := fun as => by
              simp [nest, ho, hp]
            rw [if_neg ho, if_neg hp]
            exact cutComma?_iff_cons hnest hcomma fun _ => ih (hnest as ▸ h)

theorem eq_append_of_cutComma? : ∀ {as left right : List Atom} {depth : Nat},
    cutComma? depth as = some (left, right) → as = left ++ .char ',' :: right
  | [], _, _, _, h => by cases h
  | .unclosed _ :: _, _, _, _, h => by cases h
  | .quoted _ :: _, _, _, _, h => append_of_map_consLeft (fun _ => eq_append_of_cutComma?) h
  | .char c :: as, left, right, depth, h => by
    rw [cutComma?] at h
    split at h
    next hc =>
      obtain ⟨rfl, rfl⟩ := Prod.mk.inj (Option.some.inj h)
      rw [hc.1]
      rfl
    next => exact append_of_map_consLeft (fun _ => eq_append_of_cutComma?) h

/-- The parts around a comma, and the comma between, are the text, whether or not its parentheses are closed. -/
theorem eq_append_of_aroundComma? {s left right : List Char} (h : aroundComma? s = some (left, right)) :
    s = left ++ ',' :: right := by
  obtain ⟨⟨l, r⟩, hcut, he⟩ := Option.map_eq_some_iff.1 h
  obtain ⟨rfl, rfl⟩ := Prod.mk.inj he
  rw [← join_atoms s, eq_append_of_cutComma? hcut]
  simp [Atom.text]

/-- **The arguments of a call** are parted at the first comma outside quotes and parentheses. -/
theorem aroundComma?_eq_some_iff {arguments path literal : List Char} (h : Balanced (atoms arguments)) :
    aroundComma? arguments = some (path, literal) ↔
      arguments = path ++ ',' :: literal ∧ Balanced (atoms path) ∧ NoComma (atoms path) := by
  constructor
  · intro hcut
    obtain ⟨⟨left, right⟩, hlr, he⟩ := Option.map_eq_some_iff.1 hcut
    obtain ⟨rfl, rfl⟩ := Prod.mk.inj he
    obtain ⟨ha, hb, hno⟩ := (cutComma?_eq_some_iff h).1 hlr
    have hleft : atoms (join left) = left := atoms_join (ha ▸ h.lexed).left
    refine ⟨?_, by rwa [hleft], by rwa [hleft]⟩
    rw [← join_atoms arguments, ha]
    simp [Atom.text]
  · rintro ⟨rfl, hb, hno⟩
    have ha : atoms (path ++ ',' :: literal) = atoms path ++ .char ',' :: atoms literal := by
      rw [atoms_append (by simp [isQuote]) hb.lexed, atoms_cons rfl]
    rw [aroundComma?, (cutComma?_eq_some_iff h).2 ⟨ha, hb, hno⟩]
    simp [join_atoms]

end RelQuery.Text
