import RelQuery.Proofs.Condition.Composition
import RelQuery.Proofs.Text.Cutting
import RelQuery.Proofs.Text.Search

/-!
# Blanks around a text that compiles

A text that compiles does so without the blanks around it, to the same condition (`Condition.compile_trim`). Blanks in
front cannot begin a connective, which would lack its left operand; a blank behind may end one only if its right operand
is missing (`Draft.Ends`).

* `Outline.span_concat_blank` : what a span loses with the blank at the end of its text;
* `Reads.of_blanks_append`, `Reads.of_append_blanks` : a reading loses the blanks around its text.
-/

namespace RelQuery

open Text Outline

/-! ## Spans without the blank behind them -/

/-- An element other than the last of a list stands in front of it. -/
theorem exists_concat_of_append_cons {α : Type} {a z : α} {as xs ys : List α} (hne : a ≠ z)
    (h : as ++ [z] = xs ++ a :: ys) : ∃ ys', ys = ys' ++ [z] ∧ as = xs ++ a :: ys' := by
  rcases List.eq_nil_or_concat ys with rfl | ⟨ys', y, rfl⟩
  · obtain ⟨_, he⟩ := List.append_inj' h rfl
    exact absurd (List.cons.inj he).1.symm hne
  · have he : as ++ [z] = (xs ++ a :: ys') ++ [y] := by simpa using h
    obtain ⟨rfl, hz⟩ := List.append_inj' he rfl
    obtain rfl := (List.cons.inj hz).1
    exact ⟨ys', by simp, rfl⟩

/-- A word that is not in front of a text is not in front of what the text begins with. -/
theorem Text.strip?_eq_none_of_append {α : Type} [DecidableEq α] {word s t : List α} (h : strip? word (s ++ t) = none) :
    strip? word s = none := by
  cases hs : strip? word s with
  | none => rfl
  | some r =>
    rw [eq_append_of_strip? hs, List.append_assoc, strip?_append] at h
    cases h

namespace Outline

theorem link?_eq_none_of_append {s t : List Atom} (h : link? (s ++ t) = none) : link? s = none :=
  link?_eq_none_iff.2 fun k => strip?_eq_none_of_append (link?_eq_none_iff.1 h k)

/-- The span `text` and its end, of `as` and the blank `z` behind it, are those of `as` alone and the blank: it ends
the span, or what the end leaves over, unless it was the last character of a connective. -/
def Stop.Loses (b : Bool) (as : List Atom) (z : Atom) (text : List Atom) : Stop → Prop
  | .done => text = as ++ [z] ∧ span b as = (as, .done)
  | .link k rest => rest = [] ∨ ∃ r, rest = r ++ [z] ∧ span b as = (text, .link k r)
  | .group inside rest => ∃ r, rest = r ++ [z] ∧ span b as = (text, .group inside r)
  | .fault _ => True

/-- More atoms in front of a span stay in front of it. -/
theorem Stop.Loses.addFront {b b' : Bool} {front as as' text : List Atom} {z : Atom} {stop : Stop}
    (h : stop.Loses b' as z text) (he : as' = front ++ as) (hs : span b as' = addFront front (span b' as)) :
    stop.Loses b as' z (front ++ text) := by
  subst he
  cases stop with
  | done =>
    obtain ⟨rfl, ht⟩ := h
    exact ⟨by rw [List.append_assoc], by rw [hs, ht]; rfl⟩
  | link k rest =>
    rcases h with h | ⟨r, hr, ht⟩
    · exact .inl h
    · exact .inr ⟨r, hr, by rw [hs, ht]; rfl⟩
  | group inside rest =>
    obtain ⟨r, hr, ht⟩ := h
    exact ⟨r, hr, by rw [hs, ht]; rfl⟩
  | fault _ => trivial

/-- **A span loses the blank behind its text.** -/
theorem span_concat_blank {c : Char} (hc : isBlank c = true) {xs : List Atom} (b : Bool) {as : List Atom}
    (hx : as ++ [.char c] = xs) : (span b xs).2.Loses b as (.char c) (span b xs).1 := by
  have hparen : Atom.char ')' ≠ .char c := by
    rintro ⟨⟩
    cases hc
  fun_induction span b xs generalizing as with
  | case1 => simp at hx
  | case2 => trivial
  | case3 b run rest ih =>
    obtain ⟨r, rfl, rfl⟩ :=
      exists_concat_of_append_cons (by simp) (show as ++ [.char c] = [] ++ .quoted run :: rest from hx)
    exact (ih rfl).addFront rfl (span_quoted run)
  | case4 => trivial
  | case5 b c' rest call hcall inside rest' hclose ih =>
    obtain ⟨rfl, hi⟩ := closeParen?_eq_some_iff.1 hclose
    have he : as ++ [.char c] = (callOpening ++ inside) ++ .char ')' :: rest' := by
      rw [hx, eq_append_of_strip? hcall, List.append_assoc]
    obtain ⟨r, rfl, rfl⟩ := exists_concat_of_append_cons hparen he
    have hs : span b (callOpening ++ (inside ++ .char ')' :: r)) =
        addFront (callOpening ++ inside ++ [.char ')']) (span false r) :=
      span_callOpening (closeParen?_of_nest r hi)
    rw [← List.append_assoc] at hs
    exact (ih rfl).addFront (by simp) hs
  | case6 b c' rest hcall k rest' hl =>
    have he := link?_eq_some_iff.1 hl
    rcases List.eq_nil_or_concat rest' with rfl | ⟨r, y, rfl⟩
    · exact .inl rfl
    · have hy : as ++ [.char c] = (plain (linkWord k) ++ r) ++ [y] := by rw [hx, he]; simp
      obtain ⟨rfl, hz⟩ := List.append_inj' hy rfl
      obtain rfl := (List.cons.inj hz).1
      exact .inr ⟨r, by simp, span_link k⟩
  | case7 => trivial
  | case8 rest inside rest' hclose =>
    obtain ⟨rfl, hi⟩ := closeParen?_eq_some_iff.1 hclose
    have he : as ++ [.char c] = (.char '(' :: inside) ++ .char ')' :: rest' := hx
    obtain ⟨r, rfl, rfl⟩ := exists_concat_of_append_cons hparen he
    exact ⟨r, rfl, by rw [List.cons_append, span_paren (closeParen?_of_nest r hi)]; rfl⟩
  | case9 b rest inside rest' hclose hb _ _ ih =>
    obtain ⟨rfl, hi⟩ := closeParen?_eq_some_iff.1 hclose
    have he : as ++ [.char c] = (.char '(' :: inside) ++ .char ')' :: rest' := hx
    obtain ⟨r, rfl, rfl⟩ := exists_concat_of_append_cons hparen he
    have hs : span b (.char '(' :: (inside ++ .char ')' :: r)) =
        addFront (.char '(' :: inside ++ [.char ')']) (span false r) := by
      rw [span_paren (closeParen?_of_nest r hi), if_neg hb]
    exact (ih rfl).addFront (by simp) hs
  | case10 => trivial
  | case11 b c' rest hcall hl ho hcl ih =>
    cases as with
    | nil =>
      obtain ⟨rfl, rfl⟩ : c = c' ∧ rest = [] := by simpa [eq_comm] using hx
      rw [span_nil]
      exact ⟨rfl, span_nil⟩
    | cons a as =>
      obtain ⟨rfl, rfl⟩ := List.cons.inj hx
      have hcall' : strip? callOpening (.char c' :: as) = none := strip?_eq_none_of_append (t := [.char c]) hcall
      have hl' : link? (.char c' :: as) = none := link?_eq_none_of_append (t := [.char c]) hl
      exact (ih rfl).addFront rfl (span_char hcall' hl' ho hcl)

end Outline

/-! ## Readings without the blanks around them -/

namespace Reads

variable {f : Bool} {as : List Atom} {cs : Draft} {c : Char}

theorem eq_nil (h : Reads f [] cs) : cs = [] := by
  have he := h.ofPieces?
  rw [ofAtoms_done span_nil] at he
  exact (Option.some.inj he).symm

/-- A blank in front of a text does not matter: a connective that begins with it has no left operand. -/
theorem of_blank_cons (hc : isBlank c = true) (h : Reads false (.char c :: as) cs) : Reads false as cs := by
  have hcall : strip? callOpening (.char c :: as) = none := by
    apply strip?_callOpening_eq_none
    rintro rfl
    cases hc
  cases hl : link? (.char c :: as) with
  | some found =>
    obtain ⟨k, rest⟩ := found
    have hs : span true (.char c :: as) = ([], .link k rest) := by
      rw [link?_eq_some_iff.1 hl]
      exact span_link k
    cases h with
    | blank hs' _ | test hs' _ _ | group hs' _ _ =>
      rw [hs] at hs'
      cases hs'
    | testLink hs' hb _ _ =>
      rw [hs] at hs'
      cases hs'
      cases hb
  | none =>
    -- the span begins behind the blank as it does in front of it
    have hstep : ∀ {text stop}, span true (.char c :: as) = (text, stop) →
        ∃ rest, text = .char c :: rest ∧ span true as = (rest, stop) := by
      intro text stop hs
      rw [span_char hcall hl (by rintro rfl; cases hc) (by rintro rfl; cases hc), hc] at hs
      obtain ⟨rfl, rfl⟩ := Prod.mk.inj hs
      exact ⟨_, rfl, rfl⟩
    have hchar : isBlankText [c] = true := by simpa [isBlankText] using hc
    have hblank : ∀ rest, isBlankText (join (.char c :: rest)) = isBlankText (join rest) := by
      intro rest
      simp [Atom.text, isBlankText, hc]
    have htrim : ∀ rest, trim (join (.char c :: rest)) = trim (join rest) := fun rest => trim_blanks_append hchar _
    cases h with
    | blank hs hb =>
      obtain ⟨rest, rfl, hr⟩ := hstep hs
      exact .blank hr (by rwa [hblank] at hb)
    | test hs hb ht =>
      obtain ⟨rest, rfl, hr⟩ := hstep hs
      exact .test hr (by rwa [hblank] at hb) (by rwa [htrim] at ht)
    | group hs h₁ h₂ =>
      obtain ⟨rest, rfl, hr⟩ := hstep hs
      exact .group hr h₁ h₂
    | testLink hs hb ht h' =>
      obtain ⟨rest, rfl, hr⟩ := hstep hs
      exact .testLink hr (by rwa [hblank] at hb) (by rwa [htrim] at ht) h'

theorem of_blanks_append : ∀ {l : List Char}, isBlankText l = true → Reads false (plain l ++ as) cs → Reads false as cs
  | [], _, h => h
  | c :: l, hl, h => by
    obtain ⟨hc, hl⟩ : isBlank c = true ∧ isBlankText l = true := by simpa [isBlankText] using hl
    exact of_blanks_append hl (of_blank_cons hc h)

/-- A blank behind a text does not matter, if the text ends with an operand. -/
theorem of_append_blank (hc : isBlank c = true) {xs : List Atom} (h : Reads f xs cs) :
    ∀ {as : List Atom}, as ++ [.char c] = xs → Draft.Ends f cs → Reads f as cs := by
  have hchar : isBlankText [c] = true := by simpa [isBlankText] using hc
  have hblank : ∀ as, isBlankText (join (as ++ [.char c])) = isBlankText (join as) := by
    intro as
    simp [Atom.text, hchar]
  have htrim : ∀ as, trim (join (as ++ [.char c])) = trim (join as) := by
    intro as
    rw [join_append]
    exact trim_append_blanks hchar _
  have hloses : ∀ {xs as text stop}, span true xs = (text, stop) → as ++ [.char c] = xs →
      stop.Loses true as (.char c) text := by
    intro xs as text stop hs hx
    simpa [hs] using span_concat_blank hc true hx
  induction h with
  | blank hs hb =>
    intro as hx he
    obtain ⟨rfl, ht⟩ := hloses hs hx
    exact .blank ht (by rwa [hblank] at hb)
  | test hs hb htest =>
    intro as hx he
    obtain ⟨rfl, ht⟩ := hloses hs hx
    exact .test ht (by rwa [hblank] at hb) (by rwa [htrim] at htest)
  | group hs h₁ _ _ ih₂ =>
    intro as hx he
    obtain ⟨r, rfl, ht⟩ := hloses hs hx
    exact .group ht h₁ (ih₂ rfl he)
  | link hs hb h' ih =>
    intro as hx he
    rcases hloses hs hx with rfl | ⟨r, rfl, ht⟩
    · -- the connective ended the text
      rw [h'.eq_nil] at he
      cases he
    · exact .link ht hb (ih rfl he)
  | testLink hs hb htest h' ih =>
    intro as hx he
    rcases hloses hs hx with rfl | ⟨r, rfl, ht⟩
    · rw [h'.eq_nil] at he
      cases he
    · exact .testLink ht hb htest (ih rfl he)

theorem of_append_blanks (he : Draft.Ends f cs) : ∀ {r : List Char} {as : List Atom}, isBlankText r = true →
    Reads f (as ++ plain r) cs → Reads f as cs
  | [], as, _, h => by simpa [plain] using h
  | c :: r, as, hr, h => by
    obtain ⟨hc, hr⟩ : isBlank c = true ∧ isBlankText r = true := by simpa [isBlankText] using hr
    have h' : Reads f (as ++ [.char c] ++ plain r) cs := by simpa [plain] using h
    exact of_append_blank hc (of_append_blanks he hr h') rfl he

end Reads

/-! ## Texts without the blanks around them -/

/-- The atoms of a text whose literals are closed, the blanks around it split off. -/
theorem Text.exists_atoms_trim {s : List Char} (h : Lexed (atoms s)) : ∃ l r, isBlankText l = true ∧
    isBlankText r = true ∧ s = l ++ trim s ++ r ∧ atoms s = plain l ++ (atoms (trim s) ++ plain r) := by
  obtain ⟨l, r, hl, hr, hs⟩ := exists_blanks_trim s
  refine ⟨l, r, hl, hr, hs, ?_⟩
  have ha : atoms s = plain l ++ atoms (trim s ++ r) := by
    rw [← atoms_plain_append (isQuote_of_isBlankText hl), ← List.append_assoc, ← hs]
  rw [ha] at h
  rw [ha, atoms_append_plain (isQuote_of_isBlankText hr) h.right]

/-- Blanks around a balanced text leave it balanced. -/
theorem Text.balanced_of_trim {s : List Char} (h : Balanced (atoms (trim s))) : Balanced (atoms s) := by
  obtain ⟨l, r, hl, hr, hs⟩ := exists_blanks_trim s
  have hplain : ∀ {w}, isBlankText w = true → Balanced (plain w) := fun hw =>
    balanced_plain (notMem_of_isBlankText hw rfl) (notMem_of_isBlankText hw rfl)
  have hfollows : ∀ c ∈ r.head?, isQuote c = false := fun c hc =>
    isQuote_of_isBlankText hr c (List.mem_of_mem_head? hc)
  rw [hs, List.append_assoc, atoms_plain_append (isQuote_of_isBlankText hl), atoms_append hfollows h.lexed,
    atoms_plain (isQuote_of_isBlankText hr)]
  exact (hplain hl).append (h.append (hplain hr))

namespace Condition

/-- A text that compiles is balanced, also with blanks around it. -/
theorem balanced_of_compile_trim {d : Dialect} {s : List Char} {result : Condition × Bindings}
    (h : compile d (String.ofList (trim s)) = .ok result) : Balanced (atoms s) := by
  obtain ⟨nodes, bound⟩ := result
  obtain ⟨cs, hr, _, _, _⟩ := compile_iff_reads.1 h
  rw [String.toList_ofList] at hr
  exact balanced_of_trim hr.balanced

/-- **Blanks around a text** that compiles may be dropped. -/
theorem compile_trim {d : Dialect} {source : String} {result : Condition × Bindings}
    (h : compile d source = .ok result) : compile d (String.ofList (trim source.toList)) = .ok result := by
  obtain ⟨nodes, bound⟩ := result
  obtain ⟨cs, hr, hv, hn, hb⟩ := compile_iff_reads.1 h
  obtain ⟨l, r, hl, hr', _, ha⟩ := exists_atoms_trim hr.lexed
  have hends : Draft.Ends false cs := Draft.ends_of_violationFrom? (violation?_eq_none_iff.1 (hn ▸ hv))
  rw [ha] at hr
  refine compile_iff_reads.2 ⟨cs, ?_, hv, hn, hb⟩
  rw [String.toList_ofList]
  exact Reads.of_append_blanks hends hr' (Reads.of_blanks_append hl hr)

end Condition

end RelQuery
