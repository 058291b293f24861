import RelQuery.Bytes.Scanner
import RelQuery.Proofs.Bytes.Units
import Mathlib.Control.Monad.Basic

/-!
# Scanning by position finds what scanning atoms finds

Each scanner is followed from a position at which the units of a text are left. It comes to an end without reading
outside the text, and it finds the position behind the characters that the search on atoms cuts off: for bytes and for
characters alike, and for every other kind of units.

* `skipQuoted_units` : literals, by `closeQuote?`;
* `Follows.eq_ok` : a scanner that takes the steps of a search on atoms finds what that finds;
* `matchingParen_units`, `findOutside_units`, `commaAt_units` : the three searches outside literals.
-/

namespace RelQuery.Bytes

open Text

variable {α : Type} [CodeUnit α] {us rest : List α} {u : α} {i : Nat} {c x : Char} {s : List Char}

/-! ## Single units -/

theorem stands_eq (hu : code u = x.toNat) : stands c u = (x == c) := by
  rw [stands, hu, Bool.eq_iff_iff, beq_iff_eq, beq_iff_eq]
  exact ⟨toNat_injective, congrArg Char.toNat⟩

theorem isMark_eq (hu : code u = x.toNat) : isMark u = isQuote x := by
  rw [isMark, stands_eq hu, stands_eq hu, isQuote]

theorem stands_of_mem_encode (hc : c.toNat < 128) (hx : x ≠ c) :
    ∀ u ∈ (CodeUnit.encode x : List α), stands c u = false := by
  intro u hu
  rw [stands, beq_eq_false_iff_ne]
  exact code_ne_of_mem_encode hc hx u hu

theorem isMark_of_mem_encode (hx : isQuote x = false) : ∀ u ∈ (CodeUnit.encode x : List α), isMark u = false := by
  intro u hu
  simp only [isQuote, Bool.or_eq_false_iff, beq_eq_false_iff_ne] at hx
  rw [isMark, stands_of_mem_encode (by decide) hx.1 u hu, stands_of_mem_encode (by decide) hx.2 u hu]
  rfl

/-- The first unit of a character looks like a character of ASCII if it is that character. -/
theorem stands_head {vs : List α} (hc : c.toNat < 128) (hu : CodeUnit.encode x = u :: vs) : stands c u = (x == c) := by
  by_cases hx : x = c
  · obtain ⟨v, hv, hcode⟩ := CodeUnit.encode_ascii (α := α) x (hx ▸ hc)
    obtain ⟨rfl, -⟩ := List.cons.inj (hu.symm.trans hv)
    exact stands_eq hcode
  · rw [stands_of_mem_encode hc hx u (by rw [hu]; exact List.mem_cons_self), beq_false_of_ne hx]

theorem isMark_head {vs : List α} (hu : CodeUnit.encode x = u :: vs) : isMark u = isQuote x := by
  rw [isMark, stands_head (by decide) hu, stands_head (by decide) hu, isQuote]

/-- A unit inside a character looks like no character of ASCII. -/
theorem stands_wide (hc : c.toNat < 128) (hu : 128 ≤ code u) : stands c u = false := by
  rw [stands, beq_eq_false_iff_ne]
  omega

theorem isMark_wide (hu : 128 ≤ code u) : isMark u = false := by
  rw [isMark, stands_wide (by decide) hu, stands_wide (by decide) hu]
  rfl

theorem beginsWith_wide {word : List Char} (hw : ∀ c ∈ word, c.toNat < 128) (hn : word ≠ []) (hu : 128 ≤ code u) :
    beginsWith word (u :: rest) = false := by
  obtain ⟨c, w, rfl⟩ := List.exists_cons_of_ne_nil hn
  have hc : c.toNat ≠ code u := by
    have := hw c List.mem_cons_self
    omega
  rw [beginsWith, map_code_units hw, List.map_cons, List.map_cons, List.isPrefixOf, beq_false_of_ne hc]
  rfl

theorem toNat_lt_of_isQuote (hq : isQuote c = true) : c.toNat < 128 := by
  simp only [isQuote, Bool.or_eq_true, beq_iff_eq] at hq
  rcases hq with rfl | rfl <;> decide

theorem any_head?_units (hc : c.toNat < 128) (s : List Char) :
    ((units s : List α).head?.any (stands c)) = (s.head? == some c) := by
  cases s with
  | nil => rfl
  | cons x s =>
    obtain ⟨u, vs, hu⟩ := List.exists_cons_of_ne_nil (CodeUnit.encode_ne_nil (α := α) x)
    rw [units_cons, hu, List.cons_append, List.head?_cons, Option.any_some, stands_head hc hu, List.head?_cons,
      Option.some_beq_some]

/-! ## Literals -/

section Literals

variable {quote : α} {q : Char}

theorem closeFrom_nil (h : us.drop i = []) : closeFrom quote us i = .ok none := by
  rw [closeFrom, if_neg (not_lt_of_drop h)]
  rfl

theorem closeFrom_cons (h : us.drop i = u :: rest) : closeFrom quote us i =
    if code u = code quote then
      if rest.head?.any fun v => code v == code quote then closeFrom quote us (i + 2) else .ok (some (i + 1))
    else closeFrom quote us (i + 1) := by
  rw [closeFrom, if_pos (lt_of_drop h), unitAt_of_drop h, getElem?_succ h]
  rfl

/-- A character that is not the quote is passed over as a whole. -/
theorem closeFrom_char (hq : q.toNat < 128) (hquote : code quote = q.toNat) (hx : x ≠ q)
    (h : us.drop i = units (x :: s)) : closeFrom quote us i = closeFrom quote us (i + width α [x]) := by
  have hp : ∀ v ∈ (CodeUnit.encode x : List α), code v ≠ code quote := by
    rw [hquote]
    exact code_ne_of_mem_encode hq hx
  rw [width, units_cons, units_nil, List.append_nil]
  refine pass_units (fun j v rest hj hv => ?_) hp h
  rw [closeFrom_cons hj, if_neg hv]

theorem closeFrom_quote (hq : q.toNat < 128) (hquote : code quote = q.toNat) (h : us.drop i = units (q :: s)) :
    closeFrom quote us i = if s.head? = some q then closeFrom quote us (i + 2) else .ok (some (i + 1)) := by
  obtain ⟨u, hu, hcode⟩ := exists_drop_ascii hq h
  have hnext : (units s : List α).head?.any (fun v => code v == code quote) = (s.head? == some q) := by
    rw [hquote]
    exact any_head?_units hq s
  rw [closeFrom_cons hu, if_pos (hcode.trans hquote.symm), hnext]
  simp only [beq_iff_eq]

/-- **The end of a literal** is found behind the run that a quote closes. -/
theorem closeFrom_units (hq : q.toNat < 128) (hquote : code quote = q.toNat) (h : us.drop i = units s) :
    closeFrom quote us i = .ok ((closeQuote? q s).map fun cut => i + width α cut.1) := by
  have hw : width α [q] = 1 := width_of_ascii hq
  fun_induction closeQuote? q s generalizing i with
  | case1 => exact closeFrom_nil h
  | case2 => simp [closeFrom_quote hq hquote h, hw]
  | case3 x hx =>
    rw [closeFrom_char hq hquote hx h]
    exact closeFrom_nil (drop_add_width (s := [x]) (t := []) h)
  | case4 s ih =>
    have hs : us.drop (i + 2) = units s := by
      have := drop_add_width (s := [q, q]) (t := s) h
      rwa [width_cons, hw] at this
    rw [closeFrom_quote hq hquote h, List.head?_cons, if_pos rfl, ih hs, Option.map_map]
    congr 2
    funext cut
    have hcut : width α (q :: q :: cut.1) = 2 + width α cut.1 := by rw [width_cons, width_cons q cut.1, hw]; omega
    simp only [Function.comp, hcut, Nat.add_assoc]
  | case5 d s hd => simp [closeFrom_quote hq hquote h, hd, hw]
  | case6 x d s hx ih =>
    rw [closeFrom_char hq hquote hx h, ih (drop_add_width (s := [x]) (t := d :: s) h), Option.map_map]
    congr 2
    funext cut
    have hcut : width α (x :: cut.1) = width α [x] + width α cut.1 := width_cons x cut.1
    simp only [Function.comp, hcut, Nat.add_assoc]

/-- **The position behind a literal**, which begins with its quote. -/
theorem skipQuoted_units (hq : q.toNat < 128) (h : us.drop i = units (q :: s)) :
    skipQuoted us i = .ok ((closeQuote? q s).map fun cut => i + width α (q :: cut.1)) := by
  obtain ⟨u, hu, hcode⟩ := exists_drop_ascii hq h
  rw [skipQuoted, unitAt_of_drop hu, Checked.bind_ok, closeFrom_units hq hcode (drop_succ hu)]
  congr 2
  funext cut
  rw [width_cons, width_of_ascii hq, Nat.add_assoc]

example : skipQuoted (bytes "é'ù''' rest") 2 = .ok (some 8) := by decide +kernel

end Literals

/-! ## Outside literals -/

/-- What a search gives behind a literal; where the literal is not closed, nothing is found. -/
def behindLiteral (found : Option Nat) (f : Nat → Checked (Option Nat)) : Checked (Option Nat) :=
  match found with
  | none => .ok none
  | some j => f j

/-- The scanner `f` takes the steps of the search `g` on atoms. Both carry a state. -/
structure Follows {σ : Type} (us : List α) (f : σ → Nat → Checked (Option Nat))
    (g : σ → List Atom → Option (List Atom × List Atom)) : Prop where
  done : ∀ {state i}, us.drop i = [] → f state i = .ok none
  mark : ∀ {state i u rest found}, us.drop i = u :: rest → isMark u = true → skipQuoted us i = .ok found →
    f state i = behindLiteral found (f state)
  /-- At a character outside literals both end, or both go on behind it. -/
  char : ∀ state {i c s}, isQuote c = false → us.drop i = units (c :: s) →
    (f state i = .ok (some i) ∧ ∃ rest, g state (.char c :: atoms s) = some ([], rest)) ∨
      ∃ state', f state i = f state' (i + width α [c]) ∧
        g state (.char c :: atoms s) = (g state' (atoms s)).map (consLeft (.char c))
  nil_eq : ∀ {state}, g state [] = none
  quoted_eq : ∀ {state run as}, g state (.quoted run :: as) = (g state as).map (consLeft (.quoted run))
  unclosed_eq : ∀ {state run as}, g state (.unclosed run :: as) = none

/-- The position that a cut stands for is that behind the characters on its left. -/
theorem map_consLeft (a : Atom) (cut : Option (List Atom × List Atom)) :
    ((cut.map (consLeft a)).map fun cut => i + width α (join cut.1)) =
      cut.map fun cut => i + width α a.text + width α (join cut.1) := by
  rw [Option.map_map]
  congr 1
  funext cut
  rw [Function.comp, consLeft, join_cons, width_append, Nat.add_assoc]

/-- **A scanner finds the place** where the search that it follows cuts. -/
theorem Follows.eq_ok {σ : Type} {f : σ → Nat → Checked (Option Nat)}
    {g : σ → List Atom → Option (List Atom × List Atom)} (hf : Follows us f g) (state : σ)
    (h : us.drop i = units s) : f state i = .ok ((g state (atoms s)).map fun cut => i + width α (join cut.1)) := by
  fun_induction atoms s generalizing i state with
  | case1 => rw [hf.done h, hf.nil_eq, Option.map_none]
  | case2 c s hc run rest hr ih =>
    obtain ⟨u, hu, hcode⟩ := exists_drop_ascii (toNat_lt_of_isQuote hc) h
    have hrest : us.drop (i + width α (c :: run)) = units rest :=
      drop_add_width (s := c :: run) (by rw [h, eq_append_of_closeQuote? hr, List.cons_append])
    rw [hf.mark hu (isMark_eq hcode ▸ hc) (skipQuoted_units (toNat_lt_of_isQuote hc) h), hr, hf.quoted_eq, map_consLeft]
    exact ih state hrest
  | case3 c s hc hr =>
    obtain ⟨u, hu, hcode⟩ := exists_drop_ascii (toNat_lt_of_isQuote hc) h
    rw [hf.mark hu (isMark_eq hcode ▸ hc) (skipQuoted_units (toNat_lt_of_isQuote hc) h), hr, hf.unclosed_eq]
    rfl
  | case4 c s hq ih =>
    rcases hf.char state (by simpa using hq) h with ⟨he, rest, hg⟩ | ⟨state', he, hg⟩
    · rw [he, hg]
      rfl
    · rw [he, hg, map_consLeft, Atom.text]
      exact ih state' (drop_add_width (s := [c]) h)

/-! ### Parentheses -/

section Parentheses

variable {depth : Nat}

theorem closingFrom_cons (h : us.drop i = u :: rest) (hu : isMark u = false) : closingFrom us depth i =
    if stands '(' u then closingFrom us (depth + 1) (i + 1)
    else if stands ')' u then
      less depth >>= fun depth => if depth = 0 then .ok (some i) else closingFrom us depth (i + 1)
    else closingFrom us depth (i + 1) := by
  rw [closingFrom, if_pos (lt_of_drop h), unitAt_of_drop h, Checked.bind_ok, hu]
  rfl

/-- A character that is no parenthesis is passed over as a whole. -/
theorem closingFrom_char (hq : isQuote c = false) (ho : c ≠ '(') (hp : c ≠ ')') (h : us.drop i = units (c :: s)) :
    closingFrom us depth i = closingFrom us depth (i + width α [c]) := by
  have hv : ∀ v ∈ (CodeUnit.encode c : List α), isMark v = false ∧ stands '(' v = false ∧ stands ')' v = false :=
    fun v hv => ⟨isMark_of_mem_encode hq v hv, stands_of_mem_encode (by decide) ho v hv,
      stands_of_mem_encode (by decide) hp v hv⟩
  rw [width, units_cons, units_nil, List.append_nil]
  refine pass_units (fun j v rest hj hv => ?_) hv h
  rw [closingFrom_cons hj hv.1, hv.2.1, hv.2.2]
  rfl

/-- Behind `depth + 1` open parentheses the one that closes the outermost is looked for. -/
theorem follows_closingFrom (us : List α) : Follows us (fun depth => closingFrom us (depth + 1)) closeParen? where
  done h := by
    rw [closingFrom, if_neg (not_lt_of_drop h)]
    rfl
  mark {_ _ _ _ found} h hu hs := by
    rw [closingFrom, if_pos (lt_of_drop h), unitAt_of_drop h, Checked.bind_ok, if_pos hu, Checked.attach_eq hs]
    cases found <;> rfl
  char depth {i c s} hq h := by
    by_cases ho : c = '('
    · subst ho
      obtain ⟨u, hu, hcode⟩ := exists_drop_ascii (by decide) h
      refine .inr ⟨depth + 1, ?_, by simp [closeParen?]⟩
      rw [closingFrom_cons hu (isMark_eq hcode), stands_eq hcode, width_of_ascii (by decide)]
      rfl
    · by_cases hp : c = ')'
      · subst hp
        obtain ⟨u, hu, hcode⟩ := exists_drop_ascii (by decide) h
        rw [closingFrom_cons hu (isMark_eq hcode), stands_eq hcode, stands_eq hcode]
        cases depth with
        | zero => exact .inl ⟨rfl, _, rfl⟩
        | succ depth =>
          refine .inr ⟨depth, ?_, rfl⟩
          rw [width_of_ascii (by decide)]
          rfl
      · exact .inr ⟨depth, closingFrom_char hq ho hp h, by simp [closeParen?, ho, hp]⟩
  nil_eq := rfl
  quoted_eq := rfl
  unclosed_eq := rfl

/-- **The parenthesis that closes the one** that comes next. -/
theorem matchingParen_units (h : us.drop i = units ('(' :: s)) :
    matchingParen us i = .ok ((insideParen? s).map fun cut => i + 1 + width α cut.1) := by
  obtain ⟨u, hu, hcode⟩ := exists_drop_ascii (by decide) h
  have hopen : us[i]?.any (stands '(') = true := by
    rw [← List.head?_drop, hu, List.head?_cons, Option.any_some, stands_eq hcode]
    rfl
  rw [matchingParen, if_pos hopen, insideParen?, Option.map_map]
  exact (follows_closingFrom us).eq_ok 0 (drop_succ hu)

example : matchingParen (bytes "(a (b) (c (d)))e") 3 = .ok (some 5) := by decide +kernel

end Parentheses

/-! ### Words -/

section Words

variable {word : List Char}

theorem findFrom_cons (h : us.drop i = u :: rest) (hu : isMark u = false) :
    findFrom word us i = if beginsWith word (u :: rest) then .ok (some i) else findFrom word us (i + 1) := by
  rw [findFrom, if_pos (lt_of_drop h), unitAt_of_drop h, Checked.bind_ok, hu,
    unitsFrom_of_le (Nat.le_of_lt (lt_of_drop h)), h]
  rfl

/-- Inside a character that is more than one unit, no word of ASCII begins. -/
theorem findFrom_wide (hw : ∀ c ∈ word, c.toNat < 128) (hn : word ≠ []) {vs : List α} (hv : ∀ v ∈ vs, 128 ≤ code v)
    (h : us.drop i = vs ++ rest) : findFrom word us i = findFrom word us (i + vs.length) := by
  refine pass_units (fun j v rest hj hv => ?_) hv h
  rw [findFrom_cons hj (isMark_wide hv), beginsWith_wide hw hn hv]
  rfl

/-- A word of ASCII without quotes is looked for. -/
theorem follows_findFrom (us : List α) (hw : ∀ c ∈ word, c.toNat < 128 ∧ isQuote c = false) :
    Follows us (fun _ : Unit => findFrom word us) fun _ => cutOutside? word where
  done h := by
    rw [findFrom, if_neg (not_lt_of_drop h)]
    rfl
  mark {_ _ _ _ found} h hu hs := by
    rw [findFrom, if_pos (lt_of_drop h), unitAt_of_drop h, Checked.bind_ok, if_pos hu, Checked.attach_eq hs]
    cases found <;> rfl
  char _ {i c s} hc h := by
    obtain ⟨u, vs, hu, hvs⟩ := exists_encode_cons (α := α) c
    have hmark : isMark u = false := (isMark_head hu).trans hc
    have hdrop : us.drop i = u :: (vs ++ units s) := by rw [h, units_cons, hu, List.cons_append]
    have hword : beginsWith word (u :: (vs ++ units s)) = (strip? word (c :: s)).isSome := by
      rw [← hdrop, h, beginsWith_units fun c hc => (hw c hc).1]
    have hstrip := strip?_plain_atoms (fun c hc => (hw c hc).2) (c :: s)
    rw [atoms_cons hc] at hstrip
    rw [findFrom_cons hdrop hmark, hword]
    cases hs : strip? word (c :: s) with
    | some t =>
      rw [hs] at hstrip
      exact .inl ⟨rfl, atoms t, by rw [cutOutside?, hstrip]; rfl⟩
    | none =>
      rw [hs] at hstrip
      have hn : word ≠ [] := by
        rintro rfl
        cases hs
      refine .inr ⟨(), ?_, by rw [cutOutside?, hstrip]; rfl⟩
      have hwidth : i + width α [c] = i + 1 + vs.length := by
        rw [width, units_cons, units_nil, List.append_nil, hu, List.length_cons, Nat.add_assoc, Nat.add_comm 1]
      rw [hwidth]
      exact findFrom_wide (fun c hc => (hw c hc).1) hn hvs (drop_succ hdrop)
  nil_eq := rfl
  quoted_eq := rfl
  unclosed_eq := rfl

/-- **The first place of a word** outside literals. -/
theorem findOutside_units (hw : ∀ c ∈ word, c.toNat < 128 ∧ isQuote c = false) (s : List Char) :
    findOutside word (units s : List α) = .ok ((aroundOutside? word s).map fun cut => width α cut.1) := by
  have h := (follows_findFrom (units s : List α) hw).eq_ok () (i := 0) List.drop_zero
  simp only [Nat.zero_add] at h
  rw [aroundOutside?, Option.map_map]
  exact h

end Words

/-! ### Commas -/

section Commas

variable {depth : Nat}

theorem commaFrom_cons (h : us.drop i = u :: rest) (hu : isMark u = false) : commaFrom us depth i =
    if stands '(' u then commaFrom us (depth + 1) (i + 1)
    else if stands ')' u then commaFrom us (depth - 1) (i + 1)
    else if stands ',' u ∧ depth = 0 then .ok (some i)
    else commaFrom us depth (i + 1) := by
  rw [commaFrom, if_pos (lt_of_drop h), unitAt_of_drop h, Checked.bind_ok, hu]
  rfl

/-- A character that is no parenthesis and no comma is passed over as a whole. -/
theorem commaFrom_char (hq : isQuote c = false) (ho : c ≠ '(') (hp : c ≠ ')') (hc : c ≠ ',')
    (h : us.drop i = units (c :: s)) : commaFrom us depth i = commaFrom us depth (i + width α [c]) := by
  have hv : ∀ v ∈ (CodeUnit.encode c : List α),
      isMark v = false ∧ stands '(' v = false ∧ stands ')' v = false ∧ stands ',' v = false :=
    fun v hv => ⟨isMark_of_mem_encode hq v hv, stands_of_mem_encode (by decide) ho v hv,
      stands_of_mem_encode (by decide) hp v hv, stands_of_mem_encode (by decide) hc v hv⟩
  rw [width, units_cons, units_nil, List.append_nil]
  refine pass_units (fun j v rest hj hv => ?_) hv h
  rw [commaFrom_cons hj hv.1, hv.2.1, hv.2.2.1, hv.2.2.2]
  simp

/-- Behind `depth` open parentheses a comma is looked for. -/
theorem follows_commaFrom (us : List α) : Follows us (commaFrom us) cutComma? where
  done h := by
    rw [commaFrom, if_neg (not_lt_of_drop h)]
    rfl
  mark {_ _ _ _ found} h hu hs := by
    rw [commaFrom, if_pos (lt_of_drop h), unitAt_of_drop h, Checked.bind_ok, if_pos hu, Checked.attach_eq hs]
    cases found <;> rfl
  char depth {i c s} hq h := by
    by_cases hascii : c = '(' ∨ c = ')' ∨ c = ','
    · have hc : c.toNat < 128 := by rcases hascii with rfl | rfl | rfl <;> decide
      obtain ⟨u, hu, hcode⟩ := exists_drop_ascii hc h
      rw [commaFrom_cons hu (isMark_eq hcode ▸ hq), stands_eq hcode, stands_eq hcode, stands_eq hcode,
        width_of_ascii hc]
      rcases hascii with rfl | rfl | rfl
      · exact .inr ⟨depth + 1, rfl, by simp [cutComma?]⟩
      · exact .inr ⟨depth - 1, rfl, by simp [cutComma?]⟩
      · cases depth with
        | zero => exact .inl ⟨rfl, _, rfl⟩
        | succ depth => exact .inr ⟨depth + 1, rfl, rfl⟩
    · obtain ⟨ho, hp, hc⟩ := by simpa only [not_or] using hascii
      exact .inr ⟨depth, commaFrom_char hq ho hp hc h, by simp [cutComma?, ho, hp, hc]⟩
  nil_eq := rfl
  quoted_eq := rfl
  unclosed_eq := rfl

/-- **The first comma** outside literals and parentheses. -/
theorem commaAt_units (s : List Char) :
    commaAt (units s : List α) = .ok ((aroundComma? s).map fun cut => width α cut.1) := by
  have h := (follows_commaFrom (units s : List α)).eq_ok 0 (i := 0) List.drop_zero
  simp only [Nat.zero_add] at h
  rw [aroundComma?, Option.map_map]
  exact h

end Commas

end RelQuery.Bytes
