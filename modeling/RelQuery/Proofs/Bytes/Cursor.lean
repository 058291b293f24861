import RelQuery.Bytes.Compile
import RelQuery.Proofs.Bytes.Parts

/-!
# The steps of the cursor

A cursor that reads a filter expression stands between two characters whenever it takes a step, and so does the
beginning of the pending span. The equations here are those of `sequence`, one for each thing that may stand at the
cursor, told by the characters: no step reads or cuts elsewhere, and each leaves the cursor behind whole characters.

* `CursorAt` : the pending span and what is left of the text, told by the two offsets;
* `sequence_of_drop` : one step, free of the proofs that the recursion ends;
* `sequence_quote`, `sequence_call`, `sequence_link`, `sequence_open`, `sequence_close`, `sequence_char` : the steps.
-/

namespace RelQuery.Bytes

open Text

/-! ## What a cursor stands at -/

/-- The cursor stands between the pending characters, which begin at `start`, and those that are left. -/
structure CursorAt (text : String) (start cursor : Nat) (pending left : List Char) : Prop where
  exists_done : ∃ done, text.toList = done ++ (pending ++ left) ∧ start = width UInt8 done ∧
    cursor = width UInt8 (done ++ pending)

namespace CursorAt

variable {text : String} {start cursor : Nat} {pending left a : List Char}

theorem beginning (text : String) : CursorAt text 0 0 [] text.toList :=
  ⟨[], rfl, rfl, rfl⟩

theorem drop (h : CursorAt text start cursor pending left) : (bytes text).drop cursor = units left := by
  obtain ⟨done, htext, -, rfl⟩ := h
  exact drop_bytes (by rw [htext, List.append_assoc])

/-- The cursor goes on, and what it passes belongs to the pending span. -/
theorem pass (h : CursorAt text start cursor pending (a ++ left)) :
    CursorAt text start (cursor + width UInt8 a) (pending ++ a) left := by
  obtain ⟨done, htext, rfl, rfl⟩ := h
  exact ⟨done, by rw [htext]; simp, rfl, by rw [← width_append]; simp⟩

/-- The cursor goes on, and a new span begins behind what it passes. -/
theorem restart (h : CursorAt text start cursor pending (a ++ left)) :
    CursorAt text (cursor + width UInt8 a) (cursor + width UInt8 a) [] left := by
  obtain ⟨done, htext, rfl, rfl⟩ := h
  exact ⟨done ++ pending ++ a, by rw [htext]; simp, by rw [← width_append], by rw [← width_append]; simp⟩

/-- The pending span. -/
theorem slice (h : CursorAt text start cursor pending left) :
    slice text start cursor = .ok (String.ofList pending) := by
  obtain ⟨done, htext, hstart, hcursor⟩ := h
  exact slice_eq (by rw [htext, List.append_assoc]) hstart hcursor

theorem slice_tail (h : CursorAt text start cursor pending []) :
    Bytes.slice text start text.utf8ByteSize = .ok (String.ofList pending) := by
  obtain ⟨done, htext, hstart, -⟩ := h
  exact slice_right (by rw [htext, List.append_nil]) hstart

/-- Behind the cursor, characters and a parenthesis that opens. -/
theorem matchingParen {opened : List Char} (h : CursorAt text start cursor pending (a ++ '(' :: opened)) :
    matchingParen (bytes text) (cursor + width UInt8 a) =
      .ok ((insideParen? opened).map fun cut => cursor + width UInt8 a + 1 + width UInt8 cut.1) := by
  obtain ⟨done, htext, -, rfl⟩ := h
  exact matchingParen_bytes (a := done ++ pending ++ a) (by rw [htext]; simp) (by rw [← width_append])

theorem slice_inside {inside rest : List Char}
    (h : CursorAt text start cursor pending ('(' :: (inside ++ ')' :: rest))) :
    Bytes.slice text (cursor + 1) (cursor + 1 + width UInt8 inside) = .ok (String.ofList inside) := by
  obtain ⟨done, htext, -, hcursor⟩ := h
  exact Bytes.slice_inside (by rw [htext, List.append_assoc]) hcursor

/-- The byte at the cursor, which is the first one of the next character. -/
theorem exists_drop {c : Char} (h : CursorAt text start cursor pending (c :: left)) :
    ∃ u us, (bytes text).drop cursor = u :: us ∧ u :: us = units (c :: left) ∧ isMark u = isQuote c ∧
      ∀ x : Char, x.toNat < 128 → stands x u = (c == x) := by
  obtain ⟨u, vs, hu⟩ := List.exists_cons_of_ne_nil (CodeUnit.encode_ne_nil (α := UInt8) c)
  have hunits : u :: (vs ++ units left) = units (c :: left) := by rw [units_cons, hu, List.cons_append]
  exact ⟨u, vs ++ units left, h.drop.trans hunits.symm, hunits, isMark_head hu, fun x hx => stands_head hx hu⟩

end CursorAt

/-! ## Steps -/

section Steps

variable {d : Dialect} {source text : String} {start cursor : Nat} {pending left : List Char} {nodes : Condition}
  {ps : Condition.Parameters} {c : Char}

theorem sequence_nil (h : CursorAt text start cursor pending []) :
    sequence d source text cursor start nodes ps =
      if isBlankText pending then .ok (.ok (nodes, ps))
      else closeSpan d source (String.ofList pending) nodes ps := by
  rw [sequence, if_neg (not_lt_of_drop h.drop), h.slice_tail, Checked.bind_ok, String.toList_ofList]
  rfl

/-- One step of the cursor. -/
theorem sequence_of_drop {u : UInt8} {us : List UInt8} (h : (bytes text).drop cursor = u :: us) :
    sequence d source text cursor start nodes ps =
      if isMark u then
        skipQuoted (bytes text) cursor >>= fun
        | none => .ok (.error (.malformedExpression source .unterminatedLiteral))
        | some behind => sequence d source text behind start nodes ps
      else if beginsWith callWord (u :: us) then
        matchingParen (bytes text) (cursor + width UInt8 callWord - 1) >>= fun
        | none => .ok (.error (.malformedExpression source .unclosedContains))
        | some close => sequence d source text (close + 1) start nodes ps
      else
        match link? (u :: us) with
        | some connective =>
          Bytes.slice text start cursor >>= fun span => closeSpan d source span nodes ps >>= fun
          | .error e => .ok (.error e)
          | .ok (nodes, ps) =>
            sequence d source text (cursor + width UInt8 (linkText connective))
              (cursor + width UInt8 (linkText connective)) (nodes ++ [.link connective]) ps
        | none =>
          if stands '(' u then
            matchingParen (bytes text) cursor >>= fun
            | none => .ok (.error (.malformedExpression source .unclosedParen))
            | some close => Bytes.slice text start cursor >>= fun span =>
              if isBlankText span.toList then
                Bytes.slice text (cursor + 1) close >>= fun inside => sequence d source inside 0 0 [] ps >>= fun
                | .error e => .ok (.error e)
                | .ok (children, ps) =>
                  sequence d source text (close + 1) (close + 1) (nodes ++ [.group children]) ps
              else sequence d source text (close + 1) start nodes ps
          else if stands ')' u then .ok (.error (.malformedExpression source .unexpectedClose))
          else sequence d source text (cursor + 1) start nodes ps := by
  rw [sequence, if_pos (lt_of_drop h), unitsFrom_of_le (Nat.le_of_lt (lt_of_drop h)), Checked.bind_ok,
    unitAt_of_drop h, Checked.bind_ok, h]
  congr 1
  · apply Checked.attach_bind
    rintro ⟨_ | behind, _⟩ <;> rfl
  · congr 1
    · apply Checked.attach_bind
      rintro ⟨_ | close, _⟩ <;> rfl
    · cases link? (u :: us) with
      | some connective => rfl
      | none =>
        dsimp only
        congr 1
        apply Checked.attach_bind
        rintro ⟨_ | close, _⟩
        · rfl
        · dsimp only
          congr 1
          funext span
          congr 1
          apply Checked.attach_bind
          rintro ⟨inside, _⟩
          rfl

/-- **A literal** belongs to the pending span. -/
theorem sequence_quote (hq : isQuote c = true) (h : CursorAt text start cursor pending (c :: left)) :
    sequence d source text cursor start nodes ps =
      match closeQuote? c left with
      | none => .ok (.error (.malformedExpression source .unterminatedLiteral))
      | some (run, _) => sequence d source text (cursor + width UInt8 (c :: run)) start nodes ps := by
  obtain ⟨u, hu, hcode⟩ := exists_drop_ascii (toNat_lt_of_isQuote hq) h.drop
  rw [sequence_of_drop hu, if_pos ((isMark_eq hcode).trans hq), skipQuoted_units (toNat_lt_of_isQuote hq) h.drop,
    Checked.bind_ok]
  cases closeQuote? c left <;> rfl

theorem ascii_callWord : ∀ c ∈ callWord, c.toNat < 128 ∧ isQuote c = false := ascii_and_unquoted (by decide)

theorem ascii_linkText (k : Connective) : ∀ c ∈ linkText k, c.toNat < 128 ∧ isQuote c = false :=
  ascii_and_unquoted (by cases k <;> decide)

theorem callWord_eq (call : List Char) : callWord ++ call = "contains".toList ++ '(' :: call := by
  rw [List.append_cons]
  exact congrArg (· ++ call) (by decide)

theorem beginsWith_callWord (s : List Char) : beginsWith callWord (units s : List UInt8) = (strip? callWord s).isSome :=
  beginsWith_units (fun c hc => (ascii_callWord c hc).1) s

/-- **A containment call** belongs to the pending span, up to the end of its parentheses. -/
theorem sequence_call {call : List Char} (hq : isQuote c = false) (hs : strip? callWord (c :: left) = some call)
    (h : CursorAt text start cursor pending (c :: left)) :
    sequence d source text cursor start nodes ps =
      match insideParen? call with
      | none => .ok (.error (.malformedExpression source .unclosedContains))
      | some (inside, _) =>
        sequence d source text (cursor + width UInt8 (callWord ++ (inside ++ [')']))) start nodes ps := by
  obtain ⟨u, us, hdrop, hunits, hmark, -⟩ := h.exists_drop
  have hleft : c :: left = "contains".toList ++ '(' :: call := by rw [eq_append_of_strip? hs, callWord_eq]
  have hcall : beginsWith callWord (u :: us) = true := by rw [hunits, beginsWith_callWord, hs, Option.isSome_some]
  have hparen := CursorAt.matchingParen (hleft ▸ h)
  have hcursor : cursor + width UInt8 callWord - 1 = cursor + width UInt8 "contains".toList := rfl
  rw [sequence_of_drop hdrop, hmark, hq, if_neg Bool.false_ne_true, if_pos hcall, hcursor, hparen, Checked.bind_ok]
  cases insideParen? call with
  | none => rfl
  | some cut =>
    have hwidth : width UInt8 (callWord ++ (cut.1 ++ [')'])) =
        width UInt8 "contains".toList + 1 + width UInt8 cut.1 + 1 := by
      rw [width_append, width_append, width_of_ascii (by decide), Nat.add_assoc]
      rfl
    simp only [Option.map_some, hwidth, Nat.add_assoc]

theorem link?_units (s : List Char) :
    link? (units s : List UInt8) = [.and, .or].find? fun k => (strip? (linkText k) s).isSome := by
  simp only [link?, beginsWith_units fun c hc => (ascii_linkText _ c hc).1]

theorem link?_units_eq_none {s : List Char} (hl : ∀ k, strip? (linkText k) s = none) :
    link? (units s : List UInt8) = none := by
  simp [link?_units, hl]

theorem link?_units_linkText (k : Connective) (s : List Char) :
    link? (units (linkText k ++ s) : List UInt8) = some k := by
  rw [link?_units]
  cases k <;> rfl

theorem linkText_append (k : Connective) (s : List Char) :
    linkText k ++ s = ' ' :: (k.keyword.toList ++ ' ' :: s) := by
  simp [linkText]

/-- A connective begins with a blank. -/
theorem link?_units_cons (hc : c ≠ ' ') (s : List Char) : link? (units (c :: s) : List UInt8) = none :=
  link?_units_eq_none fun _ => if_neg hc.symm

/-- A containment call begins with its first letter. -/
theorem beginsWith_callWord_cons (hc : c ≠ 'c') (s : List Char) :
    beginsWith callWord (units (c :: s) : List UInt8) = false := by
  have hs : strip? callWord (c :: s) = none := if_neg hc.symm
  rw [beginsWith_callWord, hs, Option.isSome_none]

/-- **A connective** ends the pending span. -/
theorem sequence_link {k : Connective} (h : CursorAt text start cursor pending (linkText k ++ left)) :
    sequence d source text cursor start nodes ps =
      closeSpan d source (String.ofList pending) nodes ps >>= fun
      | .error e => .ok (.error e)
      | .ok (nodes, ps) =>
        sequence d source text (cursor + width UInt8 (linkText k)) (cursor + width UInt8 (linkText k))
          (nodes ++ [.link k]) ps := by
  have hlink := link?_units_linkText k left
  rw [linkText_append] at h hlink
  obtain ⟨u, us, hdrop, hunits, hmark, -⟩ := h.exists_drop
  rw [sequence_of_drop hdrop, hmark, if_neg (by decide), hunits, beginsWith_callWord_cons (by decide),
    if_neg Bool.false_ne_true, hlink]
  simp only [h.slice, Checked.bind_ok]

/-- **A parenthesis** opens a group behind blanks, and belongs to the pending span behind anything else. -/
theorem sequence_open (h : CursorAt text start cursor pending ('(' :: left)) :
    sequence d source text cursor start nodes ps =
      match insideParen? left with
      | none => .ok (.error (.malformedExpression source .unclosedParen))
      | some (inside, _) =>
        if isBlankText pending then
          sequence d source (String.ofList inside) 0 0 [] ps >>= fun
          | .error e => .ok (.error e)
          | .ok (children, ps) =>
            sequence d source text (cursor + width UInt8 ('(' :: (inside ++ [')'])))
              (cursor + width UInt8 ('(' :: (inside ++ [')']))) (nodes ++ [.group children]) ps
        else sequence d source text (cursor + width UInt8 ('(' :: (inside ++ [')']))) start nodes ps := by
  obtain ⟨u, us, hdrop, hunits, hmark, hstands⟩ := h.exists_drop
  have hparen := CursorAt.matchingParen (a := []) h
  rw [width_nil, Nat.add_zero] at hparen
  rw [sequence_of_drop hdrop, hmark, if_neg (by decide), hunits, beginsWith_callWord_cons (by decide),
    if_neg Bool.false_ne_true, link?_units_cons (by decide), hstands _ (by decide), hparen, h.slice]
  cases hinside : insideParen? left with
  | none => rfl
  | some cut =>
    obtain ⟨inside, rest⟩ := cut
    rw [(insideParen?_eq_some_iff.1 hinside).1] at h
    have hbehind : cursor + width UInt8 ('(' :: (inside ++ [')'])) = cursor + 1 + width UInt8 inside + 1 := by
      rw [width_cons, width_append, width_of_ascii (by decide), width_of_ascii (by decide)]
      omega
    simp only [Option.map_some, Checked.bind_ok, String.toList_ofList, h.slice_inside, hbehind]
    rfl

theorem sequence_close (h : CursorAt text start cursor pending (')' :: left)) :
    sequence d source text cursor start nodes ps = .ok (.error (.malformedExpression source .unexpectedClose)) := by
  obtain ⟨u, us, hdrop, hunits, hmark, hstands⟩ := h.exists_drop
  rw [sequence_of_drop hdrop, hmark, if_neg (by decide), hunits, beginsWith_callWord_cons (by decide),
    if_neg Bool.false_ne_true, link?_units_cons (by decide), hstands _ (by decide), hstands _ (by decide)]
  rfl

/-- Inside a character the cursor goes on, byte by byte. -/
theorem sequence_wide {vs rest : List UInt8} (hv : ∀ v ∈ vs, 128 ≤ code v) (h : (bytes text).drop cursor = vs ++ rest) :
    sequence d source text cursor start nodes ps =
      sequence d source text (cursor + vs.length) start nodes ps := by
  refine pass_units (f := fun i => sequence d source text i start nodes ps) (fun i v rest hi hv => ?_) hv h
  have hcall : beginsWith callWord (v :: rest) = false := 
    beginsWith_wide (fun c hc => (ascii_callWord c hc).1) (by decide) hv
  have hlink : link? (v :: rest) = none := by
    have hbegins (k : Connective) : beginsWith (linkText k) (v :: rest) = false :=
      beginsWith_wide (fun c hc => (ascii_linkText k c hc).1) (List.cons_ne_nil _ _) hv
    simp [link?, hbegins]
  rw [sequence_of_drop hi, isMark_wide hv, hcall, hlink, stands_wide (by decide) hv, stands_wide (by decide) hv]
  rfl

/-- Any other character belongs to the pending span, all its bytes. -/
theorem sequence_char (hq : isQuote c = false) (hs : strip? callWord (c :: left) = none)
    (hl : ∀ k, strip? (linkText k) (c :: left) = none) (ho : c ≠ '(') (hp : c ≠ ')')
    (h : CursorAt text start cursor pending (c :: left)) :
    sequence d source text cursor start nodes ps =
      sequence d source text (cursor + width UInt8 [c]) start nodes ps := by
  obtain ⟨u, vs, hu, hvs⟩ := exists_encode_cons (α := UInt8) c
  have hunits : units (c :: left) = u :: (vs ++ units left) := by rw [units_cons, hu, List.cons_append]
  have hdrop := h.drop.trans hunits
  have hcall : beginsWith callWord (u :: (vs ++ units left)) = false := by
    rw [← hunits, beginsWith_callWord, hs, Option.isSome_none]
  have hlink : link? (u :: (vs ++ units left)) = none := by rw [← hunits, link?_units_eq_none hl]
  have hwidth : cursor + width UInt8 [c] = cursor + 1 + vs.length := by
    rw [width, units_cons, units_nil, List.append_nil, hu, List.length_cons]
    omega
  rw [sequence_of_drop hdrop, isMark_head hu, hq, hcall, hlink, stands_head (by decide) hu, stands_head (by decide) hu,
    beq_false_of_ne ho, beq_false_of_ne hp, hwidth]
  exact sequence_wide hvs (drop_succ hdrop)

end Steps

end RelQuery.Bytes
