import RelQuery.Proofs.Bytes.Cursor
import RelQuery.Proofs.Condition.Outline
import RelQuery.Proofs.Text.Search

/-!
# Compiling by position gives the condition of the outline

The cursor reads each element when it comes to its end, where the outline is made as a whole before any test is read.
Both give the same: behind every position the cursor reads what the rest of the outline says (`readsAlike`). The rest of
an outline follows the cursor piece by piece, for what the cursor passes joins the pending span
(`Outline.resumed_addFront`).

* `closeSpan_eq` : what a pending span is read as;
* `Outline.resumed_quote`, …, `Outline.resumed_char` : the rest of an outline, one equation for each step of the cursor;
* `compile_eq` : compiling by position comes to an end with the condition, or with the error, of `Condition.compile`.
-/

namespace RelQuery

open Text

namespace Bytes

/-! ## Reading spans -/

section Reading

variable {d : Dialect} {source : String} {pending : List Char} {nodes : Condition} {ps : Condition.Parameters}

/-- Whether the last element is a group. -/
def endsInGroup (nodes : Condition) : Bool :=
  match nodes.getLast? with
  | some (.group _) => true
  | _ => false

/-- What is read, behind elements that were read before. -/
def inFront (nodes : Condition) :
    Except QueryError (Condition × Condition.Parameters) → Except QueryError (Condition × Condition.Parameters)
  | .ok (rest, ps) => .ok (nodes ++ rest, ps)
  | .error e => .error e

theorem inFront_inFront (nodes rest : Condition) (read : Except QueryError (Condition × Condition.Parameters)) :
    inFront nodes (inFront rest read) = inFront (nodes ++ rest) read := by
  cases read with
  | error e => rfl
  | ok read => simp [inFront]

theorem inFront_nil (read : Except QueryError (Condition × Condition.Parameters)) : inFront [] read = read := by
  cases read <;> rfl

theorem ofPieces_cons (piece : Piece) (pieces : List Piece) : Condition.ofPieces d source ps (piece :: pieces) =
    match Condition.ofPiece d source ps piece with
    | .error e => .error e
    | .ok (node, ps) => inFront [node] (Condition.ofPieces d source ps pieces) := by
  rw [Condition.ofPieces]
  cases Condition.ofPiece d source ps piece with
  | error e => rfl
  | ok read =>
    dsimp only
    cases Condition.ofPieces d source read.2 pieces <;> rfl

/-- What the pending span stands for, with its elements in front. -/
def closed (d : Dialect) (source : String) (pending : List Char) (nodes : Condition) (ps : Condition.Parameters) :
    Except QueryError (Condition × Condition.Parameters) :=
  if isBlankText pending then
    if endsInGroup nodes then .ok (nodes, ps) else .error (.malformedExpression source .missingOperand)
  else inFront nodes (Condition.ofPieces d source ps [.span (trim pending)])

theorem closeSpan_eq : closeSpan d source (String.ofList pending) nodes ps =
    .ok (closed d source pending nodes ps) := by
  have htrimmed : trimmed (String.ofList pending) = String.ofList (trim pending) := by
    rw [trimmed, String.toList_ofList]
  rw [closeSpan, closed, htrimmed]
  by_cases hb : isBlankText pending = true
  · have hempty : (String.ofList (trim pending)).isEmpty = true := by rw [isBlankText_iff.1 hb]; rfl
    rw [if_pos hempty, if_pos hb, endsInGroup]
    rcases nodes.getLast? with _ | (_ | _ | _) <;> rfl
  · have hempty : ¬(String.ofList (trim pending)).isEmpty = true := by
      rwa [String.isEmpty_iff, ← String.toList_eq_nil_iff, String.toList_ofList, ← isBlankText_iff]
    rw [if_neg hempty, if_neg hb, readTest_eq, Checked.bind_ok, String.toList_ofList, ofPieces_cons, Condition.ofPiece,
      Condition.bindTest]
    cases Test.ofSpan? (trim pending) with
    | none => rfl
    | some test =>
      dsimp only
      cases Condition.bindValue d test ps <;> rfl

end Reading

end Bytes

/-! ## The rest of an outline -/

namespace Outline

/-- The outline of what is left of a text, when the cursor stands in a span that begins with `pending`. -/
def resumed (afterGroup : Bool) (pending : List Char) (as : List Atom) : List Piece :=
  match span (isBlankText pending) as with
  | (text, .done) => if isBlankText (pending ++ join text) then [] else [.span (trim (pending ++ join text))]
  | (_, .fault fault) => [.fault fault]
  | (_, .group inside rest) => .group (ofAtoms false inside) :: ofAtoms true rest
  | (text, .link connective rest) =>
    if isBlankText (pending ++ join text) then
      if afterGroup then .link connective :: ofAtoms false rest else [.fault .missingOperand]
    else .span (trim (pending ++ join text)) :: .link connective :: ofAtoms false rest

variable {f : Bool} {pending : List Char} {as bs rest : List Atom}

theorem resumed_nil (f : Bool) (as : List Atom) : resumed f [] as = ofAtoms f as := by
  have hblank : isBlankText [] = true := rfl
  rw [resumed, ofAtoms, hblank]
  rcases span true as with ⟨text, _ | _ | _ | _⟩ <;> rfl

/-- What the cursor passes joins the pending characters. -/
theorem resumed_addFront
    (h : span (isBlankText pending) as = addFront bs (span (isBlankText (pending ++ join bs)) rest)) :
    resumed f pending as = resumed f (pending ++ join bs) rest := by
  rw [resumed, resumed, h]
  rcases span (isBlankText (pending ++ join bs)) rest with ⟨text, _ | _ | _ | _⟩ <;> simp [addFront]

theorem isBlankText_append_of_mem {c : Char} {s : List Char} (hc : c ∈ s) (hb : isBlank c = false) :
    isBlankText (pending ++ s) = false :=
  Bool.eq_false_iff.2 fun h => notMem_of_isBlankText h hb (List.mem_append_right pending hc)

section Steps

open Bytes (callWord linkText ascii_callWord ascii_linkText)

variable {c : Char} {left run tail call inside : List Char} {k : Connective}

theorem resumed_quote (hq : isQuote c = true) (hr : closeQuote? c left = some (run, tail)) :
    resumed f pending (atoms (c :: left)) = resumed f (pending ++ (c :: run)) (atoms tail) := by
  have hatoms : atoms (c :: left) = .quoted (c :: run) :: atoms tail := by
    rw [atoms, if_pos hq]
    split <;> simp_all
  have hjoin : join [.quoted (c :: run)] = c :: run := by simp [Atom.text]
  rw [hatoms, ← hjoin]
  refine resumed_addFront ?_
  rw [span_quoted, hjoin, isBlankText_append_of_mem List.mem_cons_self (isBlank_of_isQuote hq)]

theorem resumed_unterminated (hq : isQuote c = true) (hr : closeQuote? c left = none) :
    resumed f pending (atoms (c :: left)) = [.fault .unterminatedLiteral] := by
  have hatoms : atoms (c :: left) = [.unclosed (c :: left)] := by
    rw [atoms, if_pos hq]
    split <;> simp_all
  rw [hatoms, resumed, span_unclosed]

theorem isQuote_callWord : ∀ c ∈ callWord, isQuote c = false := fun c hc => (ascii_callWord c hc).2

theorem resumed_call (hi : insideParen? call = some (inside, tail)) : resumed f pending (atoms (callWord ++ call)) =
    resumed f (pending ++ (callWord ++ (inside ++ [')']))) (atoms tail) := by
  have hclose : closeParen? 0 (atoms call) = some (atoms inside, atoms tail) := by rw [closeParen?_atoms, hi]; rfl
  have hjoin : join (callOpening ++ atoms inside ++ [.char ')']) = callWord ++ (inside ++ [')']) := by
    rw [join_append, join_append, join_atoms, callOpening, join_plain, List.append_assoc]
    rfl
  have hc : 'c' ∈ callWord ++ (inside ++ [')']) := List.mem_append_left _ (by decide)
  rw [atoms_plain_append isQuote_callWord, ← hjoin]
  refine resumed_addFront ?_
  rw [hjoin, isBlankText_append_of_mem hc (by decide)]
  exact span_callOpening hclose

theorem resumed_call_unclosed (hi : insideParen? call = none) :
    resumed f pending (atoms (callWord ++ call)) = [.fault .unclosedContains] := by
  have hclose : closeParen? 0 (atoms call) = none := by rw [closeParen?_atoms, hi]; rfl
  have hs : strip? callOpening (callOpening ++ atoms call) = some (atoms call) := strip?_append _ _
  obtain ⟨as, has⟩ : ∃ as, callOpening ++ atoms call = .char 'c' :: as := ⟨_, rfl⟩
  have hatoms : atoms (callWord ++ call) = .char 'c' :: as := (atoms_plain_append isQuote_callWord call).trans has
  rw [has] at hs
  rw [hatoms, resumed, span_cons, hs]
  simp only [hclose]

theorem linkText_eq (k : Connective) : linkText k = linkWord k := by cases k <;> decide

theorem isQuote_linkText (k : Connective) : ∀ c ∈ linkText k, isQuote c = false := fun c hc => (ascii_linkText k c hc).2

theorem resumed_link : resumed f pending (atoms (linkText k ++ tail)) =
    if isBlankText pending then if f then .link k :: ofAtoms false (atoms tail) else [.fault .missingOperand]
    else .span (trim pending) :: .link k :: ofAtoms false (atoms tail) := by
  rw [atoms_plain_append (isQuote_linkText k), linkText_eq, resumed, span_link]
  simp only [join_nil, List.append_nil]

theorem resumed_open (hi : insideParen? left = some (inside, tail)) : resumed f pending (atoms ('(' :: left)) =
    if isBlankText pending then .group (ofAtoms false (atoms inside)) :: ofAtoms true (atoms tail)
    else resumed f (pending ++ ('(' :: (inside ++ [')']))) (atoms tail) := by
  have hclose : closeParen? 0 (atoms left) = some (atoms inside, atoms tail) := by rw [closeParen?_atoms, hi]; rfl
  rw [atoms_cons (by decide)]
  by_cases hb : isBlankText pending = true
  · rw [if_pos hb, resumed, hb, span_paren hclose]
    rfl
  · have hjoin : join (.char '(' :: atoms inside ++ [.char ')']) = '(' :: (inside ++ [')']) := by
      rw [join_append, join_cons, join_atoms]
      rfl
    rw [if_neg hb, ← hjoin]
    refine resumed_addFront ?_
    rw [span_paren hclose, if_neg hb, hjoin, isBlankText_append_of_mem List.mem_cons_self (by decide)]

theorem resumed_open_unclosed (hi : insideParen? left = none) :
    resumed f pending (atoms ('(' :: left)) = [.fault .unclosedParen] := by
  have hclose : closeParen? 0 (atoms left) = none := by rw [closeParen?_atoms, hi]; rfl
  rw [atoms_cons (by decide), resumed, span_cons, strip?_callOpening_eq_none (by decide), link?_eq_none (by decide),
    hclose]
  rfl

theorem resumed_close : resumed f pending (atoms (')' :: left)) = [.fault .unexpectedClose] := by
  rw [atoms_cons (by decide), resumed, span_cons, strip?_callOpening_eq_none (by decide), link?_eq_none (by decide)]
  rfl

theorem resumed_char (hq : isQuote c = false) (hs : strip? callWord (c :: left) = none)
    (hl : ∀ k, strip? (linkText k) (c :: left) = none) (ho : c ≠ '(') (hp : c ≠ ')') :
    resumed f pending (atoms (c :: left)) = resumed f (pending ++ [c]) (atoms left) := by
  have hs' : strip? callOpening (atoms (c :: left)) = none := by
    have hword := strip?_plain_atoms isQuote_callWord (c :: left)
    rwa [hs] at hword
  have hl' : link? (atoms (c :: left)) = none := by
    refine link?_eq_none_iff.2 fun k => ?_
    rw [← linkText_eq, strip?_plain_atoms (isQuote_linkText k), hl, Option.map_none]
  have hjoin : join [.char c] = [c] := rfl
  rw [atoms_cons hq] at hs' hl' ⊢
  rw [← hjoin]
  refine resumed_addFront ?_
  rw [span_char hs' hl' ho hp, hjoin, isBlankText_append]
  simp [isBlankText]

end Steps

end Outline

namespace Bytes

/-- What is read behind a position: the rest of the outline, the elements read before in front. -/
def readRest (d : Dialect) (source : String) (pending left : List Char) (nodes : Condition)
    (ps : Condition.Parameters) : Except QueryError (Condition × Condition.Parameters) :=
  inFront nodes (Condition.ofPieces d source ps (Outline.resumed (endsInGroup nodes) pending (atoms left)))

section

variable {d : Dialect} {source text : String} {start cursor : Nat} {pending left inside rest : List Char}
  {nodes children : Condition} {ps : Condition.Parameters} {c : Char} {k : Connective}

theorem readRest_nil_eq : readRest d source [] rest nodes ps =
    inFront nodes (Condition.ofPieces d source ps (Outline.ofAtoms (endsInGroup nodes) (atoms rest))) := by
  rw [readRest, Outline.resumed_nil]

theorem readRest_concat_link : readRest d source [] rest (nodes ++ [.link k]) ps =
    inFront (nodes ++ [.link k]) (Condition.ofPieces d source ps (Outline.ofAtoms false (atoms rest))) := by
  rw [readRest_nil_eq, endsInGroup, List.getLast?_concat]

theorem readRest_concat_group : readRest d source [] rest (nodes ++ [.group children]) ps =
    inFront (nodes ++ [.group children]) (Condition.ofPieces d source ps (Outline.ofAtoms true (atoms rest))) := by
  rw [readRest_nil_eq, endsInGroup, List.getLast?_concat]

/-- The rest of an outline behind a connective, which ends the pending span. -/
theorem readRest_linkText : readRest d source pending (linkText k ++ rest) nodes ps =
    match closed d source pending nodes ps with
    | .error e => .error e
    | .ok (nodes, ps) => readRest d source [] rest (nodes ++ [.link k]) ps := by
  have hlink (nodes : Condition) (ps : Condition.Parameters) : inFront nodes
      (Condition.ofPieces d source ps (.link k :: Outline.ofAtoms false (atoms rest))) =
        readRest d source [] rest (nodes ++ [.link k]) ps := by
    rw [ofPieces_cons, Condition.ofPiece, readRest_concat_link]
    exact inFront_inFront nodes [.link k] _
  rw [readRest, Outline.resumed_link, closed]
  by_cases hb : isBlankText pending = true
  · rw [if_pos hb, if_pos hb]
    by_cases hg : endsInGroup nodes = true
    · rw [if_pos hg, if_pos hg, hlink]
    · rw [if_neg hg, if_neg hg]
      rfl
  · rw [if_neg hb, if_neg hb, ofPieces_cons, ofPieces_cons]
    cases Condition.ofPiece d source ps (.span (trim pending)) with
    | error e => rfl
    | ok read => exact (inFront_inFront nodes [read.1] _).trans (hlink (nodes ++ [read.1]) read.2)

/-- The rest of an outline behind a group. -/
theorem readRest_group (hb : isBlankText pending = true) (hi : insideParen? left = some (inside, rest)) :
    readRest d source pending ('(' :: left) nodes ps =
      match readRest d source [] inside [] ps with
      | .error e => .error e
      | .ok (children, ps) => readRest d source [] rest (nodes ++ [.group children]) ps := by
  have hinside : readRest d source [] inside [] ps =
      Condition.ofPieces d source ps (Outline.ofAtoms false (atoms inside)) := readRest_nil_eq.trans (inFront_nil _)
  rw [readRest, Outline.resumed_open hi, if_pos hb, ofPieces_cons, Condition.ofPiece, hinside]
  cases Condition.ofPieces d source ps (Outline.ofAtoms false (atoms inside)) with
  | error e => rfl
  | ok read => exact (inFront_inFront nodes [.group read.1] _).trans readRest_concat_group.symm

/-- Wherever a cursor stands in front of the characters, it reads what the rest of the outline says. -/
def ReadsAlike (d : Dialect) (source : String) (left : List Char) : Prop :=
  ∀ ⦃text start cursor pending⦄, CursorAt text start cursor pending left → ∀ nodes ps,
    sequence d source text cursor start nodes ps = .ok (readRest d source pending left nodes ps)

theorem readsAlike_nil : ReadsAlike d source [] := by
  intro text start cursor pending h nodes ps
  have hread : readRest d source pending [] nodes ps =
      if isBlankText pending then .ok (nodes, ps) else closed d source pending nodes ps := by
    rw [readRest, atoms_nil, Outline.resumed, Outline.span_nil]
    by_cases hb : isBlankText pending = true
    · simp [hb, Condition.ofPieces, inFront]
    · simp [hb, closed]
  rw [sequence_nil h, hread, closeSpan_eq]
  split <;> rfl

theorem readsAlike_quote (hq : isQuote c = true)
    (ih : ∀ run rest, closeQuote? c left = some (run, rest) → ReadsAlike d source rest) :
    ReadsAlike d source (c :: left) := by
  intro text start cursor pending h nodes ps
  rw [sequence_quote hq h, readRest]
  cases hr : closeQuote? c left with
  | none =>
    rw [Outline.resumed_unterminated hq hr]
    rfl
  | some cut =>
    obtain ⟨run, rest⟩ := cut
    rw [Outline.resumed_quote hq hr]
    rw [eq_append_of_closeQuote? hr] at h
    exact ih run rest hr (h.pass (a := c :: run)) nodes ps

theorem readsAlike_call {call : List Char} (hq : isQuote c = false) (hs : strip? callWord (c :: left) = some call)
    (ih : ∀ inside rest, insideParen? call = some (inside, rest) → ReadsAlike d source rest) :
    ReadsAlike d source (c :: left) := by
  intro text start cursor pending h nodes ps
  have hleft : c :: left = callWord ++ call := eq_append_of_strip? hs
  rw [sequence_call hq hs h, readRest, hleft]
  cases hi : insideParen? call with
  | none =>
    rw [Outline.resumed_call_unclosed hi]
    rfl
  | some cut =>
    obtain ⟨inside, rest⟩ := cut
    have h' : CursorAt text start cursor pending (callWord ++ (inside ++ [')']) ++ rest) := by
      rw [hleft, (insideParen?_eq_some_iff.1 hi).1] at h
      simpa using h
    rw [Outline.resumed_call hi]
    exact ih inside rest hi h'.pass nodes ps

theorem readsAlike_link (ih : ReadsAlike d source rest) : ReadsAlike d source (linkText k ++ rest) := by
  intro text start cursor pending h nodes ps
  rw [sequence_link h, closeSpan_eq, Checked.bind_ok, readRest_linkText]
  cases closed d source pending nodes ps with
  | error e => rfl
  | ok read => exact ih h.restart (read.1 ++ [.link k]) read.2

/-- A group is read by a cursor of its own, from the beginning of its inside. -/
theorem readsAlike_open (ih : ∀ inside rest, insideParen? left = some (inside, rest) →
    ReadsAlike d source inside ∧ ReadsAlike d source rest) : ReadsAlike d source ('(' :: left) := by
  intro text start cursor pending h nodes ps
  rw [sequence_open h]
  cases hi : insideParen? left with
  | none =>
    rw [readRest, Outline.resumed_open_unclosed hi]
    rfl
  | some cut =>
    obtain ⟨inside, rest⟩ := cut
    have h' : CursorAt text start cursor pending ('(' :: (inside ++ [')']) ++ rest) := by
      rw [(insideParen?_eq_some_iff.1 hi).1] at h
      simpa using h
    by_cases hb : isBlankText pending = true
    · have hbeginning : CursorAt (String.ofList inside) 0 0 [] inside := by
        simpa using CursorAt.beginning (String.ofList inside)
      simp only [if_pos hb, (ih inside rest hi).1 hbeginning [] ps, Checked.bind_ok, readRest_group hb hi]
      cases readRest d source [] inside [] ps with
      | error e => rfl
      | ok read => exact (ih inside rest hi).2 h'.restart (nodes ++ [.group read.1]) read.2
    · rw [readRest, Outline.resumed_open hi]
      simp only [if_neg hb]
      exact (ih inside rest hi).2 h'.pass nodes ps

theorem readsAlike_close : ReadsAlike d source (')' :: left) := by
  intro text start cursor pending h nodes ps
  rw [sequence_close h, readRest, Outline.resumed_close]
  rfl

theorem readsAlike_char (hq : isQuote c = false) (hs : strip? callWord (c :: left) = none)
    (hl : ∀ k, strip? (linkText k) (c :: left) = none) (ho : c ≠ '(') (hp : c ≠ ')') (ih : ReadsAlike d source left) :
    ReadsAlike d source (c :: left) := by
  intro text start cursor pending h nodes ps
  rw [sequence_char hq hs hl ho hp h, readRest, Outline.resumed_char hq hs hl ho hp]
  exact ih (h.pass (a := [c])) nodes ps

/-- **Reading by position** comes to an end and gives what the outline of the text says. -/
theorem readsAlike (d : Dialect) (source : String) (left : List Char) : ReadsAlike d source left := by
  induction hn : left.length using Nat.strong_induction_on generalizing left with
  | _ n ih =>
    have shorter : ∀ rest : List Char, rest.length < left.length → ReadsAlike d source rest :=
      fun rest hlt => ih _ (hn ▸ hlt) rest rfl
    clear ih hn
    cases left with
    | nil => exact readsAlike_nil
    | cons c left =>
      by_cases hq : isQuote c = true
      · refine readsAlike_quote hq fun run rest hr => shorter rest ?_
        exact Nat.lt_succ_of_le (length_le_of_closeQuote? hr)
      rw [Bool.not_eq_true] at hq
      cases hs : strip? callWord (c :: left) with
      | some call =>
        refine readsAlike_call hq hs fun inside rest hi => shorter rest ?_
        rw [eq_append_of_strip? hs, (insideParen?_eq_some_iff.1 hi).1]
        simp only [List.length_append, List.length_cons]
        omega
      | none =>
        by_cases hl : ∀ k, strip? (linkText k) (c :: left) = none
        · by_cases ho : c = '('
          · subst ho
            refine readsAlike_open fun inside rest hi => ⟨shorter inside ?_, shorter rest ?_⟩
            all_goals
              rw [(insideParen?_eq_some_iff.1 hi).1]
              simp only [List.length_append, List.length_cons]
              omega
          by_cases hp : c = ')'
          · subst hp
            exact readsAlike_close
          exact readsAlike_char hq hs hl ho hp (shorter left (Nat.lt_succ_self _))
        · obtain ⟨k, hk⟩ := not_forall.1 hl
          obtain ⟨rest, hrest⟩ := Option.ne_none_iff_exists'.1 hk
          have hleft := eq_append_of_strip? hrest
          rw [hleft] at shorter ⊢
          refine readsAlike_link (shorter rest ?_)
          rw [linkText_append]
          simp only [List.length_append, List.length_cons]
          omega

theorem compile_eq (d : Dialect) (source : String) : compile d source = .ok (Condition.compile d source) := by
  have hread := readsAlike d source source.toList (CursorAt.beginning source) [] {}
  rw [readRest_nil_eq, inFront_nil] at hread
  have hf : endsInGroup [] = false := rfl
  rw [compile, hread, Checked.bind_ok, Condition.compile, Outline.ofText, hf]
  cases Condition.ofPieces d source {} (Outline.ofAtoms false (atoms source.toList)) with
  | error e => rfl
  | ok read =>
    dsimp only
    cases Condition.violation? read.1 <;> rfl

end

end Bytes

end RelQuery
