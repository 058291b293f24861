import RelQuery.Proofs.Condition.Draft
import Mathlib.Control.Monad.Basic

/-!
# What compiling returns

* `Dialect.paramName_injective` : parameters with different numbers have different names, whatever the stem;
* `Condition.agrees_ofPieces` : behind the names of the first `n` parameters, reading an outline gives the condition of
  its draft, numbered from `n`, and binds the draft's values; it fails exactly where the outline has no draft;
* `Condition.compile_eq_ok_iff` : the same for a whole text, with the check of the condition;
* `Condition.compile_eq_malformedPredicate`, `Condition.compile_eq_violation` : how a text fails whose outline has no
  fault.
-/

namespace RelQuery

/-! ## Results can be compared -/

mutual

/-- Elements of conditions can be compared. -/
def Node.decEq : (m n : Node) → Decidable (m = n)
  | .test c k p, .test c' k' p' => decidable_of_iff (c = c' ∧ k = k' ∧ p = p') (by simp)
  | .link k, .link k' => decidable_of_iff (k = k') (by simp)
  | .group ms, .group ns =>
    match Condition.decEq ms ns with
    | isTrue h => isTrue (congrArg Node.group h)
    | isFalse h => isFalse fun e => h (Node.group.inj e)
  | .test .., .link _ | .test .., .group _ | .link _, .test .. | .link _, .group _ | .group _, .test ..
  | .group _, .link _ => isFalse Node.noConfusion

/-- Conditions can be compared. -/
def Condition.decEq : (ms ns : List Node) → Decidable (ms = ns)
  | [], [] => isTrue rfl
  | [], _ :: _ | _ :: _, [] => isFalse (by simp)
  | m :: ms, n :: ns =>
    match Node.decEq m n, Condition.decEq ms ns with
    | isTrue h, isTrue h' => isTrue (by rw [h, h'])
    | isFalse h, _ => isFalse fun e => h (List.cons.inj e).1
    | _, isFalse h => isFalse fun e => h (List.cons.inj e).2

end

instance : DecidableEq Node := Node.decEq

deriving instance DecidableEq for Bindings

/-! ## Numbered parameters -/

theorem Dialect.paramName_injective (d : Dialect) {m n : Nat} (h : d.paramName m = d.paramName n) : m = n := by
  have hl := congrArg String.toList h
  simp only [Dialect.paramName, Text.decimalText, String.toList_append, String.toList_ofList] at hl
  exact Text.decimal_injective (List.append_cancel_left hl)

/-- The first `n` parameters are bound, in order, and the next one has the number `n`. -/
structure Condition.Parameters.Numbered (d : Dialect) (n : Nat) (ps : Parameters) : Prop where
  next : ps.next = n
  names : ps.bound.names = (List.range' 0 n).map d.paramName

theorem Condition.Parameters.numbered_empty (d : Dialect) : ({} : Parameters).Numbered d 0 := ⟨rfl, rfl⟩

theorem Test.names_entries (d : Dialect) : ∀ (n : Nat) (tests : List Test),
    (Test.entries d n tests).map Prod.fst = (List.range' n tests.length).map d.paramName
  | _, [] => rfl
  | n, _ :: tests => by simp [Test.entries, List.range'_succ, Test.names_entries d (n + 1) tests]

theorem Test.nodup_names_entries (d : Dialect) (n : Nat) (tests : List Test) :
    ((Test.entries d n tests).map Prod.fst).Nodup := by
  rw [Test.names_entries]
  exact List.Pairwise.map d.paramName (fun _ _ hne he => hne (d.paramName_injective he)) List.nodup_range'

/-- The values of the tests, bound to the parameters numbered from `n`. -/
def Test.bindings (d : Dialect) (n : Nat) (tests : List Test) : Bindings where
  entries := Test.entries d n tests
  nodup := Test.nodup_names_entries d n tests

/-- The next parameter is free. -/
theorem Condition.Parameters.Numbered.get?_eq_none {d : Dialect} {n : Nat} {ps : Parameters} (h : ps.Numbered d n) :
    ps.bound.get? (d.paramName n) = none := by
  rw [Bindings.get?_eq_none_iff, h.names]
  intro hm
  obtain ⟨m, hm, he⟩ := List.mem_map.1 hm
  have hlt := List.mem_range'_1.1 hm
  have := d.paramName_injective he
  omega

/-- The parameters `ps'` bind the values of the tests behind what `ps` bind, under the numbers from `n` on. -/
structure Condition.Parameters.Extends (d : Dialect) (n : Nat) (tests : List Test) (ps ps' : Parameters) : Prop where
  entries : ps'.bound.entries = ps.bound.entries ++ Test.entries d n tests
  next : ps'.next = ps.next + tests.length

namespace Condition.Parameters.Extends

variable {d : Dialect} {n : Nat} {ps ps' ps'' : Parameters} {tests tests' : List Test}

theorem refl (d : Dialect) (n : Nat) (ps : Parameters) : Extends d n [] ps ps := ⟨(List.append_nil _).symm, rfl⟩

theorem trans (h : Extends d n tests ps ps') (h' : Extends d (n + tests.length) tests' ps' ps'') :
    Extends d n (tests ++ tests') ps ps'' where
  entries := by rw [h'.entries, h.entries, Test.entries_append, List.append_assoc]
  next := by rw [h'.next, h.next, List.length_append, Nat.add_assoc]

/-- The numbers go on without a gap. -/
theorem numbered (h : Extends d n tests ps ps') (hn : ps.Numbered d n) : ps'.Numbered d (n + tests.length) where
  next := by rw [h.next, hn.next]
  names := by
    have he : ps'.bound.names = ps.bound.names ++ (Test.entries d n tests).map Prod.fst := by
      simp [Bindings.names, h.entries]
    have hr : List.range' 0 n ++ List.range' n tests.length = List.range' 0 (n + tests.length) := by
      simpa using @List.range'_append 0 n tests.length 1
    rw [he, hn.names, Test.names_entries, ← List.map_append, hr]

end Condition.Parameters.Extends

theorem Bindings.get?_of_mem {bound : Bindings} {name value : String} (h : (name, value) ∈ bound.entries) :
    bound.get? name = some value := by
  obtain ⟨before, after, he⟩ := List.append_of_mem h
  refine List.lookup_eq_some_iff.2 ⟨before, after, he, ?_⟩
  -- no name is bound twice, so none of those before is this one
  have hn := bound.nodup
  rw [he, List.map_append, List.map_cons, List.nodup_append] at hn
  rintro entry hm
  simpa using Ne.symm (hn.2.2 entry.1 (List.mem_map_of_mem hm) name List.mem_cons_self)

theorem Bindings.exists_insert?_of_free {bound : Bindings} {name : String} (value : String)
    (h : bound.get? name = none) :
    ∃ bound', bound.insert? name value = some bound' ∧ bound'.entries = bound.entries ++ [(name, value)] := by
  refine ⟨bound.push name value h, ?_, rfl⟩
  unfold Bindings.insert?
  split
  next => rfl
  next b hb => simp [h] at hb

/-! ## Reading and numbering -/

namespace Condition

/-- What reading returns behind `ps`, whose next parameter has the number `n`: what is expected, with the values of the
expected tests bound; or a failure, where nothing is expected. -/
def Agrees {α : Type} (d : Dialect) (n : Nat) (ps : Parameters) (result : Except QueryError (α × Parameters)) :
    Option (α × List Test) → Prop
  | none => ∃ e, result = .error e
  | some (a, tests) => ∃ ps', result = .ok (a, ps') ∧ ps.Extends d n tests ps'

variable {d : Dialect} {n : Nat} {ps : Parameters}

/-- The next parameter is free, so that the value of a test is bound to it. -/
theorem exists_bindValue (hn : ps.Numbered d n) (test : Test) :
    ∃ ps', bindValue d test ps = .ok (.test (String.ofList test.column) test.comparison (d.paramName n), ps') ∧
      ps.Extends d n [test] ps' := by
  obtain ⟨bound, hi, he⟩ := Bindings.exists_insert?_of_free (boundValue d test) hn.get?_eq_none
  exact ⟨⟨bound, ps.next + 1⟩, by simp only [bindValue, hn.next, hi], he, rfl⟩

theorem agrees_bindTest (hn : ps.Numbered d n) (span : List Char) : Agrees d n ps (bindTest d span ps)
    ((Test.ofSpan? span).map fun test =>
      (.test (String.ofList test.column) test.comparison (d.paramName n), [test])) := by
  unfold bindTest
  cases Test.ofSpan? span with
  | none => exact ⟨_, rfl⟩
  | some test => exact exists_bindValue hn test

mutual

theorem agrees_ofPiece (source : String) : ∀ (piece : Piece) {n : Nat} {ps : Parameters}, ps.Numbered d n →
    Agrees d n ps (ofPiece d source ps piece) ((Clause.ofPiece? piece).map fun c => (c.node d n, c.tests))
  | .span text, n, ps, hn => by
    have h := agrees_bindTest hn text
    rw [Clause.ofPiece?]
    cases ht : Test.ofSpan? text with
    | none =>
      rw [ht] at h
      exact h
    | some test =>
      rw [ht] at h
      exact h
  | .link _, n, ps, _ => ⟨ps, rfl, .refl d n ps⟩
  | .fault _, _, _, _ => ⟨_, rfl⟩
  | .group pieces, n, ps, hn => by
    have h := agrees_ofPieces source pieces hn
    rw [Clause.ofPiece?, ofPiece]
    cases hp : Draft.ofPieces? pieces with
    | none =>
      rw [hp] at h
      obtain ⟨e, he⟩ := h
      exact ⟨e, by rw [he]⟩
    | some clauses =>
      rw [hp] at h
      obtain ⟨ps', hr, he⟩ := h
      exact ⟨ps', by rw [hr]; rfl, he⟩

/-- **Reading an outline** behind numbered parameters is reading its draft and numbering it. -/
theorem agrees_ofPieces (source : String) : ∀ (pieces : List Piece) {n : Nat} {ps : Parameters}, ps.Numbered d n →
    Agrees d n ps (ofPieces d source ps pieces)
      ((Draft.ofPieces? pieces).map fun cs => (Draft.nodes d n cs, Draft.tests cs))
  | [], n, ps, _ => ⟨ps, rfl, .refl d n ps⟩
  | piece :: pieces, n, ps, hn => by
    have h := agrees_ofPiece source piece hn
    rw [Draft.ofPieces?, ofPieces]
    cases hc : Clause.ofPiece? piece with
    | none =>
      rw [hc] at h
      obtain ⟨e, he⟩ := h
      exact ⟨e, by rw [he]⟩
    | some clause =>
      rw [hc] at h
      obtain ⟨ps₁, hr₁, he₁⟩ := h
      -- the parameters of the rest are numbered behind those of the first piece
      have h := agrees_ofPieces source pieces (he₁.numbered hn)
      rw [hr₁]
      cases hp : Draft.ofPieces? pieces with
      | none =>
        rw [hp] at h
        obtain ⟨e, he⟩ := h
        exact ⟨e, by simp only [he]⟩
      | some clauses =>
        rw [hp] at h
        obtain ⟨ps₂, hr₂, he₂⟩ := h
        exact ⟨ps₂, by simp only [hr₂, Draft.nodes], he₁.trans he₂⟩

end

/-- **Compiling** is reading the outline into a draft, numbering it from zero and checking that it alternates. -/
theorem compile_eq_ok_iff {source : String} {nodes : Condition} {bound : Bindings} :
    compile d source = .ok (nodes, bound) ↔ ∃ cs, Draft.ofPieces? (Outline.ofText source.toList) = some cs ∧
      violation? nodes = none ∧ nodes = Draft.nodes d 0 cs ∧ bound = Test.bindings d 0 (Draft.tests cs) := by
  have h := agrees_ofPieces source (Outline.ofText source.toList) (Parameters.numbered_empty d)
  unfold compile
  cases hp : Draft.ofPieces? (Outline.ofText source.toList) with
  | none =>
    rw [hp] at h
    obtain ⟨e, he⟩ := h
    simp [he]
  | some cs =>
    rw [hp] at h
    obtain ⟨⟨bound', next⟩, hr, he⟩ := h
    have hbound : bound' = Test.bindings d 0 (Draft.tests cs) := Bindings.ext he.entries
    subst hbound
    rw [hr]
    constructor
    · intro hc
      dsimp only at hc
      split at hc
      next => cases hc
      next hv =>
        obtain ⟨rfl, rfl⟩ := by simpa using hc
        exact ⟨cs, rfl, hv, rfl, rfl⟩
    · rintro ⟨cs', hcs, hv, rfl, rfl⟩
      obtain rfl : cs = cs' := by simpa using hcs
      simp [hv]

/-! ## Failures -/

/-- What fails behind pieces that are read fails behind them in the outline. -/
theorem ofPieces_append_eq_error {source : String} {behind : List Piece} {ps' : Parameters} {e : QueryError}
    (hb : ofPieces d source ps' behind = .error e) : ∀ {pieces : List Piece} {nodes : Condition} {ps : Parameters},
      ofPieces d source ps pieces = .ok (nodes, ps') → ofPieces d source ps (pieces ++ behind) = .error e
  | [], nodes, ps, h => by
    obtain ⟨rfl, rfl⟩ := Prod.mk.inj (Except.ok.inj h)
    exact hb
  | piece :: pieces, nodes, ps, h => by
    rw [List.cons_append, ofPieces]
    rw [ofPieces] at h
    cases hp : ofPiece d source ps piece with
    | error e =>
      rw [hp] at h
      cases h
    | ok result =>
      obtain ⟨node, ps₁⟩ := result
      simp only [hp] at h ⊢
      cases hr : ofPieces d source ps₁ pieces with
      | error e =>
        rw [hr] at h
        cases h
      | ok result =>
        rw [hr] at h
        obtain ⟨nodes', ps₂⟩ := result
        obtain ⟨_, rfl⟩ := Prod.mk.inj (Except.ok.inj h)
        rw [ofPieces_append_eq_error hb hr]

/-- **The first span that is no test** fails a text, if everything in front of it is read. -/
theorem compile_eq_malformedPredicate {source : String} {before behind : List Piece} {s : List Char} {cs : Draft}
    (ho : Outline.ofText source.toList = before ++ .span s :: behind) (hp : Draft.ofPieces? before = some cs)
    (hs : Test.ofSpan? s = none) : compile d source = .error (.malformedPredicate (String.ofList s)) := by
  have h := agrees_ofPieces source before (Parameters.numbered_empty d)
  rw [hp] at h
  obtain ⟨ps, hr, _⟩ := h
  have hspan : ofPieces d source ps (.span s :: behind) = .error (.malformedPredicate (String.ofList s)) := by
    simp [ofPieces, ofPiece, bindTest, hs]
  rw [compile, ho, ofPieces_append_eq_error hspan hr]

/-- **A violation** fails a text that is read. -/
theorem compile_eq_violation {source : String} {cs : Draft} {v : Violation}
    (ho : Draft.ofPieces? (Outline.ofText source.toList) = some cs) (hv : violation? (Draft.nodes d 0 cs) = some v) :
    compile d source = .error (.malformedExpression source (.violation v)) := by
  have h := agrees_ofPieces source (Outline.ofText source.toList) (Parameters.numbered_empty d)
  rw [ho] at h
  obtain ⟨ps, hr, _⟩ := h
  simp [compile, hr, hv]

end Condition

end RelQuery
