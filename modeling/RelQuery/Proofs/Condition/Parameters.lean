import RelQuery.Proofs.Condition.Compile
import RelQuery.Proofs.Condition.Sql
import Mathlib.Data.List.Nodup

/-!
# The parameters of a compiled condition

A parameter is named after the number of tests in front of it, and these names are all different. So compiling never
meets a conflict, and the tests of its condition bind the parameters from left to right, each of them once.

* `Draft.params_nodes` : the parameters of a numbered draft are the names that its tests bind, in the same order;
* `Condition.ofPieces_ne_conflict` : behind the names of the first parameters, no name that reading binds is taken;
* `Condition.compile_params` : both for a whole text.
-/

namespace RelQuery

/-! ## Names in the condition and in the bindings -/

mutual

theorem Clause.params_node (d : Dialect) : ∀ (n : Nat) (c : Clause),
    (c.node d n).params = (Test.entries d n c.tests).map Prod.fst
  | _, .test _ => rfl
  | _, .link _ => rfl
  | n, .group cs => Draft.params_nodes d n cs

/-- The parameters of a numbered draft are the names that its tests bind, in the same order. -/
theorem Draft.params_nodes (d : Dialect) : ∀ (n : Nat) (cs : List Clause),
    Condition.params (Draft.nodes d n cs) = (Test.entries d n (Draft.tests cs)).map Prod.fst
  | _, [] => rfl
  | n, c :: cs => by
    rw [Draft.nodes, Condition.params, Clause.params_node d n c, Draft.params_nodes d _ cs, Draft.tests,
      Test.entries_append, List.map_append]

end

/-! ## No conflict -/

namespace Condition

variable {d : Dialect} {n : Nat} {ps : Parameters}

/-- A test fails for its text only: the next parameter is free. -/
theorem bindTest_ne_conflict (hn : ps.Numbered d n) (span : List Char) (name : String) :
    bindTest d span ps ≠ .error (.parameterConflict name) := by
  intro hc
  rw [bindTest] at hc
  split at hc
  next => cases hc
  next test _ =>
    obtain ⟨ps', hr, _⟩ := exists_bindValue hn test
    rw [hc] at hr
    cases hr

/-- Behind a piece that is read, the names of the parameters go on without a gap. -/
theorem numbered_of_ofPiece {source : String} {piece : Piece} {node : Node} {ps' : Parameters}
    (hn : ps.Numbered d n) (h : ofPiece d source ps piece = .ok (node, ps')) : ∃ n', ps'.Numbered d n' := by
  have ha := agrees_ofPiece source piece hn
  cases hc : Clause.ofPiece? piece with
  | none =>
    rw [hc] at ha
    obtain ⟨e, he⟩ := ha
    rw [he] at h
    cases h
  | some clause =>
    rw [hc] at ha
    obtain ⟨ps'', hr, he⟩ := ha
    obtain ⟨_, rfl⟩ : clause.node d n = node ∧ ps'' = ps' := by simpa [hr] using h
    exact ⟨_, he.numbered hn⟩

mutual

theorem ofPiece_ne_conflict (source name : String) : ∀ (piece : Piece) {n : Nat} {ps : Parameters},
    ps.Numbered d n → ofPiece d source ps piece ≠ .error (.parameterConflict name)
  | .span text, _, _, hn => bindTest_ne_conflict hn text name
  | .link _, _, _, _ => nofun
  | .fault _, _, _, _ => nofun
  | .group pieces, _, _, hn => by
    have ih := ofPieces_ne_conflict source name pieces hn
    intro hc
    rw [ofPiece] at hc
    split at hc
    next => cases hc
    next e he =>
      obtain rfl : e = .parameterConflict name := by simpa using hc
      exact ih he

/-- Behind the names of the first parameters, reading an outline meets no conflict. -/
theorem ofPieces_ne_conflict (source name : String) : ∀ (pieces : List Piece) {n : Nat} {ps : Parameters},
    ps.Numbered d n → ofPieces d source ps pieces ≠ .error (.parameterConflict name)
  | [], _, _, _ => nofun
  | piece :: pieces, _, _, hn => by
    intro hc
    rw [ofPieces] at hc
    split at hc
    next e he =>
      obtain rfl : e = .parameterConflict name := by simpa using hc
      exact ofPiece_ne_conflict source name piece hn he
    next node ps₁ hr =>
      obtain ⟨_, hn₁⟩ := numbered_of_ofPiece hn hr
      split at hc
      next e he =>
        obtain rfl : e = .parameterConflict name := by simpa using hc
        exact ofPieces_ne_conflict source name pieces hn₁ he
      next => cases hc

end

/-! ## Compiled conditions -/

/-- **Every placeholder is bound once.** Compiling never meets a conflict, whatever the stem of the names. The parameters
of a compiled condition, read from left to right through all groups, are the names that are bound, in binding order:
those with the numbers below the number of tests, all different. So each placeholder of its SQL is bound exactly once. -/
theorem compile_params (d : Dialect) (source : String) :
    (∀ name, compile d source ≠ .error (.parameterConflict name)) ∧
      ∀ nodes bound, compile d source = .ok (nodes, bound) →
        params nodes = bound.names ∧ bound.names = (List.range (testCount nodes)).map d.paramName ∧
          bound.size = testCount nodes ∧ bound.names.Nodup ∧
            ∀ q aliasName, sql q aliasName nodes = SqlPiece.join (sqlPieces q aliasName nodes) ∧
              ∀ name ∈ SqlPiece.placeholders (sqlPieces q aliasName nodes), bound.names.count name = 1 := by
  constructor
  · intro name hc
    unfold compile at hc
    split at hc
    next e he =>
      obtain rfl : e = .parameterConflict name := by simpa using hc
      exact ofPieces_ne_conflict source name _ (Parameters.numbered_empty d) he
    next =>
      split at hc <;> cases hc
  · intro nodes bound h
    obtain ⟨cs, _, _, rfl, rfl⟩ := compile_eq_ok_iff.1 h
    have hnames : params (Draft.nodes d 0 cs) = (Test.bindings d 0 (Draft.tests cs)).names := Draft.params_nodes d 0 cs
    have hnodup : (Test.bindings d 0 (Draft.tests cs)).names.Nodup := (Test.bindings d 0 (Draft.tests cs)).nodup
    refine ⟨hnames, ?_, ?_, hnodup, fun q aliasName => ⟨sql_eq_join q aliasName _, ?_⟩⟩
    · rw [Draft.testCount_nodes, List.range_eq_range']
      exact Test.names_entries d 0 (Draft.tests cs)
    · rw [Draft.testCount_nodes]
      exact Test.length_entries d 0 (Draft.tests cs)
    · intro name hm
      rw [placeholders_sqlPieces, hnames] at hm
      exact List.count_eq_one_of_mem hnodup hm

/-- A stem that ends in a digit, and parameters on both sides of a group's end. -/
theorem compile_params_digits :
    compile { paramStem := "p1" } "(x/a eq 1 or contains(x/b,'c')) and x/a eq 1" =
        .ok ([.group [.test "a" .equals "p10", .link .or, .test "b" .contains "p11"], .link .and,
            .test "a" .equals "p12"], ⟨[("p10", "1"), ("p11", "%c%"), ("p12", "1")], by decide⟩) ∧
      ["p10", "p11", "p12"] = (List.range 3).map (Dialect.paramName { paramStem := "p1" }) ∧
      ∀ name ∈ ["p10", "p11", "p12"], ["p10", "p11", "p12"].count name = 1 := by
  have h : compile { paramStem := "p1" } "(x/a eq 1 or contains(x/b,'c')) and x/a eq 1" =
      .ok ([.group [.test "a" .equals "p10", .link .or, .test "b" .contains "p11"], .link .and,
        .test "a" .equals "p12"], ⟨[("p10", "1"), ("p11", "%c%"), ("p12", "1")], by decide⟩) := by decide +kernel
  obtain ⟨_, hp⟩ := compile_params { paramStem := "p1" } "(x/a eq 1 or contains(x/b,'c')) and x/a eq 1"
  obtain ⟨_, hnames, _, _, hsql⟩ := hp _ _ h
  exact ⟨h, hnames, (hsql .none "child").2⟩

end Condition

end RelQuery
