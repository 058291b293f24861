import RelQuery.Proofs.Condition.Qualified

/-!
# Reading the SQL of a condition

The SQL of a condition can be read back. Tests and connectives are read off the text first (`SqlToken.ofText?`), then the
parentheses are matched (`SqlToken.nest?`); the blanks say nothing that these do not.

* `Node.leaf?_test`, `Node.leaf?_link` : a test and a connective are read off the front of a text;
* `Condition.ofText?_sql` : the tokens of the SQL are those of the condition;
* `Condition.nest?_tokens` : the tokens of a condition are nested as it is;
* `Condition.ofSql?_sql`, `Condition.sql_injective` : the SQL is read back as the condition, so no other has the same.
-/

namespace RelQuery

open Text

/-! ## Names that are read again -/

namespace Quoting

/-- The style writes the name so that it is read again: a mark in it would end it, and without marks it has to be an
identifier. -/
def Writes (q : Quoting) (name : List Char) : Prop :=
  match q.mark? with
  | some m => m ∉ name
  | Option.none => IsIdentifier name

/-- No name goes on in the text. -/
def Ends (q : Quoting) (s : List Char) : Prop :=
  ∀ c ∈ s.head?, isIdentifierChar c = false ∧ q.mark? ≠ some c

variable {q : Quoting} {s rest v : List Char}

theorem isIdentifierChar_of_mark? {m : Char} (hm : q.mark? = some m) : isIdentifierChar m = false := by
  cases q <;> cases hm <;> rfl

/-- An identifier is written by every style. -/
theorem writes_of_isIdentifier (q : Quoting) (h : IsIdentifier v) : q.Writes v := by
  rw [Writes]
  split
  next m hm =>
    intro hv
    have hid := h.2 m hv
    rw [isIdentifierChar_of_mark? hm] at hid
    cases hid
  next => exact h

theorem ends_cons {c : Char} (hc : isIdentifierChar c = false) (hm : c ∉ ['`', '"']) (s : List Char) :
    q.Ends (c :: s) := by
  intro x hx
  obtain rfl : c = x := by simpa using hx
  refine ⟨hc, fun he => ?_⟩
  cases q <;> cases he <;> exact hm (by decide)

end Quoting

theorem Text.takeWhile_isIdentifierChar {v rest : List Char} (hv : ∀ c ∈ v, isIdentifierChar c = true)
    (hr : ∀ c ∈ rest.head?, isIdentifierChar c = false) :
    (v ++ rest).takeWhile isIdentifierChar = v ∧ (v ++ rest).dropWhile isIdentifierChar = rest := by
  rw [List.takeWhile_append_of_pos hv, List.dropWhile_append_of_pos hv]
  cases rest with
  | nil => simp
  | cons c rest =>
    have hc := hr c rfl
    simp [hc]

namespace Quoting

variable {q : Quoting} {s rest v : List Char}

theorem name?_quote {name : String} (h : q.Writes name.toList) (hr : q.Ends rest) :
    q.name? ((q.quote name).toList ++ rest) = some (name.toList, rest) := by
  cases hm : q.mark? with
  | some m =>
    have hn : m ∉ name.toList := by simpa only [Writes, hm] using h
    refine (name?_eq_some_iff hm).2 ⟨?_, fun he => (hr m he).2 hm⟩
    rw [toList_quote hm, encode_of_notMem hn]
  | none =>
    have hn : IsIdentifier name.toList := by simpa only [Writes, hm] using h
    have hq : (q.quote name).toList = name.toList := by simp [quote, toList_mark, hm]
    obtain ⟨htake, hdrop⟩ := takeWhile_isIdentifierChar hn.2 fun c hc => (hr c hc).1
    rw [hq]
    simp only [name?, hm, htake, hdrop, if_neg hn.1]

/-- A qualified column is read as the alias and the column. -/
theorem qualified?_qualify {aliasName column : String} (ha : q.Writes aliasName.toList)
    (hc : q.Writes column.toList) (hr : q.Ends rest) :
    q.qualified? ((q.qualify aliasName column).toList ++ rest) = some ((aliasName.toList, column.toList), rest) := by
  have hdot : q.Ends ('.' :: ((q.quote column).toList ++ rest)) := ends_cons rfl (by decide) _
  have hs : (q.qualify aliasName column).toList ++ rest =
      (q.quote aliasName).toList ++ '.' :: ((q.quote column).toList ++ rest) := by
    simp [qualify, String.toList_append]
  simp only [qualified?, hs, name?_quote ha hdot, Option.bind_eq_bind, Option.bind_some, strip?, if_true,
    name?_quote hc hr]
  rfl

theorem length_le_of_name? (h : q.name? s = some (v, rest)) : rest.length ≤ s.length := by
  cases hm : q.mark? with
  | some m =>
    obtain ⟨rfl, _⟩ := (name?_eq_some_iff hm).1 h
    simp
  | none =>
    simp only [name?, hm] at h
    split at h
    next => cases h
    next =>
      obtain ⟨-, rfl⟩ := Prod.mk.inj (Option.some.inj h)
      exact (List.dropWhile_sublist _).length_le

theorem length_lt_of_qualified? {names : List Char × List Char} (h : q.qualified? s = some (names, rest)) :
    rest.length < s.length := by
  simp only [qualified?, Option.bind_eq_bind, Option.bind_eq_some_iff, Prod.exists] at h
  obtain ⟨a, s₁, ha, s₂, hdot, c, s₃, hc, he⟩ := h
  obtain ⟨-, rfl⟩ := Prod.mk.inj (Option.some.inj he)
  have h₁ := length_le_of_name? ha
  have h₂ := congrArg List.length (eq_append_of_strip? hdot)
  have h₃ := length_le_of_name? hc
  simp only [List.length_append, List.length_cons, List.length_nil] at h₂
  omega

end Quoting

/-! ## Tests and connectives in front of a text -/

namespace Text

/-- Reads the first word of the list that the text begins with, as what it stands for. -/
def word? {α : Type} (words : List (List Char × α)) (s : List Char) : Option (α × List Char) :=
  words.findSome? fun word => (strip? word.1 s).map (word.2, ·)

theorem exists_of_word? {α : Type} {words : List (List Char × α)} {s rest : List Char} {a : α}
    (h : word? words s = some (a, rest)) : ∃ word, (word, a) ∈ words ∧ s = word ++ rest := by
  obtain ⟨⟨word, b⟩, hmem, hw⟩ := List.exists_of_findSome?_eq_some h
  obtain ⟨r, hr, he⟩ := Option.map_eq_some_iff.1 hw
  obtain ⟨rfl, rfl⟩ := Prod.mk.inj he
  exact ⟨word, hmem, eq_append_of_strip? hr⟩

end Text

/-- Reads the operator of a test, with the colon of its parameter. -/
def Comparison.read? (s : List Char) : Option (Comparison × List Char) :=
  word? [(" = :".toList, .equals), (" LIKE :".toList, .contains)] s

namespace Node

/-- Reads a test: a qualified column, an operator and a parameter. -/
def test? (q : Quoting) (s : List Char) : Option (Node × List Char) := do
  let ((_, column), s) ← q.qualified? s
  let (comparison, s) ← Comparison.read? s
  let param := s.takeWhile isIdentifierChar
  return (.test (String.ofList column) comparison (String.ofList param), s.dropWhile isIdentifierChar)

/-- Reads a connective. -/
def link? (s : List Char) : Option (Node × List Char) :=
  word? [("and".toList, .link .and), ("or".toList, .link .or)] s

/-- Reads a test, or else a connective: a name may begin with the word of one. -/
def leaf? (q : Quoting) (s : List Char) : Option (Node × List Char) :=
  match test? q s with
  | some leaf => some leaf
  | none => link? s

end Node

theorem Comparison.read?_sql (k : Comparison) (s : List Char) :
    Comparison.read? ((" " ++ k.sql ++ " :").toList ++ s) = some (k, s) := by
  cases k <;> rfl

namespace Node

variable {q : Quoting} {aliasName : String} {node : Node} {s rest : List Char}

theorem length_lt_of_test? (h : test? q s = some (node, rest)) : rest.length < s.length := by
  simp only [test?, Option.bind_eq_bind, Option.bind_eq_some_iff, Prod.exists] at h
  obtain ⟨a, c, s₁, hq, k, s₂, hk, he⟩ := h
  obtain ⟨-, rfl⟩ := Prod.mk.inj (Option.some.inj he)
  obtain ⟨operator, -, rfl⟩ := exists_of_word? hk
  have h₁ := Quoting.length_lt_of_qualified? hq
  have h₂ := (List.dropWhile_sublist isIdentifierChar : (s₂.dropWhile isIdentifierChar).Sublist s₂).length_le
  rw [List.length_append] at h₁
  omega

theorem length_lt_of_link? (h : link? s = some (node, rest)) : rest.length < s.length := by
  obtain ⟨word, hmem, rfl⟩ := exists_of_word? h
  have hpos : 0 < word.length := by
    simp only [List.mem_cons, List.not_mem_nil, or_false, Prod.mk.injEq] at hmem
    obtain ⟨rfl, -⟩ | ⟨rfl, -⟩ := hmem <;> decide
  rw [List.length_append]
  omega

theorem length_lt_of_leaf? (h : leaf? q s = some (node, rest)) : rest.length < s.length := by
  rw [leaf?] at h
  split at h
  next leaf ht =>
    obtain rfl := Option.some.inj h
    exact length_lt_of_test? ht
  next => exact length_lt_of_link? h

/-- A test is read off the front of a text. -/
theorem leaf?_test {column param : String} (k : Comparison) (ha : q.Writes aliasName.toList)
    (hc : q.Writes column.toList) (hp : IsIdentifier param.toList)
    (hr : ∀ c ∈ rest.head?, isIdentifierChar c = false) :
    leaf? q (((Node.test column k param).sql q aliasName).toList ++ rest) = some (.test column k param, rest) := by
  have hends : q.Ends ((" " ++ k.sql ++ " :").toList ++ (param.toList ++ rest)) := by
    cases k <;> exact Quoting.ends_cons (c := ' ') rfl (by decide) _
  have hs : ((Node.test column k param).sql q aliasName).toList ++ rest =
      (q.qualify aliasName column).toList ++ ((" " ++ k.sql ++ " :").toList ++ (param.toList ++ rest)) := by
    simp [Node.sql_test, String.toList_append]
  obtain ⟨htake, hdrop⟩ := takeWhile_isIdentifierChar hp.2 hr
  have htest : test? q (((Node.test column k param).sql q aliasName).toList ++ rest) =
      some (.test column k param, rest) := by
    rw [test?, hs, Quoting.qualified?_qualify ha hc hends]
    simp only [Option.bind_eq_bind, Option.bind_some, Comparison.read?_sql, htake, hdrop, String.ofList_toList]
    rfl
  rw [leaf?, htest]

/-- No test begins where no name does. -/
theorem test?_eq_none {c : Char} (hc : isIdentifierChar c = false) (hm : c ∉ ['`', '"']) (s : List Char) :
    test? q (c :: s) = none := by
  have hname : q.name? (c :: s) = none := by
    cases h : q.mark? with
    | none => simp [Quoting.name?, h, hc]
    | some m =>
      have hne : m ≠ c := by
        rintro rfl
        cases q <;> cases h <;> exact hm (by decide)
      simp [Quoting.name?, h, strip?, hne]
  simp [test?, Quoting.qualified?, hname]

/-- Nothing is read where neither a name nor a connective begins. -/
theorem leaf?_eq_none {c : Char} (hc : c ∈ [' ', '(', ')']) (s : List Char) : leaf? q (c :: s) = none := by
  have hchar : isIdentifierChar c = false ∧ c ∉ ['`', '"'] ∧ c ≠ 'a' ∧ c ≠ 'o' := by
    obtain rfl | rfl | rfl : c = ' ' ∨ c = '(' ∨ c = ')' := by simpa using hc
    all_goals decide
  have hlink : link? (c :: s) = none := by
    simp [link?, word?, strip?, hchar.2.2.1.symm, hchar.2.2.2.symm]
  rw [leaf?, test?_eq_none hchar.1 hchar.2.1, hlink]

/-- A connective is read off the front of a text that does not go on in a name. -/
theorem leaf?_link (k : Connective) (hr : ∀ c ∈ rest.head?, isIdentifierChar c = false ∧ c ≠ '.') :
    leaf? q (k.keyword.toList ++ rest) = some (.link k, rest) := by
  have hlink : link? (k.keyword.toList ++ rest) = some (.link k, rest) := by
    cases k <;> rfl
  have htest : test? q (k.keyword.toList ++ rest) = none := by
    cases hm : q.mark? with
    | some m =>
      have hname : q.name? (k.keyword.toList ++ rest) = none := by
        cases q <;> cases hm <;> cases k <;> rfl
      simp [test?, Quoting.qualified?, hname]
    | none =>
      -- the word is read as a name, and no dot follows it
      have hword : ∀ c ∈ k.keyword.toList, isIdentifierChar c = true := by
        cases k <;> exact List.all_eq_true.1 rfl
      obtain ⟨htake, hdrop⟩ := takeWhile_isIdentifierChar hword fun c hc => (hr c hc).1
      have hne : k.keyword.toList ≠ [] := by
        cases k <;> decide
      have hdot : strip? ['.'] rest = none := by
        cases rest with
        | nil => rfl
        | cons c rest =>
          have := (hr c rfl).2
          simp [strip?, this.symm]
      simp only [test?, Quoting.qualified?, Quoting.name?, hm, htake, hdrop, if_neg hne, Option.bind_eq_bind,
        Option.bind_some, hdot, Option.bind_none]
  rw [leaf?, htest, hlink]

end Node

/-! ## Tokens -/

/-- A token of a condition's SQL: a parenthesis, or a test or a connective. -/
inductive SqlToken where
  | opened
  | closed
  | leaf (node : Node)

/-- The tokens of a character that stands alone: none for a blank, one for a parenthesis. -/
def SqlToken.ofChar? : Char → Option (List SqlToken)
  | ' ' => some []
  | '(' => some [.opened]
  | ')' => some [.closed]
  | _ => none

/-- Reads the tokens of a text. -/
def SqlToken.ofText? (q : Quoting) : List Char → Option (List SqlToken)
  | [] => some []
  | c :: s =>
    match _h : Node.leaf? q (c :: s) with
    | some (node, rest) => (ofText? q rest).map (.leaf node :: ·)
    | none => (ofChar? c).bind fun tokens => (ofText? q s).map (tokens ++ ·)
termination_by s => s.length
decreasing_by
  · exact Node.length_lt_of_leaf? _h
  · simp

mutual

/-- The tokens of an element. -/
def Node.tokens : Node → List SqlToken
  | .group nodes => .opened :: Condition.tokens nodes ++ [.closed]
  | leaf => [.leaf leaf]

/-- The tokens of a condition. -/
def Condition.tokens : List Node → List SqlToken
  | [] => []
  | node :: nodes => node.tokens ++ Condition.tokens nodes

end

namespace SqlToken

variable {q : Quoting} {s rest : List Char}

theorem ofText?_leaf {node : Node} (h : Node.leaf? q s = some (node, rest)) :
    ofText? q s = (ofText? q rest).map (.leaf node :: ·) := by
  cases s with
  | nil => exact absurd (Node.length_lt_of_leaf? h) (Nat.not_lt_zero _)
  | cons c s =>
    rw [ofText?]
    split
    next node' rest' h' =>
      obtain ⟨rfl, rfl⟩ := Prod.mk.inj (Option.some.inj (h'.symm.trans h))
      rfl
    next h' => cases h'.symm.trans h

theorem ofText?_char {c : Char} {tokens : List SqlToken} (hc : ofChar? c = some tokens) (s : List Char) :
    ofText? q (c :: s) = (ofText? q s).map (tokens ++ ·) := by
  have hmem : c ∈ [' ', '(', ')'] := by
    rw [ofChar?.eq_def] at hc
    split at hc
    next => decide
    next => decide
    next => decide
    next => cases hc
  rw [ofText?]
  split
  next h => cases (Node.leaf?_eq_none hmem s).symm.trans h
  next => rw [hc, Option.bind_some]

end SqlToken

/-- Every column of the condition is written so that it is read again, and every parameter is an identifier. -/
def Condition.Writes (q : Quoting) (nodes : Condition) : Prop :=
  ∀ t ∈ Condition.tests nodes, q.Writes t.1.toList ∧ IsIdentifier t.2.2.toList

section

variable {q : Quoting} {aliasName : String}

mutual

theorem Node.ofText?_sql (ha : q.Writes aliasName.toList) : ∀ (node : Node) {rest : List Char},
    Condition.Writes q [node] → (∀ c ∈ rest.head?, c = ' ' ∨ c = ')') →
    SqlToken.ofText? q ((node.sql q aliasName).toList ++ rest) = (SqlToken.ofText? q rest).map (node.tokens ++ ·)
  | .test column k param, rest, hw, hr => by
    obtain ⟨hc, hp⟩ := hw (column, k, param) (by simp [Condition.tests, Node.tests])
    have hend : ∀ c ∈ rest.head?, isIdentifierChar c = false := by
      intro c h
      rcases hr c h with rfl | rfl <;> rfl
    exact SqlToken.ofText?_leaf (Node.leaf?_test k ha hc hp hend)
  | .link k, rest, _, hr => by
    have hend : ∀ c ∈ rest.head?, isIdentifierChar c = false ∧ c ≠ '.' := by
      intro c h
      rcases hr c h with rfl | rfl <;> decide
    exact SqlToken.ofText?_leaf (Node.leaf?_link k hend)
  | .group nodes, rest, hw, _ => by
    have hs : ((Node.group nodes).sql q aliasName).toList ++ rest =
        '(' :: ((Condition.sql q aliasName nodes).toList ++ ')' :: rest) := by
      simp [Node.sql_group, String.toList_append]
    have hw' : Condition.Writes q nodes := by simpa [Condition.Writes, Condition.tests, Node.tests] using hw
    rw [hs, SqlToken.ofText?_char (c := '(') rfl, Condition.ofText?_sql ha nodes hw' (by simp),
      SqlToken.ofText?_char (c := ')') rfl]
    simp [Node.tokens, Option.map_map, Function.comp_def]

/-- **The tokens of the SQL are those of the condition**, whatever follows behind a blank or a parenthesis that closes. -/
theorem Condition.ofText?_sql (ha : q.Writes aliasName.toList) : ∀ (nodes : List Node) {rest : List Char},
    Condition.Writes q nodes → (∀ c ∈ rest.head?, c = ' ' ∨ c = ')') →
    SqlToken.ofText? q ((Condition.sql q aliasName nodes).toList ++ rest) =
      (SqlToken.ofText? q rest).map (Condition.tokens nodes ++ ·)
  | [], rest, _, _ => by simp [Condition.tokens]
  | node :: nodes, rest, hw, hr => by
    have hnode : Condition.Writes q [node] := fun t ht =>
      hw t (List.mem_append_left _ (by simpa [Condition.tests] using ht))
    have hnodes : Condition.Writes q nodes := fun t ht => hw t (List.mem_append_right _ ht)
    rw [Condition.sql_cons, String.toList_append, List.append_assoc]
    cases nodes with
    | nil =>
      rw [Node.ofText?_sql ha node hnode (by simpa using hr)]
      simp [Condition.tokens]
    | cons node' nodes =>
      have hs : (if (node' :: nodes).isEmpty then "" else " " ++ Condition.sql q aliasName (node' :: nodes)).toList ++
          rest = ' ' :: ((Condition.sql q aliasName (node' :: nodes)).toList ++ rest) := by
        simp [String.toList_append]
      rw [hs, Node.ofText?_sql ha node hnode (by simp), SqlToken.ofText?_char (c := ' ') rfl,
        Condition.ofText?_sql ha (node' :: nodes) hnodes hr]
      simp [Condition.tokens, Option.map_map, Function.comp_def]

end

end

/-! ## Groups -/

/-- Nests tokens. `nodes` is what has been read of a group, and `around` are the conditions that stand around it so far,
the innermost first. -/
def SqlToken.nest? : List Condition → Condition → List SqlToken → Option Condition
  | [], nodes, [] => some nodes
  | _ :: _, _, [] => none
  | around, nodes, .leaf node :: tokens => nest? around (nodes ++ [node]) tokens
  | around, nodes, .opened :: tokens => nest? (nodes :: around) [] tokens
  | outer :: around, nodes, .closed :: tokens => nest? around (outer ++ [.group nodes]) tokens
  | [], _, .closed :: _ => none

mutual

theorem Node.nest?_tokens : ∀ (node : Node) (around : List Condition) (nodes : Condition) (tokens : List SqlToken),
    SqlToken.nest? around nodes (node.tokens ++ tokens) = SqlToken.nest? around (nodes ++ [node]) tokens
  | .test .., around, _, _ => by cases around <;> rfl
  | .link _, around, _, _ => by cases around <;> rfl
  | .group inside, around, nodes, tokens => by
    have ih := Condition.nest?_tokens inside (nodes :: around) [] (.closed :: tokens)
    have hs : (Node.group inside).tokens ++ tokens =
        .opened :: (Condition.tokens inside ++ .closed :: tokens) := by
      simp [Node.tokens]
    rw [hs]
    cases around <;> exact ih

/-- **The tokens of a condition are nested as it is**, behind what has been read already. -/
theorem Condition.nest?_tokens : ∀ (nodes' : List Node) (around : List Condition) (nodes : Condition)
    (tokens : List SqlToken),
    SqlToken.nest? around nodes (Condition.tokens nodes' ++ tokens) = SqlToken.nest? around (nodes ++ nodes') tokens
  | [], _, _, _ => by simp [Condition.tokens]
  | node :: nodes', around, nodes, tokens => by
    rw [Condition.tokens, List.append_assoc, Node.nest?_tokens node, Condition.nest?_tokens nodes', List.append_assoc]
    rfl

end

/-! ## The condition of an SQL text -/

namespace Condition

variable {q : Quoting} {aliasName : String}

/-- The condition that has the SQL, if there is one; columns may be taken from any alias. -/
def ofSql? (q : Quoting) (sql : String) : Option Condition :=
  (SqlToken.ofText? q sql.toList).bind (SqlToken.nest? [] [])

/-- **The SQL of a condition is read back as the condition.** -/
theorem ofSql?_sql (ha : q.Writes aliasName.toList) {nodes : Condition} (hw : Writes q nodes) :
    ofSql? q (sql q aliasName nodes) = some nodes := by
  have hend : ∀ c ∈ ([] : List Char).head?, c = ' ' ∨ c = ')' := by simp
  have htokens := ofText?_sql ha nodes hw hend
  have hnest := nest?_tokens nodes [] [] []
  simp only [List.append_nil, List.nil_append] at htokens hnest
  rw [ofSql?, htokens, SqlToken.ofText?]
  simpa [SqlToken.nest?] using hnest

/-- Every column and every parameter of the condition is an identifier. -/
def HasIdentifiers (nodes : Condition) : Prop :=
  ∀ t ∈ tests nodes, IsIdentifier t.1.toList ∧ IsIdentifier t.2.2.toList

instance (nodes : Condition) : Decidable (HasIdentifiers nodes) :=
  inferInstanceAs (Decidable (∀ _ ∈ _, _ ∧ _))

theorem HasIdentifiers.writes {nodes : Condition} (h : HasIdentifiers nodes) (q : Quoting) : Writes q nodes :=
  fun t ht => ⟨Quoting.writes_of_isIdentifier q (h t ht).1, (h t ht).2⟩

/-- **The SQL loses nothing of a condition**, well-formed or not, whose alias, columns and parameters are identifiers: it
is read back as the condition, so no other one has the same SQL. -/
theorem sql_injective (q : Quoting) {aliasName : String} (ha : IsIdentifier aliasName.toList) :
    (∀ nodes, HasIdentifiers nodes → ofSql? q (sql q aliasName nodes) = some nodes) ∧
    ∀ nodes nodes', HasIdentifiers nodes → HasIdentifiers nodes' →
      sql q aliasName nodes = sql q aliasName nodes' → nodes = nodes' := by
  have hread : ∀ nodes, HasIdentifiers nodes → ofSql? q (sql q aliasName nodes) = some nodes :=
    fun nodes h => ofSql?_sql (Quoting.writes_of_isIdentifier q ha) (h.writes q)
  refine ⟨hread, fun nodes nodes' h h' hs => Option.some.inj ?_⟩
  calc some nodes = ofSql? q (sql q aliasName nodes) := (hread nodes h).symm
    _ = ofSql? q (sql q aliasName nodes') := by rw [hs]
    _ = some nodes' := hread nodes' h'

/-- Names that are words of the SQL, groups with nothing in them and groups next to each other. -/
theorem sql_injective_and : IsIdentifier "and".toList ∧
    let nodes : Condition := [.test "or" .equals "and", .link .and, .link .or, .group [], .group [.group [], .link .and]]
    sql .none "and" nodes = "and.or = :and and or () (() and)" ∧
      ofSql? .none "and.or = :and and or () (() and)" = some nodes ∧
      ∀ nodes', HasIdentifiers nodes' → sql .none "and" nodes' = "and.or = :and and or () (() and)" →
        nodes' = nodes := by
  have ha : IsIdentifier "and".toList := by decide
  refine ⟨ha, ?_⟩
  intro nodes
  have hn : HasIdentifiers nodes := by decide
  have hs : sql .none "and" nodes = "and.or = :and and or () (() and)" := by decide +kernel
  obtain ⟨hread, hinj⟩ := sql_injective .none ha
  refine ⟨hs, hs ▸ hread nodes hn, fun nodes' h' hs' => hinj nodes' nodes h' hn (hs'.trans hs.symm)⟩

end Condition

end RelQuery
