import RelQuery.Include.Joins
import RelQuery.Proofs.Condition.Expression
import RelQuery.Proofs.Text.Replacing

/-!
# The parameters of a join's condition

An include's condition gets the join's alias in the place of the placeholder, and its bindings stay as they are. The
placeholder is looked for in the whole text, so it may be found inside the name of a parameter.

* `colonRuns_intercalate` : pieces that end in no name keep their names, whatever stands between them;
* `colonRuns_replaceWord` : a word of identifier characters is replaced inside the names, too;
* `IncludeClause.covers_join` : which conditions keep their bindings.
-/

namespace RelQuery

open Text

/-! ## Names behind colons -/

namespace Text

/-- The run of identifier characters, empty ones too, behind each colon of a text. -/
def colonRuns : List Char → List (List Char)
  | [] => []
  | c :: s => if c = ':' then s.takeWhile isIdentifierChar :: colonRuns s else colonRuns s

/-- The parameters that a text names: a colon and a run of identifier characters, as long as possible. -/
def paramNames (sql : String) : List String :=
  ((colonRuns sql.toList).filter (!·.isEmpty)).map String.ofList

/-- Whether the text ends in a colon or in a name behind one, so that a name may go on behind it. -/
def endsInName (s : List Char) : Bool :=
  (s.reverse.dropWhile isIdentifierChar).head? == some ':'

theorem isIdentifierChar_colon : isIdentifierChar ':' = false := rfl

theorem colonRuns_cons_of_ne {c : Char} (h : c ≠ ':') (s : List Char) : colonRuns (c :: s) = colonRuns s := by
  rw [colonRuns, if_neg h]

/-- A text without a colon names nothing, whatever follows it. -/
theorem colonRuns_append_of_notMem : ∀ {s : List Char} (t : List Char), ':' ∉ s → colonRuns (s ++ t) = colonRuns t
  | [], _, _ => rfl
  | c :: s, t, h => by
    have hc : c ≠ ':' := fun e => h (e ▸ List.mem_cons_self)
    rw [List.cons_append, colonRuns_cons_of_ne hc, colonRuns_append_of_notMem t fun hs => h (List.mem_cons_of_mem c hs)]

theorem endsInName_cons {c : Char} {s : List Char} (h : endsInName (c :: s) = false) :
    endsInName s = false ∧ (c = ':' → ∃ x ∈ s, isIdentifierChar x = false) := by
  rw [endsInName, List.reverse_cons, List.dropWhile_append] at h
  split at h
  next hall =>
    -- the characters behind `c` are all in one run
    have hs : s.reverse.dropWhile isIdentifierChar = [] := by simpa using hall
    refine ⟨by rw [endsInName, hs]; rfl, ?_⟩
    rintro rfl
    cases h
  next hall =>
    have hne : s.reverse.dropWhile isIdentifierChar ≠ [] := by simpa using hall
    obtain ⟨x, xs, hx⟩ := List.exists_cons_of_ne_nil hne
    refine ⟨by simpa [endsInName, hx] using h, fun _ => ⟨x, ?_, ?_⟩⟩
    · exact List.mem_reverse.1 ((List.dropWhile_sublist _).subset (hx ▸ List.mem_cons_self))
    · simpa [hx] using List.head_dropWhile_not isIdentifierChar hne

/-- **A text that ends in no name** keeps its names, whatever follows it. -/
theorem colonRuns_append : ∀ {s : List Char} (t : List Char), endsInName s = false →
    colonRuns (s ++ t) = colonRuns s ++ colonRuns t
  | [], _, _ => rfl
  | c :: s, t, h => by
    obtain ⟨hs, hcolon⟩ := endsInName_cons h
    have ih := colonRuns_append t hs
    by_cases hc : c = ':'
    · -- the run behind the colon ends inside `s`
      have hrun : (s ++ t).takeWhile isIdentifierChar = s.takeWhile isIdentifierChar := by
        obtain ⟨x, hx, hn⟩ := hcolon hc
        have hlt : (s.takeWhile isIdentifierChar).length ≠ s.length := by
          intro he
          have hall := (List.takeWhile_prefix isIdentifierChar).eq_of_length he
          rw [← hall] at hx
          simp [List.all_eq_true.1 List.all_takeWhile x hx] at hn
        rw [List.takeWhile_append, if_neg hlt]
      rw [List.cons_append, colonRuns, if_pos hc, colonRuns, if_pos hc, hrun, ih]
      rfl
    · rw [List.cons_append, colonRuns_cons_of_ne hc, colonRuns_cons_of_ne hc, ih]

/-- A text in front takes no name away. -/
theorem colonRuns_sublist_append (s t : List Char) : (colonRuns t).Sublist (colonRuns (s ++ t)) := by
  induction s with
  | nil => exact List.Sublist.refl _
  | cons c s ih =>
    rw [List.cons_append, colonRuns]
    split
    · exact ih.cons _
    · exact ih

/-! ## Names and the word that is replaced -/

/-- **Pieces that end in no name**, the last one apart, keep their names when a word without a colon is put between
them. -/
theorem colonRuns_intercalate {new : List Char} (hnew : ':' ∉ new) : ∀ {ws : List (List Char)},
    (∀ w ∈ ws.dropLast, endsInName w = false) → colonRuns (new.intercalate ws) = ws.flatMap colonRuns
  | [], _ => rfl
  | [w], _ => by simp
  | w :: w' :: ws, h => by
    have hw : endsInName w = false := h w (by simp)
    have htail : ∀ u ∈ (w' :: ws).dropLast, endsInName u = false := fun u hu => h u (List.mem_cons_of_mem w hu)
    have ih := colonRuns_intercalate hnew htail
    rw [List.intercalate_cons_cons, List.append_assoc, colonRuns_append _ hw, colonRuns_append_of_notMem _ hnew, ih]
    rfl

/-- The names of such pieces are among those of the text with any word between them. -/
theorem flatMap_colonRuns_sublist (word : List Char) : ∀ {ws : List (List Char)},
    (∀ w ∈ ws.dropLast, endsInName w = false) → (ws.flatMap colonRuns).Sublist (colonRuns (word.intercalate ws))
  | [], _ => List.Sublist.refl _
  | [w], _ => by simp
  | w :: w' :: ws, h => by
    have hw : endsInName w = false := h w (by simp)
    have htail : ∀ u ∈ (w' :: ws).dropLast, endsInName u = false := fun u hu => h u (List.mem_cons_of_mem w hu)
    have ih := flatMap_colonRuns_sublist word htail
    rw [List.intercalate_cons_cons, List.append_assoc, colonRuns_append _ hw, List.flatMap_cons]
    exact (ih.trans (colonRuns_sublist_append word _)).append_left _

/-- **A word of identifier characters** is replaced in the text and in its names alike. -/
theorem colonRuns_replaceWord {a : Char} {word new : List Char} (hword : ∀ x ∈ a :: word, isIdentifierChar x = true)
    (hnew : ∀ x ∈ new, isIdentifierChar x = true) (s : List Char) :
    colonRuns (replaceWord a word new s) = (colonRuns s).map (replaceWord a word new) := by
  have hcolon {w : List Char} (hw : ∀ x ∈ w, isIdentifierChar x = true) : ':' ∉ w := fun hm => by
    have := hw _ hm
    rw [isIdentifierChar_colon] at this
    cases this
  fun_induction fragments a word s with
  | case1 => simp [replaceWord, colonRuns]
  | case2 c s rest h ih =>
    rw [replaceWord_strip? h, colonRuns_append_of_notMem _ (hcolon hnew), ih, eq_append_of_strip? h,
      colonRuns_append_of_notMem _ (hcolon hword)]
  | case3 c s h ih =>
    rw [replaceWord_cons h]
    by_cases hc : c = ':'
    · rw [colonRuns, if_pos hc, colonRuns, if_pos hc, List.map_cons, takeWhile_replaceWord hword hnew, ih]
    · rw [colonRuns_cons_of_ne hc, colonRuns_cons_of_ne hc, ih]

/-- The same for any word of identifier characters, the empty one too. -/
theorem colonRuns_replace {word new : List Char} (hword : ∀ x ∈ word, isIdentifierChar x = true)
    (hnew : ∀ x ∈ new, isIdentifierChar x = true) (s : List Char) :
    colonRuns (replace word new s) = (colonRuns s).map (replace word new) := by
  cases word with
  | nil => exact (List.map_id _).symm
  | cons a word => exact colonRuns_replaceWord hword hnew s

end Text

/-! ## The condition of a join -/

/-- Every parameter that a text names is bound. -/
def Bindings.Covers (b : Bindings) (sql : String) : Prop :=
  ∀ name ∈ paramNames sql, b.contains name = true

instance (b : Bindings) (sql : String) : Decidable (b.Covers sql) :=
  inferInstanceAs (Decidable (∀ name ∈ paramNames sql, b.contains name = true))

/-- The pieces of a clause between the occurrences of the placeholder that are replaced. -/
def Dialect.piecesAround (d : Dialect) (clause : String) : List (List Char) :=
  match d.placeholder.toList with
  | [] => [clause.toList]
  | a :: word => fragments a word clause.toList

namespace IncludeClause

variable {d : Dialect} {aliasName : String}

theorem toList_inScope (d : Dialect) (aliasName clause : String) :
    (inScope d aliasName clause).toList = aliasName.toList.intercalate (d.piecesAround clause) := by
  rw [inScope, String.toList_ofList, Dialect.piecesAround, replace.eq_def]
  cases d.placeholder.toList with
  | nil => simp
  | cons a word => exact replaceWord_eq_intercalate a word _ _

theorem intercalate_piecesAround (d : Dialect) (clause : String) :
    d.placeholder.toList.intercalate (d.piecesAround clause) = clause.toList := by
  rw [Dialect.piecesAround]
  cases d.placeholder.toList with
  | nil => simp
  | cons a word => exact intercalate_fragments a word _

/-- Where no replaced occurrence stands behind a name, all names of the new text are names of the clause. -/
theorem paramNames_inScope_sublist {clause : String} (ha : ':' ∉ aliasName.toList)
    (h : ∀ w ∈ (d.piecesAround clause).dropLast, endsInName w = false) :
    (paramNames (inScope d aliasName clause)).Sublist (paramNames clause) := by
  have hs := flatMap_colonRuns_sublist d.placeholder.toList h
  rw [intercalate_piecesAround, ← colonRuns_intercalate ha h, ← toList_inScope] at hs
  exact (hs.filter _).map _

/-- **A placeholder of identifier characters** is replaced inside the names of a clause as in the clause itself. -/
theorem paramNames_inScope (hp : ∀ c ∈ d.placeholder.toList, isIdentifierChar c = true)
    (ha : IsIdentifier aliasName.toList) (clause : String) :
    paramNames (inScope d aliasName clause) = (paramNames clause).map (inScope d aliasName) := by
  have hruns : colonRuns (inScope d aliasName clause).toList =
      (colonRuns clause.toList).map (replace d.placeholder.toList aliasName.toList) := by
    rw [inScope, String.toList_ofList]
    exact colonRuns_replace hp ha.2 _
  have hempty (run : List Char) :
      (!(replace d.placeholder.toList aliasName.toList run).isEmpty) = !run.isEmpty := by
    rw [isEmpty_replace ha.1]
  rw [paramNames, hruns, List.filter_map, paramNames, List.map_map, List.map_map]
  simp only [Function.comp_def, hempty, inScope, String.toList_ofList]

/-- **Which conditions keep their bindings.** A join has the bindings of its include, and its condition has the alias in
the place of the placeholder. Under an alias without a colon, all parameters of the condition are bound if all those of
the clause are and no replaced occurrence of the placeholder stands behind a colon or a name. If the placeholder consists
of identifier characters and the alias is an identifier, the placeholder is replaced inside the names as well, and the
parameters of the condition are bound exactly if those of the clause are bound under the names that this gives. -/
theorem covers_join (c : IncludeClause) (parentAlias : String) {clause sql : String}
    (hclause : c.condition = some clause) (hsql : (c.join d parentAlias aliasName).condition = some sql) :
    (c.join d parentAlias aliasName).bindings = c.bindings ∧
      (':' ∉ aliasName.toList → (∀ w ∈ (d.piecesAround clause).dropLast, endsInName w = false) →
        c.bindings.Covers clause → (c.join d parentAlias aliasName).bindings.Covers sql) ∧
      ((∀ x ∈ d.placeholder.toList, isIdentifierChar x = true) → IsIdentifier aliasName.toList →
        ((c.join d parentAlias aliasName).bindings.Covers sql ↔
          ∀ name ∈ paramNames clause, c.bindings.contains (inScope d aliasName name) = true)) := by
  have hscoped : sql = inScope d aliasName clause := by
    have h : ((c.condition.map (inScope d aliasName)).filter fun s => !isBlankText s.toList) = some sql := hsql
    rw [hclause, Option.map_some] at h
    exact (Option.some.inj (Option.filter_eq_some_iff.1 h).1).symm
  subst hscoped
  refine ⟨rfl, fun ha hw hc name hn => ?_, fun hp ha => ?_⟩
  · exact hc name ((paramNames_inScope_sublist ha hw).subset hn)
  · rw [Bindings.Covers, paramNames_inScope hp ha, List.forall_mem_map]
    rfl

/-- The clause's own parameters are kept; one with the placeholder in its name is bound where its new name is. -/
theorem covers_join_tags :
    let clause : IncludeClause := {
      property := "tags"
      condition := some "lower(typeorm_query.name) = :p and typeorm_query.id = :q"
      bindings := ⟨[("p", "red"), ("q", "1")], by decide⟩ }
    let renamed : IncludeClause := {
      property := "tags"
      condition := some "typeorm_query.id = :typeorm_query_id"
      bindings := ⟨[("typeorm_query_id", "1"), ("tags_id", "2")], by decide⟩ }
    (clause.join {} "post" "tags").condition = some "lower(tags.name) = :p and tags.id = :q" ∧
      (clause.join {} "post" "tags").bindings.Covers "lower(tags.name) = :p and tags.id = :q" ∧
      (renamed.join {} "post" "tags").condition = some "tags.id = :tags_id" ∧
      (renamed.join {} "post" "tags").bindings.Covers "tags.id = :tags_id" := by
  intro clause renamed
  have h₁ : (clause.join {} "post" "tags").condition = some "lower(tags.name) = :p and tags.id = :q" := by
    decide +kernel
  have h₂ : (renamed.join {} "post" "tags").condition = some "tags.id = :tags_id" := by decide +kernel
  obtain ⟨_, hkept, _⟩ := covers_join clause "post" rfl h₁
  obtain ⟨_, _, hnamed⟩ := covers_join renamed "post" rfl h₂
  exact ⟨h₁, hkept (by decide) (by decide +kernel) (by decide +kernel), h₂,
    (hnamed (List.all_eq_true.1 (by decide)) (by decide)).2 (by decide +kernel)⟩

/-- Not every condition keeps its bindings: the placeholder is replaced inside the name of a parameter, too. -/
theorem not_forall_covers_join : ¬∀ (d : Dialect) (c : IncludeClause) (parentAlias aliasName clause sql : String),
    c.condition = some clause → (c.join d parentAlias aliasName).condition = some sql → c.bindings.Covers clause →
      (c.join d parentAlias aliasName).bindings.Covers sql := by
  intro h
  have hsql := h {} {
      property := "tags"
      condition := some "typeorm_query.name = :typeorm_query_0"
      bindings := ⟨[("typeorm_query_0", "red")], by decide⟩ }
    "post" "tags" "typeorm_query.name = :typeorm_query_0" "tags.name = :tags_0" rfl (by decide +kernel)
    (by decide +kernel)
  exact absurd hsql (by decide +kernel)

end IncludeClause

end RelQuery
