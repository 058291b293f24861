import RelQuery.Proofs.Script.Projection

/-!
# The columns that are selected by default

A request without a select text selects all columns of its root. If that entity is declared step by step, these are its
key and then its other columns, none of them twice.

* `Entity.columns_declareAll` : any declarations, and the columns that a request selects by default.
-/

namespace RelQuery

open Text

namespace Entity

variable {e : Entity}

theorem nodup_qualifiedColumns (h : e.columns.Nodup) (aliasName : String) : (e.qualifiedColumns aliasName).Nodup := by
  refine List.Nodup.map (fun column column' he => ?_) h
  have hlist : (aliasName ++ "." ++ column).toList = (aliasName ++ "." ++ column').toList := congrArg String.toList he
  simpa [String.toList_inj] using hlist

/-- **The columns of an entity**, however keys, columns and relations are declared: none stands twice, and the key
stands first. They are what the declarations make of a plain list of columns. Behind an alias, there is one entry for
each of them, in order; and this is what a request selects whose parser, if it is asked at all, finds no select text or
a star: first the key, and no column twice. -/
theorem columns_declareAll {ρ : Type} (name table : String) (ds : List Declaration) :
    let e := declareAll { name, table } ds
    e.columns.Nodup ∧ e.columns.head? = some e.key ∧
      e.layout = ds.foldl Layout.declare ⟨"id", ["id"]⟩ ∧
      (∀ aliasName, e.qualifiedColumns aliasName = e.columns.map fun column => aliasName ++ "." ++ column) ∧
      ∀ (engine : Engine) (r : Recorder ρ) (request : Request) (c : Script.Context),
        engine.lookup r.entityName = some e → engine.context r.rootAlias r.entityName request = .ok c →
        (request.present ≠ [] → isBlankText c.parts.select.toList = true ∨ trim c.parts.select.toList = ['*']) →
          let select := (engine.execute r request).builder.plan.select
          select = e.qualifiedColumns r.rootAlias ∧
            select.head? = some (r.rootAlias ++ "." ++ e.key) ∧ select.Nodup := by
  intro e
  have hkeyed : e.Keyed := keyed_declareAll name table ds
  refine ⟨hkeyed.nodup, hkeyed.head, layout_declareAll _ ds, fun _ => rfl, ?_⟩
  intro engine r request c he hc hparts select
  obtain ⟨hroot, hanswer⟩ := Engine.lookup_of_context hc
  have hdefault : isBlankText c.parts.select.toList = true ∨ trim c.parts.select.toList = ['*'] := by
    by_cases hp : request.present = []
    · -- without a key the parser is not asked, and there is no select text
      rw [Engine.parts, if_pos hp] at hanswer
      rw [← Except.ok.inj hanswer]
      exact .inl rfl
    · exact hparts hp
  have hselect : select = e.qualifiedColumns r.rootAlias := by
    obtain ⟨-, -, -, -, hprojection, -⟩ := Recorder.plan_of_context hc
    rw [(Engine.eq_of_context hc).1, ← Option.some.inj (he.symm.trans hroot), QueryParts.projection_eq,
      if_pos hdefault] at hprojection
    exact hprojection
  rw [hselect]
  refine ⟨rfl, ?_, nodup_qualifiedColumns hkeyed.nodup r.rootAlias⟩
  rw [qualifiedColumns, List.head?_map, hkeyed.head]
  rfl

/-- The former key comes back as a column, and a column becomes the key; the request has a key, but no select text. -/
theorem columns_declareAll_title :
    let ds : List Declaration := [.columns ["title", "title"], .key "slug", .columns ["id", "slug"], .key "title"]
    let e := declareAll { name := "Post", table := "posts" } ds
    let engine : Engine := {
      lookup := fun name => if name = "post" then some e else none
      parse := fun _ _ => .ok {} }
    let r : Recorder Nat := { rootAlias := "post" }
    let select := (engine.execute r { count := some "true" }).builder.plan.select
    e.columns = ["title", "id"] ∧ e.columns.Nodup ∧ engine.lookup r.entityName = some e ∧
      (∃ c, engine.context r.rootAlias r.entityName { count := some "true" } = .ok c ∧
        isBlankText c.parts.select.toList = true) ∧
      select = ["post.title", "post.id"] ∧ select.head? = some "post.title" ∧ select.Nodup := by
  intro ds e engine r select
  let c : Script.Context := {
    engine, rootAlias := "post", root := e, parts := {}, skip := 0, top := none, counted := true }
  have hc : engine.context r.rootAlias r.entityName { count := some "true" } = .ok c := rfl
  obtain ⟨hnodup, -, -, -, hselect⟩ := @columns_declareAll Nat "Post" "posts" ds
  obtain ⟨hcolumns, hhead, hdistinct⟩ := hselect engine r _ c rfl hc fun _ => .inl rfl
  refine ⟨by decide +kernel, hnodup, rfl, ⟨c, hc, rfl⟩, hcolumns.trans (by decide +kernel), ?_, hdistinct⟩
  exact hhead.trans (by decide +kernel)

end Entity

end RelQuery
