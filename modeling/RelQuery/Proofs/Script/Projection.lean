import RelQuery.Proofs.Entity.Declared
import RelQuery.Proofs.Script.Stages
import RelQuery.Proofs.Text.Pieces

/-!
# What a request selects

A blank select text and a star select all columns of the root, and any other text its entries. A text of commas and
blanks is no blank text and has no entries, so that nothing is selected; a root that was declared has its key at least.

* `QueryParts.projection_eq` : the projection by the select text, whether it is trimmed or not;
* `QueryParts.projection_eq_nil_iff` : the texts that select nothing;
* `Recorder.select_of_context` : what a request records that reaches its projection.
-/

namespace RelQuery

open Text

namespace QueryParts

variable {q : QueryParts} {root : Entity} {rootAlias : String}

theorem projection_eq (q : QueryParts) (root : Entity) (rootAlias : String) : q.projection root rootAlias =
    if isBlankText q.select.toList = true ∨ trim q.select.toList = ['*'] then root.qualifiedColumns rootAlias
    else (entries q.select.toList).map String.ofList := by
  simp only [projection, entries_trim, isBlankText_iff, List.isEmpty_iff]

/-- A text of commas and blanks, with a comma, is neither blank nor a star. -/
theorem not_default_of_commas (hcomma : ',' ∈ q.select.toList)
    (hall : ∀ x ∈ q.select.toList, x = ',' ∨ isBlank x = true) :
    ¬(isBlankText q.select.toList = true ∨ trim q.select.toList = ['*']) := by
  rintro (hblank | hstar)
  · exact notMem_of_isBlankText hblank (by decide) hcomma
  · obtain ⟨l, r, -, -, hs⟩ := exists_blanks_trim q.select.toList
    have hmem : '*' ∈ q.select.toList := by
      rw [hs, hstar]
      simp
    exact absurd (hall '*' hmem) (by decide)

/-- Nothing is selected exactly by commas and blanks, one comma at least, or as the columns of a root that has none. -/
theorem projection_eq_nil_iff : q.projection root rootAlias = [] ↔
    (',' ∈ q.select.toList ∧ ∀ x ∈ q.select.toList, x = ',' ∨ isBlank x = true) ∨
      (isBlankText q.select.toList = true ∨ trim q.select.toList = ['*']) ∧ root.columns = [] := by
  rw [projection_eq]
  split
  next h =>
    have hcommas : ¬(',' ∈ q.select.toList ∧ ∀ x ∈ q.select.toList, x = ',' ∨ isBlank x = true) :=
      fun ⟨hcomma, hall⟩ => not_default_of_commas hcomma hall h
    simp [hcommas, h, Entity.qualifiedColumns]
  next h =>
    rw [List.map_eq_nil_iff, entries_eq_nil_iff]
    refine ⟨fun hall => .inl ⟨?_, hall⟩, fun hnil => ?_⟩
    · by_contra hcomma
      -- without a comma the text is blank
      refine h (.inl (List.all_eq_true.2 fun x hx => ?_))
      rcases hall x hx with rfl | hblank
      · exact absurd hx hcomma
      · exact hblank
    · rcases hnil with ⟨-, hall⟩ | ⟨hdefault, -⟩
      · exact hall
      · exact absurd hdefault h

end QueryParts

namespace Recorder

variable {ρ : Type}

/-- **What a request selects**, if it reaches its projection: for a blank select text and for a star, all columns of the
root under its alias; for any other text, its items between commas, trimmed and without the blank ones, in order. Nothing
is selected exactly if the text is commas and blanks, one comma at least, or if all columns are asked for of a root that
has none. A declared root has one column at least, so of it nothing is selected by commas and blanks only. -/
theorem select_of_context {engine : Engine} {r : Recorder ρ} {request : Request} {c : Script.Context}
    (hc : engine.context r.rootAlias r.entityName request = .ok c) :
    let text := c.parts.select.toList
    let select := (engine.execute r request).builder.plan.select
    (isBlankText text = true ∨ trim text = ['*'] →
        select = c.root.columns.map (fun column => r.rootAlias ++ "." ++ column)) ∧
      (¬(isBlankText text = true ∨ trim text = ['*']) →
        ∃ items, (∀ item ∈ items, ',' ∉ item) ∧ [','].intercalate items = text ∧
          select = ((items.map trim).filter (!·.isEmpty)).map String.ofList) ∧
      (select = [] ↔ (',' ∈ text ∧ ∀ x ∈ text, x = ',' ∨ isBlank x = true) ∨
        (isBlankText text = true ∨ trim text = ['*']) ∧ c.root.columns = []) ∧
      ∀ name table ds, c.root = Entity.declareAll { name, table } ds →
        (isBlankText text = true ∨ trim text = ['*'] → select ≠ []) ∧
          (select = [] ↔ ',' ∈ text ∧ ∀ x ∈ text, x = ',' ∨ isBlank x = true) := by
  intro text select
  obtain ⟨-, -, -, -, hselect, -⟩ := plan_of_context hc
  rw [(Engine.eq_of_context hc).1] at hselect
  have heq : select = c.parts.projection c.root r.rootAlias := hselect
  have hnil : select = [] ↔ (',' ∈ text ∧ ∀ x ∈ text, x = ',' ∨ isBlank x = true) ∨
      (isBlankText text = true ∨ trim text = ['*']) ∧ c.root.columns = [] := by
    rw [heq]
    exact QueryParts.projection_eq_nil_iff
  refine ⟨fun h => ?_, fun h => ?_, hnil, fun name table ds hroot => ?_⟩
  · rw [heq, QueryParts.projection_eq, if_pos h]
    rfl
  · refine ⟨pieces (· == ',') text, fun _ => notMem_of_mem_pieces, intercalate_pieces ',' text, ?_⟩
    rw [heq, QueryParts.projection_eq, if_neg h]
    rfl
  · have hne : c.root.columns ≠ [] := hroot ▸ (Entity.keyed_declareAll name table ds).columns_ne_nil
    have hcommas : select = [] ↔ ',' ∈ text ∧ ∀ x ∈ text, x = ',' ∨ isBlank x = true := by
      simp only [hnil, hne, and_false, or_false]
    refine ⟨fun hdefault hs => ?_, hcommas⟩
    obtain ⟨hcomma, hall⟩ := hcommas.1 hs
    exact QueryParts.not_default_of_commas hcomma hall hdefault

/-- A list with a blank entry, and a list of blank entries. -/
theorem select_of_context_commas :
    let post : Entity := { name := "Post", table := "post", columns := ["id", "title"] }
    let engine (text : String) : Engine := {
      lookup := fun name => if name = "Post" then some post else none
      parse := fun _ _ => .ok { select := text } }
    let r : Recorder Nat := { rootAlias := "post", entity := some "Post" }
    let c (text : String) : Script.Context := {
      engine := engine text, rootAlias := "post", root := post, parts := { select := text }, skip := 0, top := none,
      counted := false }
    let select (text : String) := ((engine text).execute r { select := some "s" }).builder.plan.select
    post = Entity.declareAll { name := "Post", table := "post" } [.columns ["title"]] ∧
      (engine " , ").context r.rootAlias r.entityName { select := some "s" } = .ok (c " , ") ∧
      select " , " = [] ∧
      (engine "title, ,id").context r.rootAlias r.entityName { select := some "s" } = .ok (c "title, ,id") ∧
      (∃ items, [','].intercalate items = "title, ,id".toList ∧
        select "title, ,id" = ((items.map trim).filter (!·.isEmpty)).map String.ofList) ∧
      select "title, ,id" = ["title", "id"] := by
  intro post engine r c select
  have hc (text : String) : (engine text).context r.rootAlias r.entityName { select := some "s" } = .ok (c text) := rfl
  have hpost : post = Entity.declareAll { name := "Post", table := "post" } [.columns ["title"]] := by decide +kernel
  obtain ⟨-, -, -, hdeclared⟩ := select_of_context (hc " , ")
  obtain ⟨-, hitems, -⟩ := select_of_context (hc "title, ,id")
  obtain ⟨items, -, htext, hselect⟩ := hitems (by decide)
  have hnil := (hdeclared "Post" "post" _ hpost).2.2 (by simp [c, isBlank])
  exact ⟨hpost, hc _, hnil, hc _, ⟨items, htext, hselect⟩, by decide +kernel⟩

/-- A list of blank entries selects neither its entries, of which there are none, nor the columns of the root. -/
theorem not_forall_select_ne_nil :
    ¬∀ (name table : String) (ds : List Entity.Declaration) (engine : Engine) (r : Recorder Nat) (request : Request)
      (c : Script.Context), c.root = Entity.declareAll { name, table } ds →
      engine.context r.rootAlias r.entityName request = .ok c →
        let text := c.parts.select.toList
        let select := (engine.execute r request).builder.plan.select
        select ≠ [] ∧
          ((∀ x ∈ text, x = ',' ∨ isBlank x = true) ∨ trim text = ['*'] →
            select = c.root.columns.map fun column => r.rootAlias ++ "." ++ column) ∧
          (¬((∀ x ∈ text, x = ',' ∨ isBlank x = true) ∨ trim text = ['*']) →
            ∃ items, (∀ item ∈ items, ',' ∉ item) ∧ [','].intercalate items = text ∧
              select = ((items.map trim).filter (!·.isEmpty)).map String.ofList) := by
  intro h
  let post : Entity := { name := "Post", table := "post", columns := ["id", "title"] }
  let engine : Engine := {
    lookup := fun name => if name = "Post" then some post else none
    parse := fun _ _ => .ok { select := "," } }
  let c : Script.Context := {
    engine, rootAlias := "post", root := post, parts := { select := "," }, skip := 0, top := none, counted := false }
  obtain ⟨hne, -⟩ := h "Post" "post" [.columns ["title"]] engine { rootAlias := "post", entity := some "Post" }
    { select := some "," } c (by decide +kernel) rfl
  exact hne (by decide +kernel)

end Recorder

end RelQuery
