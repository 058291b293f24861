import RelQuery.Proofs.Request.Paging
import RelQuery.Proofs.Script.Stages

/-!
# The pages of a query

A request with a page's size and the rows in front of it is answered with that window of the rows, if nothing else is
asked of the query but a projection and a condition. The windows of one size, one behind the other, part the rows.

* `flatMap_windows` : windows of one size, one behind the other;
* `Recorder.outcome_of_parsesPlainly` : the answer to one page;
* `Recorder.execute_pages` : the answers to all pages.
-/

namespace RelQuery

/-! ## Windows of one size -/

section

variable {α : Type} {p n k : Nat}

/-- At most `p` members behind the first `k * p`. -/
def window (rows : List α) (p k : Nat) : List α :=
  (rows.drop (k * p)).take p

/-- How many windows of size `p` it takes for `n` members. -/
def windowCount (p n : Nat) : Nat :=
  (n + p - 1) / p

theorem lt_windowCount_iff (hp : 0 < p) : k < windowCount p n ↔ k * p < n := by
  rw [windowCount, Nat.lt_iff_add_one_le, Nat.le_div_iff_mul_le hp, Nat.add_mul]
  omega

/-- **Windows of one size**, one behind the other, are the members up to the end of the last one. -/
theorem flatMap_windows (rows : List α) (p m : Nat) : (List.range m).flatMap (window rows p) = rows.take (m * p) := by
  induction m with
  | zero => simp
  | succ m ih => rw [List.range_succ, List.flatMap_append, ih, List.flatMap_singleton, window, Nat.add_mul, Nat.one_mul,
      List.take_add]

theorem flatMap_windowCount (hp : 0 < p) (rows : List α) :
    (List.range (windowCount p rows.length)).flatMap (window rows p) = rows := by
  have hlen : rows.length ≤ windowCount p rows.length * p :=
    Nat.le_of_not_lt fun h => Nat.lt_irrefl _ ((lt_windowCount_iff hp).2 h)
  rw [flatMap_windows, List.take_of_length_le hlen]

/-- A window is full if another one follows. -/
theorem length_window (hp : 0 < p) {rows : List α} (hk : k ∈ (List.range (windowCount p rows.length)).dropLast) :
    (window rows p k).length = p := by
  have hnext : k + 1 < windowCount p rows.length := by
    cases hm : windowCount p rows.length with
    | zero => simp [hm] at hk
    | succ m =>
      rw [hm, List.range_succ, List.dropLast_concat] at hk
      exact Nat.succ_lt_succ (List.mem_range.1 hk)
  have hlt : k * p + p < rows.length := by
    rw [← Nat.succ_mul]
    exact (lt_windowCount_iff hp).1 hnext
  rw [window, List.length_take, List.length_drop]
  omega

end

/-! ## One page -/

/-- The parser reads the request as a query without includes, lambda filter and order. -/
def Engine.ParsesPlainly (engine : Engine) (rootAlias : String) (request : Request) : Prop :=
  ∃ parts, engine.parse request.queryString rootAlias = .ok parts ∧ parts.includes = [] ∧ parts.filter = none ∧
    Order.ofText engine.dialect.noOrder parts.order = .ok []

namespace Recorder

variable {ρ : Type} {engine : Engine} {r : Recorder ρ} {request : Request} {offset limit : Nat}

/-- The page that holds the rows, with the total number of matches if it is asked for. -/
def pageOf (r : Recorder ρ) (counted : Bool) (items : List ρ) : Page ρ :=
  if counted then .counted items (r.total.getD r.rows.length) else .rows items

@[simp] theorem items_pageOf (r : Recorder ρ) (counted : Bool) (items : List ρ) :
    (r.pageOf counted items).items = items := by
  cases counted <;> rfl

theorem count?_pageOf (r : Recorder ρ) (counted : Bool) (items : List ρ) :
    (r.pageOf counted items).count? = if counted then some (r.total.getD r.rows.length) else none := by
  cases counted <;> rfl

/-- A builder that does not fail answers with the rows that its plan leaves. -/
theorem answer_of_failure_eq_none (hf : r.failure = none) (plan : Plan) (counted : Bool) :
    ({ r with plan } : Recorder ρ).answer counted = .ok (r.pageOf counted ({ r with plan } : Recorder ρ).pageRows) := by
  rw [answer, hf, pageOf]
  cases counted <;> rfl

/-- **The answer to one page** is the part of the rows behind the offset, up to the limit. -/
theorem outcome_of_parsesPlainly (hf : r.failure = none) (hroot : (engine.lookup r.entityName).isSome = true)
    (hplain : engine.ParsesPlainly r.rootAlias request) (hskip : request.skipValue = .ok offset)
    (htop : request.topValue? = .ok (some limit)) : (engine.execute r request).outcome =
      .ok (r.pageOf request.wantsCount ((r.rows.drop offset).take limit)) := by
  obtain ⟨root, hroot⟩ := Option.isSome_iff_exists.1 hroot
  obtain ⟨parts, hparse, hincludes, hfilter, horder⟩ := hplain
  let c : Script.Context := {
    engine, rootAlias := r.rootAlias, root, parts, skip := offset, top := some limit, counted := request.wantsCount }
  have hpresent : request.present ≠ [] := by
    cases ht : request.top with
    | none => simp [Request.topValue?, ht] at htop
    | some text =>
      have hm : (RequestKey.top, text) ∈ request.present := Request.mem_present.2 ht
      exact List.ne_nil_of_mem hm
  have hc : engine.context r.rootAlias r.entityName request = .ok c := by
    simp only [Engine.context, hroot, hskip, htop, Engine.parts, if_neg hpresent, hparse]
    rfl
  have hl : c.lambdaPart = .ok ([], parts.bindings) := by
    rw [Script.Context.lambdaPart, hfilter]
    rfl
  have hj : c.joinPart parts.bindings = .ok parts.bindings := by
    rw [Script.Context.joinPart, Script.Context.includePlan, hincludes]
    rfl
  rw [(execute_of_order_ok hc hl hj horder).1, answer_of_failure_eq_none hf]
  rfl

/-! ## All pages -/

/-- **The pages of a query part its rows.** One page of `p` rows after the other, as long as rows are left, holds all
rows in order; each of them but the last one is full; a page behind the rows is empty; and every page tells the same
total, if it is asked for one. -/
theorem execute_pages {p : Nat} (hf : r.failure = none) (hroot : (engine.lookup r.entityName).isSome = true)
    (hplain : ∀ offset < Text.wordCount, ∀ limit < Text.wordCount,
      engine.ParsesPlainly r.rootAlias ((request.withSkip offset).withTop limit))
    (hp : 0 < p) (hsize : p < Text.wordCount) (hfits : ∀ k, k * p < r.rows.length → k * p < Text.wordCount) :
    (∀ k, k < windowCount p r.rows.length ↔ k * p < r.rows.length) ∧
    (∃ pages : List (Page ρ),
      (List.range (windowCount p r.rows.length)).map (fun k =>
        (engine.execute r ((request.withSkip (k * p)).withTop p)).outcome) = pages.map .ok ∧
      pages.flatMap Page.items = r.rows ∧
      ∀ page ∈ pages.dropLast, page.size = p) ∧
    ∀ offset < Text.wordCount, ∀ limit < Text.wordCount, ∃ page : Page ρ,
      (engine.execute r ((request.withSkip offset).withTop limit)).outcome = .ok page ∧
      (r.rows.length ≤ offset → page.items = []) ∧
      page.count? = if request.wantsCount then some (r.total.getD r.rows.length) else none := by
  have hpage : ∀ offset < Text.wordCount, ∀ limit < Text.wordCount,
      (engine.execute r ((request.withSkip offset).withTop limit)).outcome =
        .ok (r.pageOf request.wantsCount ((r.rows.drop offset).take limit)) :=
    fun offset ho limit hl => outcome_of_parsesPlainly hf hroot (hplain offset ho limit hl)
      (request.skipValue_withSkip ho) ((request.withSkip offset).topValue?_withTop hl)
  refine ⟨fun k => lt_windowCount_iff hp, ?_, ?_⟩
  · refine ⟨(List.range (windowCount p r.rows.length)).map fun k => r.pageOf request.wantsCount (window r.rows p k),
      ?_, ?_, ?_⟩
    · rw [List.map_map]
      refine List.map_congr_left fun k hk => hpage _ (hfits k ?_) p hsize
      exact (lt_windowCount_iff hp).1 (List.mem_range.1 hk)
    · simp only [List.flatMap_map, items_pageOf]
      exact flatMap_windowCount hp r.rows
    · rw [← List.map_dropLast]
      refine List.forall_mem_map.2 fun k hk => ?_
      rw [Page.size, items_pageOf, length_window hp hk]
  · intro offset ho limit hl
    refine ⟨_, hpage offset ho limit hl, ?_, count?_pageOf ..⟩
    intro hpast
    rw [items_pageOf, List.drop_of_length_le hpast, List.take_nil]

/-- Five rows on pages of two, and a total that is not the number of rows. -/
theorem execute_pages_five :
    let post : Entity := { name := "Post", table := "posts", columns := ["id", "title"], relations := [] }
    let engine : Engine := {
      lookup := fun name => if name = "post" then some post else none
      parse := fun _ _ => .ok { condition := "post.title = :p", bindings := ⟨[("p", "x")], by decide⟩ } }
    let r : Recorder Nat := { rootAlias := "post", rows := [1, 2, 3, 4, 5], total := some 7 }
    let request : Request := { filter := some "title eq 'x'", count := some "true" }
    (∃ pages : List (Page Nat),
      [0, 1, 2].map (fun k => (engine.execute r ((request.withSkip (k * 2)).withTop 2)).outcome) =
        pages.map .ok ∧
      pages.flatMap Page.items = [1, 2, 3, 4, 5] ∧ ∀ page ∈ pages.dropLast, page.size = 2) ∧
    ∃ page : Page Nat, (engine.execute r ((request.withSkip 6).withTop 3)).outcome = .ok page ∧
      page.items = [] ∧ page.count? = some 7 := by
  intro post engine r request
  have hword : 6 < Text.wordCount := by decide
  obtain ⟨-, hpages, hpage⟩ := @execute_pages Nat engine r request 2 rfl rfl
    (fun _ _ _ _ => ⟨_, rfl, rfl, rfl, by decide⟩) (by decide) (by decide) (fun k (hk : k * 2 < 5) => by omega)
  have hrange : List.range (windowCount 2 r.rows.length) = [0, 1, 2] := by decide
  rw [hrange] at hpages
  obtain ⟨page, houtcome, hpast, hcount⟩ := hpage 6 hword 3 (by decide)
  exact ⟨hpages, page, houtcome, hpast (by decide), hcount⟩

end Recorder

end RelQuery
