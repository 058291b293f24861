import RelQuery.Proofs.Condition.Dangling
import RelQuery.Proofs.Filter.Lambda

/-!
# A connective at the end of a lambda filter

The body of a lambda filter is trimmed before it compiles, so that a connective at its end has no space behind it,
however the filter is written: it belongs to the last span of the body.

* `LambdaFilter.compile_and_ofText_append_keyword` : what becomes of a connective at the end, in an expression that
  compiles alone and in one that is the body of a lambda filter.
-/

namespace RelQuery

open Text Outline

/-! ## Expressions without the blanks in front -/

/-- An operand begins with no blank. -/
theorem Operand.exists_text_eq (operand : Operand) : ∃ c s, isBlank c = false ∧ operand.text = c :: s := by
  cases operand with
  | test leaf =>
    obtain ⟨c, s, hs⟩ := List.exists_cons_of_ne_nil leaf.text_ne_nil
    exact ⟨c, s, leaf.tight.1 c (by simp [hs]), hs⟩
  | group inside => exact ⟨'(', inside.text ++ [')'], rfl, rfl⟩

namespace Expression

/-- The blanks in front. -/
def firstBlanks : Expression → Blanks
  | .last left .. | .link left .. => left

/-- The expression without the blanks in front. -/
def flush : Expression → Expression
  | .last _ operand right => .last ⟨[], rfl⟩ operand right
  | .link _ operand right k rest => .link ⟨[], rfl⟩ operand right k rest

theorem text_eq_flush (e : Expression) : e.text = e.firstBlanks.1 ++ e.flush.text := by
  cases e <;> simp [text, firstBlanks, flush]

theorem swallowed_flush (d : Dialect) (k : Connective) (e : Expression) : e.flush.swallowed d k = e.swallowed d k := by
  cases e <;> rfl

theorem exists_flush_text_eq (e : Expression) : ∃ c s, isBlank c = false ∧ e.flush.text = c :: s := by
  cases e with
  | last _ operand _ | link _ operand _ _ _ =>
    obtain ⟨c, s, hc, hs⟩ := operand.exists_text_eq
    exact ⟨c, _, hc, by simp [flush, text, hs]; rfl⟩

/-- What is left of an expression and a word when the blanks around them are dropped. -/
theorem trim_append_keyword (k : Connective) (e : Expression) :
    trim (' ' :: (e.text ++ ' ' :: (k.keyword.toList ++ [' ']))) = e.flush.text ++ ' ' :: k.keyword.toList := by
  obtain ⟨c, s, hc, hs⟩ := e.exists_flush_text_eq
  have htight : Tight ((e.flush.text ++ [' ']) ++ k.keyword.toList) :=
    (solid_keyword k).tight.append_left (keyword_ne_nil k) (by simpa [hs] using hc)
  have hleft : isBlankText (' ' :: e.firstBlanks.1) = true := e.firstBlanks.2
  have h := trim_of_tight hleft (r := [' ']) rfl htight
  simpa [e.text_eq_flush] using h

end Expression

/-! ## Lambda filters -/

namespace LambdaFilter

open LambdaText

/-- **A connective at the end of a body** belongs to the body's last span. -/
theorem ofText_append_keyword (d : Dialect) (target : String) (root : Entity) (e : Expression) (k : Connective)
    {p v : String} {relation : Relation} (hp : root.relation? p = some relation) (hne : p ≠ "")
    (htrim : trim p.toList = p.toList) (hparen : p.toList.head? ≠ some '(') (hmarker : ¬"/any(".toList <:+: p.toList)
    (hv : ∀ c ∈ v.toList, isQuote c = false ∧ c ≠ ':' ∧ c ≠ '(' ∧ c ≠ ')') :
    ofText d target root (p ++ "/any(" ++ v ++ ": " ++ String.ofList e.text ++ " " ++ k.keyword ++ " )") =
      (e.swallowed d k).map fun (condition, bindings) => { target, root, relation, condition, bindings } := by
  let body := ' ' :: (e.text ++ ' ' :: (k.keyword.toList ++ [' ']))
  have hbody : trim body = e.flush.text ++ ' ' :: k.keyword.toList := e.trim_append_keyword k
  have hcompile : Condition.compile d (String.ofList (trim body)) = e.swallowed d k := by
    rw [← e.swallowed_flush]
    exact Condition.compile_append_keyword d e.flush k (w := []) rfl (by simp) (by simp [hbody])
  have hbalanced : Balanced (atoms (v.toList ++ ':' :: body)) := by
    have hword : Balanced (atoms body) := by
      apply balanced_of_trim
      have hq : ∀ c ∈ ' ' :: k.keyword.toList, isQuote c = false := by
        simpa [isQuote] using (solid_keyword k).isQuote_eq_false
      rw [hbody, e.flush.reads.atoms_append fun c hc => hq c (List.mem_of_mem_head? hc), atoms_plain hq]
      exact e.flush.reads.balanced.append (Balanced.char (by decide) (by decide) (solid_keyword k).balanced)
    rw [balanced_atoms_append_cons_iff rfl (by decide) (by decide) hword, atoms_plain fun c hc => (hv c hc).1]
    exact balanced_plain (fun hm => (hv _ hm).2.2.1 rfl) fun hm => (hv _ hm).2.2.2 rfl
  have hproperty : propertyOf p.toList = p.toList :=
    propertyOf_replicate (htrim ▸ tight_trim p.toList) (by simpa using hne) hparen 0
  have hraw : p ++ "/any(" ++ v ++ ": " ++ String.ofList e.text ++ " " ++ k.keyword ++ " )" =
      String.ofList (callText p.toList (v.toList ++ ':' :: body) []) := by
    rw [← String.toList_inj, callText]
    simp [Filter.marker, body]
  have hcolon : cut? [':'] (v.toList ++ ':' :: body) = some (v.toList, body) :=
    cut?_singleton_iff.2 ⟨rfl, fun hm => (hv _ hm).2.1 rfl⟩
  rw [hraw, ofText, ofText_callText hmarker hbalanced [], hproperty, if_neg (by simpa using hne), hcolon,
    String.ofList_toList]
  simp only [Entity.requireRelation, hp, hcompile]
  cases e.swallowed d k <;> rfl

/-- **What becomes of a connective at the end.** An expression with a connective behind it is refused for the missing
operand only if a space follows the connective. Else, and so always at the end of the body of a lambda filter, the word
belongs to the last span: behind an equality it is bound as a part of the literal, behind a containment and behind a
group the span is no test. -/
theorem compile_and_ofText_append_keyword (d : Dialect) (e : Expression) (k : Connective) :
    (∀ w : Blanks, let source := String.ofList e.text ++ " " ++ k.keyword ++ String.ofList w.1
      Condition.compile d source =
        if w.1.head? = some ' ' then .error (.malformedExpression source (.violation .noRightOperand))
        else e.swallowed d k) ∧
      ∀ (target : String) (root : Entity) {p v : String} {relation : Relation}, root.relation? p = some relation →
        p ≠ "" → trim p.toList = p.toList → p.toList.head? ≠ some '(' → ¬"/any(".toList <:+: p.toList →
        (∀ c ∈ v.toList, isQuote c = false ∧ c ≠ ':' ∧ c ≠ '(' ∧ c ≠ ')') →
        ofText d target root (p ++ "/any(" ++ v ++ ": " ++ String.ofList e.text ++ " " ++ k.keyword ++ " )") =
          (e.swallowed d k).map fun (condition, bindings) => { target, root, relation, condition, bindings } := by
  refine ⟨fun w => ?_, fun target root p v relation hp hne htrim hparen hmarker hv =>
    ofText_append_keyword d target root e k hp hne htrim hparen hmarker hv⟩
  intro source
  split
  next hh =>
    obtain ⟨w', hw'⟩ := List.head?_eq_some_iff.1 hh
    have hb := w.2
    rw [hw', isBlankText, List.all_cons] at hb
    exact Condition.compile_append_linkWord d e k (Bool.and_eq_true_iff.1 hb).2 (by simp [source, linkWord_eq, hw'])
  next hh => exact Condition.compile_append_keyword d e k w.2 hh (by simp [source])

/-- The connective becomes a part of a name. -/
theorem compile_and_ofText_append_keyword_tags :
    let tags : Relation := ⟨"tags", "Post", "Tag", "tag", "post_id", "id"⟩
    let post : Entity := { name := "Post", table := "post", relations := [tags] }
    let t : Condition := [.test "name" .equals "param_0"]
    let b : Bindings := ⟨[("param_0", "'red' and")], by decide⟩
    Condition.compile {} "t/name eq 'red' and" = .ok (t, b) ∧
      ofText {} "Post" post "tags/any(t: t/name eq 'red' and )" =
        .ok { target := "Post", root := post, relation := tags, condition := t, bindings := b } := by
  intro tags post t b
  let path : Path :=
    ⟨⟨['t'], by decide, List.all_eq_true.1 (by decide)⟩, [], ⟨"name".toList, by decide, List.all_eq_true.1 (by decide)⟩⟩
  let e : Expression := .last ⟨[], rfl⟩ (.test (.equals path (.quoted '\'' rfl "red".toList))) ⟨[], rfl⟩
  have htext : String.ofList e.text = "t/name eq 'red'" := by decide +kernel
  have hswallowed : e.swallowed {} .and = .ok (t, b) := by decide +kernel
  obtain ⟨hcompile, hlambda⟩ := compile_and_ofText_append_keyword {} e .and
  have hplain := hcompile ⟨[], rfl⟩
  have hrelation : post.relation? "tags" = some tags := rfl
  have hbody := hlambda "Post" post (v := "t") hrelation (by decide) (by decide) (by decide) (by decide)
    (by simp [isQuote])
  rw [hswallowed, htext] at hplain hbody
  exact ⟨hplain, hbody⟩

/-- A connective at the end need not be refused as such, neither in an expression nor in the body of a filter. -/
theorem not_forall_malformedExpression :
    (¬∀ (d : Dialect) (e : Expression) (k : Connective) (w : Blanks), ∃ expression fault,
      Condition.compile d (String.ofList e.text ++ " " ++ k.keyword ++ String.ofList w.1) =
        .error (.malformedExpression expression fault)) ∧
      ¬∀ (d : Dialect) (target : String) (root : Entity) (e : Expression) (k : Connective) (p v : String)
        (relation : Relation), root.relation? p = some relation → (∀ c ∈ v.toList, c.isAlphanum = true) →
          ∃ expression fault,
            ofText d target root (p ++ "/any(" ++ v ++ ": " ++ String.ofList e.text ++ " " ++ k.keyword ++ " )") =
              .error (.malformedExpression expression fault) := by
  let tags : Relation := ⟨"tags", "Post", "Tag", "tag", "post_id", "id"⟩
  let post : Entity := { name := "Post", table := "post", relations := [tags] }
  let path : Path :=
    ⟨⟨['t'], by decide, List.all_eq_true.1 (by decide)⟩, [], ⟨"name".toList, by decide, List.all_eq_true.1 (by decide)⟩⟩
  let e : Expression := .last ⟨[], rfl⟩ (.test (.equals path (.quoted '\'' rfl "red".toList))) ⟨[], rfl⟩
  constructor
  · intro h
    obtain ⟨expression, fault, he⟩ := h {} e .and ⟨[], rfl⟩
    have hok : (Condition.compile {} (String.ofList e.text ++ " " ++ Connective.and.keyword ++ String.ofList [])).isOk =
        true := by decide +kernel
    rw [he] at hok
    cases hok
  · intro h
    obtain ⟨expression, fault, he⟩ := h {} "Post" post e .and "tags" "t" tags rfl (by simp [Char.isAlphanum])
    have hok : (ofText {} "Post" post ("tags" ++ "/any(" ++ "t" ++ ": " ++ String.ofList e.text ++ " " ++
        Connective.and.keyword ++ " )")).isOk = true := by decide +kernel
    rw [he] at hok
    cases hok

end LambdaFilter

end RelQuery
