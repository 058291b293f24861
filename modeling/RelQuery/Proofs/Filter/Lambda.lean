import RelQuery.Filter.Lambda
import RelQuery.Proofs.Condition.Trimming
import Mathlib.Data.List.Infix

/-!
# What a lambda filter is read from

The text of a lambda filter is a call: a front that names the property, the marker, the inside of its parenthesis and
the rest behind. The end of the inside, the colon in it and the body are found by three searches of their own; they
agree since a body that compiles is balanced, and so what stands in front of the colon is balanced as well.

* `LambdaText.ofText_callText` : a call is taken apart at its property and at the first colon inside it;
* `LambdaFilter.ofText_callText_eq_ok_iff` : a call is resolved exactly by its property and its body;
* `LambdaFilter.ofText_enclosed` : every body that compiles is resolved to what it compiles to;
* `LambdaFilter.ofText_eq_ok_iff_property`, `LambdaFilter.ofText_eq_ok_iff_balanced` : what else of a text counts, of
  what stands around the call and of what stands in front of the colon.
-/

namespace RelQuery

open Text

theorem Filter.toList_marker : Filter.marker.toList = '/' :: "any(".toList := rfl

/-- The marker cannot overlap itself. -/
theorem Filter.cut?_marker_iff {s front opened : List Char} : cut? Filter.marker.toList s = some (front, opened) ↔
    s = front ++ Filter.marker.toList ++ opened ∧ ¬Filter.marker.toList <:+: front := by
  rw [Filter.toList_marker]
  exact cut?_eq_some_iff (by decide)

namespace LambdaText

/-! ## Calls -/

/-- A call: what stands in front of the marker, inside the parenthesis and behind it. -/
def callText (front inside rest : List Char) : List Char :=
  front ++ Filter.marker.toList ++ (inside ++ ')' :: rest)

/-- The marker of a call is where its front ends, if the front does not hold the marker. -/
theorem cut?_callText {front : List Char} (hf : ¬Filter.marker.toList <:+: front) (inside rest : List Char) :
    cut? Filter.marker.toList (callText front inside rest) = some (front, inside ++ ')' :: rest) :=
  Filter.cut?_marker_iff.2 ⟨rfl, hf⟩

/-- A call has one front, one inside and one rest. -/
theorem callText_inj {front front' inside inside' rest rest' : List Char} (hf : ¬Filter.marker.toList <:+: front)
    (hf' : ¬Filter.marker.toList <:+: front') (hi : Balanced (atoms inside)) (hi' : Balanced (atoms inside'))
    (h : callText front inside rest = callText front' inside' rest') :
    front = front' ∧ inside = inside' ∧ rest = rest' := by
  have hcut := cut?_callText hf inside rest
  rw [h, cut?_callText hf'] at hcut
  obtain ⟨rfl, hopened⟩ := Prod.mk.inj (Option.some.inj hcut)
  have hinside := insideParen?_eq_some_iff.2 ⟨hopened, hi⟩
  rw [insideParen?_eq_some_iff.2 ⟨rfl, hi'⟩] at hinside
  obtain ⟨rfl, rfl⟩ := Prod.mk.inj (Option.some.inj hinside)
  exact ⟨rfl, rfl, rfl⟩

/-- **A call is taken apart** at its property and at the first colon inside it. -/
theorem ofText_callText {front inside : List Char} (hf : ¬Filter.marker.toList <:+: front)
    (hi : Balanced (atoms inside)) (rest : List Char) :
    let raw := String.ofList (callText front inside rest)
    ofText raw =
      if propertyOf front = [] then .error (.malformedExpression raw .missingProperty)
      else
        match cut? [':'] inside with
        | none => .error (.malformedExpression raw .missingVariable)
        | some (_, body) => .ok ⟨String.ofList (propertyOf front), String.ofList (trim body)⟩ := by
  intro raw
  have hin : insideParen? (inside ++ ')' :: rest) = some (inside, rest) := insideParen?_eq_some_iff.2 ⟨rfl, hi⟩
  cases hcolon : cut? [':'] inside with
  | none => simp [ofText, raw, cut?_callText hf, hin, hcolon]
  | some cut => simp [ofText, raw, cut?_callText hf, hin, hcolon]

/-- What is taken apart is a call. -/
theorem exists_callText_of_ofText {raw : String} {text : LambdaText} (h : ofText raw = .ok text) :
    ∃ front inside rest, raw.toList = callText front inside rest ∧ ¬Filter.marker.toList <:+: front ∧
      Balanced (atoms inside) := by
  cases hcut : cut? Filter.marker.toList raw.toList with
  | none =>
    rw [ofText, hcut] at h
    cases h
  | some cut =>
    obtain ⟨front, opened⟩ := cut
    obtain ⟨he, hf⟩ := Filter.cut?_marker_iff.1 hcut
    cases hin : insideParen? opened with
    | none =>
      -- whatever the property is
      simp only [ofText, hcut, hin] at h
      split at h <;> cases h
    | some cut =>
      obtain ⟨inside, rest⟩ := cut
      obtain ⟨rfl, hi⟩ := insideParen?_eq_some_iff.1 hin
      exact ⟨front, inside, rest, he, hf, hi⟩

/-! ## The property in front of a call -/

/-- The property is what stands behind any parentheses that open in front of it. -/
theorem propertyOf_replicate {p : List Char} (ht : Tight p) (hn : p ≠ []) (hp : p.head? ≠ some '(') (k : Nat) :
    propertyOf (List.replicate k '(' ++ p) = p := by
  have htight : Tight (List.replicate k '(' ++ p) := by
    apply ht.append_left hn
    intro c hc
    obtain rfl := List.eq_of_mem_replicate (List.mem_of_mem_head? hc)
    rfl
  have hdrop : (List.replicate k '(' ++ p).dropWhile (· == '(') = p := by
    rw [List.dropWhile_append_of_pos fun c hc => by simp [List.eq_of_mem_replicate hc]]
    cases p with
    | nil => rfl
    | cons c p =>
      have hc : c ≠ '(' := by simpa using hp
      simp [hc]
  rw [propertyOf, trim_eq_self htight, hdrop, trim_eq_self ht]

/-- Parentheses in front of a text put no marker there. -/
theorem not_infix_replicate {p : List Char} (hp : ¬Filter.marker.toList <:+: p) : ∀ k : Nat,
    ¬Filter.marker.toList <:+: List.replicate k '(' ++ p
  | 0 => by simpa using hp
  | k + 1 => by
    rw [List.replicate_succ, List.cons_append, List.infix_cons_iff]
    rintro (h | h)
    · -- the marker begins with a slash
      rw [Filter.toList_marker, List.cons_prefix_cons] at h
      exact absurd h.1 (by decide)
    · exact not_infix_replicate hp k h

end LambdaText

namespace LambdaFilter

open LambdaText

deriving instance DecidableEq for LambdaFilter

variable {d : Dialect} {target : String} {root : Entity} {l : LambdaFilter} {front inside : List Char}

/-! ## Resolving a call -/

/-- The filter that a property and a body are resolved to. -/
structure Resolves (d : Dialect) (target : String) (root : Entity) (property body : List Char) (l : LambdaFilter) :
    Prop where
  onTarget : l.target = target
  onRoot : l.root = root
  named : property ≠ []
  related : root.relation? (String.ofList property) = some l.relation
  compiled : Condition.compile d (String.ofList (trim body)) = .ok (l.condition, l.bindings)

theorem Resolves.property {property body : List Char} (h : Resolves d target root property body l) :
    l.relation.property = String.ofList property := by
  simpa using List.find?_some h.related

/-- **A call is resolved** exactly by its property and by what stands behind the first colon inside it. -/
theorem ofText_callText_eq_ok_iff (hf : ¬Filter.marker.toList <:+: front) (hi : Balanced (atoms inside))
    (rest : List Char) : ofText d target root (String.ofList (callText front inside rest)) = .ok l ↔
      ∃ v body, inside = v ++ ':' :: body ∧ ':' ∉ v ∧ Resolves d target root (propertyOf front) body l := by
  rw [ofText, ofText_callText hf hi rest]
  constructor
  · intro h
    by_cases hp : propertyOf front = []
    · rw [if_pos hp] at h
      cases h
    · rw [if_neg hp] at h
      cases hcut : cut? [':'] inside with
      | none =>
        rw [hcut] at h
        cases h
      | some cut =>
        obtain ⟨v, body⟩ := cut
        obtain ⟨he, hv⟩ := cut?_singleton_iff.1 hcut
        rw [hcut] at h
        dsimp only at h
        cases hr : root.relation? (String.ofList (propertyOf front)) with
        | none =>
          simp only [Entity.requireRelation, hr] at h
          cases h
        | some relation =>
          simp only [Entity.requireRelation, hr] at h
          cases hc : Condition.compile d (String.ofList (trim body)) with
          | error e =>
            rw [hc] at h
            cases h
          | ok result =>
            rw [hc] at h
            obtain rfl := Except.ok.inj h
            exact ⟨v, body, he, hv, rfl, rfl, hp, hr, hc⟩
  · rintro ⟨v, body, he, hv, h⟩
    rw [if_neg h.named, cut?_singleton_iff.2 ⟨he, hv⟩]
    simp only [Entity.requireRelation, h.related, h.compiled]
    rw [← h.onTarget, ← h.onRoot]

/-- What is resolved is a call. -/
theorem exists_callText_of_ofText {raw : String} (h : ofText d target root raw = .ok l) :
    ∃ front inside rest, raw = String.ofList (callText front inside rest) ∧ ¬Filter.marker.toList <:+: front ∧
      Balanced (atoms inside) := by
  cases ht : LambdaText.ofText raw with
  | error e =>
    rw [ofText, ht] at h
    cases h
  | ok text =>
    obtain ⟨front, inside, rest, he, hf, hi⟩ := LambdaText.exists_callText_of_ofText ht
    exact ⟨front, inside, rest, by rw [← he, String.ofList_toList], hf, hi⟩

/-- What stands in front of the colon of a call is as balanced as the inside, since the body is. -/
theorem balanced_variable_iff {v body : List Char} (h : Resolves d target root (propertyOf front) body l) :
    Balanced (atoms (v ++ ':' :: body)) ↔ Balanced (atoms v) :=
  balanced_atoms_append_cons_iff rfl (by decide) (by decide) (Condition.balanced_of_compile_trim h.compiled)

/-! ## Bodies that compile -/

/-- **Every body that compiles is resolved** to what it compiles to, behind any property of the root and any bound
variable, with any number of parentheses around the call: the condition is that of the body on the child's alias, and
the fragment selects the keys of those rows that are joined to a row of which it holds. -/
theorem ofText_enclosed (d : Dialect) (target : String) (root : Entity) {p v e : String} {t : Condition} {b : Bindings}
    (hp : p ∈ root.relations.map Relation.property) (hne : p ≠ "") (htrim : trim p.toList = p.toList)
    (hparen : p.toList.head? ≠ some '(') (hmarker : ¬"/any(".toList <:+: p.toList)
    (hv : ∀ c ∈ v.toList, isQuote c = false ∧ c ≠ ':' ∧ c ≠ '(' ∧ c ≠ ')')
    (he : Condition.compile d e = .ok (t, b)) (k : Nat) :
    ∃ relation, root.relations.find? (fun r => r.property == p) = some relation ∧ ∃ l : LambdaFilter,
      ofText d target root (String.ofList (List.replicate k '(') ++ p ++ "/any(" ++ v ++ ":" ++ e ++ ")" ++
        String.ofList (List.replicate k ')')) = .ok l ∧
      l.target = target ∧ l.root = root ∧ l.relation = relation ∧ l.relation.property = p ∧ l.condition = t ∧
      l.bindings = b ∧ l.conditionSql d = t.sql d.quoting d.childAlias ∧
      l.fragment d =
        d.quoting.qualify target root.key ++ " IN (SELECT DISTINCT " ++ d.quoting.qualify d.parentAlias root.key ++
          " FROM " ++ d.quoting.quote root.table ++ " AS " ++ d.quoting.quote d.parentAlias ++
          " JOIN " ++ d.quoting.quote relation.table ++ " AS " ++ d.quoting.quote d.childAlias ++
          " ON " ++ d.quoting.qualify d.parentAlias root.key ++ " = " ++
          d.quoting.qualify d.childAlias relation.foreignKey ++
          " WHERE " ++ t.sql d.quoting d.childAlias ++ ")" := by
  obtain ⟨relation, hrelation⟩ : ∃ relation, root.relations.find? (fun r => r.property == p) = some relation := by
    rw [← Option.isSome_iff_exists, List.find?_isSome]
    obtain ⟨r, hr, rfl⟩ := List.mem_map.1 hp
    exact ⟨r, hr, by simp⟩
  let l : LambdaFilter := { target, root, relation, condition := t, bindings := b }
  have hproperty : propertyOf (List.replicate k '(' ++ p.toList) = p.toList :=
    propertyOf_replicate (htrim ▸ tight_trim p.toList) (by simpa using hne) hparen k
  have hresolves : Resolves d target root (propertyOf (List.replicate k '(' ++ p.toList)) e.toList l := by
    rw [hproperty]
    refine ⟨rfl, rfl, by simpa using hne, ?_, Condition.compile_trim he⟩
    rw [String.ofList_toList]
    exact hrelation
  have hinside : Balanced (atoms (v.toList ++ ':' :: e.toList)) := by
    rw [balanced_variable_iff hresolves, atoms_plain fun c hc => (hv c hc).1]
    exact balanced_plain (fun hm => (hv _ hm).2.2.1 rfl) fun hm => (hv _ hm).2.2.2 rfl
  have hraw : String.ofList (List.replicate k '(') ++ p ++ "/any(" ++ v ++ ":" ++ e ++ ")" ++
      String.ofList (List.replicate k ')') =
        String.ofList (callText (List.replicate k '(' ++ p.toList) (v.toList ++ ':' :: e.toList)
          (List.replicate k ')')) := by
    rw [← String.toList_inj, callText]
    simp [Filter.marker]
  refine ⟨relation, hrelation, l, ?_, rfl, rfl, rfl, by rw [hresolves.property, hproperty, String.ofList_toList], rfl,
    rfl, rfl, ?_⟩
  · rw [hraw, ofText_callText_eq_ok_iff (not_infix_replicate hmarker k) hinside]
    exact ⟨v.toList, e.toList, rfl, fun hm => (hv _ hm).2.1 rfl, hresolves⟩
  · simp only [l, fragment, conditionSql, String.append_assoc]
    rfl

/-- A literal may hold the marker, a colon and parentheses, and blanks may stand around the body. -/
theorem ofText_enclosed_tags :
    let tags : Relation := ⟨"tags", "Post", "Tag", "tag", "post_id", "id"⟩
    let post : Entity := { name := "Post", table := "posts", relations := [tags] }
    let body := " (t/name eq '/any(x:') or contains(t/name,':)') "
    let t : Condition :=
      [.group [.test "name" .equals "param_0"], .link .or, .test "name" .contains "param_1"]
    let b : Bindings := ⟨[("param_0", "/any(x:"), ("param_1", "%:)%")], by decide⟩
    Condition.compile {} body = .ok (t, b) ∧ ∃ l : LambdaFilter,
      ofText {} "Post" post ("((tags/any(t:" ++ body ++ ")))") = .ok l ∧ l.relation = tags ∧ l.condition = t ∧
      l.bindings = b ∧ l.fragment {} = "Post.id IN (SELECT DISTINCT parent.id FROM posts AS parent " ++
        "JOIN tag AS child ON parent.id = child.post_id " ++
        "WHERE (child.name = :param_0) or child.name LIKE :param_1)" := by
  intro tags post body t b
  have hc : Condition.compile {} body = .ok (t, b) := by decide +kernel
  obtain ⟨relation, hfind, l, hl, _, _, hrelation, _, ht, hb, _, hfragment⟩ :=
    ofText_enclosed {} "Post" post (p := "tags") (v := "t") (by decide) (by decide) (by decide) (by decide) (by decide)
      (by simp [isQuote]) hc 2
  obtain rfl : tags = relation := Option.some.inj hfind
  exact ⟨hc, l, hl, hrelation, ht, hb, hfragment.trans (by decide +kernel)⟩

/-! ## What else of a text counts -/

/-- **Around a call only the property counts**: a text that is resolved is a call, and with anything behind it, and
with any front that names the same property, it is resolved to the same filter. -/
theorem ofText_eq_ok_iff_property {raw : String} (h : ofText d target root raw = .ok l) :
    ∃ front inside rest, raw = String.ofList (callText front inside rest) ∧ ¬Filter.marker.toList <:+: front ∧
      Balanced (atoms inside) ∧ ∀ front' rest', ¬Filter.marker.toList <:+: front' →
        (ofText d target root (String.ofList (callText front' inside rest')) = .ok l ↔
          propertyOf front' = propertyOf front) := by
  obtain ⟨front, inside, rest, rfl, hf, hi⟩ := exists_callText_of_ofText h
  obtain ⟨v, body, he, hv, hresolves⟩ := (ofText_callText_eq_ok_iff hf hi rest).1 h
  refine ⟨front, inside, rest, rfl, hf, hi, fun front' rest' hf' => ?_⟩
  rw [ofText_callText_eq_ok_iff hf' hi]
  constructor
  · rintro ⟨_, _, _, _, hresolves'⟩
    exact String.ofList_injective (hresolves'.property.symm.trans hresolves.property)
  · intro hproperty
    exact ⟨v, body, he, hv, hproperty ▸ hresolves⟩

/-- A condition behind the call is dropped, and parentheses in front of it need not close. -/
theorem ofText_eq_ok_iff_property_tags :
    let tags : Relation := ⟨"tags", "Post", "Tag", "tag", "post_id", "id"⟩
    let post : Entity := { name := "Post", table := "post", relations := [tags] }
    let l : LambdaFilter := {
      target := "Post", root := post, relation := tags, condition := [.test "name" .equals "param_0"]
      bindings := ⟨[("param_0", "red")], by decide⟩ }
    ofText {} "Post" post "tags/any(t: t/name eq 'red') and title eq 'x'" = .ok l ∧
      ofText {} "Post" post "((tags/any(t: t/name eq 'red')" = .ok l := by
  intro tags post l
  have h : ofText {} "Post" post "tags/any(t: t/name eq 'red') and title eq 'x'" = .ok l := by decide +kernel
  obtain ⟨front, inside, rest, he, hf, hi, hiff⟩ := ofText_eq_ok_iff_property h
  have htext : "tags/any(t: t/name eq 'red') and title eq 'x'" =
      String.ofList (callText "tags".toList "t: t/name eq 'red'".toList " and title eq 'x'".toList) := by
    decide +kernel
  obtain ⟨rfl, rfl, rfl⟩ :=
    callText_inj hf (by decide) hi (by decide +kernel) (String.ofList_injective (he.symm.trans htext))
  have hopen : "((tags/any(t: t/name eq 'red')" =
      String.ofList (callText "((tags".toList "t: t/name eq 'red'".toList []) := by decide +kernel
  exact ⟨h, hopen ▸ (hiff "((tags".toList [] (by decide)).2 (by decide +kernel)⟩

/-- What stands behind a call need not close the parentheses in front of it, and may be more than that. -/
theorem not_forall_rest_closes :
    ¬∀ (d : Dialect) (target : String) (root : Entity) (raw : String) (l : LambdaFilter)
      (front opened inside rest : List Char), ofText d target root raw = .ok l →
        cut? Filter.marker.toList raw.toList = some (front, opened) → insideParen? opened = some (inside, rest) →
          (∀ c ∈ rest, isBlank c = true ∨ c = ')') ∧
            rest.count ')' = ((trim front).takeWhile (· == '(')).length := by
  intro h
  let tags : Relation := ⟨"tags", "Post", "Tag", "tag", "post_id", "id"⟩
  let post : Entity := { name := "Post", table := "post", relations := [tags] }
  let l : LambdaFilter := {
    target := "Post", root := post, relation := tags, condition := [.test "name" .equals "param_0"]
    bindings := ⟨[("param_0", "red")], by decide⟩ }
  have hrest := (h {} "Post" post "tags/any(t: t/name eq 'red') and title eq 'x'" l "tags".toList
    "t: t/name eq 'red') and title eq 'x'".toList "t: t/name eq 'red'".toList " and title eq 'x'".toList
    (by decide +kernel) (by decide +kernel) (by decide +kernel)).1 'a'
  exact absurd (hrest (by decide +kernel)) (by decide)

/-- **In front of the colon anything balanced counts as the bound variable**: a text that is resolved holds a balanced
text there, and with any other text without a colon there it is resolved to the same filter exactly if that text is
balanced. -/
theorem ofText_eq_ok_iff_balanced {raw : String} (h : ofText d target root raw = .ok l) :
    ∃ front v body rest, raw = String.ofList (callText front (v ++ ':' :: body) rest) ∧
      ¬Filter.marker.toList <:+: front ∧ ':' ∉ v ∧ Balanced (atoms v) ∧
      Condition.compile d (String.ofList (trim body)) = .ok (l.condition, l.bindings) ∧ ∀ v', ':' ∉ v' →
        (ofText d target root (String.ofList (callText front (v' ++ ':' :: body) rest)) = .ok l ↔
          Balanced (atoms v')) := by
  obtain ⟨front, inside, rest, rfl, hf, hi⟩ := exists_callText_of_ofText h
  obtain ⟨v, body, rfl, hv, hresolves⟩ := (ofText_callText_eq_ok_iff hf hi rest).1 h
  have hbalanced {w : List Char} : Balanced (atoms (w ++ ':' :: body)) ↔ Balanced (atoms w) :=
    balanced_variable_iff hresolves
  refine ⟨front, v, body, rest, rfl, hf, hv, hbalanced.1 hi, hresolves.compiled, fun v' hv' => ?_⟩
  refine ⟨fun h' => ?_, fun h' => ?_⟩
  · -- the parenthesis may close at another place, but the marker and the colon are where they were
    obtain ⟨front', inside', rest', he, hf', hi'⟩ := exists_callText_of_ofText h'
    have hcut := cut?_callText hf' inside' rest'
    rw [← String.ofList_injective he, cut?_callText hf] at hcut
    obtain ⟨rfl, hinside⟩ := Prod.mk.inj (Option.some.inj hcut)
    rw [he] at h'
    obtain ⟨w, body', rfl, hw, hresolves'⟩ := (ofText_callText_eq_ok_iff hf' hi' rest').1 h'
    have hcolon : cut? [':'] (v' ++ ':' :: (body ++ ')' :: rest)) = some (w, body' ++ ')' :: rest') :=
      cut?_singleton_iff.2 ⟨by simpa using hinside, hw⟩
    rw [cut?_singleton_iff.2 ⟨rfl, hv'⟩] at hcolon
    obtain ⟨rfl, _⟩ := Prod.mk.inj (Option.some.inj hcolon)
    exact (balanced_variable_iff hresolves').1 hi'
  · rw [ofText_callText_eq_ok_iff hf (hbalanced.2 h')]
    exact ⟨v', body, rfl, hv', hresolves⟩

/-- A condition in front of the colon counts as the bound variable, and so it is dropped. -/
theorem ofText_eq_ok_iff_balanced_tags :
    let tags : Relation := ⟨"tags", "Post", "Tag", "tag", "post_id", "id"⟩
    let post : Entity := { name := "Post", table := "post", relations := [tags] }
    let l : LambdaFilter := {
      target := "Post", root := post, relation := tags, condition := [.test "active" .equals "param_0"]
      bindings := ⟨[("param_0", "true")], by decide⟩ }
    ofText {} "Post" post "tags/any(t: t/active eq 'true')" = .ok l ∧
      ofText {} "Post" post "tags/any(t/name eq 'red' and t: t/active eq 'true')" = .ok l := by
  intro tags post l
  have h : ofText {} "Post" post "tags/any(t: t/active eq 'true')" = .ok l := by decide +kernel
  obtain ⟨front, v, body, rest, he, hf, hv, hb, hc, hiff⟩ := ofText_eq_ok_iff_balanced h
  have htext : "tags/any(t: t/active eq 'true')" =
      String.ofList (callText "tags".toList ("t".toList ++ ':' :: " t/active eq 'true'".toList) []) := by decide +kernel
  have hi : Balanced (atoms (v ++ ':' :: body)) :=
    (balanced_atoms_append_cons_iff rfl (by decide) (by decide) (Condition.balanced_of_compile_trim hc)).2 hb
  obtain ⟨rfl, hinside, rfl⟩ :=
    callText_inj hf (by decide) hi (by decide +kernel) (String.ofList_injective (he.symm.trans htext))
  have hcolon := cut?_singleton_iff.2 ⟨hinside, by decide⟩
  rw [cut?_singleton_iff.2 ⟨rfl, hv⟩] at hcolon
  obtain ⟨rfl, rfl⟩ := Prod.mk.inj (Option.some.inj hcolon)
  have hmore : "tags/any(t/name eq 'red' and t: t/active eq 'true')" = String.ofList
      (callText "tags".toList ("t/name eq 'red' and t".toList ++ ':' :: " t/active eq 'true'".toList) []) := by
    decide +kernel
  exact ⟨h, hmore ▸ (hiff "t/name eq 'red' and t".toList (by decide)).2 (by decide +kernel)⟩

/-- What stands in front of the colon need not be a name. -/
theorem not_forall_variable_name :
    ¬∀ (d : Dialect) (target : String) (root : Entity) (raw : String) (l : LambdaFilter)
      (front opened inside rest v body : List Char), ofText d target root raw = .ok l →
        cut? Filter.marker.toList raw.toList = some (front, opened) → insideParen? opened = some (inside, rest) →
          cut? [':'] inside = some (v, body) → trim v ≠ [] ∧ ∀ c ∈ trim v,
            isBlank c = false ∧ isQuote c = false ∧ c ≠ '(' ∧ c ≠ ')' ∧ c ≠ '/' := by
  intro h
  let tags : Relation := ⟨"tags", "Post", "Tag", "tag", "post_id", "id"⟩
  let post : Entity := { name := "Post", table := "post", relations := [tags] }
  let l : LambdaFilter := {
    target := "Post", root := post, relation := tags, condition := [.test "active" .equals "param_0"]
    bindings := ⟨[("param_0", "true")], by decide⟩ }
  have hname := (h {} "Post" post "tags/any(t/name eq 'red' and t: t/active eq 'true')" l "tags".toList
    "t/name eq 'red' and t: t/active eq 'true')".toList "t/name eq 'red' and t: t/active eq 'true'".toList []
    "t/name eq 'red' and t".toList " t/active eq 'true'".toList (by decide +kernel) (by decide +kernel)
    (by decide +kernel) (by decide +kernel)).2 '/'
  exact (hname (by decide +kernel)).2.2.2.2 rfl

end LambdaFilter

end RelQuery
