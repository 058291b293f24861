import RelQuery.Include.Joins
import Mathlib.Algebra.Ring.Nat

/-!
# The joins of a forest and its aliases

Planning walks a forest in preorder: every include claims one alias and becomes one join. A place of the preorder is a
clause with the place of its parent, so that the joins can be compared with the forest place by place.

* `IncludePlan.Grows` : whatever the walk does, it claims an alias exactly where it adds a join under it;
* `Include.Placed` : each place has its join, on the alias that the join of its parent got;
* `Include.Ordered` : the orders are the order lists of the places, each under the alias of the join there;
* `IncludePlan.joins_ofForest` : the joins and the aliases, for the planning of a whole forest;
* `IncludePlan.realizes_ofForest` : all that is planned of a forest.
-/

namespace RelQuery

/-! ## The preorder of a forest -/

mutual

/-- The clauses of an include and of those nested in it, in preorder from place `start` on, each with the place of its
parent; `parent` is that of the first. -/
def Include.places (parent : Option Nat) (start : Nat) : Include → List (IncludeClause × Option Nat)
  | .node clause children => (clause, parent) :: Include.placesAll (some start) (start + 1) children

/-- The clauses of a forest in preorder from place `start` on, each with the place of its parent; `parent` is that of
the outermost includes. -/
def Include.placesAll (parent : Option Nat) (start : Nat) : List Include → List (IncludeClause × Option Nat)
  | [] => []
  | tree :: forest => tree.places parent start ++ Include.placesAll parent (start + tree.size) forest

end

/-- The clauses of a forest in preorder, each with the place of its parent, if it has one. -/
def Include.preorder (forest : List Include) : List (IncludeClause × Option Nat) :=
  Include.placesAll none 0 forest

mutual

theorem Include.length_places (parent : Option Nat) : ∀ (start : Nat) (tree : Include),
    (tree.places parent start).length = tree.size
  | start, .node _ children => by
    rw [Include.places, Include.size, List.length_cons, Include.length_placesAll (some start) (start + 1) children]
    omega

theorem Include.length_placesAll (parent : Option Nat) : ∀ (start : Nat) (forest : List Include),
    (Include.placesAll parent start forest).length = Include.sizeAll forest
  | _, [] => rfl
  | start, tree :: forest => by
    rw [Include.placesAll, Include.sizeAll, List.length_append, Include.length_places parent start tree,
      Include.length_placesAll parent _ forest]

end

theorem Include.sizeAll_eq_sum : ∀ forest : List Include, Include.sizeAll forest = (forest.map Include.size).sum
  | [] => rfl
  | tree :: forest => by rw [Include.sizeAll, Include.sizeAll_eq_sum forest, List.map_cons, List.sum_cons]

/-! ## Claiming -/

/-- A claimed alias was free, and stands behind those claimed before. -/
theorem Aliases.used_of_claim? {a a' : Aliases} {name parent aliasName : String} {attempts : Nat}
    (h : a.claim? name parent attempts = some (aliasName, a')) : a'.used = a.used ++ [aliasName] := by
  unfold claim? at h
  split at h
  next => cases h
  next n hn =>
    obtain ⟨rfl, rfl⟩ := Prod.mk.inj (Option.some.inj h)
    rfl

/-! ## Growing plans -/

namespace IncludePlan

/-- The plan `q` has more joins than `p`, behind those of `p`, and their aliases behind those claimed in `p`. -/
def Grows (p q : IncludePlan) : Prop :=
  ∃ js, q.joins = p.joins ++ js ∧ q.aliases.used = p.aliases.used ++ js.map Join.aliasName

theorem Grows.refl (p : IncludePlan) : p.Grows p :=
  ⟨[], (List.append_nil _).symm, (List.append_nil _).symm⟩

theorem Grows.trans {p q r : IncludePlan} (h : p.Grows q) (h' : q.Grows r) : p.Grows r := by
  obtain ⟨js, hj, ha⟩ := h
  obtain ⟨js', hj', ha'⟩ := h'
  refine ⟨js ++ js', ?_, ?_⟩
  · rw [hj', hj, List.append_assoc]
  · rw [ha', ha, List.map_append, List.append_assoc]

theorem Grows.joins_mono {p q : IncludePlan} (h : p.Grows q) : p.joins <+: q.joins := by
  obtain ⟨js, hj, _⟩ := h
  exact ⟨js, hj.symm⟩

/-- A failure changes neither joins nor aliases. -/
theorem grows_fail (p : IncludePlan) (e : QueryError) : p.Grows (p.fail e) :=
  .refl p

/-- A join under the alias that was claimed for it. -/
theorem grows_addJoin {p : IncludePlan} {d : Dialect} {clause : IncludeClause} {parentAlias aliasName : String}
    {aliases : Aliases} {name : String} {attempts : Nat}
    (h : p.aliases.claim? name parentAlias attempts = some (aliasName, aliases)) :
    p.Grows (p.addJoin aliases (clause.join d parentAlias aliasName)) :=
  ⟨[clause.join d parentAlias aliasName], rfl, Aliases.used_of_claim? h⟩

end IncludePlan

/-! ## Joins at their places -/

namespace Include

/-- The alias that the includes nested at a place are joined on: that of the join there, and `top` above all places. -/
def aliasAt? (top : String) (joins : List Join) : Option Nat → Option String
  | none => some top
  | some place => joins[place]?.map Join.aliasName

/-- From place `start` on, the joins are those of `places`, one each: the join of a clause is on the alias that the join
of its parent got, and the parent stands in front of it. -/
def Placed (d : Dialect) (top : String) (joins : List Join) (start : Nat) (places : List (IncludeClause × Option Nat)) :
    Prop :=
  ∀ i clause parent, places[i]? = some (clause, parent) → ∃ j a, joins[start + i]? = some j ∧
    (∀ k ∈ parent, k < start + i) ∧ aliasAt? top joins parent = some a ∧ j = clause.join d a j.aliasName

variable {d : Dialect} {top a : String} {joins joins' : List Join} {start : Nat} {parent : Option Nat}
  {places places' : List (IncludeClause × Option Nat)}

theorem lt_of_aliasAt? {k : Nat} (h : aliasAt? top joins (some k) = some a) : k < joins.length := by
  obtain ⟨j, hj, _⟩ := Option.map_eq_some_iff.1 h
  exact (List.getElem?_eq_some_iff.1 hj).1

theorem getElem?_mono {j : Join} {i : Nat} (hp : joins <+: joins') (h : joins[i]? = some j) :
    joins'[i]? = some j := by
  obtain ⟨js, rfl⟩ := hp
  rw [List.getElem?_append_left (List.getElem?_eq_some_iff.1 h).1, h]

/-- More joins behind leave the aliases where they are. -/
theorem aliasAt?_mono (hp : joins <+: joins') (h : aliasAt? top joins parent = some a) :
    aliasAt? top joins' parent = some a := by
  cases parent with
  | none => exact h
  | some k =>
    obtain ⟨j, hj, ha⟩ := Option.map_eq_some_iff.1 h
    exact Option.map_eq_some_iff.2 ⟨j, getElem?_mono hp hj, ha⟩

theorem placed_nil : Placed d top joins start [] := by
  intro i clause parent h
  cases h

/-- More joins behind leave the joins at their places. -/
theorem Placed.mono (hp : joins <+: joins') (h : Placed d top joins start places) :
    Placed d top joins' start places := by
  intro i clause parent hi
  obtain ⟨j, a, hj, hk, ha, he⟩ := h i clause parent hi
  exact ⟨j, a, getElem?_mono hp hj, hk, aliasAt?_mono hp ha, he⟩

theorem Placed.append (h : Placed d top joins start places) (h' : Placed d top joins (start + places.length) places') :
    Placed d top joins start (places ++ places') := by
  intro i clause parent hi
  rw [List.getElem?_append] at hi
  split at hi
  next => exact h i clause parent hi
  next hlt =>
    have hs : start + places.length + (i - places.length) = start + i := by omega
    have := h' _ clause parent hi
    rwa [hs] at this

/-- A new join behind all others, on the alias of a place among them. -/
theorem placed_concat {clause : IncludeClause} {aliasName : String} (ha : aliasAt? top joins parent = some a) :
    Placed d top (joins ++ [clause.join d a aliasName]) joins.length [(clause, parent)] := by
  intro i clause' parent' hi
  -- there is one place, the first
  obtain ⟨rfl, rfl, rfl⟩ : i = 0 ∧ clause = clause' ∧ parent = parent' := by
    cases i with
    | zero => simpa using hi
    | succ i => cases hi
  refine ⟨clause.join d a aliasName, a, by simp, ?_, aliasAt?_mono (List.prefix_append _ _) ha, rfl⟩
  rintro k rfl
  exact lt_of_aliasAt? ha

/-! ## Orders at their places -/

/-- The orders of the includes at `places`, which have got these joins: the order lists behind one another, each with
the placeholder replaced by the alias of the join. -/
inductive Ordered (d : Dialect) : List (IncludeClause × Option Nat) → List Join → List Order → Prop where
  | nil : Ordered d [] [] []
  | unordered {clause : IncludeClause} {parent : Option Nat} {places : List (IncludeClause × Option Nat)} {j : Join}
    {joins : List Join} {orders : List Order} (hc : clause.order = none) (hr : Ordered d places joins orders) :
    Ordered d ((clause, parent) :: places) (j :: joins) orders
  | ordered {clause : IncludeClause} {parent : Option Nat} {places : List (IncludeClause × Option Nat)} {j : Join}
    {joins : List Join} {text : String} {own orders : List Order} (hc : clause.order = some text)
    (ho : Order.ofText d.noOrder (IncludeClause.inScope d j.aliasName text) = .ok own)
    (hr : Ordered d places joins orders) : Ordered d ((clause, parent) :: places) (j :: joins) (own ++ orders)

variable {orders orders' : List Order}

/-- One join for each place. -/
theorem Ordered.length_eq (h : Ordered d places joins orders) : joins.length = places.length := by
  induction h with
  | nil => rfl
  | unordered _ _ ih | ordered _ _ _ ih => rw [List.length_cons, List.length_cons, ih]

theorem Ordered.append (h : Ordered d places joins orders) (h' : Ordered d places' joins' orders') :
    Ordered d (places ++ places') (joins ++ joins') (orders ++ orders') := by
  induction h with
  | nil => exact h'
  | unordered hc _ ih => exact .unordered hc ih
  | ordered hc ho _ ih =>
    rw [List.append_assoc]
    exact .ordered hc ho ih

/-- The orders of an include under the alias of its join. -/
theorem ordered_singleton {clause : IncludeClause} {j : Join} (h : clause.orders d j.aliasName = .ok orders) :
    Ordered d [(clause, parent)] [j] orders := by
  unfold IncludeClause.orders at h
  split at h
  next hc =>
    obtain rfl := Except.ok.inj h
    exact .unordered hc .nil
  next text hc =>
    rw [← List.append_nil orders]
    exact .ordered hc h .nil

end Include

/-! ## Walking a forest -/

namespace IncludePlan

open Include

/-- Walking `places` has made `q` of `p`: the plan has grown, and unless it failed, by their joins at these places and
by their orders. -/
structure Walked (d : Dialect) (top : String) (p q : IncludePlan) (places : List (IncludeClause × Option Nat)) :
    Prop where
  grows : p.Grows q
  placed : q.failure = none → Placed d top q.joins p.joins.length places
  ordered : q.failure = none → ∃ js os, q.joins = p.joins ++ js ∧ q.orders = p.orders ++ os ∧ Ordered d places js os

variable {d : Dialect} {top parentAlias : String} {p q r : IncludePlan} {at? : Option Nat}
  {places places' : List (IncludeClause × Option Nat)}

theorem Walked.length (h : Walked d top p q places) (hq : q.failure = none) :
    q.joins.length = p.joins.length + places.length := by
  obtain ⟨js, os, hjoins, -, ho⟩ := h.ordered hq
  rw [hjoins, List.length_append, ho.length_eq]

theorem Walked.refl (p : IncludePlan) : Walked d top p p [] where
  grows := .refl p
  placed _ := placed_nil
  ordered _ := ⟨[], [], (List.append_nil _).symm, (List.append_nil _).symm, .nil⟩

/-- One walk behind another that did not fail. -/
theorem Walked.trans (hq : q.failure = none) (h : Walked d top p q places) (h' : Walked d top q r places') :
    Walked d top p r (places ++ places') where
  grows := h.grows.trans h'.grows
  placed hr := by
    have hs := h'.placed hr
    rw [h.length hq] at hs
    exact ((h.placed hq).mono h'.grows.joins_mono).append hs
  ordered hr := by
    obtain ⟨js, os, hjoins, horders, ho⟩ := h.ordered hq
    obtain ⟨js', os', hjoins', horders', ho'⟩ := h'.ordered hr
    refine ⟨js ++ js', os ++ os', ?_, ?_, ho.append ho'⟩
    · rw [hjoins', hjoins, List.append_assoc]
    · rw [horders', horders, List.append_assoc]

theorem walked_fail (e : QueryError) (h : p.Grows q) : Walked d top p (q.fail e) places where
  grows := h.trans (grows_fail q e)
  placed hf := by cases hf
  ordered hf := by cases hf

/-- The step of the walk: one join for one clause, and its orders. -/
theorem walked_join {clause : IncludeClause} {aliasName : String} {aliases : Aliases} {attempts : Nat}
    {orders : List Order} (ha : aliasAt? top p.joins at? = some parentAlias)
    (hc : p.aliases.claim? clause.property parentAlias attempts = some (aliasName, aliases))
    (ho : clause.orders d aliasName = .ok orders) :
    Walked d top p ((p.addJoin aliases (clause.join d parentAlias aliasName)).addOrders orders) [(clause, at?)] where
  grows := grows_addJoin hc
  placed _ := placed_concat ha
  ordered _ := ⟨[clause.join d parentAlias aliasName], orders, rfl, rfl, ordered_singleton ho⟩

mutual

/-- An include is walked place by place, whether the walk fails or not. -/
theorem walked_add (lookup : String → Option Entity) : ∀ (tree : Include) (parent : Entity) {p : IncludePlan}
    {parentAlias : String} {at? : Option Nat}, p.failure = none → aliasAt? top p.joins at? = some parentAlias →
      Walked d top p (add lookup d parentAlias parent p tree) (tree.places at? p.joins.length)
  | .node clause children, parent, p, parentAlias, at?, hp, ha => by
    rw [add, places]
    split
    next e _ => exact walked_fail e (.refl p)
    next relation _ =>
      split
      next => exact walked_fail _ (.refl p)
      next aliasName aliases hc =>
        dsimp only
        split
        next e _ => exact walked_fail e (grows_addJoin hc)
        next orders ho =>
          have hjoin := walked_join ha hc ho
          have hq : ((p.addJoin aliases (clause.join d parentAlias aliasName)).addOrders orders).failure = none := hp
          split
          next hn =>
            obtain rfl := List.isEmpty_iff.1 hn
            exact hjoin
          next =>
            split
            next => exact walked_fail _ hjoin.grows
            next target _ =>
              -- the join just added stands at the place of the parent of the nested includes
              have hat : aliasAt? top ((p.addJoin aliases (clause.join d parentAlias aliasName)).addOrders orders).joins
                  (some p.joins.length) = some aliasName := by
                simp [aliasAt?, addOrders, addJoin, IncludeClause.join]
              generalize (p.addJoin aliases (clause.join d parentAlias aliasName)).addOrders orders = q
                at hjoin hq hat ⊢
              have hnested : Walked d top q (addAll lookup d aliasName target q children)
                  (placesAll (some p.joins.length) q.joins.length children) :=
                walked_addAll lookup children target hq hat
              rw [hjoin.length hq] at hnested
              exact hjoin.trans hq hnested

/-- A forest is walked place by place, up to the first failure. -/
theorem walked_addAll (lookup : String → Option Entity) : ∀ (forest : List Include) (parent : Entity)
    {p : IncludePlan} {parentAlias : String} {at? : Option Nat}, p.failure = none →
      aliasAt? top p.joins at? = some parentAlias →
        Walked d top p (addAll lookup d parentAlias parent p forest) (placesAll at? p.joins.length forest)
  | [], _, p, _, _, _, _ => by
    rw [addAll, placesAll]
    exact .refl p
  | tree :: forest, parent, p, parentAlias, at?, hp, ha => by
    have htree : Walked d top p (add lookup d parentAlias parent p tree) (tree.places at? p.joins.length) :=
      walked_add lookup tree parent hp ha
    rw [addAll, placesAll]
    split
    next e he =>
      exact ⟨htree.grows, fun hf => by simp [he] at hf, fun hf => by simp [he] at hf⟩
    next hf =>
      have hforest := walked_addAll lookup forest parent hf (aliasAt?_mono htree.grows.joins_mono ha)
      rw [htree.length hf, length_places] at hforest
      exact htree.trans hf hforest

end

/-! ## The joins of a forest -/

/-- Planning walks a forest in preorder. -/
theorem walked_ofForest (lookup : String → Option Entity) (d : Dialect) (parentAlias : String) (parent : Entity)
    (aliases : Aliases) (forest : List Include) :
    Walked d parentAlias { aliases } (ofForest lookup d parentAlias parent aliases forest) (Include.preorder forest) :=
  walked_addAll lookup forest parent rfl rfl

/-- The plan is that of a forest on the alias `top`: in preorder, one join for each include, on the alias that the join
of its parent got, and behind one another the order lists of the includes, each under the alias of its own join. -/
structure Realizes (d : Dialect) (top : String) (forest : List Include) (plan : IncludePlan) : Prop where
  length : plan.joins.length = (Include.preorder forest).length
  placed : Placed d top plan.joins 0 (Include.preorder forest)
  ordered : Ordered d (Include.preorder forest) plan.joins plan.orders

/-- **What is planned of a forest**, if planning succeeds. -/
theorem realizes_ofForest {lookup : String → Option Entity} {d : Dialect} {parentAlias : String} {parent : Entity}
    {aliases : Aliases} {forest : List Include}
    (hf : (ofForest lookup d parentAlias parent aliases forest).failure = none) :
    (ofForest lookup d parentAlias parent aliases forest).Realizes d parentAlias forest where
  length := by simpa using (walked_ofForest lookup d parentAlias parent aliases forest).length hf
  placed := (walked_ofForest lookup d parentAlias parent aliases forest).placed hf
  ordered := by
    obtain ⟨js, os, hjoins, horders, ho⟩ := (walked_ofForest lookup d parentAlias parent aliases forest).ordered hf
    rw [hjoins, horders]
    exact ho

/-- **The joins of a forest.** Whether planning fails or not, the aliases claimed before stay in front and no alias is
claimed twice. If it succeeds, the joins are the includes in preorder, one each, under distinct aliases that were free
before and are claimed in this order; an outermost include is joined on `parentAlias`, and a nested one on the alias
that its parent got, whose join stands in front of it. -/
theorem joins_ofForest (lookup : String → Option Entity) (d : Dialect) (parentAlias : String) (parent : Entity)
    (aliases : Aliases) (forest : List Include) :
    let plan := ofForest lookup d parentAlias parent aliases forest
    aliases.used <+: plan.aliases.used ∧ plan.aliases.used.Nodup ∧
      (plan.failure = none →
        plan.joins.length = (forest.map Include.size).sum ∧
        plan.joins.length = (Include.preorder forest).length ∧
        (plan.joins.map Join.aliasName).Nodup ∧
        (∀ j ∈ plan.joins, j.aliasName ∉ aliases.used) ∧
        plan.aliases.used = aliases.used ++ plan.joins.map Join.aliasName ∧
        ∀ i clause at?, (Include.preorder forest)[i]? = some (clause, at?) → ∃ j a, plan.joins[i]? = some j ∧
          (∀ k ∈ at?, k < i) ∧ aliasAt? parentAlias plan.joins at? = some a ∧ j.path = a ++ "." ++ clause.property ∧
          j = clause.join d a j.aliasName) := by
  intro plan
  have hwalk : Walked d parentAlias { aliases } plan (Include.preorder forest) :=
    walked_addAll lookup forest parent rfl rfl
  obtain ⟨js, hjoins, hused⟩ := hwalk.grows
  obtain rfl : plan.joins = js := hjoins
  have hnodup := plan.aliases.nodup
  rw [hused] at hnodup
  obtain ⟨_, hnew, hfree⟩ := List.nodup_append.1 hnodup
  refine ⟨⟨_, hused.symm⟩, plan.aliases.nodup, fun hf => ?_⟩
  have hlength : plan.joins.length = (Include.preorder forest).length := by simpa using hwalk.length hf
  refine ⟨?_, hlength, hnew, ?_, hused, ?_⟩
  · rw [hlength, Include.preorder, length_placesAll, sizeAll_eq_sum]
  · intro j hj hm
    exact hfree _ hm _ (List.mem_map_of_mem hj) rfl
  · intro i clause at? hi
    obtain ⟨j, a, hj, hk, ha, he⟩ := hwalk.placed hf i clause at? hi
    simp only [List.length_nil, Nat.zero_add] at hj hk
    refine ⟨j, a, hj, hk, ha, ?_, he⟩
    rw [he]
    rfl

/-- A relation may have the name that a repeated one was numbered with. -/
theorem joins_ofForest_children :
    let children : Relation := ⟨"children", "Category", "Category", "category", "parentId", "id"⟩
    let category : Entity := {
      name := "Category"
      table := "category"
      relations := [children, { children with property := "children_2" }] }
    let leaf : Include := .node { property := "children" } []
    let forest : List Include :=
      [.node { property := "children" } [leaf], leaf, leaf, .node { property := "children_2" } []]
    let plan := ofForest (fun name => if name = "Category" then some category else none) {} "category" category
      (.ofRoot "category") forest
    plan.failure = none ∧
      plan.joins.map (fun j => (j.path, j.aliasName)) =
        [("category.children", "children"), ("children.children", "children_children"),
          ("category.children", "category_children"), ("category.children", "children_2"),
          ("category.children_2", "category_children_2")] ∧
      plan.joins.length = (forest.map Include.size).sum ∧
      plan.aliases.used = ["category"] ++ plan.joins.map Join.aliasName ∧
      ∃ j a, plan.joins[1]? = some j ∧ aliasAt? "category" plan.joins (some 0) = some a ∧
        j.path = a ++ "." ++ "children" := by
  intro children category leaf forest plan
  have hf : plan.failure = none := by decide +kernel
  have hj : plan.joins.map (fun j => (j.path, j.aliasName)) =
      [("category.children", "children"), ("children.children", "children_children"),
        ("category.children", "category_children"), ("category.children", "children_2"),
        ("category.children_2", "category_children_2")] := by decide +kernel
  obtain ⟨_, _, h⟩ := joins_ofForest (fun name => if name = "Category" then some category else none) {} "category"
    category (.ofRoot "category") forest
  obtain ⟨hsize, _, _, _, hused, hplaces⟩ := h hf
  obtain ⟨j, a, hj1, _, ha, hpath, _⟩ := hplaces 1 { property := "children" } (some 0) rfl
  exact ⟨hf, hj, hsize, hused, j, a, hj1, ha, hpath⟩

end IncludePlan

end RelQuery
