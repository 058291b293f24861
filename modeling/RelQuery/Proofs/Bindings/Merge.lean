import RelQuery.Proofs.Condition.Compile

/-!
# Merging bindings

Bindings agree if they bind no name to different values. To merge bindings is to append, in their order, the entries
whose names are new.

* `Bindings.merge_eq_ok_iff` : two bindings merge exactly if they agree, and the result is the first, then what is new
  in the second;
* `Bindings.mergeAll_eq_ok_iff` : a list merges exactly if all its members agree, and the result is what is new in each,
  in the order of the list;
* `Bindings.mergeAll_cases` : it merges to its union, or a name is bound to two values.
-/

namespace RelQuery.Bindings

variable {b b' other merged : Bindings} {name value : String}

/-! ## One name -/

theorem get?_eq_some_iff : b.get? name = some value ↔ (name, value) ∈ b.entries := by
  refine ⟨fun h => ?_, get?_of_mem⟩
  obtain ⟨before, after, he, _⟩ := List.lookup_eq_some_iff.1 h
  rw [he]
  exact List.mem_append_right before List.mem_cons_self

theorem mem_names_iff : name ∈ b.names ↔ ∃ value, b.get? name = some value := by
  rw [← Option.ne_none_iff_exists', ne_eq, get?_eq_none_iff, Classical.not_not]

/-- The entries whose names are not among the known ones. -/
def newEntries (known : List String) (entries : List (String × String)) : List (String × String) :=
  entries.filter fun entry => entry.1 ∉ known

/-- What a name that is bound, or a free one, does to the entries. -/
theorem entries_of_insert? (h : b.insert? name value = some b') :
    b'.entries = b.entries ++ newEntries b.names [(name, value)] := by
  unfold insert? at h
  split at h
  next hfree =>
    obtain rfl := Option.some.inj h
    have hn : name ∉ b.names := get?_eq_none_iff.1 hfree
    simp [push, newEntries, hn]
  next bound hbound =>
    split at h
    next =>
      obtain rfl := Option.some.inj h
      have hn : name ∈ b.names := mem_names_iff.2 ⟨bound, hbound⟩
      simp [newEntries, hn]
    next => cases h

/-- A name is refused exactly if it is bound to another value. -/
theorem insert?_eq_none_iff : b.insert? name value = none ↔ ∃ bound, b.get? name = some bound ∧ bound ≠ value := by
  unfold insert?
  split
  next h => simp [h]
  next bound h =>
    rw [h]
    by_cases he : bound = value <;> simp [he]

theorem get?_of_insert?_of_ne (h : b.insert? name value = some b') {m : String} (hm : m ≠ name) :
    b'.get? m = b.get? m := by
  have hnew : (newEntries b.names [(name, value)]).lookup m = none := by
    refine List.lookup_eq_none_iff.2 fun entry he => ?_
    obtain rfl := List.mem_singleton.1 (List.mem_filter.1 he).1
    simpa using hm
  rw [get?, get?, entries_of_insert? h, List.lookup_append, hnew, Option.or_none]

theorem newEntries_congr {known known' : List String} {entries : List (String × String)}
    (h : ∀ entry ∈ entries, (entry.1 ∈ known ↔ entry.1 ∈ known')) :
    newEntries known entries = newEntries known' entries :=
  List.filter_congr fun entry he => by simp [h entry he]

/-! ## A list of names -/

section

variable {entries : List (String × String)}

/-- Behind a name that is bound, nothing has changed for the other names of a list. -/
theorem newEntries_of_insert? (h : b.insert? name value = some b') (hn : name ∉ entries.map Prod.fst) :
    newEntries b'.names entries = newEntries b.names entries := by
  refine newEntries_congr fun entry he => ?_
  have hne : entry.1 ≠ name := fun e => hn (List.mem_map.2 ⟨entry, he, e⟩)
  rw [mem_names_iff, mem_names_iff, get?_of_insert?_of_ne h hne]

theorem newEntries_append (known : List String) (es es' : List (String × String)) :
    newEntries known (es ++ es') = newEntries known es ++ newEntries known es' :=
  List.filter_append es es'

/-- The entry's name is free, or bound to the entry's value. -/
def Fits (b : Bindings) (entry : String × String) : Prop :=
  ∀ bound, b.get? entry.1 = some bound → bound = entry.2

theorem fits_of_insert?_of_ne (h : b.insert? name value = some b') {entry : String × String} (hne : entry.1 ≠ name) :
    b'.Fits entry ↔ b.Fits entry := by
  rw [Fits, Fits, get?_of_insert?_of_ne h hne]

/-- What extending by a list of different names returns: if all entries fit, the new ones are appended; else the first
that does not fit is reported, and the new ones in front of it are appended. -/
def Extended (b : Bindings) (entries : List (String × String)) : Bindings × Option String → Prop
  | (b', none) => (∀ entry ∈ entries, b.Fits entry) ∧ b'.entries = b.entries ++ newEntries b.names entries
  | (b', some name) => ∃ front value back, entries = front ++ (name, value) :: back ∧ (∀ entry ∈ front, b.Fits entry) ∧
      ¬b.Fits (name, value) ∧ b'.entries = b.entries ++ newEntries b.names front

theorem Extended.cons (hi : b.insert? name value = some b') (hn : name ∉ entries.map Prod.fst)
    {result : Bindings × Option String} (h : b'.Extended entries result) :
    b.Extended ((name, value) :: entries) result := by
  have hfits : b.Fits (name, value) := by
    intro bound hb
    by_contra hne
    rw [insert?_eq_none_iff.2 ⟨bound, hb, hne⟩] at hi
    cases hi
  have htail : ∀ {entry : String × String}, entry ∈ entries → (b'.Fits entry ↔ b.Fits entry) := fun hm =>
    fits_of_insert?_of_ne hi fun e => hn (List.mem_map.2 ⟨_, hm, e⟩)
  have hnew : ∀ {es : List (String × String)}, es ⊆ entries →
      b'.entries ++ newEntries b'.names es = b.entries ++ newEntries b.names ((name, value) :: es) := by
    intro es hs
    rw [entries_of_insert? hi, newEntries_of_insert? hi fun hm => hn (List.map_subset _ hs hm), List.append_assoc,
      ← newEntries_append]
    rfl
  obtain ⟨b₂, _ | reported⟩ := result
  · obtain ⟨hall, he⟩ := h
    refine ⟨List.forall_mem_cons.2 ⟨hfits, fun entry hm => (htail hm).1 (hall entry hm)⟩, ?_⟩
    rw [he, hnew (List.Subset.refl _)]
  · obtain ⟨front, v, back, rfl, hall, hconflict, he⟩ := h
    have hfront : front ⊆ front ++ (reported, v) :: back := List.subset_append_left _ _
    refine ⟨(name, value) :: front, v, back, rfl,
      List.forall_mem_cons.2 ⟨hfits, fun entry hm => (htail (hfront hm)).1 (hall entry hm)⟩,
      fun hf => hconflict ((htail (by simp)).2 hf), ?_⟩
    rw [he, hnew hfront]

/-- **Extending** by different names appends what is new, up to the first conflict. -/
theorem extended_extend : ∀ (entries : List (String × String)) (b : Bindings), (entries.map Prod.fst).Nodup →
    b.Extended entries (b.extend entries)
  | [], b, _ => ⟨by simp, by simp [newEntries]⟩
  | (name, value) :: entries, b, hd => by
    obtain ⟨hn, hd⟩ := List.nodup_cons.1 hd
    rw [extend]
    cases hi : b.insert? name value with
    | none =>
      obtain ⟨bound, hb, hne⟩ := insert?_eq_none_iff.1 hi
      exact ⟨[], value, entries, rfl, by simp, fun hf => hne (hf bound hb), by simp [newEntries]⟩
    | some b₁ => exact (extended_extend entries b₁ hd).cons hi hn

end

/-! ## Two bindings -/

/-- No name is bound to different values. -/
def Agree (b other : Bindings) : Prop :=
  ∀ name value value', b.get? name = some value → other.get? name = some value' → value = value'

theorem agree_empty (b : Bindings) : Agree empty b := nofun

theorem agree_iff_fits : Agree b other ↔ ∀ entry ∈ other.entries, b.Fits entry := by
  constructor
  · intro h entry hm bound hb
    exact h entry.1 bound entry.2 hb (get?_of_mem hm)
  · intro h name value value' hv hv'
    exact h (name, value') (get?_eq_some_iff.1 hv') value hv

/-- What merging two bindings returns: the first with what is new in the second behind it, in its order; or a conflict
over a name that they bind differently. -/
theorem merge_cases (b other : Bindings) :
    (∃ merged, b.merge other = .ok merged ∧ Agree b other ∧
        merged.entries = b.entries ++ newEntries b.names other.entries) ∨
      ∃ name value value', b.merge other = .error (.parameterConflict name) ∧ b.get? name = some value ∧
        other.get? name = some value' ∧ value ≠ value' := by
  have h := extended_extend other.entries b other.nodup
  rw [merge, agree_iff_fits]
  split
  next merged heq =>
    rw [heq] at h
    exact .inl ⟨merged, rfl, h⟩
  next _ name heq =>
    rw [heq] at h
    obtain ⟨front, value, back, hsplit, _, hconflict, _⟩ := h
    obtain ⟨bound, hb, hne⟩ : ∃ bound, b.get? name = some bound ∧ bound ≠ value := by
      simpa [Fits] using hconflict
    have hm : (name, value) ∈ other.entries := hsplit ▸ List.mem_append_right front List.mem_cons_self
    exact .inr ⟨name, bound, value, rfl, hb, get?_of_mem hm, hne⟩

/-- **Two bindings merge** exactly if they agree; what is new in the second stands behind the first, in its order. -/
theorem merge_eq_ok_iff : b.merge other = .ok merged ↔
    Agree b other ∧ merged.entries = b.entries ++ newEntries b.names other.entries := by
  rcases merge_cases b other with ⟨m, hm, hagree, he⟩ | ⟨name, value, value', hm, hv, hv', hne⟩
  · rw [hm]
    constructor
    · rintro ⟨⟩
      exact ⟨hagree, he⟩
    · rintro ⟨_, he'⟩
      exact congrArg Except.ok (Bindings.ext (he.trans he'.symm))
  · rw [hm]
    constructor
    · nofun
    · rintro ⟨hagree, _⟩
      exact absurd (hagree name value value' hv hv') hne

theorem exists_merge_of_agree (h : Agree b other) : ∃ merged, b.merge other = .ok merged := by
  rcases merge_cases b other with ⟨m, hm, _⟩ | ⟨name, value, value', _, hv, hv', hne⟩
  · exact ⟨m, hm⟩
  · exact absurd (h name value value' hv hv') hne

theorem lookup_newEntries {known : List String} (hn : name ∉ known) : ∀ entries : List (String × String),
    (newEntries known entries).lookup name = entries.lookup name
  | [] => rfl
  | (name', value') :: entries => by
    have ih := lookup_newEntries hn entries
    by_cases hk : name' ∈ known
    · have hne : (name == name') = false := by
        rw [beq_eq_false_iff_ne]
        rintro rfl
        exact hn hk
      simpa [newEntries, List.filter_cons, hk, List.lookup_cons, hne] using ih
    · simp only [newEntries, List.filter_cons, hk, not_false_eq_true, decide_true, if_true, List.lookup_cons]
      split
      · rfl
      · exact ih

theorem get?_of_merge (h : b.merge other = .ok merged) (name : String) :
    merged.get? name = (b.get? name).or (other.get? name) := by
  rw [get?, (merge_eq_ok_iff.1 h).2, List.lookup_append]
  cases hb : b.get? name with
  | some value =>
    rw [get?] at hb
    rw [hb]
    rfl
  | none =>
    have hn := get?_eq_none_iff.1 hb
    rw [get?] at hb
    rw [hb, lookup_newEntries hn]
    rfl

/-- Merging keeps what either side binds, and binds nothing else. -/
theorem get?_of_merge_eq_some_iff (h : b.merge other = .ok merged) :
    merged.get? name = some value ↔ b.get? name = some value ∨ other.get? name = some value := by
  rw [get?_of_merge h, Option.or_eq_some_iff]
  refine ⟨Or.imp id And.right, fun hv => ?_⟩
  cases hb : b.get? name with
  | none => exact .inr ⟨rfl, hv.resolve_left (by simp [hb])⟩
  | some bound =>
    rcases hv with hv | hv
    · exact .inl (hb.symm.trans hv)
    · exact .inl (congrArg some ((merge_eq_ok_iff.1 h).1 name bound value hb hv))

theorem mem_names_of_merge (h : b.merge other = .ok merged) {name : String} :
    name ∈ merged.names ↔ name ∈ b.names ++ other.names := by
  rw [List.mem_append, mem_names_iff, mem_names_iff, mem_names_iff, get?_of_merge h]
  cases b.get? name <;> simp

/-- The merged bindings agree with others exactly if both agree with them. -/
theorem agree_of_merge_iff (h : b.merge other = .ok merged) {third : Bindings} :
    Agree merged third ↔ Agree b third ∧ Agree other third := by
  have hagree := (merge_eq_ok_iff.1 h).1
  constructor
  · intro ht
    constructor
    · intro name value value' hv hv'
      exact ht name value value' (by rw [get?_of_merge h, hv]; rfl) hv'
    · intro name value value' hv hv'
      cases hb : b.get? name with
      | none => exact ht name value value' (by rw [get?_of_merge h, hb]; exact hv) hv'
      | some bound =>
        obtain rfl := hagree name bound value hb hv
        exact ht name bound value' (by rw [get?_of_merge h, hb]; rfl) hv'
  · rintro ⟨hb, ho⟩ name value value' hv hv'
    rw [get?_of_merge h, Option.or_eq_some_iff] at hv
    rcases hv with hv | ⟨_, hv⟩
    · exact hb name value value' hv hv'
    · exact ho name value value' hv hv'

/-! ## A list of bindings -/

/-- The entries that are new in each of a list, in its order, behind the known names. -/
def gather (known : List String) : List Bindings → List (String × String)
  | [] => []
  | b :: bs => newEntries known b.entries ++ gather (known ++ b.names) bs

theorem gather_congr : ∀ (bs : List Bindings) {known known' : List String}, (∀ name, name ∈ known ↔ name ∈ known') →
    gather known bs = gather known' bs
  | [], _, _, _ => rfl
  | b :: bs, known, known', h => by
    have hnames : ∀ name, name ∈ known ++ b.names ↔ name ∈ known' ++ b.names := fun name => by simp [h name]
    rw [gather, gather, newEntries_congr fun entry _ => h entry.1, gather_congr bs hnames]

/-- **A list merges** exactly if all of its members agree; what is new in each stands behind those in front of it. -/
theorem mergeAll_eq_ok_iff : ∀ {bs : List Bindings} {b : Bindings}, b.mergeAll bs = .ok merged ↔
    (b :: bs).Pairwise Agree ∧ merged.entries = b.entries ++ gather b.names bs
  | [], b => by
    simp only [mergeAll, gather, List.append_nil, List.pairwise_singleton, true_and]
    exact ⟨fun h => by cases h; rfl, fun h => congrArg Except.ok (Bindings.ext h.symm)⟩
  | other :: bs, b => by
    rw [mergeAll]
    cases hm : b.merge other with
    | error e =>
      refine ⟨nofun, fun ⟨hagree, _⟩ => ?_⟩
      obtain ⟨m, hm'⟩ := exists_merge_of_agree ((List.pairwise_cons.1 hagree).1 other List.mem_cons_self)
      rw [hm] at hm'
      cases hm'
    | ok m =>
      obtain ⟨hagree, he⟩ := merge_eq_ok_iff.1 hm
      have hpair : (m :: bs).Pairwise Agree ↔ (b :: other :: bs).Pairwise Agree := by
        simp only [List.pairwise_cons, agree_of_merge_iff hm, List.forall_mem_cons, forall_and, hagree, true_and,
          and_assoc]
      show m.mergeAll bs = .ok merged ↔ _
      rw [mergeAll_eq_ok_iff, hpair, he, gather, gather_congr bs fun _ => mem_names_of_merge hm, List.append_assoc]

/-- One of the list binds the name to the value. -/
def AnyBinds (bs : List Bindings) (name value : String) : Prop :=
  ∃ b ∈ bs, b.get? name = some value

theorem anyBinds_cons {bs : List Bindings} :
    AnyBinds (b :: bs) name value ↔ b.get? name = some value ∨ AnyBinds bs name value := by
  simp [AnyBinds]

/-- **Merging a list** gives its union, or ends over a name that the list binds to two values. -/
theorem mergeAll_cases : ∀ (bs : List Bindings) (b : Bindings),
    (∃ merged, b.mergeAll bs = .ok merged ∧
        ∀ name value, merged.get? name = some value ↔ AnyBinds (b :: bs) name value) ∨
      ∃ name value value', b.mergeAll bs = .error (.parameterConflict name) ∧ value ≠ value' ∧
        AnyBinds (b :: bs) name value ∧ AnyBinds (b :: bs) name value'
  | [], b => .inl ⟨b, rfl, fun name value => by simp [AnyBinds]⟩
  | other :: bs, b => by
    rw [mergeAll]
    rcases merge_cases b other with ⟨both, hm, -⟩ | ⟨name, value, value', hm, hv, hv', hne⟩
    · -- the first two and what they are merged to bind alike, so the rest of the list is the induction
      have hboth (name value : String) :
          AnyBinds (both :: bs) name value ↔ AnyBinds (b :: other :: bs) name value := by
        rw [anyBinds_cons, anyBinds_cons, anyBinds_cons, get?_of_merge_eq_some_iff hm, or_assoc]
      simp only [hm, ← hboth]
      exact mergeAll_cases bs both
    · rw [hm]
      exact .inr ⟨name, value, value', rfl, hne, anyBinds_cons.2 (.inl hv), ⟨other, by simp, hv'⟩⟩

/-- What one of a list binds, all of them together bind alike. -/
theorem get?_of_mergeAll {third : Bindings} {bs : List Bindings} (hv : third.get? name = some value)
    (h : b.mergeAll bs = .ok merged) (hm : third ∈ b :: bs) : merged.get? name = some value := by
  rcases mergeAll_cases bs b with ⟨merged', hmerged, hbinds⟩ | ⟨_, _, _, herror, _⟩
  · obtain rfl : merged' = merged := Except.ok.inj (hmerged.symm.trans h)
    exact (hbinds name value).2 ⟨third, hm, hv⟩
  · cases herror.symm.trans h

/-- Nothing is bound in front of the first of a list. -/
theorem merge_empty_left (b : Bindings) : empty.merge b = .ok b :=
  merge_eq_ok_iff.2 ⟨agree_empty b, (List.filter_eq_self.2 fun _ _ => rfl).symm⟩

theorem mergeAll_append : ∀ (bs cs : List Bindings) (b : Bindings),
    b.mergeAll (bs ++ cs) = (b.mergeAll bs).bind fun merged => merged.mergeAll cs
  | [], _, _ => rfl
  | other :: bs, cs, b => by
    rw [List.cons_append, mergeAll, mergeAll]
    cases b.merge other with
    | error e => rfl
    | ok m => exact mergeAll_append bs cs m

end RelQuery.Bindings
