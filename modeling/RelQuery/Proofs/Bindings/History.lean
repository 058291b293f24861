import RelQuery.Proofs.Bindings.Merge

/-!
# Bindings over time

Bindings are made from a list or from nothing, and grow by operations that may fail in between. Nothing that is bound is
ever changed, moved or taken away: an operation only appends names that are new.

* `Bindings.apply_cases` : what one operation appends, and what it reports;
* `Bindings.entries_prefix_applyAll` : what is bound stays in front of what is bound later;
* `Bindings.applyAll_appendOnly` : both of every state that operations lead to.
-/

namespace RelQuery.Bindings

variable {b b' other : Bindings} {name value : String}

/-! ## Operations -/

/-- An operation on bindings. -/
inductive Operation where
  /-- One name is bound. -/
  | insert (name value : String)
  /-- All names of other bindings are bound. -/
  | extend (other : Bindings)

/-- The names that an operation binds, with their values, in order. -/
def Operation.entries : Operation → List (String × String)
  | insert name value => [(name, value)]
  | extend other => other.entries

theorem Operation.nodup_entries (op : Operation) : (op.entries.map Prod.fst).Nodup := by
  cases op with
  | insert name value => simp [entries]
  | extend other => exact other.nodup

/-- What an operation leaves, and the error that it ends with if it fails. -/
def apply (b : Bindings) : Operation → Bindings × Option QueryError
  | .insert name value =>
    match b.insert? name value with
    | some b' => (b', none)
    | none => (b, some (.parameterConflict name))
  | .extend other =>
    match b.extend other.entries with
    | (b', none) => (b', none)
    | (b', some name) => (b', some (.parameterConflict name))

/-- What operations leave, one after another, whether they succeed or fail. -/
def applyAll (b : Bindings) (ops : List Operation) : Bindings :=
  ops.foldl (fun b op => (b.apply op).1) b

theorem applyAll_append (b : Bindings) (ops later : List Operation) :
    b.applyAll (ops ++ later) = (b.applyAll ops).applyAll later :=
  List.foldl_append

/-- To bind one name is to bind a list of one. -/
theorem apply_eq (b : Bindings) (op : Operation) :
    b.apply op = ((b.extend op.entries).1, (b.extend op.entries).2.map .parameterConflict) := by
  cases op with
  | insert name value =>
    rw [apply, Operation.entries, extend]
    cases b.insert? name value <;> rfl
  | extend other =>
    rw [apply, Operation.entries]
    rcases b.extend other.entries with ⟨b', _ | name⟩ <;> rfl

/-! ## One operation -/

/-- **An operation** succeeds if all of its names are free or bound to the same value, and appends those that are free;
else it reports the first that is not, and appends the free ones in front of that. -/
theorem apply_cases (b : Bindings) (op : Operation) :
    ((b.apply op).2 = none ∧ (∀ entry ∈ op.entries, b.Fits entry) ∧
        (b.apply op).1.entries = b.entries ++ newEntries b.names op.entries) ∨
      ∃ front name value back, op.entries = front ++ (name, value) :: back ∧
        (b.apply op).2 = some (.parameterConflict name) ∧ (∀ entry ∈ front, b.Fits entry) ∧ ¬b.Fits (name, value) ∧
        (b.apply op).1.entries = b.entries ++ newEntries b.names front := by
  have h := extended_extend op.entries b op.nodup_entries
  rw [apply_eq]
  generalize b.extend op.entries = result at h ⊢
  rcases result with ⟨b', _ | name⟩
  · exact .inl ⟨rfl, h⟩
  · obtain ⟨front, value, back, hsplit, hfront, hconflict, he⟩ := h
    exact .inr ⟨front, name, value, back, hsplit, rfl, hfront, hconflict, he⟩

theorem entries_prefix_apply (b : Bindings) (op : Operation) : b.entries <+: (b.apply op).1.entries := by
  rcases b.apply_cases op with ⟨-, -, he⟩ | ⟨front, name, value, back, -, -, -, -, he⟩
  all_goals
    rw [he]
    exact List.prefix_append ..

theorem apply_of_fits {op : Operation} (h : ∀ entry ∈ op.entries, b.Fits entry) :
    (b.apply op).2 = none ∧ (b.apply op).1.entries = b.entries ++ newEntries b.names op.entries := by
  rcases b.apply_cases op with ⟨hnone, -, he⟩ | ⟨front, name, value, back, hsplit, -, -, hconflict, -⟩
  · exact ⟨hnone, he⟩
  · exact absurd (h (name, value) (hsplit ▸ List.mem_append_right front List.mem_cons_self)) hconflict

/-- An operation succeeds exactly if all of its names are free or bound to the same value. -/
theorem apply_snd_eq_none_iff {op : Operation} : (b.apply op).2 = none ↔ ∀ entry ∈ op.entries, b.Fits entry := by
  refine ⟨fun hnone => ?_, fun h => (apply_of_fits h).1⟩
  rcases b.apply_cases op with ⟨-, hfits, -⟩ | ⟨_, _, _, _, -, hsome, -⟩
  · exact hfits
  · cases hnone.symm.trans hsome

theorem exists_of_apply_snd_eq_some {op : Operation} {e : QueryError} (h : (b.apply op).2 = some e) :
    ∃ front name value back, op.entries = front ++ (name, value) :: back ∧ e = .parameterConflict name ∧
      (∀ entry ∈ front, b.Fits entry) ∧ ¬b.Fits (name, value) ∧
      (b.apply op).1.entries = b.entries ++ newEntries b.names front := by
  rcases b.apply_cases op with ⟨hnone, -⟩ | ⟨front, name, value, back, hsplit, hsome, hfront, hconflict, he⟩
  · cases hnone.symm.trans h
  · exact ⟨front, name, value, back, hsplit, Option.some.inj (h.symm.trans hsome), hfront, hconflict, he⟩

/-- A name that cannot be bound leaves everything as it was. -/
theorem apply_insert_of_not_fits (h : ¬b.Fits (name, value)) :
    b.apply (.insert name value) = (b, some (.parameterConflict name)) := by
  have hnone : b.insert? name value = none := by
    obtain ⟨bound, hb, hne⟩ : ∃ bound, b.get? name = some bound ∧ bound ≠ value := by simpa [Fits] using h
    exact insert?_eq_none_iff.2 ⟨bound, hb, hne⟩
  rw [apply, hnone]

/-! ## All operations -/

/-- **What is bound** stays in front of what is bound later. -/
theorem entries_prefix_applyAll (b : Bindings) (ops : List Operation) : b.entries <+: (b.applyAll ops).entries := by
  induction ops generalizing b with
  | nil => exact List.prefix_refl _
  | cons op ops ih => exact (b.entries_prefix_apply op).trans (ih _)

theorem get?_applyAll_of_eq_some (h : b.get? name = some value) (ops : List Operation) :
    (b.applyAll ops).get? name = some value :=
  get?_eq_some_iff.2 ((b.entries_prefix_applyAll ops).subset (get?_eq_some_iff.1 h))

theorem getElem?_applyAll_of_eq_some {entry : String × String} {i : Nat} (h : b.entries[i]? = some entry)
    (ops : List Operation) : (b.applyAll ops).entries[i]? = some entry := by
  obtain ⟨appended, he⟩ := b.entries_prefix_applyAll ops
  rw [← he, List.getElem?_append_left (List.getElem?_eq_some_iff.1 h).1, h]

/-! ## Bindings of a list -/

theorem get?_insert?_getD (b : Bindings) (key value name : String) :
    ((b.insert? key value).getD b).get? name = (b.get? name).or ([(key, value)].lookup name) := by
  cases hi : b.insert? key value with
  | none =>
    obtain ⟨bound, hb, -⟩ := insert?_eq_none_iff.1 hi
    by_cases hn : name = key
    · subst hn
      simp [hb]
    · simp [List.lookup_cons, beq_false_of_ne hn]
  | some b' =>
    simp only [Option.getD_some]
    rw [get?, entries_of_insert? hi, List.lookup_append]
    by_cases hn : name ∈ b.names
    · obtain ⟨bound, hb⟩ := mem_names_iff.1 hn
      rw [show b.entries.lookup name = some bound from hb, hb]
      rfl
    · rw [lookup_newEntries hn]
      rfl

/-- Of several entries of a list for one name, the first counts. -/
theorem get?_ofList (entries : List (String × String)) (name : String) :
    (ofList entries).get? name = entries.lookup name := by
  have hfold (b : Bindings) : (entries.foldl (fun b entry => (b.insert? entry.1 entry.2).getD b) b).get? name =
      (b.get? name).or (entries.lookup name) := by
    induction entries generalizing b with
    | nil => exact Option.or_none.symm
    | cons entry entries ih =>
      rw [List.foldl_cons, ih, get?_insert?_getD, Option.or_assoc, ← List.lookup_append]
      rfl
  exact hfold empty

/-- **Bindings only grow.** In every state that operations lead to, from a list or from nothing: no name is bound twice;
what is bound keeps its place and its value whatever happens later; a name is bound at the end if it is free, and
changes nothing if it is bound, whether this is reported or not; and other bindings are taken over exactly if no name is
bound differently in them, in their order and as far as their names are new, or else up to the first of their names that
is bound differently, which is reported. -/
theorem applyAll_appendOnly (start : List (String × String)) (ops : List Operation) :
    let b := (ofList start).applyAll ops
    b.names.Nodup ∧
      (∀ name, (ofList start).get? name = start.lookup name) ∧
      (∀ later, b.entries <+: ((ofList start).applyAll (ops ++ later)).entries ∧
        ∀ (i : Nat) (name value : String), b.entries[i]? = some (name, value) →
          ((ofList start).applyAll (ops ++ later)).entries[i]? = some (name, value) ∧
            ((ofList start).applyAll (ops ++ later)).get? name = some value) ∧
      (∀ name value,
        let after := b.apply (.insert name value)
        (b.Fits (name, value) →
            after.2 = none ∧ after.1.entries = b.entries ++ newEntries b.names [(name, value)]) ∧
          (¬b.Fits (name, value) → after = (b, some (.parameterConflict name)))) ∧
      ∀ other,
        let after := b.apply (.extend other)
        (after.2 = none ↔ Agree b other) ∧
          (after.2 = none → after.1.entries = b.entries ++ newEntries b.names other.entries) ∧
          ∀ e, after.2 = some e → ∃ front name value back, other.entries = front ++ (name, value) :: back ∧
            e = .parameterConflict name ∧ (∀ entry ∈ front, b.Fits entry) ∧ ¬b.Fits (name, value) ∧
            after.1.entries = b.entries ++ newEntries b.names front := by
  intro b
  refine ⟨b.nodup, get?_ofList start, fun later => ?_, fun name value => ?_, fun other => ?_⟩
  · rw [applyAll_append]
    refine ⟨b.entries_prefix_applyAll later, fun i name value hi => ⟨getElem?_applyAll_of_eq_some hi later, ?_⟩⟩
    exact get?_applyAll_of_eq_some (get?_eq_some_iff.2 (List.mem_of_getElem? hi)) later
  · exact ⟨fun hfits => apply_of_fits (List.forall_mem_singleton.2 hfits), apply_insert_of_not_fits⟩
  · refine ⟨apply_snd_eq_none_iff.trans agree_iff_fits.symm, fun hnone => ?_, fun e => exists_of_apply_snd_eq_some⟩
    exact (apply_of_fits (apply_snd_eq_none_iff.1 hnone)).2

/-- A refused name, other bindings that are taken over in part, and others again: their names in front of the conflict
stay, and so does what was bound before. -/
theorem applyAll_appendOnly_conflicts :
    let first : Bindings := ⟨[("q", "1"), ("p", "y"), ("r", "2")], by decide⟩
    let other : Bindings := ⟨[("q", "1"), ("s", "4"), ("p", "z"), ("t", "5")], by decide⟩
    let start := [("p", "x"), ("p", "w")]
    let ops : List Operation := [.insert "p" "y", .extend first]
    let b := (ofList start).applyAll ops
    let later := (ofList start).applyAll (ops ++ [.extend other, .insert "r" "3"])
    b.entries = [("p", "x"), ("q", "1")] ∧
      later.entries = [("p", "x"), ("q", "1"), ("s", "4"), ("r", "3")] ∧
      later.entries[1]? = some ("q", "1") ∧ later.get? "q" = some "1" ∧
      ¬b.Fits ("p", "y") ∧ b.apply (.insert "p" "y") = (b, some (.parameterConflict "p")) ∧
      (b.apply (.extend other)).2 = some (.parameterConflict "p") ∧ ¬Agree b other ∧
      ∃ front name value back, other.entries = front ++ (name, value) :: back ∧ ¬b.Fits (name, value) ∧
        (b.apply (.extend other)).1.entries = b.entries ++ newEntries b.names front := by
  intro first other start ops b later
  obtain ⟨-, -, hlater, hinsert, hextend⟩ := applyAll_appendOnly start ops
  have hb : b.entries = [("p", "x"), ("q", "1")] := by decide +kernel
  have hfits : ¬b.Fits ("p", "y") := fun h => absurd (h "x" (by decide +kernel)) (by decide)
  have hconflict : (b.apply (.extend other)).2 = some (.parameterConflict "p") := by decide +kernel
  obtain ⟨hplace, hvalue⟩ := (hlater [.extend other, .insert "r" "3"]).2 1 "q" "1" (by rw [hb]; rfl)
  obtain ⟨front, name, value, back, hsplit, -, -, hne, hentries⟩ := (hextend other).2.2 _ hconflict
  refine ⟨hb, by decide +kernel, hplace, hvalue, hfits, (hinsert "p" "y").2 hfits, hconflict, fun hagree => ?_,
    front, name, value, back, hsplit, hne, hentries⟩
  cases hconflict.symm.trans ((hextend other).1.2 hagree)

end RelQuery.Bindings
