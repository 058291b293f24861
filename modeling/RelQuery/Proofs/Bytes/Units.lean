import RelQuery.Bytes.Unit
import RelQuery.Proofs.Text.Lexing

/-!
# The units of a text

What a cursor sees at a position is told by the characters that are left there: `us.drop i = units s` says that from
position `i` on the units are those of `s`.

* a unit looks like a character of ASCII only if it is that character (`code_ne_of_mem_encode`), so a step that passes
  over each unit of another kind passes over whole characters (`pass_units`);
* a word of ASCII stands in the units exactly where it stands in the text (`beginsWith_units`).
-/

namespace RelQuery.Bytes

open Text

/-! ## What is left at a position -/

section Drop

variable {α : Type} {us vs rest : List α} {u : α} {i : Nat}

theorem lt_of_drop (h : us.drop i = u :: rest) : i < us.length := by
  have hl := congrArg List.length h
  rw [List.length_drop, List.length_cons] at hl
  omega

theorem not_lt_of_drop (h : us.drop i = []) : ¬i < us.length :=
  Nat.not_lt.2 (List.drop_eq_nil_iff.1 h)

theorem unitAt_of_drop (h : us.drop i = u :: rest) : unitAt us i = .ok u := by
  have hu : us[i]? = some u := by rw [← List.head?_drop, h, List.head?_cons]
  rw [unitAt, hu]
  rfl

theorem unitsFrom_of_le (h : i ≤ us.length) : unitsFrom us i = .ok (us.drop i) := by
  rw [unitsFrom, if_pos h]
  rfl

theorem drop_add_length (h : us.drop i = vs ++ rest) : us.drop (i + vs.length) = rest := by
  rw [← List.drop_drop, h, List.drop_left]

theorem drop_succ (h : us.drop i = u :: rest) : us.drop (i + 1) = rest :=
  drop_add_length (show us.drop i = [u] ++ rest from h)

theorem getElem?_succ (h : us.drop i = u :: rest) : us[i + 1]? = rest.head? := by
  rw [← drop_succ h, List.head?_drop]

/-- A step that passes over each of some units passes over them all. -/
theorem pass_units {β : Type} {f : Nat → β} {p : α → Prop}
    (hf : ∀ i u rest, us.drop i = u :: rest → p u → f i = f (i + 1)) :
    ∀ {vs rest : List α} {i : Nat}, (∀ v ∈ vs, p v) → us.drop i = vs ++ rest → f i = f (i + vs.length)
  | [], _, _, _, _ => rfl
  | v :: vs, rest, i, hp, h => by
    have hstep : f i = f (i + 1) := hf i v (vs ++ rest) h (hp v List.mem_cons_self)
    rw [hstep, pass_units hf (fun w hw => hp w (List.mem_cons_of_mem v hw)) (drop_succ h), List.length_cons,
      Nat.add_assoc, Nat.add_comm 1]

end Drop

/-! ## Units of characters -/

section Units

variable {α : Type} [CodeUnit α]

@[simp] theorem units_nil : (units [] : List α) = [] := rfl

theorem units_cons (c : Char) (s : List Char) : (units (c :: s) : List α) = CodeUnit.encode c ++ units s := rfl

@[simp] theorem units_append (s t : List Char) : (units (s ++ t) : List α) = units s ++ units t :=
  List.flatMap_append ..

@[simp] theorem width_nil : width α [] = 0 := rfl

@[simp] theorem width_append (s t : List Char) : width α (s ++ t) = width α s + width α t := by
  simp [width]

theorem width_cons (c : Char) (s : List Char) : width α (c :: s) = width α [c] + width α s :=
  width_append [c] s

theorem width_cons_pos (c : Char) (s : List Char) : 0 < width α (c :: s) := by
  have hc : 0 < (CodeUnit.encode c : List α).length := List.length_pos_iff.2 (CodeUnit.encode_ne_nil c)
  rw [width, units_cons, List.length_append]
  omega

theorem width_of_ascii {c : Char} (hc : c.toNat < 128) : width α [c] = 1 := by
  obtain ⟨u, hu, _⟩ := CodeUnit.encode_ascii (α := α) c hc
  simp [width, units_cons, hu]

theorem toNat_injective {c x : Char} (h : c.toNat = x.toNat) : c = x :=
  Char.ext (UInt32.toNat_inj.1 h)

/-- No unit of another character looks like a character of ASCII. -/
theorem code_ne_of_mem_encode {c x : Char} (hc : c.toNat < 128) (hx : x ≠ c) :
    ∀ u ∈ (CodeUnit.encode x : List α), code u ≠ c.toNat := by
  intro u hu
  by_cases h : x.toNat < 128
  · obtain ⟨v, hv, hcode⟩ := CodeUnit.encode_ascii (α := α) x h
    rw [hv, List.mem_singleton] at hu
    subst hu
    rw [hcode]
    exact fun e => hx (toNat_injective e)
  · have := CodeUnit.le_code x (Nat.not_lt.1 h) u hu
    omega

/-- Behind the first unit of a character there is nothing that looks like ASCII. -/
theorem exists_encode_cons (c : Char) :
    ∃ u vs, (CodeUnit.encode c : List α) = u :: vs ∧ ∀ v ∈ vs, 128 ≤ code v := by
  obtain ⟨u, vs, hu⟩ := List.exists_cons_of_ne_nil (CodeUnit.encode_ne_nil (α := α) c)
  refine ⟨u, vs, hu, fun v hv => ?_⟩
  by_cases hc : c.toNat < 128
  · obtain ⟨w, hw, _⟩ := CodeUnit.encode_ascii (α := α) c hc
    obtain ⟨_, rfl⟩ := List.cons.inj (hu.symm.trans hw)
    cases hv
  · exact CodeUnit.le_code c (Nat.not_lt.1 hc) v (by rw [hu]; exact List.mem_cons_of_mem u hv)

/-- The units that are left where a character of ASCII comes next. -/
theorem exists_drop_ascii {us : List α} {i : Nat} {c : Char} {s : List Char} (hc : c.toNat < 128)
    (h : us.drop i = units (c :: s)) : ∃ u, us.drop i = u :: units s ∧ code u = c.toNat := by
  obtain ⟨u, hu, hcode⟩ := CodeUnit.encode_ascii (α := α) c hc
  exact ⟨u, by rw [h, units_cons, hu, List.singleton_append], hcode⟩

theorem drop_add_width {us : List α} {i : Nat} {s t : List Char} (h : us.drop i = units (s ++ t)) :
    us.drop (i + width α s) = units t :=
  drop_add_length (by rw [h, units_append])

/-! ## Words -/

/-- Words of ASCII without quotes are recognised by computing. -/
theorem ascii_and_unquoted {word : List Char} (h : (word.all fun c => c.toNat < 128 && !isQuote c) = true) :
    ∀ c ∈ word, c.toNat < 128 ∧ isQuote c = false := by
  simpa using h

theorem map_code_units {word : List Char} (hw : ∀ c ∈ word, c.toNat < 128) :
    (units word : List α).map code = word.map Char.toNat := by
  induction word with
  | nil => rfl
  | cons c word ih =>
    obtain ⟨u, hu, hcode⟩ := CodeUnit.encode_ascii (α := α) c (hw c List.mem_cons_self)
    rw [units_cons, hu, List.singleton_append, List.map_cons, List.map_cons, hcode,
      ih fun x hx => hw x (List.mem_cons_of_mem c hx)]

theorem width_word {word : List Char} (hw : ∀ c ∈ word, c.toNat < 128) : width α word = word.length := by
  have h := congrArg List.length (map_code_units (α := α) hw)
  simpa [width] using h

/-- The units of a text begin with a word of ASCII where the text does. -/
theorem beginsWith_units {word : List Char} (hw : ∀ c ∈ word, c.toNat < 128) (s : List Char) :
    beginsWith word (units s : List α) = (strip? word s).isSome := by
  rw [beginsWith, map_code_units hw]
  induction word generalizing s with
  | nil => simp [strip?]
  | cons c word ih =>
    have hc : c.toNat < 128 := hw c List.mem_cons_self
    cases s with
    | nil => simp [strip?]
    | cons x s =>
      by_cases hx : c = x
      · subst hx
        obtain ⟨u, hu, hcode⟩ := CodeUnit.encode_ascii (α := α) c hc
        rw [units_cons, hu]
        simpa [strip?, hcode] using ih (fun y hy => hw y (List.mem_cons_of_mem c hy)) s
      · -- the first unit of the text is not that of the word
        obtain ⟨u, vs, hu⟩ := List.exists_cons_of_ne_nil (CodeUnit.encode_ne_nil (α := α) x)
        have hne : c.toNat ≠ code u :=
          Ne.symm (code_ne_of_mem_encode hc (Ne.symm hx) u (by rw [hu]; exact List.mem_cons_self))
        simp only [units_cons, hu, List.map_cons, List.cons_append, List.isPrefixOf, beq_false_of_ne hne,
          Bool.false_and, strip?, if_neg hx, Option.isSome_none]

end Units

end RelQuery.Bytes
