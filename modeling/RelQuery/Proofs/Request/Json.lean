import RelQuery.Request.Json
import RelQuery.Proofs.Json.Printing
import RelQuery.Proofs.Request.Paging
import RelQuery.Proofs.Request.QueryString

/-!
# Requests, written and read as JSON

* `Request.ofText?_of_holds` : what a member adds to the request that the other members stand for;
* `Request.ofText?_toText` : a request, written and read, is itself;
* `Request.ofText?_faithful` : with the two numbers of a page, in each of the forms in which they may stand.
-/

namespace RelQuery.Request

open Text

variable {r : Request} {key : RequestKey} {value : Json} {text : String}

/-! ## One key -/

/-- The request with another text, or none, under a key. -/
def set (r : Request) (key : RequestKey) (text? : Option String) : Request :=
  match key with
  | .select => { r with select := text? }
  | .filter => { r with filter := text? }
  | .expand => { r with expand := text? }
  | .orderBy => { r with orderBy := text? }
  | .top => { r with top := text? }
  | .skip => { r with skip := text? }
  | .count => { r with count := text? }

theorem get?_set (r : Request) (key : RequestKey) (text? : Option String) (k : RequestKey) :
    (r.set key text?).get? k = if k = key then text? else r.get? k := by
  cases key <;> cases k <;> rfl

/-- Each key is read on its own. -/
theorem ofValues?_eq_some_iff {values : RequestKey → List Json} :
    ofValues? values = some r ↔ ∀ key, readValues? key (values key) = some (r.get? key) := by
  constructor
  · intro h key
    simp only [ofValues?, Option.bind_eq_bind, Option.bind_eq_some_iff, Option.pure_def, Option.some.injEq] at h
    obtain ⟨select, hselect, filter, hfilter, expand, hexpand, orderBy, horderBy, top, htop, skip, hskip, count, hcount,
      rfl⟩ := h
    cases key <;> assumption
  · intro h
    simp [ofValues?, h, get?]

/-- One key more is read, beside the others. -/
theorem ofValues?_insert {values values' : RequestKey → List Json} (h : ofValues? values = some r)
    (hkey : values' key = [value]) (hother : ∀ k ≠ key, values' k = values k) :
    ofValues? values' = (readValue? key value).map (r.set key) := by
  have hreads := ofValues?_eq_some_iff.1 h
  cases hv : readValue? key value with
  | none =>
    rw [Option.map_none, Option.eq_none_iff_forall_ne_some]
    intro s hs
    have hk := ofValues?_eq_some_iff.1 hs key
    rw [hkey, readValues?, hv] at hk
    cases hk
  | some text? =>
    rw [Option.map_some, ofValues?_eq_some_iff]
    intro k
    rw [get?_set]
    by_cases hk : k = key
    · rw [if_pos hk, hk, hkey, readValues?, hv]
    · rw [if_neg hk, hother k hk, hreads k]

/-! ## Members -/

/-- The values that stand under a key. -/
def valuesOf (members : List (List Char × Json)) (key : RequestKey) : List Json :=
  (members.filter (·.1 == key.name.toList)).map (·.2)

theorem ofJson?_object (members : List (List Char × Json)) :
    ofJson? (.object members) = (readKeys? members).bind fun members => ofValues? (valuesOf members) :=
  rfl

theorem valuesOf_append (members members' : List (List Char × Json)) (key : RequestKey) :
    valuesOf (members ++ members') key = valuesOf members key ++ valuesOf members' key := by
  simp [valuesOf]

theorem valuesOf_cons_self (key : RequestKey) (value : Json) (members : List (List Char × Json)) :
    valuesOf ((key.name.toList, value) :: members) key = value :: valuesOf members key := by
  simp [valuesOf]

theorem valuesOf_cons_of_ne {k : RequestKey} (h : k ≠ key) (value : Json) (members : List (List Char × Json)) :
    valuesOf ((key.name.toList, value) :: members) k = valuesOf members k := by
  have hn : (key.name.toList == k.name.toList) = false := by
    rw [beq_eq_false_iff_ne]
    exact fun he => h (RequestKey.name_injective (String.toList_inj.1 he)).symm
  rw [valuesOf, List.filter_cons_of_neg (by simp [hn]), valuesOf]

theorem readKeys?_append (members members' : List (List Char × Json)) : readKeys? (members ++ members') =
    (readKeys? members).bind fun ms => (readKeys? members').map (ms ++ ·) := by
  induction members with
  | nil => simp [readKeys?]
  | cons member members ih =>
    rw [List.cons_append, readKeys?, readKeys?, ih]
    cases Json.unescape? member.1 with
    | none => rfl
    | some key => cases readKeys? members <;> cases readKeys? members' <;> rfl

/-- A key that is read is spelled by the key of a member. -/
theorem exists_of_mem_readKeys? {members named : List (List Char × Json)} (h : readKeys? members = some named)
    {entry : List Char × Json} (he : entry ∈ named) :
    ∃ member ∈ members, Json.unescape? member.1 = some entry.1 := by
  induction members generalizing named with
  | nil =>
    obtain rfl := by simpa [readKeys?] using h
    cases he
  | cons member members ih =>
    simp only [readKeys?, Option.bind_eq_bind, Option.bind_eq_some_iff, Option.pure_def, Option.some.injEq] at h
    obtain ⟨name, hname, rest, hrest, rfl⟩ := h
    rcases List.mem_cons.1 he with rfl | he
    · exact ⟨member, List.mem_cons_self, hname⟩
    · obtain ⟨m, hm, hmn⟩ := ih hrest he
      exact ⟨m, List.mem_cons_of_mem _ hm, hmn⟩

/-- The text is that of an object in which the value stands under the key, and the request is what the other members
stand for. Members may stand in any order and spell their keys in any way. -/
def Holds (text : String) (r : Request) (key : RequestKey) (value : Json) : Prop :=
  ∃ before literal after,
    Json.parse? text = some (.object (before ++ (literal, value) :: after)) ∧
    Json.unescape? literal = some key.name.toList ∧
    (∀ member ∈ before ++ after, Json.unescape? member.1 ≠ some key.name.toList) ∧
    ofJson? (.object (before ++ after)) = some r

/-- **What a member adds** to the request that the other members stand for: its text under its key. -/
theorem ofText?_of_holds (h : Holds text r key value) : ofText? text = (readValue? key value).map (r.set key) := by
  obtain ⟨before, literal, after, hparse, hkey, hother, hr⟩ := h
  rw [ofJson?_object, Option.bind_eq_some_iff] at hr
  obtain ⟨named, hnamed, hvalues⟩ := hr
  have hnone : valuesOf named key = [] := by
    rw [valuesOf, List.map_eq_nil_iff, List.filter_eq_nil_iff]
    intro entry he hn
    obtain ⟨member, hm, hu⟩ := exists_of_mem_readKeys? hnamed he
    exact hother member hm (eq_of_beq hn ▸ hu)
  rw [readKeys?_append, Option.bind_eq_some_iff] at hnamed
  obtain ⟨front, hfront, hnamed⟩ := hnamed
  obtain ⟨back, hback, rfl⟩ := Option.map_eq_some_iff.1 hnamed
  have hread : readKeys? (before ++ (literal, value) :: after) =
      some (front ++ (key.name.toList, value) :: back) := by
    simp [readKeys?_append, readKeys?, hfront, hback, hkey]
  rw [ofText?, hparse, Option.bind_some, ofJson?_object, hread, Option.bind_some]
  apply ofValues?_insert hvalues
  · rw [valuesOf_append] at hnone
    obtain ⟨hf, hb⟩ := List.append_eq_nil_iff.1 hnone
    rw [valuesOf_append, valuesOf_cons_self, hf, hb, List.nil_append]
  · intro k hk
    rw [valuesOf_append, valuesOf_cons_of_ne hk, valuesOf_append]

/-! ## A request, written -/

theorem readKeys?_escape (members : List (String × Json)) :
    readKeys? (members.map fun (key, value) => (Json.escape key.toList, value)) =
      some (members.map fun (key, value) => (key.toList, value)) := by
  induction members with
  | nil => rfl
  | cons member members ih => simp [readKeys?, ih, Json.unescape?_escape]

/-- A present key is present once. -/
theorem filter_present (r : Request) (key : RequestKey) :
    r.present.filter (·.1 = key) = ((r.get? key).map fun value => (key, value)).toList := by
  have hkeep : ∀ k, ((r.get? k).map fun value => (k, value)).filter (·.1 = key) =
      if k = key then (r.get? key).map fun value => (key, value) else none := by
    intro k
    by_cases hk : k = key
    · subst hk
      cases r.get? k <;> simp [Option.filter]
    · cases r.get? k <;> simp [Option.filter, hk]
  rw [present, List.filter_filterMap]
  simp only [hkeep]
  generalize (r.get? key).map (fun value => (key, value)) = entry?
  cases entry? <;> cases key <;> rfl

/-- The members of a request that is written. -/
def members (r : Request) : List (String × Json) :=
  r.present.map fun (key, value) => (key.name, .ofText value)

theorem toJson_eq (r : Request) : r.toJson = .ofMembers r.members :=
  rfl

theorem valuesOf_members (r : Request) (key : RequestKey) :
    valuesOf (r.members.map fun (key, value) => (key.toList, value)) key = ((r.get? key).map .ofText).toList := by
  have hname : ∀ entry : RequestKey × String, (entry.1.name.toList == key.name.toList) = decide (entry.1 = key) := by
    intro entry
    rw [Bool.eq_iff_iff, beq_iff_eq, decide_eq_true_iff, String.toList_inj]
    exact ⟨RequestKey.name_injective, congrArg _⟩
  have hfilter : valuesOf (r.members.map fun (key, value) => (key.toList, value)) key =
      (r.present.filter (·.1 = key)).map fun entry => .ofText entry.2 := by
    simp only [valuesOf, members, List.map_map, List.filter_map, Function.comp_def, hname]
  rw [hfilter, filter_present]
  cases r.get? key <;> rfl

theorem readValue?_of_text? {s : String} (key : RequestKey) (h : value.text? = some s) :
    readValue? key value = some (some s) := by
  cases value with
  | string literal => rw [readValue?, h, Option.map_some]
  | _ => cases h

theorem ofJson?_toJson (r : Request) : ofJson? r.toJson = some r := by
  rw [toJson_eq, Json.ofMembers, ofJson?_object, readKeys?_escape, Option.bind_some, ofValues?_eq_some_iff]
  intro key
  rw [valuesOf_members]
  cases r.get? key with
  | none => rfl
  | some s => exact readValue?_of_text? key (Json.text?_ofText s)

theorem wellFormed_members (r : Request) : ∀ member ∈ r.members, member.2.WellFormed := by
  intro member hm
  obtain ⟨entry, -, rfl⟩ := List.mem_map.1 hm
  exact Json.wellFormed_ofText entry.2

/-- **A request, written and read**, is itself. -/
theorem ofText?_toText (r : Request) : ofText? r.toText = some r := by
  have hw : r.toJson.WellFormed := Json.wellFormed_ofMembers r.wellFormed_members
  rw [toText, ofText?, Json.parse?_print hw, Option.bind_some, ofJson?_toJson]

/-- The request as a JSON text, with one more member. -/
def textWith (r : Request) (key : RequestKey) (value : Json) : String :=
  (Json.ofMembers (r.members ++ [(key.name, value)])).print

/-- What is written with one more member holds it. -/
theorem holds_textWith (hr : r.get? key = none) (hv : value.WellFormed) : Holds (r.textWith key value) r key value := by
  have hw : (Json.ofMembers (r.members ++ [(key.name, value)])).WellFormed := by
    apply Json.wellFormed_ofMembers
    rw [List.forall_mem_append, List.forall_mem_singleton]
    exact ⟨r.wellFormed_members, hv⟩
  refine ⟨r.members.map fun (key, value) => (Json.escape key.toList, value), Json.escape key.name.toList, [], ?_,
    Json.unescape?_escape _, ?_, ?_⟩
  · rw [textWith, Json.parse?_print hw, Json.ofMembers, List.map_append]
    rfl
  · rw [List.append_nil]
    refine List.forall_mem_map.2 fun member hm => ?_
    obtain ⟨⟨k, s⟩, hentry, rfl⟩ := List.mem_map.1 hm
    intro hk
    simp only [Json.unescape?_escape, Option.some.injEq, String.toList_inj] at hk
    obtain rfl := RequestKey.name_injective hk
    simp [mem_present, hr] at hentry
  · rw [List.append_nil]
    exact ofJson?_toJson r

/-! ## The numbers of a page -/

/-- The value stands for the number: as it is, or in a string. -/
def StandsFor (value : Json) (n : Nat) : Prop :=
  value = .ofNat n ∨ value.text? = some (decimalText n)

variable {n : Nat}

theorem isWord_decimal (hn : n < wordCount) : isWord (decimal n) = true := by
  have hminus : ∀ s, decimal n ≠ '-' :: s := decimal_ne_cons rfl n
  have hint : (Json.number (decimal n)).int? = some (n : Int) := by
    rw [Json.int?, nat?_decimal]
    · rfl
    · exact hminus
  simp only [isWord, hint, Bool.and_eq_true, bne_iff_ne, decide_eq_true_eq]
  exact ⟨hminus _, by omega, by omega⟩

theorem readValue?_of_standsFor (hk : takesScalar key = true) (hn : n < wordCount) (h : StandsFor value n) :
    readValue? key value = some (some (decimalText n)) := by
  rcases h with rfl | h
  · rw [Json.ofNat, readValue?, hk, isWord_decimal hn]
    rfl
  · exact readValue?_of_text? key h

/-- **Writing a request and reading it again** gives the request, whatever its texts are. A page's size and the rows in
front of it may be written as a number, as a string with its decimals, or be set: that is the same request, which
reads as the number. The decimals of an integer that does not fit are kept, and are reported when they are read. -/
theorem ofText?_faithful (r : Request) :
    ofText? r.toText = some r ∧
    (∀ n < wordCount, ((r.withTop n).topValue? = .ok (some n) ∧ (r.withSkip n).skipValue = .ok n) ∧
      ∀ text value, StandsFor value n →
        (Holds text r .top value → ofText? text = some (r.withTop n)) ∧
        (Holds text r .skip value → ofText? text = some (r.withSkip n))) ∧
    ∀ z : Int, z < 0 ∨ wordCount ≤ z →
      (({ r with top := some (integerText z) } : Request).topValue? = .error (.invalidPaging .top (integerText z)) ∧
        ({ r with skip := some (integerText z) } : Request).skipValue = .error (.invalidPaging .skip (integerText z))) ∧
      ∀ text value, value.text? = some (integerText z) →
        (Holds text r .top value → ofText? text = some { r with top := some (integerText z) }) ∧
        (Holds text r .skip value → ofText? text = some { r with skip := some (integerText z) }) := by
  refine ⟨ofText?_toText r, fun n hn => ⟨⟨topValue?_withTop r hn, skipValue_withSkip r hn⟩, ?_⟩, fun z hz => ⟨?_, ?_⟩⟩
  · intro text value hv
    refine ⟨fun h => ?_, fun h => ?_⟩ <;> rw [ofText?_of_holds h, readValue?_of_standsFor rfl hn hv] <;> rfl
  · have hrefused : ∀ key, pagingValue key (integerText z) = .error (.invalidPaging key (integerText z)) := by
      intro key
      rw [pagingValue_integerText, if_neg (by omega)]
    refine ⟨?_, hrefused .skip⟩
    show (pagingValue .top (integerText z)).map some = _
    rw [hrefused]
    rfl
  · intro text value hv
    refine ⟨fun h => ?_, fun h => ?_⟩ <;> rw [ofText?_of_holds h, readValue?_of_text? _ hv] <;> rfl

/-- The largest number of 64 bits, as it is and as a string, and the number behind it. -/
theorem ofText?_faithful_bounds :
    ofText? (textWith {} .top (.ofNat 18446744073709551615)) = some { top := some "18446744073709551615" } ∧
    ofText? (textWith {} .top (.ofText "18446744073709551615")) = some { top := some "18446744073709551615" } ∧
    (withTop {} 18446744073709551615).topValue? = .ok (some 18446744073709551615) ∧
    ofText? (textWith {} .skip (.ofText "18446744073709551616")) = some { skip := some "18446744073709551616" } ∧
    ({ skip := some "18446744073709551616" } : Request).skipValue =
      .error (.invalidPaging .skip "18446744073709551616") := by
  have hmax : decimalText 18446744073709551615 = "18446744073709551615" := by simp [decimalText, decimal, digitChar]
  have hover : integerText 18446744073709551616 = "18446744073709551616" := by
    rw [show (18446744073709551616 : Int) = ((18446744073709551616 : Nat) : Int) from rfl, integerText_natCast]
    simp [decimalText, decimal, digitChar]
  obtain ⟨-, hfits, hbeyond⟩ := ofText?_faithful {}
  obtain ⟨⟨htop, -⟩, hread⟩ := hfits 18446744073709551615 (by decide)
  obtain ⟨⟨-, hskip⟩, hkept⟩ := hbeyond 18446744073709551616 (by decide)
  rw [hover] at hskip hkept
  have hnumber : StandsFor (.ofNat 18446744073709551615) 18446744073709551615 := .inl rfl
  have hstring : StandsFor (.ofText "18446744073709551615") 18446744073709551615 := .inr (hmax ▸ Json.text?_ofText _)
  refine ⟨?_, ?_, htop, ?_, hskip⟩
  · rw [(hread _ _ hnumber).1 (holds_textWith rfl (Json.wellFormed_ofNat _)), withTop, hmax]
  · rw [(hread _ _ hstring).1 (holds_textWith rfl (Json.wellFormed_ofText _)), withTop, hmax]
  · exact (hkept _ _ (Json.text?_ofText _)).2 (holds_textWith rfl (Json.wellFormed_ofText _))

end RelQuery.Request
