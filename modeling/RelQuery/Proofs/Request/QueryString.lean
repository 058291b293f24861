import RelQuery.Request
import RelQuery.Proofs.Text.Cutting
import RelQuery.Proofs.Text.Pieces

/-!
# The query string of a request

A request is written as fields `key=value` joined by `&`, and a value is written as it is: nothing in it is escaped. So
a value that holds `&` reads as more than one field.

* `Request.fieldsOf_queryString_iff` : the fields are read back exactly if no value holds `&`;
* `Request.queryString_injective` : a value is told from the fields behind it as long as it does not hold the beginning
  of one, `&` and a later key and `=`.
-/

namespace RelQuery

open Text

/-! ## Fields -/

/-- The text of a field. -/
def fieldText (field : List Char × List Char) : List Char :=
  field.1 ++ '=' :: field.2

/-- The fields of a query string: it is parted at every `&`, and each part at its first `=`. A part without `=` is no
field. -/
def fieldsOf (s : List Char) : List (List Char × List Char) :=
  (pieces (· == '&') s).filterMap (cut? ['='])

theorem cut?_fieldText {field : List Char × List Char} (h : '=' ∉ field.1) :
    cut? ['='] (fieldText field) = some field :=
  cut?_singleton_iff.2 ⟨rfl, h⟩

/-- Values that are read hold no `&`. -/
theorem notMem_of_mem_fieldsOf {s : List Char} {field : List Char × List Char} (h : field ∈ fieldsOf s) :
    '&' ∉ field.2 := by
  obtain ⟨w, hw, hcut⟩ := List.mem_filterMap.1 h
  intro hm
  have he : w = field.1 ++ ['='] ++ field.2 := append_of_cut? hcut
  exact notMem_of_mem_pieces hw (he ▸ List.mem_append_right _ hm)

theorem fieldsOf_intercalate {fields : List (List Char × List Char)} (hn : fields ≠ [])
    (hname : ∀ field ∈ fields, '=' ∉ field.1) (hsep : ∀ field ∈ fields, '&' ∉ fieldText field) :
    fieldsOf (['&'].intercalate (fields.map fieldText)) = fields := by
  have hpieces : pieces (· == '&') (['&'].intercalate (fields.map fieldText)) = fields.map fieldText :=
    pieces_intercalate (List.forall_mem_map.2 hsep) (by simpa using hn)
  rw [fieldsOf, hpieces, List.filterMap_map]
  have hcut : ∀ field ∈ fields, (cut? ['='] ∘ fieldText) field = some (id field) :=
    fun field hf => cut?_fieldText (hname field hf)
  rw [List.filterMap_eq_map_iff_forall_eq_some.2 hcut, List.map_id]

/-! ## Keys -/

namespace RequestKey

/-- The key `later` is written behind `key`. -/
def Before (key later : RequestKey) : Prop :=
  [key, later].Sublist all

instance (key later : RequestKey) : Decidable (key.Before later) :=
  inferInstanceAs (Decidable ([key, later].Sublist all))

theorem pairwise_all : all.Pairwise Before :=
  List.pairwise_iff_forall_sublist.2 fun h => h

theorem mem_all (key : RequestKey) : key ∈ all := by
  cases key <;> decide

theorem equals_notMem_name (key : RequestKey) : '=' ∉ key.name.toList := by
  cases key <;> decide

theorem ampersand_notMem_name (key : RequestKey) : '&' ∉ key.name.toList := by
  cases key <;> decide

theorem name_injective {key key' : RequestKey} (h : key.name = key'.name) : key = key' := by
  cases key <;> cases key' <;> first | rfl | exact absurd h (by decide)

end RequestKey

namespace Request

variable {r s : Request}

/-- The field that a key with its text is written as. -/
def field (entry : RequestKey × String) : List Char × List Char :=
  (entry.1.name.toList, entry.2.toList)

theorem toList_queryString (r : Request) :
    r.queryString.toList = ['&'].intercalate ((r.present.map field).map fieldText) := by
  rw [queryString, String.toList_intercalate, List.map_map, List.map_map]
  have hentry : ∀ entry : RequestKey × String,
      (s!"{entry.1.name}={entry.2}").toList = fieldText (field entry) := by
    intro entry
    show (entry.1.name ++ "=" ++ entry.2).toList = _
    simp [fieldText, field]
  simp only [Function.comp_def, hentry]
  rfl

theorem mem_present {key : RequestKey} {value : String} : (key, value) ∈ r.present ↔ r.get? key = some value := by
  simp [present, RequestKey.mem_all]

/-- A request is its present keys. -/
theorem present_injective (h : r.present = s.present) : r = s := by
  have hget : ∀ key, r.get? key = s.get? key := by
    intro key
    ext value
    rw [← mem_present, ← mem_present, h]
  exact Request.ext (hget .select) (hget .filter) (hget .expand) (hget .orderBy) (hget .top) (hget .skip) (hget .count)

theorem pairwise_present (r : Request) : r.present.Pairwise fun e e' => e.1.Before e'.1 := by
  refine RequestKey.pairwise_all.filterMap _ fun key later h entry he entry' he' => ?_
  obtain ⟨_, _, rfl⟩ := Option.map_eq_some_iff.1 he
  obtain ⟨_, _, rfl⟩ := Option.map_eq_some_iff.1 he'
  exact h

/-- No key is present exactly if there is nothing to parse. -/
theorem queryString_eq_empty_iff (r : Request) : r.queryString = "" ↔ r.present = [] := by
  rw [queryString]
  cases r.present with
  | nil => simp
  | cons entry entries =>
    -- whatever the key and its text are, the first entry holds a `=`
    cases entries <;> simp [show toString "=" ≠ "" by decide]

/-- **The fields are read back** exactly if no value holds the separator. -/
theorem fieldsOf_queryString_iff (r : Request) :
    fieldsOf r.queryString.toList = r.present.map field ↔ ∀ entry ∈ r.present, '&' ∉ entry.2.toList := by
  constructor
  · intro h entry he
    have hfield : field entry ∈ fieldsOf r.queryString.toList := h ▸ List.mem_map_of_mem he
    exact notMem_of_mem_fieldsOf hfield
  · intro h
    rw [toList_queryString]
    cases hp : r.present with
    | nil => rfl
    | cons entry entries =>
      rw [← hp]
      have hsep : ∀ e ∈ r.present, '&' ∉ fieldText (field e) := by
        intro e he
        have hname := e.1.ampersand_notMem_name
        have hvalue := h e he
        simp [fieldText, field, hname, hvalue]
      apply fieldsOf_intercalate
      · simp [hp]
      · exact List.forall_mem_map.2 fun e _ => e.1.equals_notMem_name
      · exact List.forall_mem_map.2 hsep

/-! ## Values and the fields behind them -/

/-- How a field of the given key begins behind another field. -/
def opening (key : RequestKey) : List Char :=
  '&' :: (key.name.toList ++ ['='])

/-- The value holds no beginning of a field that may stand behind it. -/
def Bounded (entry : RequestKey × String) : Prop :=
  ∀ later, entry.1.Before later → ¬opening later <:+: entry.2.toList

instance (entry : RequestKey × String) : Decidable (Bounded entry) :=
  decidable_of_iff (∀ later ∈ RequestKey.all, entry.1.Before later → ¬opening later <:+: entry.2.toList)
    (by simp [Bounded, RequestKey.mem_all])

/-- The text of the fields behind another. -/
def tailText (entries : List (RequestKey × String)) : List Char :=
  entries.flatMap fun entry => '&' :: fieldText (field entry)

variable {entry entry' : RequestKey × String} {entries entries' : List (RequestKey × String)}

theorem tailText_cons (entry : RequestKey × String) (entries : List (RequestKey × String)) :
    tailText (entry :: entries) = '&' :: fieldText (entry.1.name.toList, entry.2.toList ++ tailText entries) := by
  simp [tailText, fieldText, field]

theorem tailText_eq_opening_append (entry : RequestKey × String) (entries : List (RequestKey × String)) :
    tailText (entry :: entries) = opening entry.1 ++ (entry.2.toList ++ tailText entries) := by
  simp [tailText_cons, fieldText, opening]

theorem tailText_eq (h : entries ≠ []) :
    tailText entries = '&' :: ['&'].intercalate ((entries.map field).map fieldText) := by
  induction entries with
  | nil => exact absurd rfl h
  | cons entry entries ih =>
    cases entries with
    | nil => simp [tailText]
    | cons next entries =>
      have hnext := ih (List.cons_ne_nil _ _)
      rw [tailText] at hnext ⊢
      rw [List.flatMap_cons, hnext]
      simp

/-- What stands between a value and the fields behind it would hold the beginning of the first of them. -/
theorem eq_nil_of_tailText_eq_append {t : List Char} (h : tailText entries = t ++ tailText entries')
    (ht : ∀ entry ∈ entries, ¬opening entry.1 <:+: t) : t = [] := by
  cases entries with
  | nil => exact (List.append_eq_nil_iff.1 h.symm).1
  | cons entry entries =>
    have hopening := ht entry List.mem_cons_self
    rw [tailText_eq_opening_append] at h
    rcases List.append_eq_append_iff.1 h with ⟨u, rfl, _⟩ | ⟨u, hu, htail⟩
    · exact absurd (List.prefix_append _ _).isInfix hopening
    · cases t with
      | nil => rfl
      | cons c t =>
        cases u with
        | nil => exact absurd (by simp [hu]) hopening
        | cons x u =>
          -- the fields behind would begin inside the name of a key
          obtain ⟨_, hname⟩ := List.cons.inj hu
          have hx : x = '&' := by
            cases entries' with
            | nil => cases htail
            | cons entry' entries' =>
              rw [tailText_cons] at htail
              exact (List.cons.inj htail).1.symm
          have hm : '&' ∈ entry.1.name.toList ++ ['='] := by
            rw [hname, hx]
            exact List.mem_append_right t List.mem_cons_self
          exact absurd hm (by simp [entry.1.ampersand_notMem_name])

/-- **Fields are told from their text**, if their values are bounded. -/
theorem eq_of_tailText_eq (hp : entries.Pairwise fun e e' => e.1.Before e'.1)
    (hp' : entries'.Pairwise fun e e' => e.1.Before e'.1) (hb : ∀ entry ∈ entries, Bounded entry)
    (hb' : ∀ entry ∈ entries', Bounded entry) (h : tailText entries = tailText entries') : entries = entries' := by
  induction entries generalizing entries' with
  | nil =>
    cases entries' with
    | nil => rfl
    | cons entry' entries' =>
      rw [tailText_cons] at h
      cases h
  | cons entry entries ih =>
    cases entries' with
    | nil =>
      rw [tailText_cons] at h
      cases h
    | cons entry' entries' =>
      obtain ⟨key, value⟩ := entry
      obtain ⟨key', value'⟩ := entry'
      rw [tailText_cons, tailText_cons] at h
      let whole : List Char × List Char := (key.name.toList, value.toList ++ tailText entries)
      have hcut : cut? ['='] (fieldText whole) = some whole := cut?_fieldText key.equals_notMem_name
      rw [(List.cons.inj h).2, cut?_fieldText key'.equals_notMem_name] at hcut
      obtain ⟨hname, hrest⟩ := Prod.mk.inj (Option.some.inj hcut.symm)
      obtain rfl := RequestKey.name_injective (String.toList_inj.1 hname)
      obtain ⟨hbefore, hpairs⟩ := List.pairwise_cons.1 hp
      obtain ⟨hbefore', hpairs'⟩ := List.pairwise_cons.1 hp'
      obtain ⟨hvalue, htails⟩ := List.forall_mem_cons.1 hb
      obtain ⟨hvalue', htails'⟩ := List.forall_mem_cons.1 hb'
      -- of the two values one begins with the other, and no field begins in what it has more
      have hboth : value = value' ∧ tailText entries = tailText entries' := by
        rcases List.append_eq_append_iff.1 hrest with ⟨t, ht, htail⟩ | ⟨t, ht, htail⟩
        · obtain rfl := eq_nil_of_tailText_eq_append htail fun e he hin =>
            hvalue' e.1 (hbefore e he) (ht ▸ hin.trans (List.suffix_append _ _).isInfix)
          exact ⟨String.toList_inj.1 (by simpa using ht.symm), by simpa using htail⟩
        · obtain rfl := eq_nil_of_tailText_eq_append htail fun e he hin =>
            hvalue e.1 (hbefore' e he) (ht ▸ hin.trans (List.suffix_append _ _).isInfix)
          exact ⟨String.toList_inj.1 (by simpa using ht), by simpa using htail.symm⟩
      obtain ⟨rfl, htail⟩ := hboth
      rw [ih hpairs hpairs' htails htails' htail]

/-- **A query string has one request** whose values are bounded. -/
theorem queryString_injective (hr : ∀ entry ∈ r.present, Bounded entry) (hs : ∀ entry ∈ s.present, Bounded entry)
    (h : r.queryString = s.queryString) : r = s := by
  apply present_injective
  apply eq_of_tailText_eq (pairwise_present r) (pairwise_present s) hr hs
  by_cases hp : r.present = []
  · have hp' : s.present = [] := by rwa [← queryString_eq_empty_iff, ← h, queryString_eq_empty_iff]
    rw [hp, hp']
  · have hp' : s.present ≠ [] := by rwa [Ne, ← queryString_eq_empty_iff, ← h, queryString_eq_empty_iff]
    rw [tailText_eq hp, tailText_eq hp', ← toList_queryString, ← toList_queryString, h]

/-- **What a query string tells.** Its fields are the keys of the request with their values exactly if no value holds
the separator; and two requests have two query strings, unless a value of one of them holds the beginning of a field
that may stand behind it. -/
theorem fieldsOf_queryString_and_ne :
    (∀ r : Request, fieldsOf r.queryString.toList = r.present.map field ↔ ∀ entry ∈ r.present, '&' ∉ entry.2.toList) ∧
      ∀ r s : Request, (∀ entry ∈ r.present, Bounded entry) → (∀ entry ∈ s.present, Bounded entry) → r ≠ s →
        r.queryString ≠ s.queryString :=
  ⟨fieldsOf_queryString_iff, fun _ _ hr hs hne h => hne (queryString_injective hr hs h)⟩

/-- A separator in a value is told from one behind it if no later key follows it. -/
theorem fieldsOf_queryString_and_ne_select :
    let r : Request := { filter := some "a&$select=b" }
    let s : Request := { select := some "b", filter := some "a" }
    (∀ entry ∈ r.present, Bounded entry) ∧ (∀ entry ∈ s.present, Bounded entry) ∧ r ≠ s ∧
      r.queryString ≠ s.queryString := by
  intro r s
  have hr : ∀ entry ∈ r.present, Bounded entry := by decide +kernel
  have hs : ∀ entry ∈ s.present, Bounded entry := by decide +kernel
  have hne : r ≠ s := by decide
  exact ⟨hr, hs, hne, fieldsOf_queryString_and_ne.2 r s hr hs hne⟩

/-- A value may read as more than one field, and the same text may then be that of two requests. -/
theorem not_forall_fieldsOf_queryString :
    (¬∀ r : Request, fieldsOf r.queryString.toList = r.present.map field) ∧
      ¬∀ r s : Request, r ≠ s → r.queryString ≠ s.queryString := by
  constructor
  · intro h
    exact absurd (h { filter := some "a&$top=5" }) (by decide +kernel)
  · intro h
    exact h { filter := some "a&$top=5" } { filter := some "a", top := some "5" } (by decide) (by decide +kernel)

end Request

end RelQuery
