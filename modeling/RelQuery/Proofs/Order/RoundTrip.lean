import RelQuery.Plan
import RelQuery.Proofs.Text.Words
import Mathlib.Data.List.Forall2

/-!
# Reading and printing order lists

An entry of an order list is a column, alone or in front of a direction. A list is read if each of its parts between
commas is such an entry or blank. A printed list has commas and blanks only where its printing puts them, so that it is
read back.

* `Order.IsEntry` : the entries that stand for an order;
* `Order.ofText_eq_ok_iff` : the lists that are read, and what they are read as;
* `Order.ofText_listText` : a printed list is read back;
* `Order.ofText_roundTrip` : all of this together, for what is read and for what can be printed.
-/

namespace RelQuery

open Text

/-! ## Directions -/

/-- The word names the direction, in any case. -/
def Direction.Names (direction : Direction) (word : List Char) : Prop :=
  word.map Char.toLower = direction.keyword.toList.map Char.toLower

theorem Direction.ofWord?_eq_some_iff {word : List Char} {direction : Direction} :
    ofWord? word = some direction ↔ direction.Names word := by
  have hasc : asc.Names word ↔ word.map Char.toLower = "asc".toList := Iff.rfl
  have hdesc : desc.Names word ↔ word.map Char.toLower = "desc".toList := Iff.rfl
  unfold ofWord?
  dsimp only
  split
  next h =>
    cases direction
    · exact iff_of_true rfl (hasc.2 h)
    · exact iff_of_false nofun fun hd => absurd (h.symm.trans (hdesc.1 hd)) (by decide)
  next h =>
    cases direction
    · exact iff_of_false (by split <;> nofun) (mt hasc.1 h)
    · rw [hdesc]
      split
      next hd => exact iff_of_true rfl hd
      next hd => exact iff_of_false nofun hd

theorem Direction.Names.isWord {word : List Char} {direction : Direction} (h : direction.Names word) : IsWord word := by
  have hkeyword : ∀ c ∈ direction.keyword.toList.map Char.toLower, isBlank c = false := by
    cases direction <;> simp [keyword, isBlank]
  constructor
  · rintro rfl
    cases direction <;> cases h
  · intro c hc
    by_contra hblank
    -- a blank has no case, so it would stand in the keyword
    have hm : c.toLower ∈ direction.keyword.toList.map Char.toLower := h ▸ List.mem_map_of_mem hc
    rw [toLower_of_isBlank (by simpa using hblank)] at hm
    exact hblank (hkeyword c hm)

theorem Direction.names_keyword (direction : Direction) : direction.Names direction.keyword.toList := rfl

namespace Order

variable {noOrder text : String} {source item : List Char} {o : Order} {os : List Order}

/-! ## Entries -/

/-- An item that stands for an order, with blanks around. -/
inductive IsEntry : List Char → Order → Prop where
  /-- A column alone is in ascending order. -/
  | column {l r : List Char} {o : Order} (hl : isBlankText l = true) (hr : isBlankText r = true)
      (hc : IsWord o.column.toList) (ho : o.direction = .asc) : IsEntry (l ++ o.column.toList ++ r) o
  /-- A direction stands behind its column, with one blank at least between them. -/
  | directed {l m r word : List Char} {o : Order} (hl : isBlankText l = true) (hm : isBlankText m = true)
      (hr : isBlankText r = true) (hne : m ≠ []) (hc : IsWord o.column.toList) (hw : o.direction.Names word) :
      IsEntry (l ++ o.column.toList ++ m ++ word ++ r) o

theorem isEntry_iff_words : IsEntry item o ↔ words item = [o.column.toList] ∧ o.direction = .asc ∨
    ∃ word, words item = [o.column.toList, word] ∧ o.direction.Names word := by
  constructor
  · rintro (⟨hl, hr, hc, ho⟩ | ⟨hl, hm, hr, hne, hc, hw⟩)
    · exact .inl ⟨words_eq_singleton_iff.2 ⟨_, _, rfl, hl, hr, hc⟩, ho⟩
    · exact .inr ⟨_, words_eq_pair_iff.2 ⟨_, _, _, rfl, hl, hm, hr, hne, hc, hw.isWord⟩, hw⟩
  · rintro (⟨hwords, ho⟩ | ⟨word, hwords, hw⟩)
    · obtain ⟨l, r, rfl, hl, hr, hc⟩ := words_eq_singleton_iff.1 hwords
      exact .column hl hr hc ho
    · obtain ⟨l, m, r, rfl, hl, hm, hr, hne, hc, -⟩ := words_eq_pair_iff.1 hwords
      exact .directed hl hm hr hne hc hw

theorem isEntry_trim : IsEntry (trim item) o ↔ IsEntry item o := by
  rw [isEntry_iff_words, isEntry_iff_words, words_trim]

/-- An item that is not blank is read as the order that it stands for, and is refused if there is none. -/
theorem ofEntry_eq_ok_iff (h : isBlankText item = false) : ofEntry source item = .ok o ↔ IsEntry item o := by
  have hne : words item ≠ [] := fun hn => by simp [words_eq_nil_iff.1 hn] at h
  obtain ⟨column, direction⟩ := o
  have hcolumn (w : List Char) : String.ofList w = column ↔ w = column.toList :=
    ⟨fun he => by rw [← he, String.toList_ofList], fun he => by rw [he, String.ofList_toList]⟩
  rw [isEntry_iff_words, ofEntry]
  rcases hw : words item with _ | ⟨w, _ | ⟨word, rest⟩⟩
  · exact absurd hw hne
  · have hasc : Direction.asc = direction ↔ direction = .asc := eq_comm
    simp [hcolumn, hasc]
  · simp only [← Direction.ofWord?_eq_some_iff]
    cases hd : Direction.ofWord? word with
    | none => simp_all
    | some d => cases rest <;> simp [hcolumn, hd]

/-! ## Lists -/

/-- The items of a list between commas, without the blank ones. -/
def items (s : List Char) : List (List Char) :=
  (pieces (· == ',') s).filter (!isBlankText ·)

theorem entries_eq_map_trim (s : List Char) : entries s = (items s).map trim := by
  rw [entries, items, List.filter_map]
  refine congrArg (List.map trim) (List.filter_congr fun item _ => ?_)
  rw [Bool.eq_iff_iff]
  simp [← isBlankText_iff]

theorem isBlankText_of_mem_items {s : List Char} (h : item ∈ items s) : isBlankText item = false := by
  simpa using (List.mem_filter.1 h).2

theorem ofEntries_cons_eq_ok_iff {entries : List (List Char)} : ofEntries source (item :: entries) = .ok os ↔
    ∃ o rest, ofEntry source item = .ok o ∧ ofEntries source entries = .ok rest ∧ os = o :: rest := by
  rw [ofEntries]
  cases ofEntry source item with
  | error e => simp
  | ok o => cases ofEntries source entries <;> simp [eq_comm]

theorem ofEntries_map_trim_eq_ok_iff : ∀ {items : List (List Char)} {os : List Order},
    (∀ item ∈ items, isBlankText item = false) →
      (ofEntries source (items.map trim) = .ok os ↔ List.Forall₂ IsEntry items os)
  | [], os, _ => by
    rw [List.forall₂_nil_left_iff, List.map_nil, ofEntries, Except.ok.injEq, eq_comm]
  | item :: items, os, h => by
    obtain ⟨hitem, hitems⟩ := List.forall_mem_cons.1 h
    have htrim : isBlankText (trim item) = false := by
      rw [Bool.eq_false_iff, ne_eq, ← words_eq_nil_iff, words_trim, words_eq_nil_iff]
      simp [hitem]
    have hentry (o : Order) : ofEntry source (trim item) = .ok o ↔ IsEntry item o :=
      (ofEntry_eq_ok_iff htrim).trans isEntry_trim
    have ih (os : List Order) : ofEntries source (items.map trim) = .ok os ↔ List.Forall₂ IsEntry items os :=
      ofEntries_map_trim_eq_ok_iff hitems
    simp only [List.map_cons, ofEntries_cons_eq_ok_iff, List.forall₂_cons_left_iff, hentry, ih]

/-- The text stands for no order at all: it is blank, or the word for this. -/
def Unordered (noOrder text : String) : Prop :=
  trim text.toList = [] ∨ trim text.toList = noOrder.toList

/-- **A list is read** if it stands for no order, or else if every item that is not blank is an entry. -/
theorem ofText_eq_ok_iff : ofText noOrder text = .ok os ↔
    Unordered noOrder text ∧ os = [] ∨ ¬Unordered noOrder text ∧ List.Forall₂ IsEntry (items text.toList) os := by
  have hiff : (trim text.toList).isEmpty = true ∨ trim text.toList = noOrder.toList ↔ Unordered noOrder text := by
    rw [Unordered, List.isEmpty_iff]
  rw [ofText]
  by_cases h : Unordered noOrder text
  · rw [if_pos (hiff.2 h)]
    simp [h, eq_comm]
  · rw [if_neg (mt hiff.1 h), entries_trim, entries_eq_map_trim,
      ofEntries_map_trim_eq_ok_iff fun _ => isBlankText_of_mem_items]
    simp [h]

theorem exists_forall₂_iff {items : List (List Char)} :
    (∃ os, List.Forall₂ IsEntry items os) ↔ ∀ item ∈ items, ∃ o, IsEntry item o := by
  induction items with
  | nil => simp
  | cons item items ih =>
    rw [List.forall_mem_cons, ← ih]
    constructor
    · rintro ⟨_, h⟩
      cases h with
      | cons ho hos => exact ⟨⟨_, ho⟩, _, hos⟩
    · rintro ⟨⟨o, ho⟩, os, hos⟩
      exact ⟨o :: os, .cons ho hos⟩

/-! ## Printed lists -/

/-- The orders as an order list, and as the plan's ORDER BY clause prints them. -/
def listText (os : List Order) : String :=
  ", ".intercalate (os.map Order.text)

theorem toList_text (o : Order) : o.text.toList = o.column.toList ++ ' ' :: o.direction.keyword.toList := by
  simp [Order.text, toString]

theorem isEntry_text {l : List Char} (hl : isBlankText l = true) (hc : IsWord o.column.toList) :
    IsEntry (l ++ o.text.toList) o := by
  have h : IsEntry (l ++ o.column.toList ++ [' '] ++ o.direction.keyword.toList ++ []) o :=
    .directed hl rfl rfl nofun hc o.direction.names_keyword
  simpa [toList_text] using h

/-- A column that can be printed: not empty, and free of commas and blanks. -/
def Plain (o : Order) : Prop :=
  o.column ≠ "" ∧ ∀ c ∈ o.column.toList, c ≠ ',' ∧ isBlank c = false

theorem Plain.isWord (h : o.Plain) : IsWord o.column.toList :=
  ⟨mt String.toList_eq_nil_iff.1 h.1, fun c hc => (h.2 c hc).2⟩

theorem Plain.comma_notMem_text (h : o.Plain) : ',' ∉ o.text.toList := by
  have hkeyword : ',' ∉ o.direction.keyword.toList := by cases o.direction <;> decide
  have hcolumn : ',' ∉ o.column.toList := fun hm => (h.2 ',' hm).1 rfl
  simp [toList_text, hkeyword, hcolumn]

/-- An entry without a comma is printed as an entry again. -/
theorem IsEntry.plain (h : IsEntry item o) (hcomma : ',' ∉ item) : o.Plain := by
  have hplain (hc : IsWord o.column.toList) (hsub : o.column.toList ⊆ item) : o.Plain :=
    ⟨mt String.toList_eq_nil_iff.2 hc.1, fun c hm => ⟨fun he => hcomma (he ▸ hsub hm), hc.2 c hm⟩⟩
  cases h with
  | column _ _ hc _ => exact hplain hc fun c hm => by simp [hm]
  | directed _ _ _ _ hc _ => exact hplain hc fun c hm => by simp [hm]

theorem plain_of_forall₂ {items : List (List Char)} (h : List.Forall₂ IsEntry items os)
    (hcomma : ∀ item ∈ items, ',' ∉ item) : ∀ o ∈ os, o.Plain := by
  induction h with
  | nil => simp
  | cons ho _ ih =>
    obtain ⟨hitem, hitems⟩ := List.forall_mem_cons.1 hcomma
    exact List.forall_mem_cons.2 ⟨ho.plain hitem, ih hitems⟩

theorem comma_notMem_of_mem_items {s : List Char} (h : item ∈ items s) : ',' ∉ item :=
  notMem_of_mem_pieces (List.mem_of_mem_filter h)

/-- What is read can be printed. -/
theorem plain_of_ofText (h : ofText noOrder text = .ok os) : ∀ o ∈ os, o.Plain := by
  rcases ofText_eq_ok_iff.1 h with ⟨_, rfl⟩ | ⟨_, hos⟩
  · simp
  · exact plain_of_forall₂ hos fun _ => comma_notMem_of_mem_items

/-- Texts without a comma, with a comma and a blank between them: the blank goes to the text behind. -/
theorem pieces_intercalate_comma_space {w : List Char} {ws : List (List Char)} :
    ∀ {l : List Char}, ',' ∉ l → (∀ v ∈ w :: ws, ',' ∉ v) →
      pieces (· == ',') (l ++ [',', ' '].intercalate (w :: ws)) = (l ++ w) :: ws.map (' ' :: ·) := by
  have hone {s : List Char} (hs : ',' ∉ s) : pieces (· == ',') s = [s] :=
    pieces_eq_singleton fun c hc => beq_false_of_ne fun he => hs (he ▸ hc)
  induction ws generalizing w with
  | nil =>
    intro l hl hw
    simpa [List.intercalate] using hone (s := l ++ w) (by simpa [hl] using hw)
  | cons v ws ih =>
    intro l hl hw
    obtain ⟨hw, hws⟩ := List.forall_mem_cons.1 hw
    have hsplit : l ++ [',', ' '].intercalate (w :: v :: ws) =
        (l ++ w) ++ ',' :: ([' '] ++ [',', ' '].intercalate (v :: ws)) := by
      simp [List.intercalate_cons_of_ne_nil]
    rw [hsplit, pieces_append_cons (by rfl), hone (by simp [hl, hw]), ih (by decide) hws]
    rfl

theorem items_listText (h : ∀ p ∈ o :: os, p.Plain) :
    items (listText (o :: os)).toList = o.text.toList :: os.map fun p => ' ' :: p.text.toList := by
  have hcomma : ∀ w ∈ o.text.toList :: os.map fun p => p.text.toList, ',' ∉ w :=
    List.forall_mem_cons.2 ⟨(h o List.mem_cons_self).comma_notMem_text,
      List.forall_mem_map.2 fun p hp => (h p (List.mem_cons_of_mem o hp)).comma_notMem_text⟩
  have hpieces : pieces (· == ',') (listText (o :: os)).toList =
      o.text.toList :: os.map fun p => ' ' :: p.text.toList := by
    have := pieces_intercalate_comma_space (l := []) (by simp) hcomma
    simpa [listText, String.toList_intercalate, Function.comp_def] using this
  have hblank {p : Order} (hp : p ∈ o :: os) : isBlankText p.text.toList = false := by
    obtain ⟨c, s, hs⟩ := List.exists_cons_of_ne_nil (h p hp).isWord.1
    simp [toList_text, hs, isBlankText, (h p hp).isWord.2 c (by simp [hs])]
  rw [items, hpieces, List.filter_eq_self]
  refine List.forall_mem_cons.2 ⟨by simp [hblank List.mem_cons_self], List.forall_mem_map.2 fun p hp => ?_⟩
  have hp' : isBlankText ([' '] ++ p.text.toList) = false := by
    rw [isBlankText_append, hblank (List.mem_cons_of_mem o hp), Bool.and_false]
  simpa using hp'

/-- A printed list that is not empty has two words at least, so that it is neither blank nor one word. -/
theorem not_unordered_listText (hno : ∀ c ∈ noOrder.toList, isBlank c = false) (h : ∀ p ∈ o :: os, p.Plain) :
    ¬Unordered noOrder (listText (o :: os)) := by
  obtain ⟨rest, hrest⟩ : ∃ rest, (listText (o :: os)).toList = o.text.toList ++ rest := by
    cases os <;> simp [listText, String.toList_intercalate, List.intercalate]
  -- the column is one word, and the keyword behind it begins another
  obtain ⟨k, keyword, hkeyword⟩ := List.exists_cons_of_ne_nil o.direction.names_keyword.isWord.1
  have hk : isBlank k = false := o.direction.names_keyword.isWord.2 k (by simp [hkeyword])
  have hsecond : words (o.direction.keyword.toList ++ rest) ≠ [] := by
    rw [ne_eq, words_eq_nil_iff, hkeyword]
    simp [isBlankText, hk]
  have hwords : words (listText (o :: os)).toList =
      o.column.toList :: words (o.direction.keyword.toList ++ rest) := by
    rw [hrest, toList_text, List.append_assoc, List.cons_append, words_append_cons (by decide),
      (h o List.mem_cons_self).isWord.words]
    rfl
  have htwo (s : List Char) (hs : trim (listText (o :: os)).toList = s) (hblank : ∀ c ∈ s, isBlank c = false) :
      False := by
    rw [← words_trim, hs] at hwords
    by_cases hn : s = []
    · subst hn
      cases hwords
    · rw [IsWord.words ⟨hn, hblank⟩, List.cons.injEq] at hwords
      exact hsecond hwords.2.symm
  rintro (hs | hs)
  · exact htwo [] hs (by simp)
  · exact htwo _ hs hno

/-- **A printed list is read back**, whatever word without blanks stands for no order. -/
theorem ofText_listText (hno : ∀ c ∈ noOrder.toList, isBlank c = false) (h : ∀ o ∈ os, o.Plain) :
    ofText noOrder (listText os) = .ok os := by
  cases os with
  | nil => exact ofText_eq_ok_iff.2 (.inl ⟨.inl rfl, rfl⟩)
  | cons o os =>
    refine ofText_eq_ok_iff.2 (.inr ⟨not_unordered_listText hno h, ?_⟩)
    rw [items_listText h]
    obtain ⟨ho, hos⟩ := List.forall_mem_cons.1 h
    refine .cons (isEntry_text (l := []) rfl ho.isWord) (List.forall₂_map_left_iff.2 ?_)
    exact List.forall₂_same.2 fun p hp => isEntry_text (l := [' ']) rfl (hos p hp).isWord

/-- The ORDER BY clause of a printed plan holds its orders as an order list. -/
theorem listText_mem_explainLines {p : Plan} (h : p.orders ≠ []) :
    "ORDER BY " ++ listText p.orders ∈ p.explainLines := by
  obtain ⟨o, os, ho⟩ := List.exists_cons_of_ne_nil h
  simp [Plan.explainLines, Plan.clauseLine, ho, listText]

/-- The parts of a list between commas, and those of them that are not blank. -/
theorem forall_mem_items_iff {s : List Char} {P : List Char → Prop} : (∀ item ∈ items s, P item) ↔
    ∃ parts, (∀ part ∈ parts, ',' ∉ part) ∧ [','].intercalate parts = s ∧
      ∀ part ∈ parts, isBlankText part = true ∨ P part := by
  constructor
  · intro h
    refine ⟨pieces (· == ',') s, fun _ => notMem_of_mem_pieces, intercalate_pieces ',' s, fun part hpart => ?_⟩
    rw [or_iff_not_imp_left]
    exact fun hblank => h part (List.mem_filter.2 ⟨hpart, by simpa using hblank⟩)
  · rintro ⟨parts, hcomma, rfl, hparts⟩ item hitem
    by_cases hn : parts = []
    · subst hn
      cases hitem
    · rw [items, pieces_intercalate hcomma hn, List.mem_filter] at hitem
      exact (hparts item hitem.1).resolve_left (by simpa using hitem.2)

theorem exists_ofText_iff : (∃ os, ofText noOrder text = .ok os) ↔
    Unordered noOrder text ∨ ∀ item ∈ items text.toList, ∃ o, IsEntry item o := by
  simp only [ofText_eq_ok_iff, ← exists_forall₂_iff]
  by_cases h : Unordered noOrder text <;> simp [h]

/-- **Order lists are read and printed alike.** A list is read exactly if, trimmed, it is empty or the word for no
order, or if each of its parts between commas is blank, a column alone, or a column in front of a direction in any case.
What is read is printed as a plan prints it, and read from there as the same; and so is every list of orders whose
columns are not empty and free of commas and blanks. -/
theorem ofText_roundTrip (hno : ∀ c ∈ noOrder.toList, isBlank c = false) :
    (∀ text, (∃ os, ofText noOrder text = .ok os) ↔
        trim text.toList = [] ∨ trim text.toList = noOrder.toList ∨
          ∃ parts, (∀ part ∈ parts, ',' ∉ part) ∧ [','].intercalate parts = text.toList ∧
            ∀ part ∈ parts, isBlankText part = true ∨ ∃ o, IsEntry part o) ∧
      (∀ p : Plan, p.orders ≠ [] → "ORDER BY " ++ listText p.orders ∈ p.explainLines) ∧
      (∀ text os, ofText noOrder text = .ok os → ofText noOrder (listText os) = .ok os) ∧
      ∀ os : List Order, (∀ o ∈ os, o.column ≠ "" ∧ ∀ c ∈ o.column.toList, c ≠ ',' ∧ isBlank c = false) →
        ofText noOrder (listText os) = .ok os := by
  refine ⟨fun text => ?_, fun p => listText_mem_explainLines, fun text os h => ?_, fun os h => ofText_listText hno h⟩
  · rw [exists_ofText_iff, forall_mem_items_iff, Unordered, or_assoc]
  · exact ofText_listText hno (plain_of_ofText h)

/-- A list with a blank part is read and printed; a list with a word that is no direction is not read. -/
theorem ofText_roundTrip_title :
    let os : List Order := [⟨"title", .desc⟩, ⟨"id", .asc⟩]
    (∀ c ∈ "1".toList, isBlank c = false) ∧
      ofText "1" " title  Desc ,, id" = .ok os ∧
      listText os = "title DESC, id ASC" ∧ ofText "1" (listText os) = .ok os ∧
      ofText "1" "title up" = .error (.malformedExpression "title up" (.unknownDirection "up")) ∧
      ¬∃ parts, (∀ part ∈ parts, ',' ∉ part) ∧ [','].intercalate parts = "title up".toList ∧
        ∀ part ∈ parts, isBlankText part = true ∨ ∃ o, IsEntry part o := by
  intro os
  have hno : ∀ c ∈ "1".toList, isBlank c = false := by simp [isBlank]
  obtain ⟨hread, -, hprint, -⟩ := ofText_roundTrip hno
  have hos : ofText "1" " title  Desc ,, id" = .ok os := by decide +kernel
  have hup : ofText "1" "title up" = .error (.malformedExpression "title up" (.unknownDirection "up")) := by
    decide +kernel
  refine ⟨hno, hos, by decide +kernel, hprint _ _ hos, hup, fun hparts => ?_⟩
  obtain ⟨os', hos'⟩ := (hread "title up").2 (.inr (.inr hparts))
  cases hup.symm.trans hos'

end Order

end RelQuery
