import RelQuery.Proofs.Bytes.Units

/-!
# Slices between characters

A byte offset stands between two characters of a text exactly if it is the width of all characters in front, and a
slice between two such offsets is the text of the characters between.

* `bytes_eq_units` : the bytes of a text are the units of its characters;
* `slice_eq_ok_iff`, `slice_eq` : a slice whose ends are told by the characters in front of them;
* `front?_eq_some_iff` : the text in front of an offset that may stand anywhere.
-/

namespace RelQuery.Bytes

open Text

variable {s : String} {a b c : List Char} {i j : Nat}

theorem bytes_eq_units (s : String) : bytes s = units s.toList := by
  have h : s.toByteArray = s.toList.utf8Encode := by rw [← String.toByteArray_ofList, String.ofList_toList]
  rw [bytes, h, List.utf8Encode.eq_1, List.toList_data_toByteArray]
  rfl

theorem utf8ByteSize_eq_width (s : String) : s.utf8ByteSize = width UInt8 s.toList := by
  rw [← length_bytes, bytes_eq_units]
  rfl

theorem rawEndPos_ofList (a : List Char) : (String.ofList a).rawEndPos = ⟨width UInt8 a⟩ := by
  rw [String.rawEndPos, utf8ByteSize_eq_width, String.toList_ofList]

theorem eq_ofList_append (h : s.toList = a ++ b) : s = String.ofList a ++ String.ofList b := by
  rw [← String.ofList_append, ← h, String.ofList_toList]

/-! ## Offsets between characters -/

/-- An offset stands between two characters where it is the width of the characters in front of it. -/
theorem isValid_iff : (⟨i⟩ : String.Pos.Raw).IsValid s ↔ ∃ a b, s.toList = a ++ b ∧ i = width UInt8 a := by
  rw [String.Pos.Raw.isValid_iff_exists_append]
  constructor
  · rintro ⟨t, u, rfl, h⟩
    refine ⟨t.toList, u.toList, String.toList_append, ?_⟩
    rw [← utf8ByteSize_eq_width]
    exact congrArg String.Pos.Raw.byteIdx h
  · rintro ⟨a, b, h, rfl⟩
    exact ⟨String.ofList a, String.ofList b, eq_ofList_append h, (rawEndPos_ofList a).symm⟩

/-! ## Slices -/

/-- **A slice** is the text between two offsets that stand between characters. -/
theorem slice_eq_ok_iff {t : String} : slice s i j = .ok t ↔
    ∃ a c, s.toList = a ++ t.toList ++ c ∧ i = width UInt8 a ∧ j = width UInt8 (a ++ t.toList) := by
  constructor
  · intro h
    unfold slice at h
    split at h
    next hs =>
      obtain ⟨t₁, t₂, hstart, hstop⟩ := String.copy_slice_eq_iff_splits.1 ⟨hs.2.2, Except.ok.inj h⟩
      refine ⟨t₁.toList, t₂.toList, ?_, ?_, ?_⟩
      · rw [← String.toList_append, ← String.toList_append]
        exact congrArg String.toList hstop.eq_append
      · rw [← utf8ByteSize_eq_width]
        exact congrArg String.Pos.Raw.byteIdx hstart.offset_eq_rawEndPos
      · rw [← String.toList_append, ← utf8ByteSize_eq_width]
        exact congrArg String.Pos.Raw.byteIdx hstop.offset_eq_rawEndPos
    next => cases h
  · rintro ⟨a, c, h, rfl, rfl⟩
    have h' : s.toList = a ++ (t.toList ++ c) := by rw [h, List.append_assoc]
    have hstart : (⟨width UInt8 a⟩ : String.Pos.Raw).IsValid s := isValid_iff.2 ⟨a, t.toList ++ c, h', rfl⟩
    have hstop : (⟨width UInt8 (a ++ t.toList)⟩ : String.Pos.Raw).IsValid s :=
      isValid_iff.2 ⟨a ++ t.toList, c, h, rfl⟩
    have hle : width UInt8 a ≤ width UInt8 (a ++ t.toList) := by simp
    have hcopy : ∃ hle, (s.slice ⟨⟨width UInt8 a⟩, hstart⟩ ⟨⟨width UInt8 (a ++ t.toList)⟩, hstop⟩ hle).copy = t :=
      String.copy_slice_eq_iff_splits.2 ⟨String.ofList a, String.ofList c,
        ⟨by simpa using eq_ofList_append h', (rawEndPos_ofList a).symm⟩,
        ⟨by simpa using eq_ofList_append h, by simpa using (rawEndPos_ofList (a ++ t.toList)).symm⟩⟩
    rw [slice, dif_pos ⟨hstart, hstop, hle⟩]
    exact congrArg Except.ok hcopy.2

theorem slice_eq (h : s.toList = a ++ b ++ c) (hi : i = width UInt8 a) (hj : j = width UInt8 (a ++ b)) :
    slice s i j = .ok (String.ofList b) :=
  slice_eq_ok_iff.2 ⟨a, c, by simpa using h, hi, by simpa using hj⟩

theorem slice_left (h : s.toList = a ++ b) (hi : i = width UInt8 a) : slice s 0 i = .ok (String.ofList a) :=
  slice_eq (a := []) h rfl hi

theorem slice_right (h : s.toList = a ++ b) (hi : i = width UInt8 a) :
    slice s i s.utf8ByteSize = .ok (String.ofList b) :=
  slice_eq (c := []) (by rw [h, List.append_nil]) hi (by rw [utf8ByteSize_eq_width, h])

/-- The text in front of an offset, where that stands between two characters. -/
theorem front?_eq_some_iff {t : String} :
    front? s i = some t ↔ ∃ c, s.toList = t.toList ++ c ∧ i = width UInt8 t.toList := by
  have hslice : front? s i = some t ↔ slice s 0 i = .ok t := by
    unfold front?
    split <;> simp_all
  rw [hslice, slice_eq_ok_iff]
  constructor
  · rintro ⟨a, c, h, ha, rfl⟩
    cases a with
    | nil => exact ⟨c, h, rfl⟩
    | cons x a =>
      have := width_cons_pos (α := UInt8) x a
      omega
  · rintro ⟨c, h, rfl⟩
    exact ⟨[], c, h, rfl, rfl⟩

end RelQuery.Bytes
