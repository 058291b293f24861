import RelQuery.Text.Split

/-!
# Code units

A text can be read by position, in the units that encode it: the bytes of UTF-8, or its characters. Reading in place may
go wrong in ways that reading a list from its front cannot: `Crash` lists them, and every step that could go wrong says
so in its type, `Checked`.

* `CodeUnit` : units in which a character of ASCII is one unit, and no unit of another character looks like one;
* `slice` : the part of a text between two byte offsets, which have to stand between characters.
-/

namespace RelQuery.Bytes

/-- What ends a run at once. -/
inductive Crash where
  /-- A unit outside the text is read. -/
  | index
  /-- A part of a text is cut out that does not lie between two characters of it. -/
  | slice
  /-- A number is taken below zero. -/
  | count
  /-- A function is called where it must not be. -/
  | assertion
  deriving DecidableEq, Repr

/-- What a step gives that may end the run. -/
abbrev Checked (α : Type) := Except Crash α

@[simp] theorem Checked.bind_ok {α β : Type} (a : α) (f : α → Checked β) : ((.ok a : Checked α) >>= f) = f a := rfl

@[simp] theorem Checked.pure_eq {α : Type} (a : α) : (pure a : Checked α) = .ok a := rfl

/-- A run that comes to an end has made its first step. -/
theorem Checked.exists_of_bind {α β : Type} {x : Checked α} {f : α → Checked β} {b : β} (h : (x >>= f) = .ok b) :
    ∃ a, x = .ok a ∧ f a = .ok b := by
  cases x with
  | error e => cases h
  | ok a => exact ⟨a, rfl, h⟩

/-- What a step gives, with the proof that it does. -/
def Checked.attach {α : Type} (x : Checked α) : Checked {a : α // x = .ok a} :=
  match x with
  | .ok a => .ok ⟨a, rfl⟩
  | .error e => .error e

theorem Checked.attach_eq {α : Type} {x : Checked α} {a : α} (h : x = .ok a) : x.attach = .ok ⟨a, h⟩ := by
  subst h
  rfl

/-- The proof changes nothing. -/
theorem Checked.attach_bind {α β : Type} {x : Checked α} {f : α → Checked β} {g : {a : α // x = .ok a} → Checked β}
    (h : ∀ a, g a = f a.1) : x.attach >>= g = x >>= f := by
  cases x with
  | error e => rfl
  | ok a => exact h ⟨a, rfl⟩

/-- One less than a number that is not zero. -/
def less (n : Nat) : Checked Nat :=
  if n = 0 then throw .count else return n - 1

/-! ## Units -/

/-- The units of an encoding that keeps ASCII apart: a unit whose code is below 128 is a character of ASCII, alone. -/
class CodeUnit (α : Type) where
  code : α → Nat
  encode : Char → List α
  encode_ascii : ∀ c : Char, c.toNat < 128 → ∃ u, encode c = [u] ∧ code u = c.toNat
  encode_ne_nil : ∀ c : Char, encode c ≠ []
  le_code : ∀ c : Char, 128 ≤ c.toNat → ∀ u ∈ encode c, 128 ≤ code u

export CodeUnit (code)

/-- Characters encode themselves. -/
instance : CodeUnit Char where
  code := Char.toNat
  encode c := [c]
  encode_ascii c _ := ⟨c, rfl, rfl⟩
  encode_ne_nil := by simp
  le_code c h u hu := by rwa [List.mem_singleton.1 hu]

/-- The bytes of UTF-8. -/
instance : CodeUnit UInt8 where
  code := UInt8.toNat
  encode := String.utf8EncodeChar
  encode_ascii c h := by
    have hc : c.val.toNat ≤ 127 := Nat.le_of_lt_succ h
    refine ⟨UInt8.ofNat c.val.toNat, by rw [String.utf8EncodeChar.eq_1, if_pos hc], ?_⟩
    exact UInt8.toNat_ofNat_of_lt (Nat.lt_of_lt_of_le h (by decide))
  encode_ne_nil _ := String.utf8EncodeChar_ne_nil
  le_code c h u hu := by
    have hc : ¬c.val.toNat ≤ 127 := Nat.not_le.2 h
    rw [String.utf8EncodeChar.eq_1, if_neg hc] at hu
    -- two, three or four bytes, each with its high bit set
    split at hu
    · simp only [List.mem_cons, List.not_mem_nil, or_false] at hu
      rcases hu with rfl | rfl <;> simp only [UInt8.toNat_ofNat'] <;> omega
    · split at hu
      · simp only [List.mem_cons, List.not_mem_nil, or_false] at hu
        rcases hu with rfl | rfl | rfl <;> simp only [UInt8.toNat_ofNat'] <;> omega
      · simp only [List.mem_cons, List.not_mem_nil, or_false] at hu
        rcases hu with rfl | rfl | rfl | rfl <;> simp only [UInt8.toNat_ofNat'] <;> omega

/-- The unit at a position. -/
def unitAt {α : Type} (us : List α) (i : Nat) : Checked α :=
  match us[i]? with
  | some u => return u
  | none => throw .index

/-- The units from a position on. -/
def unitsFrom {α : Type} (us : List α) (i : Nat) : Checked (List α) :=
  if i ≤ us.length then return us.drop i else throw .index

section

variable {α : Type} [CodeUnit α]

/-- The units of a text. -/
def units (s : List Char) : List α :=
  s.flatMap CodeUnit.encode

variable (α) in
/-- The number of units that the characters take. -/
def width (s : List Char) : Nat :=
  (units s : List α).length

/-- Whether a unit stands for a character of ASCII. -/
def stands (c : Char) (u : α) : Bool :=
  code u == c.toNat

/-- Whether a unit stands for a quote. -/
def isMark (u : α) : Bool :=
  stands '\'' u || stands '"' u

/-- Whether units begin with those of a word. -/
def beginsWith (word : List Char) (us : List α) : Bool :=
  ((units word : List α).map code).isPrefixOf (us.map code)

end

/-! ## Bytes of a text -/

/-- The bytes of a text. -/
def bytes (s : String) : List UInt8 :=
  s.toByteArray.data.toList

theorem length_bytes (s : String) : (bytes s).length = s.utf8ByteSize := rfl

/-- The part of a text between two byte offsets. -/
def slice (s : String) (start stop : Nat) : Checked String :=
  if h : (⟨start⟩ : String.Pos.Raw).IsValid s ∧ (⟨stop⟩ : String.Pos.Raw).IsValid s ∧ start ≤ stop then
    return (s.slice ⟨⟨start⟩, h.1⟩ ⟨⟨stop⟩, h.2.1⟩ h.2.2).copy
  else throw .slice

/-- A slice fills the place between its offsets. -/
theorem utf8ByteSize_of_slice {s t : String} {start stop : Nat} (h : slice s start stop = .ok t) :
    start + t.utf8ByteSize = stop ∧ stop ≤ s.utf8ByteSize := by
  unfold slice at h
  split at h
  next hs =>
    obtain ⟨_, hstop, hle⟩ := hs
    obtain rfl := Except.ok.inj h
    rw [String.Slice.utf8ByteSize_copy, String.utf8ByteSize_slice]
    exact ⟨Nat.add_sub_cancel' hle, hstop.le_rawEndPos⟩
  next => cases h

/-- The part of a text in front of a byte offset, if that stands between two characters. -/
def front? (s : String) (stop : Nat) : Option String :=
  match slice s 0 stop with
  | .ok front => some front
  | .error _ => none

/-- The byte offset at which a word first stands. -/
def offset? (word : List Char) (s : String) : Option Nat :=
  (Text.cut? word s.toList).map fun (before, _) => width UInt8 before

end RelQuery.Bytes
