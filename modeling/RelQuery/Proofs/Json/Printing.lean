import Mathlib.Data.List.TakeDrop
import Mathlib.Data.List.TakeWhile
import RelQuery.Json.Parser
import RelQuery.Proofs.Json.Escape

/-!
# Reading a printed JSON text

A tree prints as tokens without blanks between them (`Json.tokens`). A string ends at its quote, and a number at the
mark behind it, so the tokens of the text are these, and reading them gives the tree.

* `tokens?_compact` : the tokens of a printed tree, in front of what is no part of a number;
* `value?_tokens` : the tree of these tokens, whatever follows them;
* `parse?_print` : a tree that is well formed, printed and read, is itself.
-/

namespace RelQuery.Json

open Text

/-- What may stand between two quotes: it ends at the quote behind it. -/
def IsLiteral (l : List Char) : Prop :=
  ∀ s, literal? (l ++ '"' :: s) = some (l, s)

/-- What may stand for a number. -/
structure IsNumeral (l : List Char) : Prop where
  number : isNumber l = true
  chars : ∀ c ∈ l, isNumberChar c = true

mutual

/-- Strings and numbers stand in the tree as a text may write them. -/
def WellFormed : Json → Prop
  | .null | .bool _ => True
  | .number l => IsNumeral l
  | .string l => IsLiteral l
  | .array items => WellFormedItems items
  | .object members => WellFormedMembers members

/-- All items are well formed. -/
def WellFormedItems : List Json → Prop
  | [] => True
  | item :: items => item.WellFormed ∧ WellFormedItems items

/-- All keys and values are well formed. -/
def WellFormedMembers : List (List Char × Json) → Prop
  | [] => True
  | (key, value) :: members => (IsLiteral key ∧ value.WellFormed) ∧ WellFormedMembers members

end

theorem wellFormedMembers_iff {members : List (List Char × Json)} :
    WellFormedMembers members ↔ ∀ member ∈ members, IsLiteral member.1 ∧ member.2.WellFormed := by
  induction members with
  | nil => simp [WellFormedMembers]
  | cons member members ih => rw [WellFormedMembers, List.forall_mem_cons, ih]

/-- Texts are strings that may be written. -/
theorem wellFormed_ofText (s : String) : (ofText s).WellFormed :=
  literal?_escape s.toList

theorem wellFormed_ofMembers {members : List (String × Json)} (h : ∀ member ∈ members, member.2.WellFormed) :
    (ofMembers members).WellFormed :=
  wellFormedMembers_iff.2 (List.forall_mem_map.2 fun member hm => ⟨literal?_escape _, h member hm⟩)

/-! ### Numerals -/

theorem isNumberChar_of_isDigit {c : Char} (h : c.isDigit = true) : isNumberChar c = true := by
  simp [isNumberChar, h]

/-- No numeral of a positive number begins with a zero. -/
theorem head?_decimal_ne {n : Nat} (hn : 0 < n) : (decimal n).head? ≠ some '0' := by
  fun_induction decimal n with
  | case1 n h =>
    have hd : ∀ d < 10, 0 < d → digitChar d ≠ '0' := by decide
    simpa using hd n h hn
  | case2 n h ih =>
    have hne := decimal_ne_nil (n / 10)
    cases hm : decimal (n / 10) with
    | nil => exact absurd hm hne
    | cons c m => simpa [hm] using ih (by omega)

theorem isWhole_decimal (n : Nat) : isWhole (decimal n) = true := by
  have hd : (decimal n).all Char.isDigit = true := List.all_eq_true.2 fun _ => isDigit_of_mem_decimal
  have hne : (decimal n).isEmpty = false := by simp [decimal_ne_nil]
  rcases Nat.eq_zero_or_pos n with rfl | hn
  · simp [decimal, isWhole, isDigits, digitChar]
  · simp [isWhole, isDigits, hd, hne, head?_decimal_ne hn]

theorem span_decimal {p : Char → Bool} {n : Nat} (hp : ∀ c, c.isDigit = true → p c = true) :
    (decimal n).span p = (decimal n, []) := by
  have hall : ∀ c ∈ decimal n, p c = true := fun c hc => hp c (isDigit_of_mem_decimal hc)
  rw [List.span_eq_takeWhile_dropWhile, List.takeWhile_eq_self_iff.2 hall, List.dropWhile_eq_nil_iff.2 hall]

/-- A number in base ten has neither a fraction nor an exponent. -/
theorem isUnsigned_decimal (n : Nat) : isUnsigned (decimal n) = true := by
  have hmantissa : (decimal n).span (fun c => c != 'e' && c != 'E') = (decimal n, []) := by
    refine span_decimal fun c hc => ?_
    rw [Bool.and_eq_true, bne_iff_ne, bne_iff_ne]
    constructor <;> rintro rfl <;> cases hc
  have hwhole : (decimal n).span (· != '.') = (decimal n, []) := by
    refine span_decimal fun c hc => ?_
    rw [bne_iff_ne]
    rintro rfl
    cases hc
  rw [isUnsigned, hmantissa]
  simp only [hwhole, isWhole_decimal, isFraction, isExponent, Bool.and_self]

/-- A number in base ten may stand for itself. -/
theorem isNumeral_decimal (n : Nat) : IsNumeral (decimal n) := by
  refine ⟨?_, fun c hc => isNumberChar_of_isDigit (isDigit_of_mem_decimal hc)⟩
  rw [isNumber, isUnsigned_decimal]
  exact decimal_ne_cons rfl n

theorem wellFormed_ofNat (n : Nat) : (ofNat n).WellFormed :=
  isNumeral_decimal n

/-! ## Tokens -/

variable {s l : List Char}

theorem tokens?_cons {c : Char} {rest : List Char} {t : Token} (hb : isBlank c = false)
    (h : token? (c :: s) = some (t, rest)) : tokens? (c :: s) = (tokens? rest).map (t :: ·) := by
  rw [tokens?, if_neg (by simp [hb])]
  split
  next hn => simp [h] at hn
  next t' rest' ht =>
    obtain ⟨rfl, rfl⟩ := by simpa [h] using ht
    rfl

/-- The punctuation of JSON, character by character. -/
theorem eq_of_isMark {c : Char} (h : isMark c = true) :
    ((((c = '{' ∨ c = '}') ∨ c = '[') ∨ c = ']') ∨ c = ':') ∨ c = ',' := by
  simpa [isMark] using h

theorem tokens?_mark {c : Char} (h : isMark c = true) (s : List Char) :
    tokens? (c :: s) = (tokens? s).map (.mark c :: ·) := by
  rcases eq_of_isMark h with ((((rfl | rfl) | rfl) | rfl) | rfl) | rfl <;> exact tokens?_cons rfl rfl

theorem tokens?_string (h : IsLiteral l) (s : List Char) :
    tokens? ('"' :: (l ++ '"' :: s)) = (tokens? s).map (.string l :: ·) := by
  have ht : token? ('"' :: (l ++ '"' :: s)) =
      (literal? (l ++ '"' :: s)).map fun read => (.string read.1, read.2) := rfl
  exact tokens?_cons rfl (by rw [ht, h s, Option.map_some])

section

variable {c : Char} (h : isNumberChar c = true)
include h

theorem isMark_of_isNumberChar : isMark c = false := by
  cases hm : isMark c with
  | false => rfl
  | true =>
    rcases eq_of_isMark hm with ((((rfl | rfl) | rfl) | rfl) | rfl) | rfl <;> exact absurd h (by decide)

theorem isBlank_of_isNumberChar : isBlank c = false := by
  cases hb : isBlank c with
  | false => rfl
  | true =>
    have hc : ((c = ' ' ∨ c = '\n') ∨ c = '\r') ∨ c = '\t' := by simpa [isBlank] using hb
    rcases hc with ((rfl | rfl) | rfl) | rfl <;> exact absurd h (by decide)

/-- A character of a number begins no other token. -/
theorem token?_numberChar (s : List Char) : token? (c :: s) =
    if isNumber ((c :: s).takeWhile isNumberChar) then
      some (.number ((c :: s).takeWhile isNumberChar), (c :: s).dropWhile isNumberChar)
    else none := by
  have hne {x : Char} (hx : isNumberChar x = false) : c ≠ x := by
    rintro rfl
    simp [h] at hx
  unfold token?
  split
  case h_6 hs =>
    obtain ⟨rfl, rfl⟩ := List.cons.inj hs
    simp [isMark_of_isNumberChar h]
  case h_1 hs => cases hs
  -- the characters at which a string or a word begins are no part of a number
  all_goals
    next hs => exact absurd (List.cons.inj hs).1 (hne rfl)

end

/-- A number ends in front of the text, which begins with nothing that may be part of it. -/
def EndsNumber (s : List Char) : Prop :=
  ∀ c ∈ s.head?, isNumberChar c = false

theorem endsNumber_cons {c : Char} (h : isNumberChar c = false) (s : List Char) : EndsNumber (c :: s) := by
  rintro _ ⟨⟩
  exact h

theorem tokens?_number (h : IsNumeral l) (hs : EndsNumber s) :
    tokens? (l ++ s) = (tokens? s).map (.number l :: ·) := by
  have htake : (l ++ s).takeWhile isNumberChar = l := by
    rw [List.takeWhile_append_of_pos h.chars]
    cases s with
    | nil => simp
    | cons c s => simp [hs c rfl]
  have hdrop : (l ++ s).dropWhile isNumberChar = s := by
    rw [List.dropWhile_append_of_pos h.chars]
    cases s with
    | nil => rfl
    | cons c s => simp [hs c rfl]
  cases l with
  | nil => exact absurd h.number (by simp [isNumber_nil])
  | cons c l =>
    have hc := h.chars c List.mem_cons_self
    refine tokens?_cons (s := l ++ s) (isBlank_of_isNumberChar hc) ?_
    rw [token?_numberChar hc, ← List.cons_append, htake, hdrop, if_pos h.number]

/-! ## The tokens of a printed tree -/

mutual

/-- The tokens of a printed tree. -/
def tokens : Json → List Token
  | .null => [.null]
  | .bool b => [.bool b]
  | .number l => [.number l]
  | .string l => [.string l]
  | .array items => .mark '[' :: tokensOfItems items ++ [.mark ']']
  | .object members => .mark '{' :: tokensOfMembers members ++ [.mark '}']

/-- The tokens of printed items. -/
def tokensOfItems : List Json → List Token
  | [] => []
  | [item] => item.tokens
  | item :: items => item.tokens ++ .mark ',' :: tokensOfItems items

/-- The tokens of printed members. -/
def tokensOfMembers : List (List Char × Json) → List Token
  | [] => []
  | [(key, value)] => .string key :: .mark ':' :: value.tokens
  | (key, value) :: members => .string key :: .mark ':' :: value.tokens ++ .mark ',' :: tokensOfMembers members

end

theorem compact_string (l s : List Char) : compact (.string l) ++ s = '"' :: (l ++ '"' :: s) := by
  show '"' :: l ++ ['"'] ++ s = _
  rw [List.cons_append, List.cons_append, List.append_assoc, List.singleton_append]

theorem compact_array (items : List Json) (s : List Char) :
    compact (.array items) ++ s = '[' :: (compactItems items ++ ']' :: s) := by
  show '[' :: compactItems items ++ [']'] ++ s = _
  rw [List.cons_append, List.cons_append, List.append_assoc, List.singleton_append]

theorem compact_object (members : List (List Char × Json)) (s : List Char) :
    compact (.object members) ++ s = '{' :: (compactMembers members ++ '}' :: s) := by
  show '{' :: compactMembers members ++ ['}'] ++ s = _
  rw [List.cons_append, List.cons_append, List.append_assoc, List.singleton_append]

mutual

theorem tokens?_compact : ∀ {j : Json}, j.WellFormed → ∀ {s : List Char}, EndsNumber s →
    tokens? (j.compact ++ s) = (tokens? s).map (j.tokens ++ ·)
  | .null, _, _, _ => tokens?_cons rfl rfl
  | .bool true, _, _, _ => tokens?_cons rfl rfl
  | .bool false, _, _, _ => tokens?_cons rfl rfl
  | .number l, h, s, hs => tokens?_number h hs
  | .string l, h, s, _ => by
    rw [compact_string]
    exact tokens?_string h s
  | .array items, h, s, _ => by
    rw [compact_array, tokens?_mark rfl, tokens?_compactItems h (endsNumber_cons rfl _), tokens?_mark rfl]
    simp [tokens, Function.comp_def]
  | .object members, h, s, _ => by
    rw [compact_object, tokens?_mark rfl, tokens?_compactMembers h (endsNumber_cons rfl _), tokens?_mark rfl]
    simp [tokens, Function.comp_def]

theorem tokens?_compactItems : ∀ {items : List Json}, WellFormedItems items → ∀ {s : List Char},
    EndsNumber s → tokens? (compactItems items ++ s) = (tokens? s).map (tokensOfItems items ++ ·)
  | [], _, s, _ => by simp [compactItems, tokensOfItems]
  | [item], h, s, hs => tokens?_compact h.1 hs
  | item :: item' :: items, h, s, hs => by
    have ht : compactItems (item :: item' :: items) ++ s = item.compact ++ ',' :: (compactItems (item' :: items) ++ s) :=
      by simp [compactItems]
    rw [ht, tokens?_compact h.1 (endsNumber_cons rfl _), tokens?_mark rfl, tokens?_compactItems h.2 hs]
    simp [tokensOfItems, Function.comp_def]

theorem tokens?_compactMembers : ∀ {members : List (List Char × Json)}, WellFormedMembers members →
    ∀ {s : List Char}, EndsNumber s →
      tokens? (compactMembers members ++ s) = (tokens? s).map (tokensOfMembers members ++ ·)
  | [], _, s, _ => by simp [compactMembers, tokensOfMembers]
  | [(key, value)], h, s, hs => by
    have ht : compactMembers [(key, value)] ++ s = '"' :: (key ++ '"' :: ':' :: (value.compact ++ s)) := by
      simp [compactMembers]
    rw [ht, tokens?_string h.1.1, tokens?_mark rfl, tokens?_compact h.1.2 hs]
    simp [tokensOfMembers, Function.comp_def]
  | (key, value) :: member :: members, h, s, hs => by
    have ht : compactMembers ((key, value) :: member :: members) ++ s =
        '"' :: (key ++ '"' :: ':' :: (value.compact ++ ',' :: (compactMembers (member :: members) ++ s))) := by
      simp [compactMembers]
    rw [ht, tokens?_string h.1.1, tokens?_mark rfl, tokens?_compact h.1.2 (endsNumber_cons rfl _), tokens?_mark rfl,
      tokens?_compactMembers h.2 hs]
    simp [tokensOfMembers, Function.comp_def]

end

/-! ## The tree of the tokens -/

/-- What is read, and what follows it. -/
def found {α : Type} {ts : List Token} (r : Front α ts) : α × List Token :=
  (r.value, r.rest)

theorem eq_of_map_found {α : Type} {ts rest : List Token} {a : α} {r : Option (Front α ts)}
    (h : r.map found = some (a, rest)) : ∃ hlt, r = some ⟨a, rest, hlt⟩ := by
  obtain ⟨⟨value, rest', hlt⟩, rfl, he⟩ := Option.map_eq_some_iff.1 h
  obtain ⟨rfl, rfl⟩ := Prod.mk.inj he
  exact ⟨hlt, rfl⟩

theorem map_found_within {α β : Type} {ts us : List Token} (r : Option (Front α ts)) (f : α → β)
    (h : ts.length ≤ us.length) :
    (r.map fun x => (x.within f h : Front β us)).map found = (r.map found).map fun x => (f x.1, x.2) := by
  cases r <;> rfl

theorem exists_tokens_cons (j : Json) : ∃ t ts, j.tokens = t :: ts ∧ t ≠ .mark ']' := by
  cases j <;> simp [tokens]

theorem exists_tokensOfItems_cons (item : Json) (items : List Json) :
    ∃ t ts, tokensOfItems (item :: items) = t :: ts ∧ t ≠ .mark ']' := by
  obtain ⟨t, ts, h, ht⟩ := exists_tokens_cons item
  cases items <;> simp [tokensOfItems, h, ht]

theorem value?_items {t : Token} {ts : List Token} (h : t ≠ .mark ']') :
    (value? (.mark '[' :: t :: ts)).map found = ((items? (t :: ts)).map found).map fun x => (.array x.1, x.2) := by
  rw [value?, map_found_within]
  rintro _ he
  exact h (List.cons.inj he).1

theorem value?_members {key : List Char} {ts : List Token} : (value? (.mark '{' :: .string key :: ts)).map found =
    ((members? (.string key :: ts)).map found).map fun x => (.object x.1, x.2) := by
  rw [value?, map_found_within]
  simp

mutual

/-- **The tokens of a tree** are read as the tree, whatever follows them. -/
theorem value?_tokens : ∀ (j : Json) (rest : List Token), (value? (j.tokens ++ rest)).map found = some (j, rest)
  | .null, rest => by rw [tokens, List.singleton_append, value?]; rfl
  | .bool b, rest => by rw [tokens, List.singleton_append, value?]; rfl
  | .number l, rest => by rw [tokens, List.singleton_append, value?]; rfl
  | .string l, rest => by rw [tokens, List.singleton_append, value?]; rfl
  | .array [], rest => by simp [tokens, tokensOfItems, value?, found]
  | .array (item :: items), rest => by
    have ih := items?_tokens (item :: items) (List.cons_ne_nil _ _) rest
    obtain ⟨t, ts, he, ht⟩ := exists_tokensOfItems_cons item items
    have hts : tokens (.array (item :: items)) ++ rest = .mark '[' :: t :: (ts ++ .mark ']' :: rest) := by
      simp [tokens, he]
    rw [he, List.cons_append] at ih
    rw [hts, value?_items ht, ih]
    rfl
  | .object [], rest => by simp [tokens, tokensOfMembers, value?, found]
  | .object (member :: members), rest => by
    have ih := members?_tokens (member :: members) (List.cons_ne_nil _ _) rest
    have hts : tokens (.object (member :: members)) ++ rest =
        .mark '{' :: (tokensOfMembers (member :: members) ++ .mark '}' :: rest) := by simp [tokens]
    obtain ⟨ts, he⟩ : ∃ ts, tokensOfMembers (member :: members) = .string member.1 :: ts := by
      cases members <;> exact ⟨_, rfl⟩
    rw [he, List.cons_append] at ih hts
    rw [hts, value?_members, ih]
    rfl

theorem items?_tokens : ∀ items : List Json, items ≠ [] → ∀ rest : List Token,
    (items? (tokensOfItems items ++ .mark ']' :: rest)).map found = some (items, rest)
  | [], h, _ => absurd rfl h
  | [item], _, rest => by
    obtain ⟨_, hv⟩ := eq_of_map_found (value?_tokens item (.mark ']' :: rest))
    rw [tokensOfItems, items?, hv]
    rfl
  | item :: item' :: items, _, rest => by
    obtain ⟨_, hv⟩ :=
      eq_of_map_found (value?_tokens item (.mark ',' :: (tokensOfItems (item' :: items) ++ .mark ']' :: rest)))
    have hts : tokensOfItems (item :: item' :: items) ++ .mark ']' :: rest =
        item.tokens ++ .mark ',' :: (tokensOfItems (item' :: items) ++ .mark ']' :: rest) := by
      simp [tokensOfItems]
    rw [hts, items?, hv]
    refine (map_found_within (items? _) (item :: ·) _).trans ?_
    rw [items?_tokens (item' :: items) (List.cons_ne_nil _ _) rest]
    rfl

theorem members?_tokens : ∀ members : List (List Char × Json), members ≠ [] → ∀ rest : List Token,
    (members? (tokensOfMembers members ++ .mark '}' :: rest)).map found = some (members, rest)
  | [], h, _ => absurd rfl h
  | [(key, value)], _, rest => by
    obtain ⟨_, hv⟩ := eq_of_map_found (value?_tokens value (.mark '}' :: rest))
    rw [tokensOfMembers, List.cons_append, List.cons_append, members?, hv]
    rfl
  | (key, value) :: member :: members, _, rest => by
    obtain ⟨_, hv⟩ := eq_of_map_found
      (value?_tokens value (.mark ',' :: (tokensOfMembers (member :: members) ++ .mark '}' :: rest)))
    have hts : tokensOfMembers ((key, value) :: member :: members) ++ .mark '}' :: rest =
        .string key :: .mark ':' ::
          (value.tokens ++ .mark ',' :: (tokensOfMembers (member :: members) ++ .mark '}' :: rest)) := by
      simp [tokensOfMembers]
    rw [hts, members?, hv]
    refine (map_found_within (members? _) ((key, value) :: ·) _).trans ?_
    rw [members?_tokens (member :: members) (List.cons_ne_nil _ _) rest]
    rfl

end

/-- **A tree that is printed is read again**, if its strings and numbers are ones. -/
theorem parse?_print {j : Json} (h : j.WellFormed) : parse? j.print = some j := by
  have ht : tokens? j.print.toList = some j.tokens := by
    simpa [print, tokens?] using tokens?_compact h (s := []) (by simp [EndsNumber])
  have hf := value?_tokens j []
  rw [List.append_nil] at hf
  obtain ⟨_, hv⟩ := eq_of_map_found hf
  simp [parse?, ht, hv]

end RelQuery.Json
