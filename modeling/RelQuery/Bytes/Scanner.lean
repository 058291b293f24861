import RelQuery.Bytes.Unit

/-!
# Scanning by position

The searches that know about quotes, on the units of a text with a cursor: each reads on from a position and gives a
position. They are the same for every kind of units; on bytes the positions are byte offsets.

* `skipQuoted` : the position behind a literal;
* `matchingParen` : the parenthesis that closes one;
* `findOutside`, `commaAt` : the first place of a word outside quotes, and of a comma outside parentheses as well.
-/

namespace RelQuery.Bytes

variable {α : Type} [CodeUnit α]

/-! ## Literals -/

/-- The position behind the quote that closes a literal, whose inside goes on at `i`; a doubled quote stays inside. -/
def closeFrom (quote : α) (us : List α) (i : Nat) : Checked (Option Nat) :=
  if i < us.length then do
    let u ← unitAt us i
    if code u = code quote then
      if us[i + 1]?.any fun v => code v == code quote then closeFrom quote us (i + 2)
      else return some (i + 1)
    else closeFrom quote us (i + 1)
  else return none
termination_by us.length - i

/-- The position behind the literal that begins at `start`. -/
def skipQuoted (us : List α) (start : Nat) : Checked (Option Nat) := do
  let quote ← unitAt us start
  closeFrom quote us (start + 1)

theorem lt_of_closeFrom {quote : α} {us : List α} {i j : Nat} (h : closeFrom quote us i = .ok (some j)) : i < j := by
  fun_induction closeFrom quote us i with
  | case1 i hi ihDoubled ihOther =>
    obtain ⟨u, -, h⟩ := Checked.exists_of_bind h
    split at h
    · split at h
      · exact Nat.lt_of_add_right_lt (ihDoubled u h)
      · obtain rfl : i + 1 = j := by simpa using h
        exact Nat.lt_succ_self i
    · exact Nat.lt_of_succ_lt (ihOther h)
  | case2 => cases h

/-- Behind a literal is behind its beginning. -/
theorem lt_of_skipQuoted {us : List α} {i j : Nat} (h : skipQuoted us i = .ok (some j)) : i < j := by
  obtain ⟨quote, -, h⟩ := Checked.exists_of_bind h
  exact Nat.lt_of_succ_lt (lt_of_closeFrom h)

/-! ## Searches outside literals -/

/-- The position of the parenthesis that closes the outermost of `depth` open ones, from `i` on. -/
def closingFrom (us : List α) (depth i : Nat) : Checked (Option Nat) :=
  if i < us.length then do
    let u ← unitAt us i
    if isMark u then
      match ← (skipQuoted us i).attach with
      | ⟨none, _⟩ => return none
      | ⟨some j, _h⟩ => closingFrom us depth j
    else if stands '(' u then closingFrom us (depth + 1) (i + 1)
    else if stands ')' u then
      let depth ← less depth
      if depth = 0 then return some i else closingFrom us depth (i + 1)
    else closingFrom us depth (i + 1)
  else return none
termination_by us.length - i
decreasing_by
  · have := lt_of_skipQuoted _h
    omega
  all_goals omega

/-- The position of the parenthesis that closes the one at `start`. -/
def matchingParen (us : List α) (start : Nat) : Checked (Option Nat) :=
  if us[start]?.any (stands '(') then closingFrom us 1 (start + 1) else throw .assertion

theorem le_of_closingFrom {us : List α} {depth i j : Nat} (h : closingFrom us depth i = .ok (some j)) : i ≤ j := by
  fun_induction closingFrom us depth i with
  | case1 depth i hi ihLiteral ihOpen ihClose ihOther =>
    obtain ⟨u, -, h⟩ := Checked.exists_of_bind h
    split at h
    · obtain ⟨⟨found, hskip⟩, -, h⟩ := Checked.exists_of_bind h
      cases found with
      | none => cases h
      | some k => exact Nat.le_trans (Nat.le_of_lt (lt_of_skipQuoted hskip)) (ihLiteral k hskip h)
    · split at h
      · exact Nat.le_of_succ_le (ihOpen h)
      · split at h
        · obtain ⟨depth, -, h⟩ := Checked.exists_of_bind h
          split at h
          · obtain rfl : i = j := by simpa using h
            exact Nat.le_refl i
          · exact Nat.le_of_succ_le (ihClose depth h)
        · exact Nat.le_of_succ_le (ihOther h)
  | case2 => cases h

/-- The parenthesis that closes one stands behind it. -/
theorem lt_of_matchingParen {us : List α} {i j : Nat} (h : matchingParen us i = .ok (some j)) : i < j := by
  unfold matchingParen at h
  split at h
  · exact le_of_closingFrom h
  · cases h

/-- The first position from `i` on, outside literals, at which a word stands. -/
def findFrom (word : List Char) (us : List α) (i : Nat) : Checked (Option Nat) :=
  if i < us.length then do
    let u ← unitAt us i
    if isMark u then
      match ← (skipQuoted us i).attach with
      | ⟨none, _⟩ => return none
      | ⟨some j, _h⟩ => findFrom word us j
    else
      let rest ← unitsFrom us i
      if beginsWith word rest then return some i else findFrom word us (i + 1)
  else return none
termination_by us.length - i
decreasing_by
  · have := lt_of_skipQuoted _h
    omega
  all_goals omega

/-- The first position outside literals at which a word stands. -/
def findOutside (word : List Char) (us : List α) : Checked (Option Nat) :=
  findFrom word us 0

/-- The first position from `i` on of a comma outside literals and parentheses, behind `depth` open ones. A parenthesis
that closes none is not counted. -/
def commaFrom (us : List α) (depth i : Nat) : Checked (Option Nat) :=
  if i < us.length then do
    let u ← unitAt us i
    if isMark u then
      match ← (skipQuoted us i).attach with
      | ⟨none, _⟩ => return none
      | ⟨some j, _h⟩ => commaFrom us depth j
    else if stands '(' u then commaFrom us (depth + 1) (i + 1)
    else if stands ')' u then commaFrom us (depth - 1) (i + 1)
    else if stands ',' u ∧ depth = 0 then return some i
    else commaFrom us depth (i + 1)
  else return none
termination_by us.length - i
decreasing_by
  · have := lt_of_skipQuoted _h
    omega
  all_goals omega

/-- The first position of a comma outside literals and parentheses. -/
def commaAt (us : List α) : Checked (Option Nat) :=
  commaFrom us 0 0

end RelQuery.Bytes
