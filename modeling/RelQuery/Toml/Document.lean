import RelQuery.Text.Front
import RelQuery.Toml.Table
import RelQuery.Toml.Token

/-!
# TOML documents

* `Toml.parse?` : the members of a document's root table.

Strings, integers, arrays and tables are read. Floats, booleans, dates and arrays of tables are refused, as no document
of this library holds one.
-/

namespace RelQuery.Toml

open Text

/-- The tokens without the line ends at their front. -/
def dropLineEnds : List Token → List Token
  | .lineEnd :: ts => dropLineEnds ts
  | ts => ts

theorem length_dropLineEnds_le (ts : List Token) : (dropLineEnds ts).length ≤ ts.length := by
  fun_induction dropLineEnds ts with
  | case1 ts ih => simp only [List.length_cons]; omega
  | case2 => simp

theorem length_le_of_dropLineEnds {ts rest : List Token} (h : dropLineEnds ts = rest) : rest.length ≤ ts.length :=
  h ▸ length_dropLineEnds_le ts

/-- A token in front of what is left is one of the tokens. -/
theorem length_lt_of_dropLineEnds {ts rest : List Token} {token : Token} (h : dropLineEnds ts = token :: rest) :
    rest.length < ts.length :=
  length_le_of_dropLineEnds h

/-! ## Keys -/

/-- The key that a token stands for. -/
def key? : Token → Option (List Char)
  | .bare run => if run.all isKeyChar then some run else none
  | .text value false => some value
  | _ => none

/-- Reads a dotted key. -/
def path? : (ts : List Token) → Option (Front (List (List Char)) ts)
  | [] => none
  | token :: ts =>
    (key? token).bind fun key =>
      match ts with
      | .mark '.' :: rest => (path? rest).map (·.within (key :: ·) (by simp only [List.length_cons]; omega))
      | rest => some ⟨[key], rest, Nat.lt_succ_self _⟩

/-! ## Values -/

mutual

/-- Reads a value. -/
def value? (ts : List Token) : Option (Front Toml ts) :=
  match ts with
  | .text value _ :: rest => some ⟨.text value, rest, Nat.lt_succ_self _⟩
  | .bare run :: rest => (integer? run).map fun n => ⟨.integer n, rest, Nat.lt_succ_self _⟩
  | .mark '[' :: rest => (items? rest).map (·.within .array (Nat.le_succ _))
  | .mark '\x7b' :: rest => (members? [] rest).map (·.within (.table .braced) (Nat.le_succ _))
  | _ => none
termination_by 2 * ts.length
decreasing_by all_goals simp only [List.length_cons]; omega

/-- Reads the items of an array and the closing bracket; line ends may stand anywhere, and a comma behind the last
item. -/
def items? (ts : List Token) : Option (Front (List Toml) ts) :=
  match hs : dropLineEnds ts with
  | .mark ']' :: rest => some ⟨[], rest, length_lt_of_dropLineEnds hs⟩
  | ts' =>
    have hs := length_le_of_dropLineEnds hs
    match value? ts' with
    | none => none
    | some item =>
      have hv := item.shorter
      match hr : dropLineEnds item.rest with
      | .mark ']' :: rest =>
        have hr := length_lt_of_dropLineEnds hr
        some ⟨[item.value], rest, by omega⟩
      | .mark ',' :: rest =>
        have hr := length_lt_of_dropLineEnds hr
        (items? rest).map (·.within (item.value :: ·) (by omega))
      | _ => none
termination_by 2 * ts.length + 1
decreasing_by all_goals omega

/-- Reads the members of a table between braces behind those read so far, and the closing brace; line ends may stand
around keys and values, and a comma behind the last member. -/
def members? (read : Members) (ts : List Token) : Option (Front Members ts) :=
  match hs : dropLineEnds ts with
  | .mark '\x7d' :: rest => some ⟨read, rest, length_lt_of_dropLineEnds hs⟩
  | ts' =>
    have hs := length_le_of_dropLineEnds hs
    match path? ts' with
    | none => none
    | some path =>
      have hp := path.shorter
      match he : dropLineEnds path.rest with
      | .mark '=' :: rest =>
        have he := length_lt_of_dropLineEnds he
        have hd := length_dropLineEnds_le rest
        match value? (dropLineEnds rest) with
        | none => none
        | some value =>
          have hv := value.shorter
          match assign? value.value path.value read with
          | none => none
          | some read =>
            match hr : dropLineEnds value.rest with
            | .mark '\x7d' :: rest' =>
              have hr := length_lt_of_dropLineEnds hr
              some ⟨read, rest', by omega⟩
            | .mark ',' :: rest' =>
              have hr := length_lt_of_dropLineEnds hr
              (members? read rest').map (·.within id (by omega))
            | _ => none
      | _ => none
termination_by 2 * ts.length + 1
decreasing_by all_goals omega

end

/-! ## Lines -/

/-- Whether a line ends here. -/
def endsLine : List Token → Bool
  | [] | .lineEnd :: _ => true
  | _ => false

/-- Reads the lines of a document below a header, behind the tables read so far. -/
def lines? (header : List (List Char)) (root : Members) (ts : List Token) : Option Members :=
  match _hs : dropLineEnds ts with
  | [] => some root
  | .mark '[' :: rest =>
    match path? rest with
    | none => none
    | some path =>
      match _hp : path.rest with
      | .mark ']' :: rest' =>
        match openTable? path.value root with
        | none => none
        | some root => if endsLine rest' then lines? path.value root rest' else none
      | _ => none
  | ts' =>
    match path? ts' with
    | none => none
    | some path =>
      match _hp : path.rest with
      | .mark '=' :: rest =>
        match value? rest with
        | none => none
        | some value =>
          match within? (assign? value.value path.value) header root with
          | none => none
          | some root => if endsLine value.rest then lines? header root value.rest else none
      | _ => none
termination_by ts.length
decreasing_by
  · have := length_lt_of_dropLineEnds _hs
    have := Front.length_lt _hp
    omega
  · have := length_le_of_dropLineEnds _hs
    have := Front.length_lt _hp
    have := value.shorter
    omega

/-- The text without a byte order mark at its front. -/
def dropMark : List Char → List Char
  | '\ufeff' :: s => s
  | s => s

/-- The members of a document's root table. -/
def parse? (s : String) : Option Members := do
  lines? [] [] (← tokens? (dropMark s.toList))

end RelQuery.Toml
