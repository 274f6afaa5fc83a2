import MetadataArchive.Json.Token

/-!
# Reading JSON

A value is read from a row of tokens by recursive descent. Arrays and objects may nest so deep and
no deeper (`nestingLimit`): a text beyond the limit is refused like one that is malformed.
-/

set_option autoImplicit false

namespace MetadataArchive.Json

/-- How deep arrays and objects may nest. -/
def nestingLimit : Nat := 127

mutual

/-- The value at the front of a row of tokens. `depth` is how many more levels may be opened;
`steps` bounds the recursion and is never reached where it is at least the number of tokens. -/
def value? (steps depth : Nat) (ts : List Token) : Option (Json × List Token) :=
  match steps, ts with
  | 0, _ | _, [] => none
  | steps + 1, t :: rest =>
      match t, depth with
      | .str s, _ => some (.str s, rest)
      | .scalar j, _ => some (j, rest)
      | .openBracket, depth + 1 =>
          match rest with
          | .closeBracket :: rest => some (.arr [], rest)
          | _ => (items? steps depth rest).map fun (js, rest) => (.arr js, rest)
      | .openBrace, depth + 1 =>
          match rest with
          | .closeBrace :: rest => some (.obj [], rest)
          | _ => (members? steps depth rest).map fun (ms, rest) => (.obj ms, rest)
      | _, _ => none
termination_by structural steps

/-- The items of an array that is not empty, with its closing bracket. -/
def items? (steps depth : Nat) (ts : List Token) : Option (List Json × List Token) :=
  match steps with
  | 0 => none
  | steps + 1 =>
      match value? steps depth ts with
      | some (j, .comma :: rest) => (items? steps depth rest).map fun (js, rest) => (j :: js, rest)
      | some (j, .closeBracket :: rest) => some ([j], rest)
      | _ => none
termination_by structural steps

/-- The members of an object that is not empty, with its closing brace. -/
def members? (steps depth : Nat) (ts : List Token) :
    Option (List (String × Json) × List Token) :=
  match steps with
  | 0 => none
  | steps + 1 =>
      match ts with
      | .str name :: .colon :: ts =>
          match value? steps depth ts with
          | some (j, .comma :: rest) =>
              (members? steps depth rest).map fun (ms, rest) => ((name, j) :: ms, rest)
          | some (j, .closeBrace :: rest) => some ([(name, j)], rest)
          | _ => none
      | _ => none
termination_by structural steps

end

def readWithin? (depth : Nat) (s : String) : Option Json := do
  let ts ← tokens? s.toList
  match value? (2 * ts.length + 2) depth ts with
  | some (j, []) => some j
  | _ => none

def read? (s : String) : Option Json := readWithin? nestingLimit s

end MetadataArchive.Json
