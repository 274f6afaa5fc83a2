import MetadataArchive.Json.Basic
import MetadataArchive.Number.Decimal

/-!
# Writing JSON

Compact text: no blanks, members in their order. In strings a quotation mark, a backslash and the
characters below U+0020 are escaped, by a letter where there is one and by four hexadecimal digits
otherwise; everything else stands as it is.
-/

set_option autoImplicit false

namespace MetadataArchive.Json

def hexDigit (n : Nat) : Char := if n < 10 then Char.ofNat (48 + n) else Char.ofNat (87 + n)

def escapeChar (c : Char) : List Char :=
  if c = '"' then ['\\', '"']
  else if c = '\\' then ['\\', '\\']
  else if c = '\n' then ['\\', 'n']
  else if c = '\r' then ['\\', 'r']
  else if c = '\t' then ['\\', 't']
  else if c.toNat = 8 then ['\\', 'b']
  else if c.toNat = 12 then ['\\', 'f']
  else if c.toNat < 32 then
    ['\\', 'u', '0', '0', hexDigit (c.toNat / 16), hexDigit (c.toNat % 16)]
  else [c]

def quote (s : String) : String := String.ofList ('"' :: s.toList.flatMap escapeChar ++ ['"'])

mutual

def write : Json → String
  | .null => "null"
  | .bool b => if b then "true" else "false"
  | .int i => toString i
  | .num d => d.storedText
  | .str s => quote s
  | .arr items => "[" ++ writeItems items ++ "]"
  | .obj members => "\x7b" ++ writeMembers members ++ "\x7d"

def writeItems : List Json → String
  | [] => ""
  | [j] => write j
  | j :: rest => write j ++ "," ++ writeItems rest

def writeMembers : List (String × Json) → String
  | [] => ""
  | [(name, j)] => quote name ++ ":" ++ write j
  | (name, j) :: rest => quote name ++ ":" ++ write j ++ "," ++ writeMembers rest

end

end MetadataArchive.Json
