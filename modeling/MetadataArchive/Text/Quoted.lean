import MetadataArchive.Text.Category

/-!
# Quoted text in messages

A text is quoted so that it shows on one line: quotation marks and backslashes are escaped, line
ends, tabs and the zero character have letters, and every other character that does not print is
written by its code point.
-/

set_option autoImplicit false

namespace MetadataArchive

def hexText (n : Nat) : List Char := Nat.toDigits 16 n

def quotedChar (c : Char) : List Char :=
  if c = '"' then ['\\', '"']
  else if c = '\\' then ['\\', '\\']
  else if c = '\n' then ['\\', 'n']
  else if c = '\r' then ['\\', 'r']
  else if c = '\t' then ['\\', 't']
  else if c.toNat = 0 then ['\\', '0']
  else if isPrintable c then [c]
  else ['\\', 'u', '\x7b'] ++ hexText c.toNat ++ ['\x7d']

def quoted (s : String) : String := String.ofList ('"' :: s.toList.flatMap quotedChar ++ ['"'])

end MetadataArchive
