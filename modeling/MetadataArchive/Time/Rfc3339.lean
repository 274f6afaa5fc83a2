import MetadataArchive.Text.Blank
import MetadataArchive.Time.Instant

/-!
# RFC 3339 texts of instants

An instant is written in universal time, with as many fraction digits out of none, three, six and
nine as it needs. The zone is written `Z` in stored text and `+00:00` where a value is displayed.
Years beyond four digits carry a sign.

Reading takes more than writing gives: any zone offset, any number of fraction digits (those behind
the ninth are dropped), one-digit fields, blanks before fields and a blank in place of the `T`.
-/

set_option autoImplicit false

namespace MetadataArchive.Rfc3339

def padded (width n : Nat) : String :=
  let ds := (toString n).toList
  String.ofList (List.replicate (width - ds.length) '0' ++ ds)

/-- A year: four digits, and a sign where four digits do not reach. -/
def yearText (y : Int) : String :=
  if 0 ≤ y && y ≤ 9999 then padded 4 y.toNat
  else (if y < 0 then "-" else "+") ++ padded 4 y.natAbs

/-- The fraction of a second in the fewest of none, three, six and nine digits. -/
def fractionText (nano : Nat) : String :=
  if nano = 0 then ""
  else if nano % 1000000 = 0 then "." ++ padded 3 (nano / 1000000)
  else if nano % 1000 = 0 then "." ++ padded 6 (nano / 1000)
  else "." ++ padded 9 nano

/-- The text of an instant with a given spelling of the zero offset. -/
def textWithZone (zone : String) (t : Instant) : String :=
  let day := t.day
  let second := (t.second.fmod 86400).toNat
  let leap := t.nano / 1000000000
  yearText day.year ++ "-" ++ padded 2 day.month ++ "-" ++ padded 2 day.day ++ "T" ++
    padded 2 (second / 3600) ++ ":" ++ padded 2 (second / 60 % 60) ++ ":" ++
    padded 2 (second % 60 + leap) ++ fractionText (t.nano % 1000000000) ++ zone

def text (t : Instant) : String := textWithZone "Z" t

def offsetText (t : Instant) : String := textWithZone "+00:00" t

abbrev Reader (α : Type) := List Char → Option (α × List Char)

def digitsValue (ds : List Char) : Nat := ds.foldl (fun n c => 10 * n + (c.toNat - 48)) 0

def number (most : Nat) : Reader Nat := fun cs =>
  let ds := (cs.take most).takeWhile Char.isDigit
  if ds.isEmpty then none else some (digitsValue ds, cs.drop ds.length)

/-- A number of up to two digits, blanks allowed in front, within bounds. -/
def field (low high : Nat) : Reader Nat := fun cs => do
  let (n, rest) ← number 2 (skipBlanks cs)
  if low ≤ n && n ≤ high then some (n, rest) else none

def year : Reader Int := fun cs =>
  match skipBlanks cs with
  | '-' :: rest => (number rest.length rest).map fun (n, rest) => (-(n : Int), rest)
  | '+' :: rest => (number rest.length rest).map fun (n, rest) => ((n : Int), rest)
  | cs => (number 4 cs).map fun (n, rest) => ((n : Int), rest)

def literal (c : Char) : Reader Unit := fun cs =>
  match skipBlanks cs with
  | c' :: rest => if c = c' then some ((), rest) else none
  | [] => none

def separator : Reader Unit
  | 'T' :: rest | 't' :: rest | ' ' :: rest => some ((), rest)
  | _ => none

/-- A fraction of a second in nanoseconds; digits behind the ninth do not count. -/
def fraction : Reader Nat
  | '.' :: rest => do
      let (n, rest') ← number 9 rest
      let read := rest.length - rest'.length
      some (n * Nat.pow 10 (9 - read), rest'.dropWhile Char.isDigit)
  | cs => some (0, cs)

def offsetBody (cs : List Char) : Option (Nat × List Char) :=
  match cs with
  | h1 :: h2 :: rest =>
      if h1.isDigit && h2.isDigit then
        match rest.dropWhile fun c => c = ':' || isBlank c with
        | m1 :: m2 :: rest =>
            if m1.isDigit && m2.isDigit && m1 ≤ '5' then
              some (digitsValue [h1, h2] * 3600 + digitsValue [m1, m2] * 60, rest)
            else none
        | _ => none
      else none
  | _ => none

/-- A zone offset: `Z`, `UTC`, or a sign with hours and minutes below a day. -/
def offset : Reader Int := fun cs =>
  match skipBlanks cs with
  | 'Z' :: rest | 'z' :: rest => some (0, rest)
  | u :: t :: c :: rest =>
      if u.toUpper = 'U' && t.toUpper = 'T' && c.toUpper = 'C' then some (0, rest)
      else do
        let sign ←
          if u = '+' then some (1 : Int) else if u = '-' || u = '−' then some (-1) else none
        let (n, rest) ← offsetBody (t :: c :: rest)
        if n < 86400 then some (sign * n, rest) else none
  | _ => none

/-- The instant that a text denotes. A sixtieth second is the leap second after the fifty-ninth. Both
the day that is written and that of the instant have to be in the calendar: a zone can lead out of
it. -/
def read? (s : String) : Option Instant := do
  let (y, cs) ← year s.toList
  let ((), cs) ← literal '-' cs
  let (month, cs) ← field 1 12 cs
  let ((), cs) ← literal '-' cs
  let (d, cs) ← field 1 31 cs
  let ((), cs) ← separator cs
  let (hour, cs) ← field 0 23 cs
  let ((), cs) ← literal ':' cs
  let (minute, cs) ← field 0 59 cs
  let ((), cs) ← literal ':' cs
  let (second, cs) ← field 0 60 cs
  let (nano, cs) ← fraction cs
  let (zone, cs) ← offset cs
  let day : Day := ⟨y, month, d⟩
  if (skipBlanks cs).isEmpty && day.isValid then
    let leap := second / 60
    let seconds : Int := day.toEpochDay * 86400 + (hour * 3600 + minute * 60 + (second - leap) : Nat)
    let t : Instant := ⟨seconds - zone, nano + leap * 1000000000⟩
    if Day.yearInRange t.day.year then some t else none
  else none

end MetadataArchive.Rfc3339
