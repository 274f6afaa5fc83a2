/-!
# Tables of characters

A set of characters is kept as its ranges. A range may take every second character only, which is
how scripts with paired letters are laid out. A table is written as text, its ranges apart by
blanks: `41-5a` for a range, `100-12e/2` for every second character of one, `b5` for a single one.
-/

set_option autoImplicit false

namespace MetadataArchive

/-- The characters from `low` to `high`, `step` apart. -/
structure CharRange where
  low : Nat
  high : Nat
  step : Nat
  deriving Repr, Inhabited

def CharRange.holds (r : CharRange) (c : Char) : Bool :=
  r.low ≤ c.toNat && c.toNat ≤ r.high && (c.toNat - r.low) % r.step = 0

def hexNumber (ds : List Char) : Nat :=
  ds.foldl (fun n c => 16 * n + if c.isDigit then c.toNat - 48 else c.toNat - 87) 0

def CharRange.read (word : List Char) : CharRange :=
  let step := if word.contains '/' then 2 else 1
  let word := word.takeWhile (· != '/')
  let low := word.takeWhile (· != '-')
  let high := (word.dropWhile (· != '-')).drop 1
  ⟨hexNumber low, hexNumber (if high.isEmpty then low else high), step⟩

def wordsOf (cs : List Char) : List (List Char) :=
  cs.foldr
    (fun c words =>
      if c = ' ' || c = '\n' then [] :: words
      else match words with
        | [] => [[c]]
        | w :: rest => (c :: w) :: rest)
    [[]] |>.filter fun w => !w.isEmpty

structure CharTable where
  ranges : List CharRange
  deriving Repr, Inhabited

def CharTable.read (text : String) : CharTable := ⟨(wordsOf text.toList).map CharRange.read⟩

def CharTable.holds (t : CharTable) (c : Char) : Bool := t.ranges.any fun r => r.holds c

end MetadataArchive
