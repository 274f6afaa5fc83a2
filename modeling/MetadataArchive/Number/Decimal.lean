import MetadataArchive.Number.Double

/-!
# `Decimal` -- the shortest decimal text of a double

A double is written with the fewest digits that no other double is nearer to, and of the decimals
with that many digits the one next to it (`Decimal.shortest`). How those digits are laid out is a
choice of the format that is written, and a `Decimal.Layout` holds it: the stored form of a property
has an exponent beyond a range and marks a whole number by `.0`, the displayed form has neither.
-/

set_option autoImplicit false

namespace MetadataArchive

/-- The decimal number `digits · 10 ^ exponent`. -/
structure Decimal where
  digits : Nat
  exponent : Int
  deriving DecidableEq, Repr

namespace Decimal

/-- Four times the units of a double and of the two ends of the interval of numbers that round to
it. -/
structure Neighbourhood where
  low : Nat
  value : Nat
  high : Nat
  closed : Bool

/-- The interval of numbers that round to a finite double; its ends belong to it where the
significand is even. -/
def neighbourhood (d : Double) : Neighbourhood :=
  let step := 1 <<< d.scale
  -- The first number of an exponent has its neighbour below half as far away.
  let below := if d.fractionField = 0 && 1 < d.exponentField then step else 2 * step
  { low := 4 * d.absUnits - below
    value := 4 * d.absUnits
    high := 4 * d.absUnits + 2 * step
    closed := d.significand % 2 = 0 }

/-- The interval and the grid of multiples of `10 ^ t`, on one scale of whole numbers. -/
def onGrid (n : Neighbourhood) (t : Int) : Neighbourhood × Nat :=
  let unit := 4 * Double.unitsPerOne
  if 0 ≤ t then (n, unit * Nat.pow 10 t.toNat)
  else
    let f := Nat.pow 10 (-t).toNat
    ({ n with low := n.low * f, value := n.value * f, high := n.high * f }, unit)

def Neighbourhood.holds (n : Neighbourhood) (x : Nat) : Bool :=
  if n.closed then n.low ≤ x && x ≤ n.high else n.low < x && x < n.high

/-- The multiple of `10 ^ t` that reads back as the double: of the two next to it the nearer, at a
tie the even one, where both read back. -/
def onGrid? (n : Neighbourhood) (t : Int) : Option Nat :=
  let (n, unit) := onGrid n t
  let c := n.value / unit
  let lowHit := 0 < c && n.holds (c * unit)
  let highHit := n.holds ((c + 1) * unit)
  let lowDistance := n.value - c * unit
  let highDistance := (c + 1) * unit - n.value
  match lowHit, highHit with
  | false, false => none
  | true, false => some c
  | false, true => some (c + 1)
  | true, true =>
      if lowDistance < highDistance then some c
      else if highDistance < lowDistance then some (c + 1)
      else if c % 2 = 0 then some c else some (c + 1)

/-- Try grids from coarse to fine. -/
def search (n : Neighbourhood) : Nat → Int → Decimal
  | 0, t => ⟨n.value / (4 * Double.unitsPerOne), t⟩
  | tries + 1, t =>
      match onGrid? n t with
      | some c => ⟨c, t⟩
      | none => search n tries (t - 1)

/-- The shortest decimal that reads back as a finite double's absolute value. -/
def shortest (d : Double) : Decimal :=
  if d.absUnits = 0 then ⟨0, 0⟩
  else
    -- The first grid is coarser than the number, and twenty grids on there are more digits than the
    -- seventeen that always suffice.
    let top : Int := ((d.absUnits.log2 : Int) - 1074) * 30103 / 100000 + 2
    search (neighbourhood d) 24 top

structure Layout where
  /-- Positional writing up to this decimal exponent; without a bound, always. -/
  positional : Option (Int × Int)
  /-- What follows a whole number that is written positionally. -/
  wholeEnding : String
  nanText : String
  infinityText : String
  negInfinityText : String

/-- The stored form: an exponent outside 10⁻⁵ … 10¹⁵, whole numbers end in `.0`, and what is not
finite is `null`. -/
def Layout.stored : Layout := ⟨some (-5, 15), ".0", "null", "null", "null"⟩

/-- The displayed form: never an exponent, nothing after a whole number. -/
def Layout.displayed : Layout := ⟨none, "", "NaN", "inf", "-inf"⟩

def zeros (n : Nat) : String := String.ofList (List.replicate n '0')

def positionalText (ending : String) (c : Decimal) : String :=
  let ds := (toString c.digits).toList
  if 0 ≤ c.exponent then String.ofList ds ++ zeros c.exponent.toNat ++ ending
  else
    let places := (-c.exponent).toNat
    if ds.length ≤ places then "0." ++ zeros (places - ds.length) ++ String.ofList ds
    else
      let whole := ds.length - places
      String.ofList (ds.take whole) ++ "." ++ String.ofList (ds.drop whole)

def scientificText (c : Decimal) : String :=
  let ds := (toString c.digits).toList
  let e : Int := c.exponent + ds.length - 1
  let mantissa :=
    match ds with
    | [] => ""
    | [a] => String.singleton a
    | a :: rest => String.singleton a ++ "." ++ String.ofList rest
  mantissa ++ "e" ++ (if e < 0 then "-" else "+") ++ toString e.natAbs

/-- A decimal that is not negative, positionally or with an exponent as the layout says. -/
def bodyText (layout : Layout) (c : Decimal) : String :=
  let lead : Int := c.exponent + (toString c.digits).length - 1
  match layout.positional with
  | none => positionalText layout.wholeEnding c
  | some (low, high) =>
      if low ≤ lead && lead ≤ high then positionalText layout.wholeEnding c else scientificText c

def text (layout : Layout) (d : Double) : String :=
  if d.isNaN then layout.nanText
  else if d.isInfinite then (if d.isNegative then layout.negInfinityText else layout.infinityText)
  else (if d.isNegative then "-" else "") ++ bodyText layout (shortest d)

end Decimal

namespace Double

/-- The stored text, in which what is no number is `null`. -/
def storedText (d : Double) : String := Decimal.text .stored d

def displayText (d : Double) : String := Decimal.text .displayed d

end Double

end MetadataArchive
