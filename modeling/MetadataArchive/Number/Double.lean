/-!
# `Double` -- 64-bit floating-point numbers as bit patterns

A double is its IEEE 754 binary64 bit pattern and nothing else: a sign, eleven exponent bits and
fifty-two fraction bits. No machine arithmetic is used anywhere. Every finite double is a whole
multiple of the least positive one, 2⁻¹⁰⁷⁴, and `Double.units` is that whole number; comparing a
double with an integer, or with another double, is comparing whole numbers.

Two orders are needed and they differ. `Double.compare?` is the numeric order, in which the two
zeros are equal and a NaN is comparable with nothing. `Double.totalCompare` orders the bit patterns:
-NaN, -∞, …, -0, 0, …, ∞, NaN.
-/

set_option autoImplicit false

namespace MetadataArchive

/-- A binary64 bit pattern. -/
structure Double where
  bits : UInt64
  deriving DecidableEq, Repr, Inhabited

namespace Double

/-- 2⁵²: fraction fields are below it. -/
def fractionSize : Nat := 0x10000000000000

/-- 2⁶³, the place of the sign. -/
def signBit : Nat := 0x8000000000000000

/-- The pattern of infinity without its sign: all exponent bits set, fraction zero. -/
def infinityMagnitude : Nat := 2047 * fractionSize

/-- The pattern without its sign bit, as a number. It grows with the absolute value. -/
def magnitude (d : Double) : Nat := d.bits.toNat % signBit

def isNegative (d : Double) : Bool := signBit ≤ d.bits.toNat

def ofMagnitude (negative : Bool) (m : Nat) : Double :=
  ⟨.ofNat (m + if negative then signBit else 0)⟩

/-- Not a number: the exponent bits all set and a fraction that is not zero. -/
def isNaN (d : Double) : Bool := infinityMagnitude < d.magnitude

def isInfinite (d : Double) : Bool := d.magnitude = infinityMagnitude

def isFinite (d : Double) : Bool := d.magnitude < infinityMagnitude

def exponentField (d : Double) : Nat := d.magnitude / fractionSize

def fractionField (d : Double) : Nat := d.magnitude % fractionSize

/-- The significand of a finite double: the fraction field, with the leading bit where the number
is not subnormal. -/
def significand (d : Double) : Nat :=
  if d.exponentField = 0 then d.fractionField else fractionSize + d.fractionField

/-- The power of two, counted from 2⁻¹⁰⁷⁴, that the significand of a finite double stands for. -/
def scale (d : Double) : Nat := d.exponentField - 1

/-- The absolute value of a finite double in units of 2⁻¹⁰⁷⁴. -/
def absUnits (d : Double) : Nat := d.significand <<< d.scale

/-- The value of a finite double in units of 2⁻¹⁰⁷⁴. -/
def units (d : Double) : Int := if d.isNegative then -(d.absUnits : Int) else d.absUnits

def unitsPerOne : Nat := 1 <<< 1074

/-- Where an integer stands to a double that is no NaN, both taken as exact numbers. -/
def compareInt (i : Int) (d : Double) : Ordering :=
  if d.isInfinite then (if d.isNegative then .gt else .lt)
  else compare (i * unitsPerOne) d.units

/-- The magnitude with the sign of the number; both zeros have zero. -/
def signedMagnitude (d : Double) : Int :=
  if d.isNegative then -(d.magnitude : Int) else d.magnitude

/-- Numeric order; nothing where one side is a NaN. -/
def compare? (a b : Double) : Option Ordering :=
  if a.isNaN || b.isNaN then none else some (compare a.signedMagnitude b.signedMagnitude)

/-- The place of a pattern in the total order. -/
def totalKey (d : Double) : Int :=
  if d.isNegative then -(d.magnitude : Int) - 1 else d.magnitude

def totalCompare (a b : Double) : Ordering := compare a.totalKey b.totalKey

/-- Where an integer stands to any double; a NaN is beyond all numbers on the side of its sign. -/
def totalCompareInt (i : Int) (d : Double) : Ordering :=
  if d.isNaN then (if d.isNegative then .gt else .lt) else compareInt i d

/-- The positive NaN with the quiet bit set, as arithmetic gives it. -/
def nan : Double := ⟨0x7ff8000000000000⟩

def infinity : Double := ofMagnitude false infinityMagnitude

def neg (d : Double) : Double := ofMagnitude (!d.isNegative) d.magnitude

instance : Neg Double := ⟨neg⟩

/-- The whole multiple of `2 ^ e` next to `num / den`, as a factor; of two equally near the even. -/
def roundHalfEven (num den : Nat) : Nat :=
  let q := num / den
  let r := num % den
  if 2 * r < den then q
  else if den < 2 * r then q + 1
  else if q % 2 = 0 then q else q + 1

/-- The magnitude of the double next to the positive fraction `num / den`.
 -/
def nearestMagnitude (num den : Nat) : Nat :=
  let guess : Int := (num.log2 : Int) - den.log2
  let fits : Bool :=
    if 0 ≤ guess then den <<< guess.toNat ≤ num else den ≤ num <<< (-guess).toNat
  -- The exponent of the greatest power of two that is not above the fraction.
  let lead := if fits then guess else guess - 1
  -- A double with that exponent has steps of 2^(lead − 52), never less than 2⁻¹⁰⁷⁴.
  let step := max (lead - 52) (-1074)
  let count :=
    if 0 ≤ step then roundHalfEven num (den <<< step.toNat)
    else roundHalfEven (num <<< (-step).toNat) den
  -- A count that rounds up to the next power of two carries into the exponent field by itself.
  min ((step + 1074).toNat * fractionSize + count) infinityMagnitude

/-- The double next to `num / den`, infinite where it is beyond the greatest finite one. -/
def ofFraction (negative : Bool) (num den : Nat) : Double :=
  if num = 0 then ofMagnitude negative 0 else ofMagnitude negative (nearestMagnitude num den)

def ofInt (i : Int) : Double := ofFraction (i < 0) i.natAbs 1

/-- The double next to the product of two finite ones. -/
def mul (a b : Double) : Double :=
  ofFraction (a.isNegative != b.isNegative) (a.absUnits * b.absUnits) (unitsPerOne * unitsPerOne)

/-- The double next to the quotient of two finite ones, of which the second is not zero. -/
def div (a b : Double) : Double :=
  ofFraction (a.isNegative != b.isNegative) a.absUnits b.absUnits

instance : Mul Double := ⟨mul⟩

instance : Div Double := ⟨div⟩

def isZero (d : Double) : Bool := d.magnitude = 0

/-- The greatest exponent of a power of ten that a double is near to. -/
def greatestPower : Nat := 308

/-- The double next to `10 ^ n`. -/
def powerOfTen (n : Nat) : Double := ofFraction false (Nat.pow 10 n) 1

/-- Division by `10 ^ greatestPower`, so many times or until nothing is left. -/
def reduced (d : Double) : Nat → Double
  | 0 => d
  | times + 1 => if d.isZero then d else reduced (d / powerOfTen greatestPower) times

/-- About `n · 10 ^ exponent`: the double next to `n`, multiplied or divided by powers of ten in the
arithmetic of doubles. It is rounded at every step, so the result can be beside the double that is
next to the exact number. Nothing where it is beyond the greatest finite one. -/
def scaled? (n : Nat) (exponent : Int) : Option Double :=
  let d := ofInt n
  match exponent with
  | .ofNat e =>
      if e ≤ greatestPower then
        let product := d * powerOfTen e
        if product.isFinite then some product else none
      else if d.isZero then some d else none
  | .negSucc e =>
      -- As long as the exponent is beyond the powers there are, the greatest of them is taken off.
      some (reduced d (e / greatestPower) / powerOfTen (e % greatestPower + 1))

end Double

end MetadataArchive
