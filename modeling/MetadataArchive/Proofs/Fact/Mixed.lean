import Mathlib.Algebra.Order.Field.Power
import Mathlib.Data.Rat.Cast.Order
import Mathlib.Order.Compare
import MetadataArchive.Proofs.Fact.Order
import MetadataArchive.Proofs.Number.Truncation

/-!
# Integers and doubles

A pattern that is no NaN stands for a rational number, or for one of the two infinities
(`Double.value`), and an integer stands to it as it stands to that number
(`integers_compare_exactly`). There is a way to find out that needs no number greater than the
double and the integer themselves, and it is taken on machines: what is out of the range of integers
is beyond them all, and of the others the whole part is an integer; where that is the one in
question, what is behind the point decides (`Double.truncatingCompareInt`). The bounds of the range
are not alike, the truncation is toward zero, and the difference is rounded; it comes to the same.
-/

set_option autoImplicit false

namespace MetadataArchive

namespace Double

/-! ## The number of a pattern -/

/-- The number of a finite pattern without its sign: one and a fraction of 52 bits, times the power
of two that the exponent says. Where the exponent field is zero there is no one before the fraction,
and the power is the least there is. -/
def absRational (d : Double) : ℚ :=
  if d.exponentField = 0 then (d.fractionField / 2 ^ 52 : ℚ) * 2 ^ (-1022 : ℤ)
  else (1 + d.fractionField / 2 ^ 52 : ℚ) * 2 ^ (d.exponentField - 1023 : ℤ)

def rational (d : Double) : ℚ := if d.isNegative then -d.absRational else d.absRational

/-- The number of a pattern that is no NaN, which may be infinite. -/
def value (d : Double) : WithBot (WithTop ℚ) :=
  if d.exponentField = 2047 then if d.isNegative then ⊥ else ⊤
  else ((d.rational : WithTop ℚ) : WithBot (WithTop ℚ))

variable {d a b : Double} {i : Int}

/-- A power of two in units, with an exponent that no proof evaluates. -/
theorem two_zpow_mul_unitsPerOne {z : ℤ} {n : Nat} (h : z + 1074 = n) :
    (2 : ℚ) ^ z * unitsPerOne = 2 ^ n := by
  rw [unitsPerOne]
  generalize hc : (1074 : Nat) = c
  have hsum : z + c = n := by omega
  rw [Nat.one_shiftLeft, Nat.cast_pow, Nat.cast_ofNat, ← zpow_natCast, ← zpow_natCast,
    ← zpow_add₀ (two_ne_zero' ℚ), hsum]

theorem absUnits_eq_absRational (d : Double) :
    (d.absUnits : ℚ) = d.absRational * unitsPerOne := by
  have hsize : (fractionSize : ℚ) = 2 ^ 52 := by norm_num [fractionSize]
  rw [absUnits, significand, scale, absRational, Nat.shiftLeft_eq, Nat.cast_mul, Nat.cast_pow,
    Nat.cast_ofNat]
  split
  next hzero =>
    have hpower : (2 : ℚ) ^ (-1022 : ℤ) * unitsPerOne = 2 ^ 52 := two_zpow_mul_unitsPerOne rfl
    rw [mul_assoc, hpower, hzero, Nat.zero_sub, pow_zero, mul_one,
      div_mul_cancel₀ _ (by positivity)]
  next hpos =>
    have hpower : (2 : ℚ) ^ (d.exponentField - 1023 : ℤ) * unitsPerOne =
        2 ^ (52 + (d.exponentField - 1)) := two_zpow_mul_unitsPerOne (by omega)
    rw [mul_assoc, hpower, pow_add, ← mul_assoc, add_mul, div_mul_cancel₀ _ (by positivity),
      one_mul, Nat.cast_add, hsize]

theorem units_eq_rational (d : Double) : (d.units : ℚ) = d.rational * unitsPerOne := by
  rw [units, rational]
  split
  · rw [Int.cast_neg, Int.cast_natCast, absUnits_eq_absRational, neg_mul]
  · rw [Int.cast_natCast, absUnits_eq_absRational]

theorem isInfinite_iff (h : d.isNaN = false) : d.isInfinite = true ↔ d.exponentField = 2047 := by
  have hle := magnitude_le h
  have hsize : 0 < fractionSize := by decide
  rw [isInfinite, decide_eq_true_iff, exponentField]
  constructor
  · intro heq
    rw [heq, infinityMagnitude, Nat.mul_div_cancel _ hsize]
  · intro hexponent
    have hge := Nat.div_mul_le_self d.magnitude fractionSize
    rw [hexponent] at hge
    exact Nat.le_antisymm hle hge

/-- **An integer stands to a double as exact numbers do.** -/
theorem compareInt_eq_cmp (h : d.isNaN = false) :
    compareInt i d = cmp (((i : ℚ) : WithTop ℚ) : WithBot (WithTop ℚ)) d.value := by
  unfold compareInt value
  by_cases hinf : d.isInfinite = true
  · rw [if_pos hinf, if_pos ((isInfinite_iff h).1 hinf)]
    by_cases hneg : d.isNegative = true
    · rw [if_pos hneg, if_pos hneg]
      exact ((cmp_eq_gt_iff _ _).2 (WithBot.bot_lt_coe _)).symm
    · rw [if_neg hneg, if_neg hneg]
      exact ((cmp_eq_lt_iff _ _).2 (WithBot.coe_lt_coe.2 (WithTop.coe_lt_top _))).symm
  · rw [if_neg hinf, if_neg ((isInfinite_iff h).not.1 hinf)]
    have hcoe : StrictMono fun q : ℚ => ((q : WithTop ℚ) : WithBot (WithTop ℚ)) :=
      WithBot.coe_strictMono.comp WithTop.coe_strictMono
    have hunit : (0 : ℚ) < unitsPerOne := Nat.cast_pos.2 unitsPerOne_pos
    calc compare (i * unitsPerOne) d.units
        = cmp (i * unitsPerOne) d.units := (cmp_eq_compare _ _).symm
      _ = cmp ((i * unitsPerOne : ℤ) : ℚ) (d.units : ℚ) :=
          (Int.cast_strictMono.cmp_map_eq _ _).symm
      _ = cmp ((i : ℚ) * unitsPerOne) (d.rational * unitsPerOne) := by
          rw [units_eq_rational, Int.cast_mul, Int.cast_natCast]
      _ = cmp (i : ℚ) d.rational := cmp_mul_pos_right hunit _ _
      _ = cmp (((i : ℚ) : WithTop ℚ) : WithBot (WithTop ℚ)) _ := (hcoe.cmp_map_eq _ _).symm

/-! ## By truncation -/

/-- The double 2⁶³. -/
def bound : Double := ofMagnitude false (1086 * fractionSize)

/-- Where an integer of 64 bits stands to any double, found out by truncation. -/
def truncatingCompareInt (i : Int64) (d : Double) : Ordering :=
  if d.isNaN then if d.isNegative then .gt else .lt
  else if (compare? d bound).any Ordering.isGE then .lt
  else if (compare? d (-bound)).any Ordering.isLT then .gt
  else
    (compare i.toInt d.trunc.toInt64.toInt).then
      ((compare? (ofMagnitude false 0) (d - d.trunc)).getD .eq)

theorem compare_signedMagnitude (a b : Double) :
    compare a.signedMagnitude b.signedMagnitude = compare a.units b.units := by
  have hlt : a.absUnits < b.absUnits ↔ a.magnitude < b.magnitude := absUnits_lt_iff
  have hgt : b.absUnits < a.absUnits ↔ b.magnitude < a.magnitude := absUnits_lt_iff
  have hzero (d : Double) : 0 < d.absUnits ↔ 0 < d.magnitude :=
    unitsOf_strictMono.lt_iff_lt (a := 0)
  have ha := hzero a
  have hb := hzero b
  unfold signedMagnitude units
  apply compare_eq_compare <;> split <;> split <;> omega

/-- Doubles are compared by their units. -/
theorem compare?_eq_some (ha : a.isNaN = false) (hb : b.isNaN = false) :
    compare? a b = some (compare a.units b.units) := by
  rw [compare?, ha, hb, Bool.false_or, if_neg Bool.false_ne_true, compare_signedMagnitude]

theorem units_bound :
    bound.units = 2 ^ 63 * unitsPerOne ∧ (-bound).units = -2 ^ 63 * unitsPerOne := by
  decide +kernel

theorem compare_mul_eq {u : Int} (hu : 0 < u) (i x : Int) :
    compare (i * u) x = (compare i (x.tdiv u)).then (compare (x.tdiv u * u) x) := by
  have hsum := Int.tdiv_mul_add_tmod x u
  have hlt := Int.tmod_lt_of_pos x hu
  have hgt := Int.lt_tmod_of_pos x hu
  generalize x.tdiv u = w at hsum ⊢
  rcases Int.lt_trichotomy i w with h | rfl | h
  · have hmul : (i + 1) * u ≤ w * u := Int.mul_le_mul_of_nonneg_right (by omega) hu.le
    rw [Int.add_mul, Int.one_mul] at hmul
    rw [Int.compare_eq_lt.2 h, Int.compare_eq_lt.2 (by omega), Ordering.lt_then]
  · rw [Int.compare_eq_eq.2 rfl, Ordering.eq_then]
  · have hmul : (w + 1) * u ≤ i * u := Int.mul_le_mul_of_nonneg_right (by omega) hu.le
    rw [Int.add_mul, Int.one_mul] at hmul
    rw [Int.compare_eq_gt.2 h, Int.compare_eq_gt.2 (by omega), Ordering.gt_then]

theorem isNaN_bound : bound.isNaN = false ∧ (-bound).isNaN = false := by decide +kernel

/-- Less than a multiple is less than that, also toward zero. -/
theorem tdiv_lt_of_lt_mul {u x n : Int} (hu : 0 < u) (hn : 0 < n) (h : x < n * u) :
    x.tdiv u < n := by
  by_cases hx : 0 ≤ x
  · have hle : x.tdiv u * u ≤ x := by
      have hsum := Int.tdiv_mul_add_tmod x u
      have hnonneg := Int.tmod_nonneg u hx
      omega
    exact Int.lt_of_mul_lt_mul_right (Int.lt_of_le_of_lt hle h) hu.le
  · have hle : x.tdiv u ≤ (0 : Int).tdiv u := Int.tdiv_le_tdiv hu (by omega)
    rw [Int.zero_tdiv] at hle
    omega

/-- Within the bounds the whole part is an integer of 64 bits. -/
theorem toInt_trunc (h : d.isNaN = false) (hge : -2 ^ 63 * unitsPerOne ≤ d.units)
    (hlt : d.units < 2 ^ 63 * unitsPerOne) :
    d.trunc.toInt64.toInt = d.units.tdiv unitsPerOne := by
  have hunit : (0 : Int) < unitsPerOne := Int.natCast_pos.2 unitsPerOne_pos
  have hlow : -2 ^ 63 ≤ d.units.tdiv unitsPerOne := Int.le_tdiv_of_mul_le hunit hge
  have hhigh : d.units.tdiv unitsPerOne < 2 ^ 63 := tdiv_lt_of_lt_mul hunit (by decide) hlt
  rw [toInt64, isNaN_trunc h, if_neg Bool.false_ne_true, units_trunc h,
    Int.mul_tdiv_cancel _ hunit.ne']
  exact Int64.toInt_ofIntClamp hlow (Int.le_of_lt_add_one hhigh)

/-- **Truncation leads to the exact order**, for every integer and every pattern. -/
theorem truncatingCompareInt_eq (i : Int64) (d : Double) :
    truncatingCompareInt i d = totalCompareInt i.toInt d := by
  have hunit : (0 : Int) < unitsPerOne := Int.natCast_pos.2 unitsPerOne_pos
  have hlt : i.toInt < 2 ^ 63 := i.toInt_lt
  have hge : -2 ^ 63 ≤ i.toInt := i.le_toInt
  unfold truncatingCompareInt
  by_cases h : d.isNaN = true
  · rw [totalCompareInt, if_pos h, if_pos h]
  · rw [Bool.not_eq_true] at h
    obtain ⟨hbound, hbound'⟩ := units_bound
    have hzero : (ofMagnitude false 0).units = 0 := by decide
    rw [totalCompareInt_eq (by omega), h, if_neg Bool.false_ne_true,
      compare?_eq_some h isNaN_bound.1, compare?_eq_some h isNaN_bound.2, hbound, hbound']
    split
    next habove =>
      rw [Option.any_some, Int.isGE_compare] at habove
      have hmul : i.toInt * unitsPerOne < 2 ^ 63 * unitsPerOne :=
        Int.mul_lt_mul_of_pos_right hlt hunit
      exact (Int.compare_eq_lt.2 (by omega)).symm
    next hbelow =>
      rw [Option.any_some, Int.isGE_compare, Int.not_le] at hbelow
      split
      next hunder =>
        rw [Option.any_some, Ordering.isLT_iff_eq_lt, Int.compare_eq_lt] at hunder
        have hmul : -2 ^ 63 * unitsPerOne ≤ i.toInt * unitsPerOne :=
          Int.mul_le_mul_of_nonneg_right hge hunit.le
        exact (Int.compare_eq_gt.2 (by omega)).symm
      next hover =>
        rw [Option.any_some, Ordering.isLT_iff_eq_lt, Int.compare_eq_lt, Int.not_lt] at hover
        rw [toInt_trunc h hover hbelow, compare_mul_eq hunit,
          compare?_eq_some (by decide) (isNaN_sub _ _), hzero, compare_units_sub, units_trunc h,
          Option.getD_some]

end Double

/-- **Integers and doubles compare as exact numbers.** For every integer of 64 bits and every
pattern that is no NaN, the order that truncation leads to is that of the integer and of the
rational number or infinity that the pattern stands for, and so are the order that values are sorted
by and the order that a query asks for, whichever of the two comes first. -/
theorem integers_compare_exactly (i : Int64) (d : Double) (h : d.isNaN = false) :
    let exact : WithBot (WithTop ℚ) := ((i.toInt : ℚ) : WithTop ℚ)
    Double.truncatingCompareInt i d = cmp exact d.value ∧
      Double.totalCompareInt i.toInt d = cmp exact d.value ∧
      Value.compare? (.int i) (.float d) = some (cmp exact d.value) ∧
      Value.compare? (.float d) (.int i) = some (cmp d.value exact) := by
  intro exact
  have horder : Double.compareInt i.toInt d = cmp exact d.value := Double.compareInt_eq_cmp h
  have htotal : Double.totalCompareInt i.toInt d = cmp exact d.value := by
    rw [Double.totalCompareInt, h, if_neg Bool.false_ne_true, horder]
  refine ⟨(Double.truncatingCompareInt_eq i d).trans htotal, htotal, ?_, ?_⟩
  · rw [Value.compare?, h, if_neg Bool.false_ne_true, horder]
  · rw [Value.compare?, h, if_neg Bool.false_ne_true, horder, cmp_swap]

/-- The whole part of -2.5 is the integer -2, and what is behind the point makes the integer the
greater one. -/
theorem integer_compares_with_negative_fraction :
    let d : Double := ⟨0xc004000000000000⟩
    d.isNaN = false ∧ cmp (((-2 : ℚ) : WithTop ℚ) : WithBot (WithTop ℚ)) d.value = .gt ∧
      Value.compare? (.int (-2)) (.float d) = some .gt := by
  intro d
  have hnumber : d.isNaN = false := by decide +kernel
  obtain ⟨htruncated, -, hcompare, -⟩ := integers_compare_exactly (-2) d hnumber
  have hgt : Double.truncatingCompareInt (-2) d = .gt := by decide +kernel
  have hinteger : ((-2 : Int64).toInt : ℚ) = -2 := by
    rw [show (-2 : Int64).toInt = -2 by decide, Int.cast_neg, Int.cast_ofNat]
  rw [hgt] at htruncated
  rw [← htruncated] at hcompare
  rw [hinteger] at htruncated
  exact ⟨hnumber, htruncated.symm, hcompare⟩

end MetadataArchive
