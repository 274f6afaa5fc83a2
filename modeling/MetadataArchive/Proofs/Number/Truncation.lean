import MetadataArchive.Proofs.Number.Scaled

/-!
# Truncation

The whole part of a double is a double: where the exponent leaves bits of the pattern behind the
point, they are cleared, where it leaves all of them there, nothing remains but the sign, and where
it leaves none, the double is whole. In units it is the greatest multiple of one that is not beyond
the double (`unitsOf_truncMagnitude`, `units_trunc`).

What is behind the point is a difference of doubles, and a difference is rounded. Nothing is asked
of the rounding but that it does not make nothing of something (`compare_units_sub`).
-/

set_option autoImplicit false

namespace MetadataArchive.Double

/-- A magnitude with the bits behind the point cleared. -/
def truncMagnitude (m : Nat) : Nat :=
  if m / fractionSize < 1023 then 0
  else if 1075 ≤ m / fractionSize then m
  else m - m % 2 ^ (1075 - m / fractionSize)

/-- The whole part, with the sign of the double. -/
def trunc (d : Double) : Double := ofMagnitude d.isNegative (truncMagnitude d.magnitude)

/-- The integer of 64 bits that a double is made into: its whole part, or the end of the range that
it is beyond; zero for what is no number. -/
def toInt64 (d : Double) : Int64 :=
  if d.isNaN then 0 else .ofIntClamp (d.units.tdiv unitsPerOne)

/-- The double next to the difference of two finite ones. No difference is the positive zero, unless
the positive zero is taken from the negative one. -/
def sub (a b : Double) : Double :=
  ofFraction (a.units < b.units || (a.isNegative && !b.isNegative)) (a.units - b.units).natAbs
    unitsPerOne

instance : Sub Double := ⟨sub⟩

variable {d a b : Double} {m k : Nat}

/-! ## In units -/

/-- A double of this exponent counts in units of one over so many powers of two. -/
theorem unitsPerOne_eq (hk : k ≤ 1074) : unitsPerOne = 2 ^ k * 2 ^ (1074 - k) := by
  rw [unitsPerOne, Nat.one_shiftLeft, ← Nat.pow_add, Nat.add_sub_cancel' hk]

theorem fractionSize_eq (hk : k ≤ 52) : fractionSize = 2 ^ k * 2 ^ (52 - k) := by
  rw [← Nat.pow_add, Nat.add_sub_cancel' hk]
  rfl

theorem unitsOf_of_pos (h : 0 < m / fractionSize) :
    unitsOf m = (fractionSize + m % fractionSize) * 2 ^ (m / fractionSize - 1) := by
  rw [unitsOf, if_neg h.ne', Nat.shiftLeft_eq]

/-- To clear low bits of a number is to take a remainder away. -/
theorem sub_mod_mul (s j l : Nat) :
    (s - s % 2 ^ j) * 2 ^ l = s * 2 ^ l / (2 ^ j * 2 ^ l) * (2 ^ j * 2 ^ l) := by
  have hsub : s - s % 2 ^ j = s / 2 ^ j * 2 ^ j := by
    have hdiv := Nat.div_add_mod' s (2 ^ j)
    omega
  rw [hsub, Nat.mul_div_mul_right _ _ (Nat.two_pow_pos l), Nat.mul_assoc]

theorem unitsOf_lt_unitsPerOne (h : m / fractionSize < 1023) : unitsOf m < unitsPerOne := by
  obtain ⟨c, hc, hunit, -⟩ := unitsPerOne_spec
  rw [← hunit, ← unitsOf_scale]
  refine unitsOf_strictMono ((Nat.div_lt_iff_lt_mul (by decide)).1 ?_)
  omega

theorem unitsPerOne_dvd_unitsOf (h : 1075 ≤ m / fractionSize) : unitsPerOne ∣ unitsOf m := by
  have hdvd {c l : Nat} (hle : c ≤ l) : 1 <<< c ∣ 2 ^ l := by
    rw [Nat.one_shiftLeft]
    exact Nat.pow_dvd_pow 2 hle
  rw [unitsOf_of_pos (by omega), unitsPerOne]
  exact Dvd.dvd.mul_left (hdvd (by omega)) _

/-- Low bits of a fraction are cleared, and the exponent stays. -/
theorem div_mod_clear (hk : k ≤ 52) (m : Nat) :
    (m - m % 2 ^ k) / fractionSize = m / fractionSize ∧
      (m - m % 2 ^ k) % fractionSize = m % fractionSize - m % fractionSize % 2 ^ k := by
  have hlow : m % fractionSize % 2 ^ k = m % 2 ^ k := by
    rw [fractionSize_eq hk, Nat.mod_mul_right_mod]
  have hle := Nat.mod_le (m % fractionSize) (2 ^ k)
  have hlt : m % fractionSize < fractionSize := Nat.mod_lt _ (by decide)
  have hdiv := Nat.div_add_mod m fractionSize
  have hclear : m - m % 2 ^ k =
      (m % fractionSize - m % fractionSize % 2 ^ k) + fractionSize * (m / fractionSize) := by
    omega
  rw [hclear, Nat.add_mul_div_left _ _ (by decide), Nat.add_mul_mod_self_left,
    Nat.div_eq_of_lt (by omega), Nat.mod_eq_of_lt (by omega), Nat.zero_add]
  exact ⟨rfl, rfl⟩

/-- **The whole part** of a magnitude is a multiple of one, the greatest that is not beyond. -/
theorem unitsOf_truncMagnitude (m : Nat) :
    unitsOf (truncMagnitude m) = unitsOf m / unitsPerOne * unitsPerOne := by
  unfold truncMagnitude
  split
  next hsmall =>
    rw [Nat.div_eq_of_lt (unitsOf_lt_unitsPerOne hsmall), Nat.zero_mul]
    rfl
  next hlarge =>
    split
    next hwhole => exact (Nat.div_mul_cancel (unitsPerOne_dvd_unitsOf hwhole)).symm
    next hpart =>
      generalize hk : 1075 - m / fractionSize = k
      have hle : k ≤ 52 := by omega
      obtain ⟨hexponent, hfraction⟩ := div_mod_clear hle m
      have hunit : unitsPerOne = 2 ^ k * 2 ^ (m / fractionSize - 1) := by
        rw [unitsPerOne_eq (show k ≤ 1074 by omega)]
        congr 2
        omega
      have hclear : fractionSize + (m % fractionSize - m % fractionSize % 2 ^ k) =
          fractionSize + m % fractionSize - (fractionSize + m % fractionSize) % 2 ^ k := by
        have hmod : (fractionSize + m % fractionSize) % 2 ^ k = m % fractionSize % 2 ^ k := by
          rw [fractionSize_eq hle, Nat.mul_add_mod]
        have hle' := Nat.mod_le (m % fractionSize) (2 ^ k)
        omega
      rw [unitsOf_of_pos (by omega), unitsOf_of_pos (by omega), hexponent, hfraction, hclear, hunit,
        sub_mod_mul]

/-! ## With a sign -/

theorem magnitude_le (h : d.isNaN = false) : d.magnitude ≤ infinityMagnitude :=
  Nat.not_lt.1 (of_decide_eq_false h)

theorem isNegative_ofMagnitude (negative : Bool) (h : m ≤ infinityMagnitude) :
    (ofMagnitude negative m).isNegative = negative := by
  have hlt : infinityMagnitude < signBit := by decide
  rw [isNegative, toNat_bits_ofMagnitude negative h]
  cases negative with
  | false =>
    refine decide_eq_false ?_
    rw [if_neg Bool.false_ne_true]
    omega
  | true => exact decide_eq_true (Nat.le_add_left _ _)

theorem units_ofMagnitude (negative : Bool) (h : m ≤ infinityMagnitude) :
    (ofMagnitude negative m).units = if negative then -(unitsOf m : Int) else unitsOf m := by
  have habs : (ofMagnitude negative m).absUnits = unitsOf m := by
    show unitsOf (ofMagnitude negative m).magnitude = _
    rw [magnitude_ofMagnitude negative h]
  rw [units, isNegative_ofMagnitude negative h, habs]

theorem truncMagnitude_le (m : Nat) : truncMagnitude m ≤ m := by
  unfold truncMagnitude
  split
  · exact Nat.zero_le _
  · split
    · exact Nat.le_refl _
    · exact Nat.sub_le _ _

theorem isNaN_trunc (h : d.isNaN = false) : d.trunc.isNaN = false := by
  refine decide_eq_false (Nat.not_lt.2 ?_)
  have hle := (truncMagnitude_le d.magnitude).trans (magnitude_le h)
  rw [trunc, magnitude_ofMagnitude _ hle]
  exact hle

/-- **A double is truncated toward zero.** -/
theorem units_trunc (h : d.isNaN = false) :
    d.trunc.units = d.units.tdiv unitsPerOne * unitsPerOne := by
  have hle := (truncMagnitude_le d.magnitude).trans (magnitude_le h)
  have habs : d.absUnits = unitsOf d.magnitude := rfl
  rw [trunc, units_ofMagnitude _ hle, unitsOf_truncMagnitude, units, habs]
  generalize unitsOf d.magnitude = n
  have hdiv : (n : Int).tdiv unitsPerOne = (n / unitsPerOne : Nat) := rfl
  split
  · rw [Int.neg_tdiv, hdiv, Int.neg_mul, Int.natCast_mul]
  · rw [hdiv, Int.natCast_mul]

theorem isNegative_ofFraction (negative : Bool) (num den : Nat) :
    (ofFraction negative num den).isNegative = negative := by
  unfold ofFraction
  split
  · exact isNegative_ofMagnitude negative (Nat.zero_le _)
  · exact isNegative_ofMagnitude negative (nearestMagnitude_le _ _)

/-- No unit is rounded to nothing. -/
theorem magnitude_ofFraction_pos (negative : Bool) (h : 0 < m) :
    0 < (ofFraction negative m unitsPerOne).magnitude := by
  have hone : nearestMagnitude 1 unitsPerOne = 1 := by decide +kernel
  rw [magnitude_ofFraction negative h]
  exact (Nat.lt_of_lt_of_eq Nat.zero_lt_one hone.symm).trans_le
    (nearestMagnitude_mono Nat.zero_lt_one unitsPerOne_pos h)

/-- A difference is a number, or infinite. -/
theorem isNaN_sub (a b : Double) : (a - b).isNaN = false := by
  show (ofFraction _ (a.units - b.units).natAbs _).isNaN = false
  generalize (a.units - b.units).natAbs = num
  refine decide_eq_false (Nat.not_lt.2 ?_)
  rcases Nat.eq_zero_or_pos num with rfl | hnum
  · rw [magnitude_ofFraction_zero]
    exact Nat.zero_le _
  · rw [magnitude_ofFraction _ hnum]
    exact nearestMagnitude_le _ _

theorem units_of_negative (h : d.isNegative = true) : d.units = -(d.absUnits : Int) := if_pos h

theorem units_of_not_negative (h : d.isNegative = false) : d.units = d.absUnits := by
  rw [units, h, if_neg Bool.false_ne_true]

/-- Where a difference has units it keeps some. -/
theorem absUnits_sub_pos (h : a.units ≠ b.units) : 0 < (a - b).absUnits :=
  unitsOf_strictMono (magnitude_ofFraction_pos _ (by omega))

theorem absUnits_sub_eq_zero (h : a.units = b.units) : (a - b).absUnits = 0 := by
  have hmagnitude : (ofFraction (a.units < b.units || (a.isNegative && !b.isNegative))
      (a.units - b.units).natAbs unitsPerOne).magnitude = 0 := by
    rw [h, Int.sub_self]
    exact magnitude_ofFraction_zero _ _
  show unitsOf (ofFraction _ _ _).magnitude = 0
  rw [hmagnitude]
  rfl

/-- The rounded difference has the sign of the difference. -/
theorem compare_units_sub (a b : Double) : compare 0 (a - b).units = compare b.units a.units := by
  have hnegative : (a - b).isNegative = (a.units < b.units || (a.isNegative && !b.isNegative)) :=
    isNegative_ofFraction _ _ _
  rcases Int.lt_trichotomy a.units b.units with hlt | heq | hgt
  · rw [decide_eq_true hlt, Bool.true_or] at hnegative
    have hpos := absUnits_sub_pos hlt.ne
    rw [Int.compare_eq_gt.2 hlt, units_of_negative hnegative, Int.compare_eq_gt.2 (by omega)]
  · have hzero : (a - b).units = 0 := by
      rw [units, absUnits_sub_eq_zero heq]
      exact ite_self _
    rw [heq, hzero, Int.compare_eq_eq.2 rfl, Int.compare_eq_eq.2 rfl]
  · have hsign : (a.isNegative && !b.isNegative) = false := by
      by_contra hne
      simp only [Bool.not_eq_false, Bool.and_eq_true, Bool.not_eq_true'] at hne
      rw [units_of_negative hne.1, units_of_not_negative hne.2] at hgt
      omega
    rw [decide_eq_false hgt.not_gt, hsign, Bool.or_false] at hnegative
    have hpos := absUnits_sub_pos hgt.ne'
    rw [Int.compare_eq_lt.2 hgt, units_of_not_negative hnegative, Int.compare_eq_lt.2 (by omega)]

end MetadataArchive.Double
