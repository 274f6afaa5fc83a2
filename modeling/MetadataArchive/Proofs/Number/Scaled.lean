import MetadataArchive.Proofs.Number.Rounding

/-!
# Numbers scaled by powers of ten

Digits with an exponent are read by multiplication and division, with a rounding at each step. A
division leads to nothing greater, so a number with a negative exponent is always finite
(`scaled?_negSucc`). A multiplication can lead beyond the greatest double, by its rounding alone;
but not if the digits stay half a step below it (`scaled?_ofNat`). For each exponent this is a bound
on the digits. Few exponents are so great that digits can come near it, and for these the greatest
digits below the bound are looked at one by one.
-/

set_option autoImplicit false

namespace MetadataArchive.Double

variable {n e k : Nat} {x p : Double}

/-! ## Bounds -/

/-- At most `2 ^ k`. -/
def AtMost (x : Double) (k : Nat) : Prop := x.magnitude ≤ (k + 1023) * fractionSize

theorem AtMost.isFinite (h : x.AtMost k) (hk : k ≤ 1023) : x.isFinite = true := by
  have hgreatest : (k + 1023) * fractionSize ≤ 2046 * fractionSize :=
    Nat.mul_le_mul_right _ (by omega)
  exact decide_eq_true (Nat.lt_of_le_of_lt (h.trans hgreatest) (by decide))

theorem unitsOf_scale (j : Nat) : unitsOf ((j + 1) * fractionSize) = fractionSize * 2 ^ j := by
  have hsize : 0 < fractionSize := by decide
  simp [unitsOf, Nat.mul_div_cancel _ hsize, Nat.shiftLeft_eq]

/-- How many units there are in one, with an exponent that no proof evaluates. -/
theorem unitsPerOne_spec : ∃ c, c = 1022 ∧ fractionSize * 2 ^ c = unitsPerOne ∧
    unitsPerOne = (powerOfTen 0).absUnits :=
  ⟨1022, rfl, by decide +kernel⟩

theorem unitsPerOne_pos : 0 < unitsPerOne := by
  obtain ⟨c, -, hunit, -⟩ := unitsPerOne_spec
  exact hunit ▸ Nat.mul_pos (by decide) (Nat.two_pow_pos c)

theorem AtMost.absUnits_le (h : x.AtMost k) : x.absUnits ≤ unitsPerOne * 2 ^ k := by
  obtain ⟨c, hc, hunit, -⟩ := unitsPerOne_spec
  calc x.absUnits ≤ unitsOf ((k + 1023) * fractionSize) := unitsOf_mono h
    _ = unitsOf ((c + k + 1) * fractionSize) := by rw [show k + 1023 = c + k + 1 by omega]
    _ = unitsPerOne * 2 ^ k := by rw [unitsOf_scale, Nat.pow_add, ← Nat.mul_assoc, hunit]

theorem atMost_ofInt {i : Int} (h : i.natAbs ≤ 2 ^ k) : (ofInt i).AtMost k :=
  magnitude_ofFraction_le _ (by decide) k (by simpa using h)

theorem le_absUnits_powerOfTen (k : Nat) : unitsPerOne ≤ (powerOfTen k).absUnits := by
  obtain ⟨-, -, -, hone⟩ := unitsPerOne_spec
  rw [hone]
  exact unitsOf_mono (magnitude_ofFraction_mono (by decide)
    (Nat.pow_le_pow_right (by decide) (Nat.zero_le k)))

/-! ## Division -/

/-- Nothing is made greater by dividing it by one or more. -/
theorem AtMost.div (h : x.AtMost k) (hp : unitsPerOne ≤ p.absUnits) : (x / p).AtMost k :=
  magnitude_ofFraction_le _ (Nat.lt_of_lt_of_le unitsPerOne_pos hp) k
    (h.absUnits_le.trans (Nat.mul_le_mul_right _ hp))

theorem AtMost.reduced (h : x.AtMost k) (times : Nat) : (x.reduced times).AtMost k := by
  induction times generalizing x with
  | zero => exact h
  | succ times ih =>
    unfold Double.reduced
    split
    · exact h
    · exact ih (h.div (le_absUnits_powerOfTen _))

/-- **Digits behind the point** make up a finite number. -/
theorem scaled?_negSucc (hn : n ≤ 2 ^ 64) (e : Nat) :
    ∃ x, scaled? n (.negSucc e) = some x ∧ x.isFinite = true :=
  ⟨_, rfl, (((atMost_ofInt hn).reduced _).div (le_absUnits_powerOfTen _)).isFinite (by decide)⟩

theorem isFinite_of_scaled? (hn : n ≤ 2 ^ 64) {exponent : Int} (h : scaled? n exponent = some x) :
    x.isFinite = true := by
  cases exponent with
  | negSucc e =>
    obtain ⟨y, hy, hfinite⟩ := scaled?_negSucc hn e
    rw [hy] at h
    exact Option.some.inj h ▸ hfinite
  | ofNat e =>
    unfold scaled? at h
    dsimp only at h
    split at h
    · rw [Option.ite_none_right_eq_some] at h
      exact Option.some.inj h.2 ▸ h.1
    · rw [Option.ite_none_right_eq_some] at h
      exact Option.some.inj h.2 ▸ (atMost_ofInt hn).isFinite (by decide)

/-! ## Multiplication -/

theorem AtMost.mul {j : Nat} (h : x.AtMost k) (hp : p.AtMost j) : (x * p).AtMost (k + j) := by
  refine magnitude_ofFraction_le _ (Nat.mul_pos unitsPerOne_pos unitsPerOne_pos) (k + j) ?_
  calc x.absUnits * p.absUnits
      ≤ unitsPerOne * 2 ^ k * (unitsPerOne * 2 ^ j) := Nat.mul_le_mul h.absUnits_le hp.absUnits_le
    _ = unitsPerOne * unitsPerOne * 2 ^ (k + j) := by rw [Nat.pow_add]; ring

/-- Three powers of ten take ten powers of two. -/
theorem atMost_powerOfTen (e : Nat) : (powerOfTen e).AtMost (10 * (e / 3 + 1)) := by
  refine magnitude_ofFraction_le _ (by decide) _ ?_
  calc 10 ^ e ≤ 10 ^ (3 * (e / 3 + 1)) := Nat.pow_le_pow_right (by decide) (by omega)
    _ = (10 ^ 3) ^ (e / 3 + 1) := Nat.pow_mul 10 3 _
    _ ≤ (2 ^ 10) ^ (e / 3 + 1) := Nat.pow_le_pow_left (by decide) _
    _ = 1 * 2 ^ (10 * (e / 3 + 1)) := by rw [Nat.one_mul, Nat.pow_mul]

/-- Twice the number, in units of the least double, that is half a step below the greatest one. -/
def twiceBelowGreatest : Nat := 2 * unitsOf (infinityMagnitude - 1) - 2 ^ 2045

/-- So many digits can stand before an exponent. -/
def digitsLimit (e : Nat) : Nat := twiceBelowGreatest / (2 * unitsPerOne * 10 ^ e)

/-- Half a step below the greatest double, with exponents that no proof evaluates. -/
theorem twiceBelowGreatest_spec : ∃ c k, c = 2045 ∧ k = 309 ∧
    twiceBelowGreatest = (4 * fractionSize - 3) * 2 ^ c ∧
    twiceBelowGreatest < 2 * (10 ^ k * unitsPerOne) :=
  ⟨2045, 309, rfl, rfl, by decide +kernel⟩

theorem isFinite_digitsLimit : ∀ k < 23,
    (ofInt (min (digitsLimit (286 + k)) (2 ^ 61) : Nat) *
      powerOfTen (286 + k)).isFinite = true := by
  decide +kernel

theorem magnitude_mul_mono {m : Nat} (h : n ≤ m) (p : Double) :
    (ofInt n * p).magnitude ≤ (ofInt m * p).magnitude := by
  refine magnitude_ofFraction_mono (Nat.mul_pos unitsPerOne_pos unitsPerOne_pos)
    (Nat.mul_le_mul_right _ ?_)
  exact unitsOf_mono (magnitude_ofFraction_mono (by decide) (by simpa using h))

theorem isFinite_mul_powerOfTen (hn : n ≤ 2 ^ 61) (hlimit : n ≤ digitsLimit e) (he : e < 309) :
    (ofInt n * powerOfTen e).isFinite = true := by
  by_cases hfew : e < 286
  · exact ((atMost_ofInt hn).mul (atMost_powerOfTen e)).isFinite (by omega)
  · obtain ⟨k, rfl⟩ := Nat.exists_eq_add_of_le (Nat.le_of_not_lt hfew)
    have hgreatest : (ofInt _ * powerOfTen (286 + k)).magnitude < infinityMagnitude :=
      of_decide_eq_true (isFinite_digitsLimit k (by omega))
    exact decide_eq_true
      (Nat.lt_of_le_of_lt (magnitude_mul_mono (Nat.le_min.2 ⟨hlimit, hn⟩) _) hgreatest)

/-- **Digits before the point** make up a finite number, if they stay half a step below the greatest
double. -/
theorem scaled?_ofNat (hpos : 0 < n) (hn : n ≤ 2 ^ 61)
    (h : 2 * (n * 10 ^ e * unitsPerOne) ≤ twiceBelowGreatest) :
    ∃ x, scaled? n (.ofNat e) = some x ∧ x.isFinite = true := by
  have hlimit : n ≤ digitsLimit e := by
    rw [digitsLimit, Nat.le_div_iff_mul_le
      (Nat.mul_pos (Nat.mul_pos (by decide) unitsPerOne_pos) (Nat.pow_pos (by decide)))]
    calc n * (2 * unitsPerOne * 10 ^ e) = 2 * (n * 10 ^ e * unitsPerOne) := by ring
      _ ≤ twiceBelowGreatest := h
  have hpower : e < 309 := by
    refine Nat.lt_of_not_le fun hle => ?_
    obtain ⟨-, k, -, hk, -, hgreatest⟩ := twiceBelowGreatest_spec
    have hten : 10 ^ k ≤ n * 10 ^ e :=
      (Nat.pow_le_pow_right (by decide) (hk ▸ hle)).trans (Nat.le_mul_of_pos_left _ hpos)
    have hmore := Nat.mul_le_mul_left 2 (Nat.mul_le_mul_right unitsPerOne hten)
    omega
  have hfinite := isFinite_mul_powerOfTen hn hlimit hpower
  refine ⟨ofInt n * powerOfTen e, ?_, hfinite⟩
  simp only [scaled?]
  rw [if_pos (show e ≤ greatestPower by simp only [greatestPower]; omega), if_pos hfinite]

end MetadataArchive.Double
