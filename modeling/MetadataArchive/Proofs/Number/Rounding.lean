import MetadataArchive.Number.Double
import Mathlib.Algebra.Order.Group.Nat
import Mathlib.Tactic.Common
import Mathlib.Tactic.Ring

/-!
# Rounding

Rounding to the next double is monotone (`nearestMagnitude_mono`): on one scale of steps because
the count of steps is, and from one scale to the next because a count never leaves its scale by more
than one. A double is then finite wherever a greater fraction rounds to a finite one
(`magnitude_ofFraction_mono`), and no more is asked of arithmetic.
-/

set_option autoImplicit false

namespace MetadataArchive.Double

variable {a a' d n num num' den k m m' : Nat}

/-! ## Counts -/

/-- A count is at most half a step off, and where it is half a step off it is even. -/
theorem roundHalfEven_spec (a : Nat) (hd : 0 < d) :
    2 * a ≤ (2 * roundHalfEven a d + 1) * d ∧ 2 * roundHalfEven a d * d ≤ 2 * a + d ∧
      (2 * a = (2 * roundHalfEven a d + 1) * d ∨ 2 * roundHalfEven a d * d = 2 * a + d →
        roundHalfEven a d % 2 = 0) := by
  have hdiv := Nat.div_add_mod a d
  have hmod := Nat.mod_lt a hd
  have hexpand (q : Nat) : (2 * q + 1) * d = 2 * (d * q) + d ∧ 2 * q * d = 2 * (d * q) ∧
      2 * (q + 1) * d = 2 * (d * q) + 2 * d ∧ (2 * (q + 1) + 1) * d = 2 * (d * q) + 3 * d := by
    refine ⟨?_, ?_, ?_, ?_⟩ <;> ring
  obtain ⟨h₁, h₂, h₃, h₄⟩ := hexpand (a / d)
  dsimp only [roundHalfEven]
  split
  · rw [h₁, h₂]
    omega
  · split
    · rw [h₃, h₄]
      omega
    · split
      · rw [h₁, h₂]
        omega
      · rw [h₃, h₄]
        omega

theorem roundHalfEven_mono (hd : 0 < d) (h : a ≤ a') : roundHalfEven a d ≤ roundHalfEven a' d := by
  obtain ⟨-, hlow, heven⟩ := roundHalfEven_spec a hd
  obtain ⟨hhigh, -, heven'⟩ := roundHalfEven_spec a' hd
  refine Nat.le_of_not_lt fun hlt => ?_
  generalize roundHalfEven a d = q at *
  generalize roundHalfEven a' d = q' at *
  -- Else both are half a step off, and one of two neighbours is odd.
  have hnext : (2 * q' + 1) * d + d ≤ 2 * q * d := by
    calc (2 * q' + 1) * d + d = 2 * (q' + 1) * d := by ring
      _ ≤ 2 * q * d := Nat.mul_le_mul_right d (by omega)
  have hodd := heven (Or.inr (by omega))
  have hodd' := heven' (Or.inl (by omega))
  have hgap : 2 * q * d ≤ 2 * (q' + 1) * d := by
    calc 2 * q * d ≤ (2 * q' + 1) * d + d := by omega
      _ = 2 * (q' + 1) * d := by ring
  have hle := Nat.le_of_mul_le_mul_right hgap hd
  omega

theorem roundHalfEven_mul (n : Nat) (hd : 0 < d) : roundHalfEven (n * d) d = n := by
  simp [roundHalfEven, Nat.mul_div_cancel n hd, hd]

theorem roundHalfEven_scale (a d : Nat) (hk : 0 < k) :
    roundHalfEven (k * a) (k * d) = roundHalfEven a d := by
  have hcompare (x y : Nat) : k * x < k * y ↔ x < y := Nat.mul_lt_mul_left hk
  simp only [roundHalfEven, Nat.mul_div_mul_left _ _ hk, Nat.mul_mod_mul_left,
    Nat.mul_left_comm 2 k, hcompare]

/-! ## Scales -/

/-- A fraction reaches a power of two. -/
def Reaches (num den : Nat) (e : Int) : Prop := den * 2 ^ e.toNat ≤ num * 2 ^ (-e).toNat

instance (num den : Nat) (e : Int) : Decidable (Reaches num den e) :=
  inferInstanceAs (Decidable (_ ≤ _))

/-- It does not matter how the exponent is written as a difference. -/
theorem reaches_iff {e : Int} {u v : Nat} (h : (u : Int) - v = e) :
    Reaches num den e ↔ den * 2 ^ u ≤ num * 2 ^ v := by
  obtain ⟨c, hu, hv⟩ : ∃ c, u = e.toNat + c ∧ v = (-e).toNat + c :=
    ⟨u - e.toNat, by omega, by omega⟩
  rw [Reaches, hu, hv, Nat.pow_add, Nat.pow_add, ← Nat.mul_assoc, ← Nat.mul_assoc]
  exact (Nat.mul_le_mul_right_iff (Nat.two_pow_pos c)).symm

theorem reaches_pred (hnum : 0 < num) (den : Nat) :
    Reaches num den ((num.log2 : Int) - den.log2 - 1) := by
  rw [reaches_iff (u := num.log2) (v := den.log2 + 1) (by omega), Nat.mul_comm num]
  exact Nat.mul_le_mul Nat.lt_log2_self.le (Nat.log2_self_le hnum.ne')

theorem not_reaches_succ (num : Nat) (hden : 0 < den) :
    ¬ Reaches num den ((num.log2 : Int) - den.log2 + 1) := by
  rw [reaches_iff (u := num.log2 + 1) (v := den.log2) (by omega), Nat.not_le, Nat.mul_comm den]
  exact Nat.mul_lt_mul_of_lt_of_le Nat.lt_log2_self (Nat.log2_self_le hden.ne') hden

/-- The greatest power of two that a fraction reaches. -/
theorem reaches_lead (hnum : 0 < num) (hden : 0 < den) :
    let guess : Int := (num.log2 : Int) - den.log2
    let lead := if Reaches num den guess then guess else guess - 1
    Reaches num den lead ∧ ¬ Reaches num den (lead + 1) := by
  intro guess lead
  dsimp only [lead]
  split
  next h => exact ⟨h, not_reaches_succ num hden⟩
  next h => exact ⟨reaches_pred hnum den, by rwa [Int.sub_add_cancel]⟩

/-- The power of two is found by division where it is not below one. -/
theorem log2_div_eq {lead : Int} (hden : 0 < den) (hlead : Reaches num den lead)
    (hbeyond : ¬ Reaches num den (lead + 1)) :
    ((num * 2 ^ k / den).log2 : Int) = max (lead + k) 0 := by
  by_cases hunit : 0 ≤ lead + k
  · obtain ⟨l, hl⟩ := Int.eq_ofNat_of_zero_le hunit
    rw [reaches_iff (u := l) (v := k) (by omega)] at hlead
    rw [reaches_iff (u := l + 1) (v := k) (by omega), Nat.not_le] at hbeyond
    have hlow : 2 ^ l ≤ num * 2 ^ k / den := by
      rwa [Nat.le_div_iff_mul_le hden, Nat.mul_comm]
    have hhigh : num * 2 ^ k / den < 2 ^ (l + 1) := by
      rwa [Nat.div_lt_iff_lt_mul hden, Nat.mul_comm (2 ^ (l + 1))]
    have hlog : (num * 2 ^ k / den).log2 = l :=
      (Nat.log2_eq_iff (Nat.ne_of_gt (Nat.lt_of_lt_of_le (Nat.two_pow_pos l) hlow))).2 ⟨hlow, hhigh⟩
    rw [hlog]
    omega
  · have hzero : num * 2 ^ k / den = 0 := by
      obtain ⟨c, hc⟩ := Int.eq_ofNat_of_zero_le (show 0 ≤ -(lead + 1) - k by omega)
      rw [reaches_iff (u := 0) (v := k + c) (by omega), Nat.not_le, Nat.pow_zero, Nat.mul_one]
        at hbeyond
      refine Nat.div_eq_of_lt (Nat.lt_of_le_of_lt (Nat.mul_le_mul_left num ?_) hbeyond)
      exact Nat.pow_le_pow_right (by decide) (Nat.le_add_right k c)
    rw [hzero, show Nat.log2 0 = 0 by decide]
    omega

/-- The power of two, in units of the least double, that the steps of a fraction have: less than 2⁵³
of them make up the fraction. -/
def width (num den : Nat) : Nat := (num * 2 ^ 1074 / den).log2 - 52

theorem width_eq {lead : Int} (hden : 0 < den) (hlead : Reaches num den lead)
    (hbeyond : ¬ Reaches num den (lead + 1)) :
    (width num den : Int) = max (lead - 52) (-1074) + 1074 := by
  have hlog := log2_div_eq (k := 1074) hden hlead hbeyond
  unfold width
  generalize (num * 2 ^ 1074 / den).log2 = l at hlog
  omega

/-- Counting steps of `2 ^ step` in a fraction is counting wider ones in a greater fraction. -/
theorem count_eq {step : Int} {w : Nat} (num den : Nat) (h : (w : Int) = step + k) :
    (if 0 ≤ step then roundHalfEven num (den <<< step.toNat)
      else roundHalfEven (num <<< (-step).toNat) den) =
        roundHalfEven (num * 2 ^ k) (den * 2 ^ w) := by
  simp only [Nat.shiftLeft_eq]
  split
  next hstep =>
    rw [← roundHalfEven_scale num _ (Nat.two_pow_pos k), show w = k + step.toNat by omega,
      Nat.pow_add]
    congr 1 <;> ring
  next hstep =>
    rw [← roundHalfEven_scale _ den (Nat.two_pow_pos w), show k = w + (-step).toNat by omega,
      Nat.pow_add]
    congr 1 <;> ring

/-- **Rounding on one scale**: the steps of a fraction are counted. -/
theorem nearestMagnitude_eq (hnum : 0 < num) (hden : 0 < den) :
    nearestMagnitude num den = min (width num den * fractionSize +
      roundHalfEven (num * 2 ^ 1074) (den * 2 ^ width num den)) infinityMagnitude := by
  obtain ⟨hlead, hbeyond⟩ := reaches_lead hnum hden
  have hwidth := width_eq hden hlead hbeyond
  have hfits : (if 0 ≤ (num.log2 : Int) - den.log2
      then decide (den <<< ((num.log2 : Int) - den.log2).toNat ≤ num)
      else decide (den ≤ num <<< (-((num.log2 : Int) - den.log2)).toNat)) =
        decide (Reaches num den ((num.log2 : Int) - den.log2)) := by
    split
    next h => simp only [Reaches, Nat.shiftLeft_eq, Nat.pow_zero, Nat.mul_one,
      show (-((num.log2 : Int) - den.log2)).toNat = 0 by omega]
    next h => simp only [Reaches, Nat.shiftLeft_eq, Nat.pow_zero, Nat.mul_one,
      show ((num.log2 : Int) - den.log2).toNat = 0 by omega]
  unfold nearestMagnitude
  dsimp only
  rw [hfits]
  simp only [decide_eq_true_eq]
  generalize (if Reaches num den ((num.log2 : Int) - den.log2) then (num.log2 : Int) - den.log2
    else (num.log2 : Int) - den.log2 - 1) = lead at *
  generalize max (lead - 52) (-1074) = step at *
  rw [show (step + 1074).toNat = width num den by omega]
  rw [count_eq num den (by omega)]

/-! ## From scale to scale -/

/-- Where a fraction is placed among the doubles: the steps on its own scale, and all that are on
smaller ones. -/
def place (n den : Nat) : Nat :=
  ((n / den).log2 - 52) * fractionSize + roundHalfEven n (den * 2 ^ ((n / den).log2 - 52))

theorem roundHalfEven_le (hden : 0 < den) :
    roundHalfEven n (den * 2 ^ ((n / den).log2 - 52)) ≤ 2 * fractionSize := by
  have hstep : 0 < den * 2 ^ ((n / den).log2 - 52) := Nat.mul_pos hden (Nat.two_pow_pos _)
  have hlt : n < den * 2 ^ ((n / den).log2 + 1) := by
    rw [Nat.mul_comm, ← Nat.div_lt_iff_lt_mul hden]
    exact Nat.lt_log2_self
  have hle : n ≤ 2 * fractionSize * (den * 2 ^ ((n / den).log2 - 52)) := by
    calc n ≤ den * 2 ^ ((n / den).log2 + 1) := hlt.le
      _ ≤ den * 2 ^ (53 + ((n / den).log2 - 52)) :=
        Nat.mul_le_mul_left den (Nat.pow_le_pow_right (by decide) (by omega))
      _ = 2 * fractionSize * (den * 2 ^ ((n / den).log2 - 52)) := by
        rw [Nat.pow_add, Nat.mul_left_comm]
        rfl
  exact (roundHalfEven_mono hstep hle).trans (roundHalfEven_mul _ hstep).le

theorem le_roundHalfEven (hden : 0 < den) (hwide : 52 < (n / den).log2) :
    fractionSize ≤ roundHalfEven n (den * 2 ^ ((n / den).log2 - 52)) := by
  have hstep : 0 < den * 2 ^ ((n / den).log2 - 52) := Nat.mul_pos hden (Nat.two_pow_pos _)
  have hle : fractionSize * (den * 2 ^ ((n / den).log2 - 52)) ≤ n := by
    calc fractionSize * (den * 2 ^ ((n / den).log2 - 52))
        = 2 ^ (52 + ((n / den).log2 - 52)) * den := by
          rw [Nat.pow_add, Nat.mul_left_comm, Nat.mul_comm den]
          rfl
      _ = 2 ^ (n / den).log2 * den := by congr 2; omega
      _ ≤ n / den * den := Nat.mul_le_mul_right den (Nat.log2_self_le fun h => by simp [h] at hwide)
      _ ≤ n := Nat.div_mul_le_self n den
  exact (roundHalfEven_mul _ hstep).ge.trans (roundHalfEven_mono hstep hle)

theorem place_mono (hden : 0 < den) (h : n ≤ m) : place n den ≤ place m den := by
  have hlog : (n / den).log2 ≤ (m / den).log2 := by
    by_cases hzero : n / den = 0
    · simp [hzero]
    · have hle : n / den ≤ m / den := Nat.div_le_div_right h
      exact (Nat.le_log2 (Nat.ne_of_gt (Nat.lt_of_lt_of_le (Nat.pos_of_ne_zero hzero) hle))).2
        ((Nat.log2_self_le hzero).trans hle)
  unfold place
  rcases Nat.eq_or_lt_of_le (Nat.sub_le_sub_right hlog 52) with heq | hlt
  · rw [heq]
    exact Nat.add_le_add_left
      (roundHalfEven_mono (Nat.mul_pos hden (Nat.two_pow_pos _)) h) _
  · -- The smaller one ends at most where the next scale begins.
    have hle := roundHalfEven_le (n := n) hden
    have hge := le_roundHalfEven (n := m) hden (by omega)
    have hscale : ((n / den).log2 - 52 + 1) * fractionSize ≤ ((m / den).log2 - 52) * fractionSize :=
      Nat.mul_le_mul_right _ hlt
    rw [Nat.add_mul, Nat.one_mul] at hscale
    omega

theorem place_two_pow (hden : 0 < den) (j : Nat) :
    place (den * 2 ^ (j + 52)) den = (j + 1) * fractionSize := by
  have hlog : (den * 2 ^ (j + 52) / den).log2 - 52 = j := by
    rw [Nat.mul_div_cancel_left _ hden, Nat.log2_two_pow, Nat.add_sub_cancel]
  have hcount : den * 2 ^ (j + 52) = 2 ^ 52 * (den * 2 ^ j) := by rw [Nat.pow_add]; ring
  rw [place, hlog, hcount, roundHalfEven_mul _ (Nat.mul_pos hden (Nat.two_pow_pos j)), Nat.add_mul,
    Nat.one_mul]
  rfl

theorem nearestMagnitude_eq_place (hnum : 0 < num) (hden : 0 < den) :
    nearestMagnitude num den = min (place (num * 2 ^ 1074) den) infinityMagnitude :=
  nearestMagnitude_eq hnum hden

/-- **Rounding is monotone.** -/
theorem nearestMagnitude_mono (hnum : 0 < num) (hden : 0 < den) (h : num ≤ num') :
    nearestMagnitude num den ≤ nearestMagnitude num' den := by
  rw [nearestMagnitude_eq_place hnum hden, nearestMagnitude_eq_place (by omega) hden]
  have hmono := place_mono hden (Nat.mul_le_mul_right (2 ^ 1074) h)
  omega

/-- A fraction up to a power of two does not round to more. -/
theorem nearestMagnitude_le_two_pow (hnum : 0 < num) (hden : 0 < den) (j : Nat)
    (h : num ≤ den * 2 ^ j) : nearestMagnitude num den ≤ (j + 1023) * fractionSize := by
  have hplace {k : Nat} (hk : 52 ≤ k) :
      place (num * 2 ^ k) den ≤ (j + (k - 52) + 1) * fractionSize := by
    refine (place_mono hden (Nat.mul_le_mul_right (2 ^ k) h)).trans ?_
    rw [Nat.mul_assoc, ← Nat.pow_add, show j + k = j + (k - 52) + 52 by omega, place_two_pow hden]
  rw [nearestMagnitude_eq_place hnum hden]
  exact (Nat.min_le_left _ _).trans (hplace (k := 1074) (by decide))

/-! ## Doubles -/

theorem toNat_bits_ofMagnitude (negative : Bool) (h : m ≤ infinityMagnitude) :
    (ofMagnitude negative m).bits.toNat = m + if negative then signBit else 0 := by
  simp only [ofMagnitude, UInt64.toNat_ofNat']
  refine Nat.mod_eq_of_lt ?_
  simp only [infinityMagnitude, fractionSize, signBit] at h ⊢
  split <;> omega

theorem magnitude_ofMagnitude (negative : Bool) (h : m ≤ infinityMagnitude) :
    (ofMagnitude negative m).magnitude = m := by
  have hlt : infinityMagnitude < signBit := by decide
  rw [magnitude, toNat_bits_ofMagnitude negative h]
  split
  · rw [Nat.add_mod_right]
    exact Nat.mod_eq_of_lt (by omega)
  · exact Nat.mod_eq_of_lt (by omega)

theorem eq_ofMagnitude (x : Double) : x = ofMagnitude x.isNegative x.magnitude := by
  have hlt := x.bits.toNat_lt
  have hsum : x.bits.toNat = x.magnitude + if x.isNegative = true then signBit else 0 := by
    cases hsign : x.isNegative with
    | true =>
      have hle : signBit ≤ x.bits.toNat := of_decide_eq_true hsign
      simp only [magnitude, signBit, if_true] at hle ⊢
      omega
    | false =>
      have hle : ¬ signBit ≤ x.bits.toNat := of_decide_eq_false hsign
      simp only [magnitude, signBit, Bool.false_eq_true, if_false] at hle ⊢
      omega
  rw [ofMagnitude, ← hsum, UInt64.ofNat_toNat]

theorem isFinite_neg (x : Double) (h : x.isFinite = true) : (-x).isFinite = true := by
  have hlt : x.magnitude < infinityMagnitude := of_decide_eq_true h
  exact decide_eq_true (by
    show (ofMagnitude _ _).magnitude < _
    rw [magnitude_ofMagnitude _ hlt.le]
    exact hlt)

theorem nearestMagnitude_le (num den : Nat) : nearestMagnitude num den ≤ infinityMagnitude := by
  unfold nearestMagnitude
  exact Nat.min_le_right _ _

theorem magnitude_ofFraction (negative : Bool) (hnum : 0 < num) (den : Nat) :
    (ofFraction negative num den).magnitude = nearestMagnitude num den := by
  rw [ofFraction, if_neg hnum.ne', magnitude_ofMagnitude _ (nearestMagnitude_le _ _)]

theorem magnitude_ofFraction_zero (negative : Bool) (den : Nat) :
    (ofFraction negative 0 den).magnitude = 0 := by
  rw [ofFraction, if_pos rfl, magnitude_ofMagnitude _ (Nat.zero_le _)]

theorem magnitude_ofFraction_mono {negative negative' : Bool} (hden : 0 < den) (h : num ≤ num') :
    (ofFraction negative num den).magnitude ≤ (ofFraction negative' num' den).magnitude := by
  rcases Nat.eq_zero_or_pos num with rfl | hnum
  · rw [magnitude_ofFraction_zero]
    exact Nat.zero_le _
  · rw [magnitude_ofFraction _ hnum, magnitude_ofFraction _ (by omega)]
    exact nearestMagnitude_mono hnum hden h

theorem magnitude_ofFraction_le (negative : Bool) (hden : 0 < den) (j : Nat)
    (h : num ≤ den * 2 ^ j) :
    (ofFraction negative num den).magnitude ≤ (j + 1023) * fractionSize := by
  rcases Nat.eq_zero_or_pos num with rfl | hnum
  · rw [magnitude_ofFraction_zero]
    exact Nat.zero_le _
  · rw [magnitude_ofFraction _ hnum]
    exact nearestMagnitude_le_two_pow hnum hden j h

/-- The absolute value of a magnitude, in units of the least double. -/
def unitsOf (m : Nat) : Nat :=
  (if m / fractionSize = 0 then m % fractionSize else fractionSize + m % fractionSize) <<<
    (m / fractionSize - 1)

theorem unitsOf_strictMono : StrictMono unitsOf := by
  intro m m' h
  have hsize : 0 < fractionSize := by decide
  have hdiv := Nat.div_add_mod m fractionSize
  have hdiv' := Nat.div_add_mod m' fractionSize
  have hmod := Nat.mod_lt m hsize
  have hmod' := Nat.mod_lt m' hsize
  have hexponent : m / fractionSize ≤ m' / fractionSize := Nat.div_le_div_right h.le
  simp only [unitsOf, Nat.shiftLeft_eq]
  rcases Nat.eq_or_lt_of_le hexponent with heq | hlt
  · rw [heq] at hdiv ⊢
    refine Nat.mul_lt_mul_of_pos_right ?_ (Nat.two_pow_pos _)
    split <;> omega
  · -- The greater exponent begins where the smaller one ends.
    rw [if_neg (Nat.ne_zero_of_lt hlt)]
    by_cases hzero : m / fractionSize = 0
    · rw [if_pos hzero, hzero, Nat.zero_sub, Nat.pow_zero, Nat.mul_one]
      calc m % fractionSize < (fractionSize + m' % fractionSize) * 1 := by omega
        _ ≤ _ := Nat.mul_le_mul_left _ Nat.one_le_two_pow
    · rw [if_neg hzero]
      calc (fractionSize + m % fractionSize) * 2 ^ (m / fractionSize - 1)
          < fractionSize * 2 * 2 ^ (m / fractionSize - 1) :=
            Nat.mul_lt_mul_of_pos_right (by omega) (Nat.two_pow_pos _)
        _ = fractionSize * 2 ^ (m / fractionSize - 1 + 1) := by rw [Nat.pow_succ']; ring
        _ ≤ (fractionSize + m' % fractionSize) * 2 ^ (m' / fractionSize - 1) :=
          Nat.mul_le_mul (Nat.le_add_right _ _) (Nat.pow_le_pow_right (by decide) (by
            rw [Nat.sub_add_cancel (Nat.pos_of_ne_zero hzero)]
            exact Nat.le_sub_one_of_lt hlt))

theorem unitsOf_mono (h : m ≤ m') : unitsOf m ≤ unitsOf m' := unitsOf_strictMono.monotone h

end MetadataArchive.Double
