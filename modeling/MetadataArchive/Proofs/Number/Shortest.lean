import MetadataArchive.Number.Decimal
import MetadataArchive.Proofs.Number.Scaled

/-!
# The shortest decimal of a double

The search for the shortest decimal comes to an end on a grid that is fine enough (`search_spec`),
so that what it finds lies in the interval around the double and has digits that 61 bits hold.
Reading these digits with their exponent gives a finite double again (`scaled?_shortest`), though
not always the same one: next to the greatest double the interval is half a step wide, and this is
just what multiplication leaves room for.
-/

set_option autoImplicit false

namespace MetadataArchive.Decimal

open Double

variable {n : Neighbourhood} {t : Int} {c : Nat}

/-! ## One grid -/

/-- The interval on the scale of a grid. -/
theorem onGrid_eq (n : Neighbourhood) (t : Int) : onGrid n t =
    (⟨n.low * 10 ^ (-t).toNat, n.value * 10 ^ (-t).toNat, n.high * 10 ^ (-t).toNat, n.closed⟩,
      4 * unitsPerOne * 10 ^ t.toNat) := by
  unfold onGrid
  dsimp only
  split
  next h =>
    rw [show (-t).toNat = 0 by omega]
    simp only [Nat.pow_zero, Nat.mul_one]
    rfl
  next h =>
    rw [show t.toNat = 0 by omega, Nat.pow_zero, Nat.mul_one]
    rfl

theorem Neighbourhood.le_high {x : Nat} (h : n.holds x = true) : x ≤ n.high := by
  unfold Neighbourhood.holds at h
  split at h <;> simp only [Bool.and_eq_true, decide_eq_true_eq] at h <;> omega

theorem Neighbourhood.holds_of_lt {x : Nat} (hlow : n.low < x) (hhigh : x < n.high) :
    n.holds x = true := by
  unfold Neighbourhood.holds
  split <;> simp only [Bool.and_eq_true, decide_eq_true_eq] <;> omega

/-- What is found on a grid is not zero, is at most one more than what the double holds of the grid,
and does not lie above the interval. -/
theorem onGrid?_eq_some (h : onGrid? n t = some c) : 0 < c ∧
    c ≤ n.value * 10 ^ (-t).toNat / (4 * unitsPerOne * 10 ^ t.toNat) + 1 ∧
    c * (4 * unitsPerOne * 10 ^ t.toNat) ≤ n.high * 10 ^ (-t).toNat := by
  rw [onGrid?, onGrid_eq] at h
  dsimp only at h
  generalize 4 * unitsPerOne * 10 ^ t.toNat = unit at *
  generalize hq : n.value * 10 ^ (-t).toNat / unit = q at *
  split at h
  · cases h
  next hlow _ =>
    cases h
    simp only [Bool.and_eq_true, decide_eq_true_eq] at hlow
    exact ⟨hlow.1, Nat.le_succ _, Neighbourhood.le_high hlow.2⟩
  next hhigh =>
    cases h
    exact ⟨Nat.succ_pos _, Nat.le_refl _, Neighbourhood.le_high hhigh⟩
  next hlow hhigh =>
    simp only [Bool.and_eq_true, decide_eq_true_eq] at hlow
    have hboth : c = q ∨ c = q + 1 := by
      split at h
      · exact Or.inl (Option.some.inj h).symm
      · split at h
        · exact Or.inr (Option.some.inj h).symm
        · split at h
          · exact Or.inl (Option.some.inj h).symm
          · exact Or.inr (Option.some.inj h).symm
    rcases hboth with rfl | rfl
    · exact ⟨hlow.1, Nat.le_succ _, Neighbourhood.le_high hlow.2⟩
    · exact ⟨Nat.succ_pos _, Nat.le_refl _, Neighbourhood.le_high hhigh⟩

/-- A grid that is finer than the upper part of the interval has a multiple in it. -/
theorem onGrid?_ne_none (hvalue : n.low ≤ n.value)
    (h : 4 * unitsPerOne * 10 ^ t.toNat < (n.high - n.value) * 10 ^ (-t).toNat) :
    onGrid? n t ≠ none := by
  have hunit : 0 < 4 * unitsPerOne * 10 ^ t.toNat :=
    Nat.mul_pos (Nat.mul_pos (by decide) unitsPerOne_pos) (Nat.pow_pos (by decide))
  rw [onGrid?, onGrid_eq]
  dsimp only
  rw [Nat.sub_mul] at h
  have hlow := Nat.mul_le_mul_right (10 ^ (-t).toNat) hvalue
  generalize 4 * unitsPerOne * 10 ^ t.toNat = unit at *
  have hdiv := Nat.div_add_mod (n.value * 10 ^ (-t).toNat) unit
  have hmod := Nat.mod_lt (n.value * 10 ^ (-t).toNat) hunit
  have hnext : (n.value * 10 ^ (-t).toNat / unit + 1) * unit =
      unit * (n.value * 10 ^ (-t).toNat / unit) + unit := by ring
  have hhit : (⟨n.low * 10 ^ (-t).toNat, n.value * 10 ^ (-t).toNat, n.high * 10 ^ (-t).toNat,
      n.closed⟩ : Neighbourhood).holds ((n.value * 10 ^ (-t).toNat / unit + 1) * unit) = true :=
    Neighbourhood.holds_of_lt (by dsimp only; omega) (by dsimp only; omega)
  rw [hhit]
  split
  next heq => cases heq
  next heq => cases heq
  · simp
  · split
    · simp
    · split
      · simp
      · split <;> simp

theorem search_spec {fine : Int} {tries : Nat} (hfine : fine ≤ t) (htries : t < fine + tries)
    (hit : onGrid? n fine ≠ none) :
    ∃ t' c, fine ≤ t' ∧ onGrid? n t' = some c ∧ search n tries t = ⟨c, t'⟩ := by
  induction tries generalizing t with
  | zero => omega
  | succ tries ih =>
    unfold search
    cases hc : onGrid? n t with
    | some c => exact ⟨t, c, hfine, hc, rfl⟩
    | none =>
      have hbefore : fine ≤ t - 1 := by
        rcases Int.lt_or_eq_of_le hfine with hlt | rfl
        · omega
        · exact absurd hc hit
      exact ih hbefore (by omega)

/-! ## Fine grids -/

/-- The exponent of a grid that is fine enough for all doubles with a leading bit. -/
def fineGrid (l : Nat) : Int := ((l : Int) - 1074) * 30103 / 100000 - 17

/-- It is finer than half a step of such a double, and the double holds less than 2⁶¹ of it. -/
theorem fineGrid_spec : ∀ l < 2099,
    4 * unitsPerOne * Nat.pow 10 (fineGrid l).toNat <
      2 * Nat.pow 2 (l - 52) * Nat.pow 10 (-fineGrid l).toNat ∧
    4 * Nat.pow 2 (l + 1) * Nat.pow 10 (-fineGrid l).toNat ≤
      (2 ^ 61 - 1) * (4 * unitsPerOne * Nat.pow 10 (fineGrid l).toNat) := by
  decide +kernel

/-! ## Doubles -/

section Doubles

variable {d : Double}

theorem significand_lt (d : Double) : d.significand < 2 * fractionSize := by
  have hmod : d.fractionField < fractionSize := Nat.mod_lt _ (by decide)
  unfold significand
  split <;> omega

theorem scale_le (h : d.isFinite = true) : d.scale ≤ 2045 := by
  have hlt : d.magnitude < 2047 * fractionSize := of_decide_eq_true h
  have hexponent : d.exponentField < 2047 := Nat.div_lt_of_lt_mul (by rwa [Nat.mul_comm])
  unfold scale
  omega

theorem absUnits_eq_mul (d : Double) : d.absUnits = d.significand * 2 ^ d.scale :=
  Nat.shiftLeft_eq _ _

theorem log2_absUnits (h : d.isFinite = true) (hne : d.absUnits ≠ 0) :
    d.absUnits.log2 ≤ d.scale + 52 ∧ d.absUnits.log2 < 2099 := by
  have hlt : d.absUnits < 2 ^ (53 + d.scale) := by
    rw [absUnits_eq_mul, Nat.pow_add]
    exact Nat.mul_lt_mul_of_pos_right (significand_lt d) (Nat.two_pow_pos _)
  have hlog := (Nat.log2_lt hne).2 hlt
  have hscale := scale_le h
  omega

/-- The interval around a double reaches half a step upwards. -/
theorem neighbourhood_spec (d : Double) : (neighbourhood d).low ≤ (neighbourhood d).value ∧
    (neighbourhood d).value = 4 * d.absUnits ∧
    (neighbourhood d).high = 4 * d.absUnits + 2 * 2 ^ d.scale := by
  refine ⟨Nat.sub_le _ _, rfl, ?_⟩
  simp only [neighbourhood, Nat.one_shiftLeft]

/-- The digits of the shortest decimal are few, and it lies in the interval. -/
theorem shortest_spec (h : d.isFinite = true) (hne : d.absUnits ≠ 0) :
    0 < (shortest d).digits ∧ (shortest d).digits ≤ 2 ^ 61 ∧
      (shortest d).digits * (4 * unitsPerOne * 10 ^ (shortest d).exponent.toNat) ≤
        (4 * d.absUnits + 2 * 2 ^ d.scale) * 10 ^ (-(shortest d).exponent).toNat := by
  obtain ⟨hlow, hvalue, hhigh⟩ := neighbourhood_spec d
  obtain ⟨hscale, hl⟩ := log2_absUnits h hne
  obtain ⟨hfine, hfew⟩ := fineGrid_spec _ hl
  have hhit : onGrid? (neighbourhood d) (fineGrid d.absUnits.log2) ≠ none := by
    refine onGrid?_ne_none hlow (Nat.lt_of_lt_of_le hfine (Nat.mul_le_mul_right _ ?_))
    rw [hhigh, hvalue, Nat.add_sub_cancel_left]
    exact Nat.mul_le_mul_left 2 (Nat.pow_le_pow_right (by decide) (by omega))
  have htop : ((d.absUnits.log2 : Int) - 1074) * 30103 / 100000 + 2 =
      fineGrid d.absUnits.log2 + 19 := by
    unfold fineGrid
    omega
  have hbelow : fineGrid d.absUnits.log2 ≤ fineGrid d.absUnits.log2 + 19 := by omega
  have htries : fineGrid d.absUnits.log2 + 19 < fineGrid d.absUnits.log2 + (24 : Nat) := by omega
  obtain ⟨t, c, ht, hc, hsearch⟩ := search_spec hbelow htries hhit
  have hshortest : shortest d = ⟨c, t⟩ := by
    rw [shortest, if_neg hne]
    dsimp only
    rw [htop, hsearch]
  obtain ⟨hpos, hle, hinterval⟩ := onGrid?_eq_some hc
  rw [hshortest]
  have hstrict : 2 ^ 61 - 1 < 2 ^ 61 := by decide
  refine ⟨hpos, hle.trans (Nat.succ_le_of_lt (Nat.lt_of_le_of_lt ?_ hstrict)),
    by rwa [hhigh] at hinterval⟩
  -- On a coarser grid a double holds no more multiples.
  refine Nat.div_le_of_le_mul ?_
  calc (neighbourhood d).value * 10 ^ (-t).toNat
      ≤ 4 * 2 ^ (d.absUnits.log2 + 1) * 10 ^ (-fineGrid d.absUnits.log2).toNat := by
        rw [hvalue]
        exact Nat.mul_le_mul (Nat.mul_le_mul_left 4 Nat.lt_log2_self.le)
          (Nat.pow_le_pow_right (by decide) (by omega))
    _ ≤ (2 ^ 61 - 1) * (4 * unitsPerOne * 10 ^ (fineGrid d.absUnits.log2).toNat) := hfew
    _ ≤ (2 ^ 61 - 1) * (4 * unitsPerOne * 10 ^ t.toNat) :=
        Nat.mul_le_mul_left _ (Nat.mul_le_mul_left _ (Nat.pow_le_pow_right (by decide) (by omega)))
    _ = 4 * unitsPerOne * 10 ^ t.toNat * (2 ^ 61 - 1) := Nat.mul_comm _ _

/-- The interval around all but the greatest double stays half a step below this. -/
theorem high_le (h : d.isFinite = true) (hgreatest : d.magnitude ≠ infinityMagnitude - 1) :
    2 * d.absUnits + 2 ^ d.scale ≤ twiceBelowGreatest := by
  obtain ⟨c, -, hc, -, hbound, -⟩ := twiceBelowGreatest_spec
  have hsignificand := significand_lt d
  have hscale := scale_le h
  have hsum : 2 * d.absUnits + 2 ^ d.scale = (2 * d.significand + 1) * 2 ^ d.scale := by
    rw [absUnits_eq_mul]
    ring
  rw [hsum, hbound]
  rcases Nat.lt_or_eq_of_le (hc ▸ hscale) with hlt | heq
  · calc (2 * d.significand + 1) * 2 ^ d.scale
        ≤ 4 * fractionSize * 2 ^ d.scale := Nat.mul_le_mul_right _ (by omega)
      _ = 2 * fractionSize * 2 ^ (d.scale + 1) := by rw [Nat.pow_succ]; ring
      _ ≤ (4 * fractionSize - 3) * 2 ^ c :=
        Nat.mul_le_mul (by decide) (Nat.pow_le_pow_right (by decide) hlt)
  · rw [heq]
    refine Nat.mul_le_mul_right _ ?_
    have hdiv : fractionSize * d.exponentField + d.fractionField = d.magnitude :=
      Nat.div_add_mod d.magnitude fractionSize
    have hexponent : d.exponentField = 2046 := by
      unfold scale at heq
      omega
    have hgreat : d.significand = fractionSize + d.fractionField := by
      simp [significand, hexponent]
    rw [hexponent] at hdiv
    simp only [infinityMagnitude, fractionSize] at *
    omega

/-- **The digits of the shortest decimal** are read as a finite double. -/
theorem scaled?_shortest (h : d.isFinite = true) : (shortest d).digits ≤ 2 ^ 61 ∧
    ((shortest d).digits = 0 → (shortest d).exponent ≤ 0) ∧
    ∃ x, scaled? (shortest d).digits (shortest d).exponent = some x ∧ x.isFinite = true := by
  by_cases hzero : d.absUnits = 0
  · have hshortest : shortest d = ⟨0, 0⟩ := by rw [shortest, if_pos hzero]
    rw [hshortest]
    exact ⟨by decide, fun _ => Int.le_refl 0, _, rfl, by decide +kernel⟩
  obtain ⟨hpos, hfew, hinterval⟩ := shortest_spec h hzero
  refine ⟨hfew, fun hnone => absurd hnone (Nat.ne_of_gt hpos), ?_⟩
  by_cases hgreatest : d.magnitude = infinityMagnitude - 1
  · -- The greatest double is one of two.
    have hread : ∀ negative, ((fun c => scaled? c.digits c.exponent)
        (shortest (ofMagnitude negative (infinityMagnitude - 1)))).any isFinite = true := by
      decide +kernel
    have hsame := hread d.isNegative
    rw [← hgreatest, ← eq_ofMagnitude] at hsame
    exact (Option.any_eq_true _ _).1 hsame
  cases hexponent : (shortest d).exponent with
  | negSucc e => exact scaled?_negSucc (hfew.trans (by decide)) e
  | ofNat e =>
    refine scaled?_ofNat hpos hfew ?_
    have hhigh := high_le h hgreatest
    rw [hexponent] at hinterval
    have hflat : (shortest d).digits * (4 * unitsPerOne * 10 ^ e) ≤
        4 * d.absUnits + 2 * 2 ^ d.scale := by simpa using hinterval
    have hhalf : (shortest d).digits * (4 * unitsPerOne * 10 ^ e) =
        2 * (2 * ((shortest d).digits * 10 ^ e * unitsPerOne)) := by ring
    omega

end Doubles

end MetadataArchive.Decimal
