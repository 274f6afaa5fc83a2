import Mathlib.Tactic.Common
import MetadataArchive.Fact.Value
import MetadataArchive.Proofs.Number.Rounding

/-!
# The total order of values

`Value.totalCompare` puts all values in one row, and it is meant to be an order. It is as far as
swapping goes: whichever of two values is asked first, the answer is the same. It is transitive as
long as the negative zero is no part of any value. An integer stands to a double as exact numbers
do, so the integer zero equals both zeros; but two doubles are compared by their patterns, and there
the negative zero is less than the other.

Without the negative zero the two ways of comparing numbers are one. Every double has a place among
the whole numbers of units (`Double.totalCompare_eq`), infinities and NaNs beyond all integers.
-/

set_option autoImplicit false

namespace MetadataArchive

/-! ## Doubles -/

namespace Double

variable {d d' : Double} {i : Int}

def isNegativeZero (d : Double) : Bool := d.isNegative && d.isZero

theorem absUnits_lt_iff : d.absUnits < d'.absUnits ↔ d.magnitude < d'.magnitude :=
  unitsOf_strictMono.lt_iff_lt

/-- A negative double has units, unless it is the negative zero. -/
theorem absUnits_pos (h : d.isNegativeZero = false) (hneg : d.isNegative = true) :
    0 < d.absUnits := by
  have hmagnitude : d.magnitude ≠ 0 := by
    simpa [isNegativeZero, isZero, hneg] using h
  exact (Nat.zero_le _).trans_lt (unitsOf_strictMono (Nat.pos_of_ne_zero hmagnitude))

/-- A pattern that is no finite number is beyond all integers. -/
theorem lt_absUnits (h : d.isFinite = false) (hi : i.natAbs ≤ 2 ^ 63) :
    i.natAbs * unitsPerOne < d.absUnits := by
  have hmagnitude : infinityMagnitude ≤ d.magnitude :=
    Nat.not_lt.1 (of_decide_eq_false h)
  calc i.natAbs * unitsPerOne ≤ 2 ^ 63 * unitsPerOne := Nat.mul_le_mul_right _ hi
    _ < unitsOf infinityMagnitude := by decide +kernel
    _ ≤ d.absUnits := unitsOf_mono hmagnitude

theorem compare_eq_compare {a b c d : Int} (hlt : a < b ↔ c < d) (hgt : b < a ↔ d < c) :
    compare a b = compare c d := by
  rcases Int.lt_trichotomy a b with h | rfl | h
  · rw [Int.compare_eq_lt.2 h, Int.compare_eq_lt.2 (hlt.1 h)]
  · have heq : c = d := by omega
    rw [heq, Int.compare_eq_eq.2 rfl, Int.compare_eq_eq.2 rfl]
  · rw [Int.compare_eq_gt.2 h, Int.compare_eq_gt.2 (hgt.1 h)]

/-- **Patterns are ordered by their units**, where neither is the negative zero. -/
theorem totalCompare_eq (h : d.isNegativeZero = false) (h' : d'.isNegativeZero = false) :
    d.totalCompare d' = compare d.units d'.units := by
  have hpos := absUnits_pos h
  have hpos' := absUnits_pos h'
  have hlt : d.absUnits < d'.absUnits ↔ d.magnitude < d'.magnitude := absUnits_lt_iff
  have hgt : d'.absUnits < d.absUnits ↔ d'.magnitude < d.magnitude := absUnits_lt_iff
  unfold totalCompare totalKey units
  cases hneg : d.isNegative <;> cases hneg' : d'.isNegative <;>
    simp only [hneg, hneg', if_true, Bool.false_eq_true, if_false, true_implies] at hpos hpos' ⊢ <;>
    apply compare_eq_compare <;> omega

/-- An integer of 64 bits stands to a pattern as their units do. -/
theorem totalCompareInt_eq (hi : i.natAbs ≤ 2 ^ 63) (d : Double) :
    totalCompareInt i d = compare (i * unitsPerOne) d.units := by
  have hbeyond (h : d.isFinite = false) :
      (if d.isNegative then Ordering.gt else .lt) = compare (i * unitsPerOne) d.units := by
    have hlt := lt_absUnits h hi
    have habs : (i * unitsPerOne).natAbs = i.natAbs * unitsPerOne := Int.natAbs_mul _ _
    unfold units
    split
    · exact (Int.compare_eq_gt.2 (by omega)).symm
    · exact (Int.compare_eq_lt.2 (by omega)).symm
  unfold totalCompareInt compareInt
  split
  next hnan =>
    refine hbeyond (decide_eq_false ?_)
    have hlt : infinityMagnitude < d.magnitude := of_decide_eq_true hnan
    omega
  next =>
    split
    next hinf =>
      refine hbeyond (decide_eq_false ?_)
      have heq : d.magnitude = infinityMagnitude := of_decide_eq_true hinf
      omega
    next => rfl

end Double

theorem then_lt_of_isLE {o : Ordering} (h : o.isLE = true) : o.then .lt = .lt := by
  cases o <;> first | rfl | cases h

instance Instant.instTransCmp : Std.TransCmp Instant.compare :=
  inferInstanceAs (Std.TransCmp (compareLex (compareOn Instant.second) (compareOn Instant.nano)))

theorem Instant.eq_of_compare {a b : Instant} (h : a.compare b = .eq) : a = b := by
  obtain ⟨hsecond, hnano⟩ := Ordering.then_eq_eq.1 h
  cases a
  cases b
  exact congrArg₂ Instant.mk (Std.LawfulEqOrd.eq_of_compare hsecond)
    (Std.LawfulEqOrd.eq_of_compare hnano)

/-- Two steps upwards in an order are one, which is strict where either of them is. -/
theorem compare_eq_then {α : Type} {cmp : α → α → Ordering} [Std.TransCmp cmp] {a b c : α}
    (hab : (cmp a b).isLE = true) (hbc : (cmp b c).isLE = true) :
    cmp a c = (cmp a b).then (cmp b c) := by
  cases h : cmp a b with
  | lt => exact Std.TransCmp.lt_of_lt_of_isLE h hbc
  | eq => exact Std.TransCmp.congr_left h
  | gt => simp [h] at hab

/-! ## Values -/

namespace Value

mutual

/-- Some part of a value is the negative zero. -/
def hasNegativeZero : Value → Bool
  | .float d => d.isNegativeZero
  | .list items => anyNegativeZero items
  | _ => false

def anyNegativeZero : List Value → Bool
  | [] => false
  | v :: rest => hasNegativeZero v || anyNegativeZero rest

end

/-- Where a number stands, in units. -/
def number? : Value → Option Int
  | .int i => some (i.toInt * Double.unitsPerOne)
  | .float d => some d.units
  | _ => none

variable {a b c : Value} {m n : Int}

theorem totalCompare_of_rank_ne (h : a.rank ≠ b.rank) :
    totalCompare a b = compare a.rank b.rank := by
  cases a <;> cases b <;> first | rfl | exact absurd rfl h

theorem totalCompare_of_rank_lt (h : a.rank < b.rank) : totalCompare a b = .lt :=
  (totalCompare_of_rank_ne (Nat.ne_of_lt h)).trans (Nat.compare_eq_lt.2 h)

theorem rank_le_of_isLE (h : (totalCompare a b).isLE = true) : a.rank ≤ b.rank := by
  by_cases hr : a.rank = b.rank
  · exact hr.le
  · rwa [totalCompare_of_rank_ne hr, Nat.isLE_compare] at h

/-- Where ranks differ they decide. -/
theorem totalCompare_eq_then_of_rank (hr : ¬(a.rank = b.rank ∧ b.rank = c.rank))
    (hab : (totalCompare a b).isLE = true) (hbc : (totalCompare b c).isLE = true) :
    totalCompare a c = (totalCompare a b).then (totalCompare b c) := by
  rcases Nat.lt_or_eq_of_le (rank_le_of_isLE hab) with hlt | heq
  · rw [totalCompare_of_rank_lt (hlt.trans_le (rank_le_of_isLE hbc)), totalCompare_of_rank_lt hlt,
      Ordering.lt_then]
  · have hlt : b.rank < c.rank :=
      Nat.lt_of_le_of_ne (rank_le_of_isLE hbc) fun h => hr ⟨heq, h⟩
    rw [totalCompare_of_rank_lt (heq ▸ hlt), totalCompare_of_rank_lt hlt, then_lt_of_isLE hab]

/-- **Numbers are ordered by where they stand**, whatever their kind. -/
theorem totalCompare_number (ha : a.number? = some m) (hb : b.number? = some n)
    (hza : a.hasNegativeZero = false) (hzb : b.hasNegativeZero = false) :
    totalCompare a b = compare m n := by
  have hint (i : Int64) : i.toInt.natAbs ≤ 2 ^ 63 := by
    have hle : i.toInt ≤ 2 ^ 63 - 1 := i.toInt_le
    have hge : -2 ^ 63 ≤ i.toInt := i.le_toInt
    omega
  have hscale (i j : Int) :
      compare i j = compare (i * Double.unitsPerOne) (j * Double.unitsPerOne) := by
    have hpos : (0 : Int) < Double.unitsPerOne := Int.natCast_pos.2 (by decide +kernel)
    exact Double.compare_eq_compare (Int.mul_lt_mul_right hpos).symm
      (Int.mul_lt_mul_right hpos).symm
  cases a <;> cases ha <;> cases b <;> cases hb
  case int.refl.int.refl i j => exact hscale _ _
  case int.refl.float.refl i d => exact Double.totalCompareInt_eq (hint i) d
  case float.refl.int.refl d i =>
    rw [totalCompare, Double.totalCompareInt_eq (hint i), ← Std.OrientedOrd.eq_swap]
  case float.refl.float.refl d d' => exact Double.totalCompare_eq hza hzb

/-- Two values of one rank. -/
inductive Alike : Value → Value → Prop
  | null : Alike .null .null
  | bool (a b : Bool) : Alike (.bool a) (.bool b)
  | number {a b : Value} {m n : Int} (ha : a.number? = some m) (hb : b.number? = some n) :
      Alike a b
  | str (a b : String) : Alike (.str a) (.str b)
  | time (a b : Instant) : Alike (.time a) (.time b)
  | ref (a b : DocId) : Alike (.ref a) (.ref b)
  | list (xs ys : List Value) : Alike (.list xs) (.list ys)

theorem alike_of_rank_eq (h : a.rank = b.rank) : Alike a b := by
  cases a <;> cases b <;>
    first
    | exact .null
    | exact .bool _ _
    | exact .str _ _
    | exact .time _ _
    | exact .ref _ _
    | exact .list _ _
    | exact .number rfl rfl
    | (simp [rank] at h)

mutual

/-- Whichever of two values is asked first. -/
theorem totalCompare_swap (a b : Value) : (totalCompare a b).swap = totalCompare b a := by
  by_cases h : a.rank = b.rank
  · cases alike_of_rank_eq h with
    | null => rfl
    | bool a b => exact Std.OrientedOrd.eq_swap.symm
    | number ha hb =>
      cases a <;> cases ha <;> cases b <;> cases hb
      case int.refl.float.refl => rfl
      case float.refl.int.refl => exact Ordering.swap_swap
      all_goals exact Std.OrientedOrd.eq_swap.symm
    | str a b => exact Std.OrientedOrd.eq_swap.symm
    | time a b => exact (@Std.OrientedCmp.eq_swap _ Instant.compare _ b a).symm
    | ref a b => exact Std.OrientedOrd.eq_swap.symm
    | list xs ys => exact totalCompareList_swap xs ys
  · rw [totalCompare_of_rank_ne h, totalCompare_of_rank_ne (Ne.symm h),
      ← Std.OrientedOrd.eq_swap]

theorem totalCompareList_swap (xs ys : List Value) :
    (totalCompareList xs ys).swap = totalCompareList ys xs := by
  cases xs <;> cases ys
  case cons.cons x xs y ys =>
    rw [totalCompareList, totalCompareList, Ordering.swap_then, totalCompare_swap x y,
      totalCompareList_swap xs ys]
  all_goals rfl

end

mutual

/-- **The order of values is transitive** where the negative zero is no part of any: two steps
upwards are one, which is strict where either of them is. -/
theorem totalCompare_eq_then (a b c : Value) (hza : a.hasNegativeZero = false)
    (hzb : b.hasNegativeZero = false) (hzc : c.hasNegativeZero = false)
    (hab : (totalCompare a b).isLE = true) (hbc : (totalCompare b c).isLE = true) :
    totalCompare a c = (totalCompare a b).then (totalCompare b c) := by
  by_cases hranks : a.rank = b.rank ∧ b.rank = c.rank
  · obtain ⟨hr, hr'⟩ := hranks
    -- Values of one rank are of one kind, or numbers.
    cases alike_of_rank_eq hr with
    | null =>
      cases alike_of_rank_eq hr' with
      | null => rfl
      | number hb => cases hb
    | bool a b =>
      cases alike_of_rank_eq hr' with
      | bool _ c => exact @compare_eq_then Bool compare _ a b c hab hbc
      | number hb => cases hb
    | number ha hb =>
      obtain ⟨n, hc⟩ : ∃ n, c.number? = some n := by
        cases alike_of_rank_eq hr' with
        | number _ hc => exact ⟨_, hc⟩
        | _ => cases hb
      rw [totalCompare_number ha hb hza hzb] at hab ⊢
      rw [totalCompare_number hb hc hzb hzc] at hbc ⊢
      rw [totalCompare_number ha hc hza hzc]
      exact compare_eq_then hab hbc
    | str a b =>
      cases alike_of_rank_eq hr' with
      | str _ c => exact @compare_eq_then String compare _ a b c hab hbc
      | number hb => cases hb
    | time a b =>
      cases alike_of_rank_eq hr' with
      | time _ c => exact @compare_eq_then Instant Instant.compare _ a b c hab hbc
      | number hb => cases hb
    | ref a b =>
      cases alike_of_rank_eq hr' with
      | ref _ c => exact @compare_eq_then DocId compare _ a b c hab hbc
      | number hb => cases hb
    | list xs ys =>
      cases alike_of_rank_eq hr' with
      | list _ zs => exact totalCompareList_eq_then xs ys zs hza hzb hzc hab hbc
      | number hb => cases hb
  · exact totalCompare_eq_then_of_rank hranks hab hbc

theorem totalCompareList_eq_then (xs ys zs : List Value) (hx : anyNegativeZero xs = false)
    (hy : anyNegativeZero ys = false) (hz : anyNegativeZero zs = false)
    (hxy : (totalCompareList xs ys).isLE = true) (hyz : (totalCompareList ys zs).isLE = true) :
    totalCompareList xs zs = (totalCompareList xs ys).then (totalCompareList ys zs) := by
  cases xs <;> cases ys <;> cases zs
  case cons.cons.cons x xs y ys z zs =>
    simp only [anyNegativeZero, Bool.or_eq_false_iff] at hx hy hz
    rw [totalCompareList] at hxy hyz
    rw [totalCompareList, totalCompareList, totalCompareList]
    have hhead : totalCompare x z = (totalCompare x y).then (totalCompare y z) :=
      totalCompare_eq_then x y z hx.1 hy.1 hz.1 (Ordering.isLE_left_of_isLE_then hxy)
        (Ordering.isLE_left_of_isLE_then hyz)
    rw [hhead]
    -- The tails count where all heads are equal.
    cases ho : totalCompare x y with
    | lt => rfl
    | gt => simp [ho] at hxy
    | eq =>
      rw [ho, Ordering.eq_then] at hxy
      cases hp : totalCompare y z with
      | lt => exact (then_lt_of_isLE hxy).symm
      | gt => simp [hp] at hyz
      | eq =>
        rw [hp, Ordering.eq_then] at hyz
        exact totalCompareList_eq_then xs ys zs hx.2 hy.2 hz.2 hxy hyz
  all_goals first | rfl | simp [totalCompareList] at hxy hyz

end

theorem totalCompare_self (v : Value) : totalCompare v v = .eq :=
  Ordering.eq_eq_of_eq_swap (totalCompare_swap v v).symm

theorem same_self (v : Value) : v.same v = true := by
  rw [same, totalCompare_self]
  rfl

theorem same_comm (v w : Value) : v.same w = w.same v := by
  rw [same, same, ← totalCompare_swap]
  cases totalCompare w v <;> rfl

end Value

end MetadataArchive
