import Mathlib.Data.List.Forall2
import MetadataArchive.Proofs.Fact.Order

/-!
# Where the order of values is none

There are three zeros. The integer zero equals both double zeros, as exact numbers do; of the double
zeros the negative one is less, as patterns are. So the three stand in a ring (`Ring`), and that is
the only thing wrong with the order: in all other company a number is told by where it stands
(`totalCompare_of_number`).

Inside lists the ring does harm at the first place where three values are not all equal, and then
what follows that place decides. To speak of places, a value is read from left to right as marks: its
scalars, and where its lists begin and end. The order of values is the lexicographic one of their
marks (`compareMarks_marks`), `GoesRound` says at which three rows of marks transitivity fails, and
`totalCompare_laws` puts the laws together.
-/

set_option autoImplicit false

namespace MetadataArchive

/-! ## Numbers, the zeros aside -/

namespace Double

variable {d d' : Double}

theorem absUnits_eq_zero : d.absUnits = 0 ↔ d.magnitude = 0 := by
  have hzero : unitsOf 0 = 0 := by decide
  have habs : d.absUnits = unitsOf 0 ↔ d.magnitude = 0 := unitsOf_strictMono.injective.eq_iff
  rwa [hzero] at habs

theorem units_eq_zero : d.units = 0 ↔ d.magnitude = 0 := by
  rw [← absUnits_eq_zero]
  unfold units
  split <;> omega

/-- Patterns are ordered by their units, unless both are zeros. -/
theorem totalCompare_of_units (h : d.units ≠ 0 ∨ d'.units ≠ 0) :
    d.totalCompare d' = compare d.units d'.units := by
  have hlt : d.absUnits < d'.absUnits ↔ d.magnitude < d'.magnitude := absUnits_lt_iff
  have hgt : d'.absUnits < d.absUnits ↔ d'.magnitude < d.magnitude := absUnits_lt_iff
  have hzero : d.absUnits = 0 ↔ d.magnitude = 0 := absUnits_eq_zero
  have hzero' : d'.absUnits = 0 ↔ d'.magnitude = 0 := absUnits_eq_zero
  rw [Ne, Ne, units_eq_zero, units_eq_zero] at h
  unfold totalCompare totalKey units
  cases d.isNegative <;> cases d'.isNegative <;>
    simp only [if_true, Bool.false_eq_true, if_false] <;>
    apply compare_eq_compare <;> omega

end Double

namespace Value

/-- Not a list. -/
def Flat (v : Value) : Prop := ∀ items, v ≠ .list items

def wholeZero : Value := .int 0

def plusZero : Value := .float ⟨0⟩

def minusZero : Value := .float ⟨0x8000000000000000⟩

variable {a b c x y z : Value} {m n p : Int}

theorem zero_cases (h : a.number? = some 0) : a = wholeZero ∨ a = plusZero ∨ a = minusZero := by
  cases a with
  | int i =>
    have hzero : i.toInt * (Double.unitsPerOne : Int) = 0 := Option.some.inj h
    have hpos : (Double.unitsPerOne : Int) ≠ 0 := by decide +kernel
    have hi : i.toInt = (0 : Int64).toInt := (Int.mul_eq_zero.1 hzero).resolve_right hpos
    exact Or.inl (congrArg Value.int (Int64.toInt_inj.1 hi))
  | float d =>
    have hunits : d.units = 0 := Option.some.inj h
    have hmagnitude : d.bits.toNat % Double.signBit = 0 := Double.units_eq_zero.1 hunits
    have hbits : d.bits.toNat = (0 : UInt64).toNat ∨
        d.bits.toNat = (0x8000000000000000 : UInt64).toNat := by
      have hlt := d.bits.toNat_lt
      simp only [Double.signBit] at hmagnitude
      have hminus : (0x8000000000000000 : UInt64).toNat = 0x8000000000000000 := rfl
      have hplus : (0 : UInt64).toNat = 0 := rfl
      omega
    rcases hbits with hbits | hbits
    · exact Or.inr (Or.inl (congrArg (fun bits => Value.float ⟨bits⟩) (UInt64.toNat_inj.1 hbits)))
    · exact Or.inr (Or.inr (congrArg (fun bits => Value.float ⟨bits⟩) (UInt64.toNat_inj.1 hbits)))
  | _ => cases h

/-- **A number is told by where it stands**, unless both are zeros. -/
theorem totalCompare_of_number (ha : a.number? = some m) (hb : b.number? = some n)
    (h : m ≠ 0 ∨ n ≠ 0) : totalCompare a b = compare m n := by
  have hint (i : Int64) (j : Int64) : totalCompare (.int i) (.int j) =
      compare (i.toInt * Double.unitsPerOne) (j.toInt * Double.unitsPerOne) :=
    totalCompare_number rfl rfl rfl rfl
  have hmixed (i : Int64) (d : Double) : totalCompare (.int i) (.float d) =
      compare (i.toInt * (Double.unitsPerOne : Int)) d.units := by
    refine Double.totalCompareInt_eq ?_ d
    have hle : i.toInt ≤ 2 ^ 63 - 1 := i.toInt_le
    have hge : -2 ^ 63 ≤ i.toInt := i.le_toInt
    omega
  cases a <;> cases ha <;> cases b <;> cases hb
  case int.refl.int.refl i j => exact hint i j
  case int.refl.float.refl i d => exact hmixed i d
  case float.refl.int.refl d i =>
    rw [← totalCompare_swap, hmixed, ← Std.OrientedOrd.eq_swap]
  case float.refl.float.refl d d' => exact Double.totalCompare_of_units h

theorem number_le (ha : a.number? = some m) (hb : b.number? = some n)
    (h : (totalCompare a b).isLE = true) : m ≤ n := by
  by_cases hzero : m ≠ 0 ∨ n ≠ 0
  · rw [totalCompare_of_number ha hb hzero] at h
    exact Int.isLE_compare.1 h
  · omega

/-! ## The ring -/

/-- The zeros in the order in which each is not less than the one before it, where that does not tell
how the last stands to the first. -/
inductive Ring : Value → Value → Value → Prop
  | plus : Ring plusZero wholeZero minusZero
  | minus : Ring minusZero plusZero wholeZero
  | whole : Ring wholeZero minusZero plusZero
  /-- The last is greater than the first although both equal what is between. -/
  | apart : Ring minusZero wholeZero plusZero

theorem compare_whole_plus : totalCompare wholeZero plusZero = .eq := by decide

theorem compare_whole_minus : totalCompare wholeZero minusZero = .eq := by decide

theorem compare_plus_whole : totalCompare plusZero wholeZero = .eq := by decide

theorem compare_minus_whole : totalCompare minusZero wholeZero = .eq := by decide

theorem compare_plus_minus : totalCompare plusZero minusZero = .gt := by decide

theorem compare_minus_plus : totalCompare minusZero plusZero = .lt := by decide

theorem number_of_rank (h : a.rank = 2) : ∃ m, a.number? = some m := by
  cases a with
  | int i => exact ⟨_, rfl⟩
  | float d => exact ⟨_, rfl⟩
  | _ => simp [rank] at h

theorem rank_of_number (h : a.number? = some m) : a.rank = 2 := by
  cases a <;> first | rfl | cases h

theorem Flat.hasNegativeZero (ha : a.Flat) (h : a.rank ≠ 2) : a.hasNegativeZero = false := by
  cases a with
  | float d => exact absurd rfl h
  | list items => exact absurd rfl (ha items)
  | _ => rfl

theorem ring_of_zeros (hx : x.number? = some 0) (hy : y.number? = some 0)
    (hz : z.number? = some 0) (hxy : (totalCompare x y).isLE = true)
    (hyz : (totalCompare y z).isLE = true) :
    totalCompare x z = (totalCompare x y).then (totalCompare y z) ∨ Ring x y z := by
  rcases zero_cases hx with rfl | rfl | rfl <;> rcases zero_cases hy with rfl | rfl | rfl <;>
    rcases zero_cases hz with rfl | rfl | rfl <;>
    first
    | exact Or.inr .plus
    | exact Or.inr .minus
    | exact Or.inr .whole
    | exact Or.inr .apart
    | exact Or.inl (by decide)
    | exact absurd hxy (by decide)
    | exact absurd hyz (by decide)

theorem compare_then_of_numbers (hx : x.number? = some m) (hy : y.number? = some n)
    (hz : z.number? = some p) (hxy : (totalCompare x y).isLE = true)
    (hyz : (totalCompare y z).isLE = true) :
    totalCompare x z = (totalCompare x y).then (totalCompare y z) ∨ Ring x y z := by
  have hmn : m ≤ n := number_le hx hy hxy
  have hnp : n ≤ p := number_le hy hz hyz
  by_cases hzero : m = 0 ∧ p = 0
  · obtain ⟨rfl, rfl⟩ := hzero
    obtain rfl : n = 0 := le_antisymm hnp hmn
    exact ring_of_zeros hx hy hz hxy hyz
  · left
    rw [totalCompare_of_number hx hz (by omega)]
    -- Where two of the three are zeros, the third is strictly beyond both.
    by_cases hm : m = 0 ∧ n = 0
    · rw [totalCompare_of_number hy hz (by omega), Int.compare_eq_lt.2 (by omega : n < p),
        then_lt_of_isLE hxy, Int.compare_eq_lt]
      omega
    by_cases hp : n = 0 ∧ p = 0
    · rw [totalCompare_of_number hx hy (by omega), Int.compare_eq_lt.2 (by omega : m < n),
        Ordering.lt_then, Int.compare_eq_lt]
      omega
    rw [totalCompare_of_number hx hy (by omega), totalCompare_of_number hy hz (by omega)]
    exact compare_eq_then (Int.isLE_compare.2 hmn) (Int.isLE_compare.2 hnp)

/-- Two steps upwards are one, **but in the ring**. -/
theorem Flat.compare_then (hx : x.Flat) (hy : y.Flat) (hz : z.Flat)
    (hxy : (totalCompare x y).isLE = true) (hyz : (totalCompare y z).isLE = true) :
    totalCompare x z = (totalCompare x y).then (totalCompare y z) ∨ Ring x y z := by
  by_cases hr : x.rank = y.rank ∧ y.rank = z.rank
  · by_cases hnumber : y.rank = 2
    · obtain ⟨m, hm⟩ := number_of_rank (hr.1.trans hnumber)
      obtain ⟨n, hn⟩ := number_of_rank hnumber
      obtain ⟨p, hp⟩ := number_of_rank (hr.2.symm.trans hnumber)
      exact compare_then_of_numbers hm hn hp hxy hyz
    · exact Or.inl (totalCompare_eq_then x y z (hx.hasNegativeZero (hr.1 ▸ hnumber))
        (hy.hasNegativeZero hnumber) (hz.hasNegativeZero (hr.2 ▸ hnumber)) hxy hyz)
  · exact Or.inl (totalCompare_eq_then_of_rank hr hxy hyz)

end Value

/-! ## Marks -/

/-- What is met where a value is read from left to right. -/
inductive Mark where
  /-- A list is at its end. -/
  | closing
  | scalar (v : Value)
  /-- A list begins. -/
  | opening

namespace Mark

open Value

def rank : Mark → Nat
  | .closing => 0
  | .scalar _ => 1
  | .opening => 2

/-- The end of a list is before all that could stand in its place, a list behind all scalars. -/
protected def compare : Mark → Mark → Ordering
  | .scalar v, .scalar w => totalCompare v w
  | m, n => compare m.rank n.rank

/-- What stands in a mark is not a list. -/
def Proper (m : Mark) : Prop := ∀ v, m = .scalar v → v.Flat

def compareAll (xs ys : List Mark) : Ordering := Ordered.lexicographic Mark.compare xs ys

variable {l m n : Mark} {xs ys zs : List Mark}

theorem compareAll_cons : compareAll (m :: xs) (n :: ys) = (m.compare n).then (compareAll xs ys) :=
  rfl

/-- At what rows of marks transitivity fails: none of the three is less than the one before it, and
yet the first is greater than the last. At the first place where the three are not all equal they
have the zeros, one each, and what follows goes the way that is stated. -/
inductive GoesRound : List Mark → List Mark → List Mark → Prop
  | later {l m n : Mark} {xs ys zs : List Mark} (hlm : l.compare m = .eq) (hmn : m.compare n = .eq)
      (hln : l.compare n = .eq) (h : GoesRound xs ys zs) : GoesRound (l :: xs) (m :: ys) (n :: zs)
  | plus {xs ys zs : List Mark} (hxy : (compareAll xs ys).isLE = true)
      (hyz : (compareAll ys zs).isLE = true) :
      GoesRound (.scalar plusZero :: xs) (.scalar wholeZero :: ys) (.scalar minusZero :: zs)
  | minus {xs ys zs : List Mark} (hyz : (compareAll ys zs).isLE = true)
      (hxz : compareAll xs zs = .gt) :
      GoesRound (.scalar minusZero :: xs) (.scalar plusZero :: ys) (.scalar wholeZero :: zs)
  | whole {xs ys zs : List Mark} (hxy : (compareAll xs ys).isLE = true)
      (hxz : compareAll xs zs = .gt) :
      GoesRound (.scalar wholeZero :: xs) (.scalar minusZero :: ys) (.scalar plusZero :: zs)

theorem compareAll_of_goesRound (h : GoesRound xs ys zs) :
    (compareAll xs ys).isLE = true ∧ (compareAll ys zs).isLE = true ∧ compareAll xs zs = .gt := by
  induction h with
  | later hlm hmn hln _ ih => simpa [compareAll_cons, hlm, hmn, hln] using ih
  | plus hxy hyz =>
    simp [compareAll_cons, Mark.compare, compare_plus_whole, compare_whole_minus,
      compare_plus_minus, hxy, hyz]
  | minus hyz hxz =>
    simp [compareAll_cons, Mark.compare, compare_minus_plus, compare_plus_whole,
      compare_minus_whole, hyz, hxz]
  | whole hxy hxz =>
    simp [compareAll_cons, Mark.compare, compare_whole_minus, compare_minus_plus,
      compare_whole_plus, hxy, hxz]

/-- Where three marks go upwards, the step from the first to the last is the two steps together, but
in the ring. -/
theorem compare_then (hl : l.Proper) (hm : m.Proper) (hn : n.Proper)
    (hlm : (l.compare m).isLE = true) (hmn : (m.compare n).isLE = true) :
    l.compare n = (l.compare m).then (m.compare n) ∨
      ∃ x y z, l = .scalar x ∧ m = .scalar y ∧ n = .scalar z ∧ Ring x y z := by
  cases l <;> cases m <;> cases n
  case scalar.scalar.scalar x y z =>
    refine ((hl x rfl).compare_then (hm y rfl) (hn z rfl) hlm hmn).imp_right fun h => ?_
    exact ⟨x, y, z, rfl, rfl, rfl, h⟩
  all_goals left
  case scalar.scalar.opening => exact (then_lt_of_isLE hlm).symm
  all_goals first | rfl | (cases hlm; done) | cases hmn

theorem goesRound_of_compareAll (hx : ∀ m ∈ xs, m.Proper) (hy : ∀ m ∈ ys, m.Proper)
    (hz : ∀ m ∈ zs, m.Proper) (hxy : (compareAll xs ys).isLE = true)
    (hyz : (compareAll ys zs).isLE = true) (hxz : compareAll xs zs = .gt) :
    GoesRound xs ys zs := by
  induction xs generalizing ys zs with
  | nil => cases zs <;> cases hxz
  | cons l xs ih =>
    cases ys with
    | nil => cases hxy
    | cons m ys =>
      cases zs with
      | nil => cases hyz
      | cons n zs =>
        rw [List.forall_mem_cons] at hx hy hz
        rw [compareAll_cons] at hxy hyz hxz
        have hlm : (l.compare m).isLE = true := Ordering.isLE_left_of_isLE_then hxy
        have hmn : (m.compare n).isLE = true := Ordering.isLE_left_of_isLE_then hyz
        rcases compare_then hx.1 hy.1 hz.1 hlm hmn with hln | ⟨x, y, z, rfl, rfl, rfl, hring⟩
        · -- A strict step would make the first row less than the last.
          cases holm : l.compare m with
          | lt => simp [hln, holm] at hxz
          | gt => simp [holm] at hlm
          | eq =>
            cases homn : m.compare n with
            | lt => simp [hln, holm, homn] at hxz
            | gt => simp [homn] at hmn
            | eq =>
              rw [holm, homn] at hln
              rw [holm] at hxy
              rw [homn] at hyz
              rw [hln] at hxz
              exact .later holm homn hln (ih hx.2 hy.2 hz.2 hxy hyz hxz)
        · cases hring with
          | plus => exact .plus hxy hyz
          | minus => exact .minus hyz hxz
          | whole => exact .whole hxy hxz
          | apart => simp [Mark.compare, compare_minus_plus] at hxz

end Mark

namespace Value

open Mark

variable {a b c v : Value} {m : Int}

mutual

/-- A value, read from left to right. -/
def marks : Value → List Mark
  | .list items => .opening :: marksOf items
  | v => [.scalar v]

def marksOf : List Value → List Mark
  | [] => [.closing]
  | v :: rest => marks v ++ marksOf rest

end

theorem Flat.marks_eq (hv : v.Flat) : v.marks = [.scalar v] := by
  cases v with
  | list items => exact absurd rfl (hv items)
  | _ => rfl

mutual

theorem marks_proper (v : Value) : ∀ m ∈ v.marks, m.Proper := by
  by_cases hv : v.Flat
  · rw [hv.marks_eq]
    intro m hm w hw
    obtain rfl := List.mem_singleton.1 hm
    cases hw
    exact hv
  · cases v with
    | list items =>
      rw [marks]
      rintro m (_ | ⟨_, hm⟩)
      · rintro w ⟨⟩
      · exact marksOf_proper items m hm
    | _ => exact absurd (fun items h => nomatch h) hv

theorem marksOf_proper (vs : List Value) : ∀ m ∈ marksOf vs, m.Proper := by
  cases vs with
  | nil =>
    rintro m (_ | ⟨_, ⟨⟩⟩) w ⟨⟩
  | cons v rest =>
    rw [marksOf]
    intro m hm
    rcases List.mem_append.1 hm with hm | hm
    · exact marks_proper v m hm
    · exact marksOf_proper rest m hm

end

mutual

/-- **The order of values is that of their marks**, whatever follows. -/
theorem compareAll_marks_append (a b : Value) (xs ys : List Mark) :
    compareAll (a.marks ++ xs) (b.marks ++ ys) = (totalCompare a b).then (compareAll xs ys) := by
  by_cases hlists : ∃ as bs, a = .list as ∧ b = .list bs
  · obtain ⟨as, bs, rfl, rfl⟩ := hlists
    exact compareAll_marksOf_append as bs xs ys
  · cases a <;> cases b <;> first | rfl | exact absurd ⟨_, _, rfl, rfl⟩ hlists

theorem compareAll_marksOf_append (as bs : List Value) (xs ys : List Mark) :
    compareAll (marksOf as ++ xs) (marksOf bs ++ ys) =
      (totalCompareList as bs).then (compareAll xs ys) := by
  cases as with
  | nil =>
    cases bs with
    | nil => rfl
    | cons b bs => cases b <;> rfl
  | cons a as =>
    cases bs with
    | nil => cases a <;> rfl
    | cons b bs =>
      rw [marksOf, marksOf, List.append_assoc, List.append_assoc, compareAll_marks_append a b,
        compareAll_marksOf_append as bs, totalCompareList, Ordering.then_assoc]

end

theorem compareAll_marks (a b : Value) : compareAll a.marks b.marks = totalCompare a b := by
  have h : compareAll (a.marks ++ []) (b.marks ++ []) = (totalCompare a b).then .eq :=
    compareAll_marks_append a b [] []
  rwa [List.append_nil, List.append_nil, Ordering.then_eq] at h

/-! ## Equal values that do not compare alike -/

mutual

/-- The integer zero stands in the same places of both values. -/
def SameWholes : Value → Value → Prop
  | .list xs, .list ys => SameWholesOf xs ys
  | a, b => a = wholeZero ↔ b = wholeZero

def SameWholesOf : List Value → List Value → Prop
  | x :: xs, y :: ys => SameWholes x y ∧ SameWholesOf xs ys
  | [], [] => True
  | _, _ => False

end

theorem Flat.sameWholes_iff (ha : a.Flat) :
    SameWholes a b ↔ (a = wholeZero ↔ b = wholeZero) := by
  cases a with
  | list items => exact absurd rfl (ha items)
  | _ => rw [SameWholes]; rintro _ _ ⟨⟩

/-- Equal values that are no lists are identical, or numbers in one place. -/
theorem Flat.eq_or_number (ha : a.Flat) (h : totalCompare a b = .eq) :
    a = b ∨ ∃ m, a.number? = some m ∧ b.number? = some m := by
  have hr : a.rank = b.rank :=
    (rank_le_of_isLE (Ordering.isLE_of_eq_eq h)).antisymm
      (rank_le_of_isLE (by rw [← totalCompare_swap, h]; rfl))
  cases alike_of_rank_eq hr with
  | null => exact Or.inl rfl
  | bool a b => exact Or.inl (congrArg _ (Std.LawfulEqOrd.eq_of_compare h))
  | number ha hb =>
    refine Or.inr ⟨_, ha, ?_⟩
    rw [hb]
    exact congrArg some ((number_le hb ha (by rw [← totalCompare_swap, h]; rfl)).antisymm
      (number_le ha hb (Ordering.isLE_of_eq_eq h)))
  | str a b => exact Or.inl (congrArg _ (Std.LawfulEqOrd.eq_of_compare h))
  | time a b => exact Or.inl (congrArg _ (Instant.eq_of_compare h))
  | ref a b => exact Or.inl (congrArg _ (Std.LawfulEqOrd.eq_of_compare h))
  | list xs ys => exact absurd rfl (ha xs)

theorem compare_of_rank_eq (hr : a.rank = b.rank) (hne : a.rank ≠ c.rank) :
    totalCompare a c = totalCompare b c := by
  rw [totalCompare_of_rank_ne hne, totalCompare_of_rank_ne (hr ▸ hne), hr]

/-- Numbers in one place compare alike with everything, if one is the integer zero only where the
other is. -/
theorem compare_of_numbers (ha : a.number? = some m) (hb : b.number? = some m)
    (h : totalCompare a b = .eq) (hw : a = wholeZero ↔ b = wholeZero) (c : Value) :
    totalCompare a c = totalCompare b c := by
  by_cases hm : m = 0
  · subst hm
    rcases zero_cases ha with rfl | rfl | rfl <;> rcases zero_cases hb with rfl | rfl | rfl <;>
      first
      | rfl
      | exact absurd (hw.1 rfl) (by rintro ⟨⟩)
      | exact absurd (hw.2 rfl) (by rintro ⟨⟩)
      | exact absurd h (by decide)
  · by_cases hc : c.rank = 2
    · obtain ⟨n, hn⟩ := number_of_rank hc
      rw [totalCompare_of_number ha hn (Or.inl hm), totalCompare_of_number hb hn (Or.inl hm)]
    · exact compare_of_rank_eq ((rank_of_number ha).trans (rank_of_number hb).symm)
        (rank_of_number ha ▸ Ne.symm hc)

theorem Flat.compare_congr (ha : a.Flat) (h : totalCompare a b = .eq)
    (hw : a = wholeZero ↔ b = wholeZero) (c : Value) : totalCompare a c = totalCompare b c := by
  rcases ha.eq_or_number h with rfl | ⟨m, hm, hn⟩
  · rfl
  · exact compare_of_numbers hm hn h hw c

/-- The integer zero and a double zero are told apart by the other double zero. -/
theorem exists_same_ne_of_whole (h : totalCompare a b = .eq) (ha : a = wholeZero)
    (hb : b ≠ wholeZero) : ∃ c, a.same c ≠ b.same c := by
  subst ha
  have hflat : wholeZero.Flat := by rintro items ⟨⟩
  rcases hflat.eq_or_number h with rfl | ⟨m, hm, hn⟩
  · exact absurd rfl hb
  · obtain rfl : 0 = m := Option.some.inj hm
    rcases zero_cases hn with rfl | rfl | rfl
    · exact absurd rfl hb
    · exact ⟨minusZero, by decide⟩
    · exact ⟨plusZero, by decide⟩

theorem Flat.exists_same_ne (ha : a.Flat) (h : totalCompare a b = .eq)
    (hw : ¬SameWholes a b) : ∃ c, a.same c ≠ b.same c := by
  rw [ha.sameWholes_iff] at hw
  by_cases hwhole : a = wholeZero
  · exact exists_same_ne_of_whole h hwhole fun hb => hw (iff_of_true hwhole hb)
  · have hb : b = wholeZero := by
      by_contra hb
      exact hw (iff_of_false hwhole hb)
    have hswap : totalCompare b a = .eq := by rw [← totalCompare_swap, h]; rfl
    obtain ⟨c, hc⟩ := exists_same_ne_of_whole hswap hb hwhole
    exact ⟨c, hc.symm⟩

mutual

theorem compare_congr (a b : Value) (h : totalCompare a b = .eq) (hw : SameWholes a b)
    (c : Value) : totalCompare a c = totalCompare b c := by
  by_cases ha : a.Flat
  · exact ha.compare_congr h (ha.sameWholes_iff.1 hw) c
  · cases a with
    | list xs =>
      cases b with
      | list ys =>
        cases c with
        | list zs => exact compareList_congr xs ys h hw zs
        | _ => rfl
      | _ => cases h
    | _ => exact absurd (fun items h => nomatch h) ha

theorem compareList_congr (xs ys : List Value) (h : totalCompareList xs ys = .eq)
    (hw : SameWholesOf xs ys) (zs : List Value) :
    totalCompareList xs zs = totalCompareList ys zs := by
  cases xs with
  | nil =>
    cases ys with
    | nil => rfl
    | cons y ys => cases h
  | cons x xs =>
    cases ys with
    | nil => cases h
    | cons y ys =>
      rw [totalCompareList, Ordering.then_eq_eq] at h
      rw [SameWholesOf] at hw
      cases zs with
      | nil => rfl
      | cons z zs =>
        rw [totalCompareList, totalCompareList, compare_congr x y h.1 hw.1,
          compareList_congr xs ys h.2 hw.2]

end

mutual

theorem exists_same_ne (a b : Value) (h : totalCompare a b = .eq) (hw : ¬SameWholes a b) :
    ∃ c, a.same c ≠ b.same c := by
  by_cases ha : a.Flat
  · exact ha.exists_same_ne h hw
  · cases a with
    | list xs =>
      cases b with
      | list ys =>
        obtain ⟨zs, hzs⟩ := exists_sameList_ne xs ys h hw
        exact ⟨.list zs, hzs⟩
      | _ => cases h
    | _ => exact absurd (fun items h => nomatch h) ha

theorem exists_sameList_ne (xs ys : List Value) (h : totalCompareList xs ys = .eq)
    (hw : ¬SameWholesOf xs ys) :
    ∃ zs, (totalCompareList xs zs == .eq) ≠ (totalCompareList ys zs == .eq) := by
  cases xs with
  | nil =>
    cases ys with
    | nil => exact absurd (by rw [SameWholesOf]; trivial) hw
    | cons y ys => cases h
  | cons x xs =>
    cases ys with
    | nil => cases h
    | cons y ys =>
      rw [totalCompareList, Ordering.then_eq_eq] at h
      rw [SameWholesOf, not_and_or] at hw
      rcases hw with hw | hw
      · -- The element that tells the heads apart, before the elements of one of the tails.
        obtain ⟨z, hz⟩ := exists_same_ne x y h.1 hw
        refine ⟨z :: ys, ?_⟩
        have hself : totalCompareList ys ys = .eq := totalCompare_self (.list ys)
        rw [totalCompareList, totalCompareList, h.2, hself, Ordering.then_eq, Ordering.then_eq]
        exact hz
      · obtain ⟨zs, hzs⟩ := exists_sameList_ne xs ys h.2 hw
        refine ⟨y :: zs, ?_⟩
        rw [totalCompareList, totalCompareList, h.1, totalCompare_self, Ordering.eq_then,
          Ordering.eq_then]
        exact hzs

end

/-! ## The laws -/

theorem isLE_iff_not_goesRound (hab : (totalCompare a b).isLE = true)
    (hbc : (totalCompare b c).isLE = true) :
    (totalCompare a c).isLE = true ↔ ¬GoesRound a.marks b.marks c.marks := by
  rw [← compareAll_marks] at hab hbc ⊢
  rw [iff_not_comm]
  constructor
  · intro h
    rw [(compareAll_of_goesRound h).2.2]
    decide
  · intro h
    exact goesRound_of_compareAll (marks_proper a) (marks_proper b) (marks_proper c) hab hbc
      (by simpa using h)

/-- Where rows go round of which each equals the next, the one between has the integer zero. -/
theorem whole_mem_of_goesRound {xs ys zs : List Mark} (h : GoesRound xs ys zs)
    (hxy : compareAll xs ys = .eq) (hyz : compareAll ys zs = .eq) : .scalar wholeZero ∈ ys := by
  induction h with
  | later hlm hmn _ _ ih =>
    rw [compareAll_cons, hlm, Ordering.eq_then] at hxy
    rw [compareAll_cons, hmn, Ordering.eq_then] at hyz
    exact List.mem_cons_of_mem _ (ih hxy hyz)
  | plus => exact List.mem_cons_self
  | minus => simp [compareAll_cons, Mark.compare, compare_minus_plus] at hxy
  | whole => simp [compareAll_cons, Mark.compare, compare_minus_plus] at hyz

/-- Values that equal one without an integer zero equal each other. -/
theorem same_of_same {e e' : Value} (hv : Mark.scalar wholeZero ∉ v.marks)
    (he : e.same v = true) (he' : e'.same v = true) : e'.same e = true := by
  have hle {a b : Value} (ha : a.same v = true) (hb : b.same v = true) :
      (totalCompare a b).isLE = true := by
    have hav : totalCompare a v = .eq := beq_iff_eq.1 ha
    have hvb : totalCompare v b = .eq := beq_iff_eq.1 ((same_comm v b).trans hb)
    refine (isLE_iff_not_goesRound (by rw [hav]; rfl) (by rw [hvb]; rfl)).2 fun hround => ?_
    exact hv (whole_mem_of_goesRound hround ((compareAll_marks a v).trans hav)
      ((compareAll_marks v b).trans hvb))
  have hge : (totalCompare e' e).swap.isLE = true := by
    rw [totalCompare_swap]
    exact hle he he'
  rw [same, beq_iff_eq]
  cases h : totalCompare e' e with
  | eq => rfl
  | lt => simp [h] at hge
  | gt => simpa [h] using hle he' he

/-- **What the order of values is.** It finds every value equal to itself, and turns round with its
arguments. It is transitive but for values that go round, and equal values compare alike with
everything unless the integer zero stands in the one where a double zero stands in the other. -/
theorem totalCompare_laws (a b c : Value) :
    totalCompare a a = .eq ∧
    totalCompare b a = (totalCompare a b).swap ∧
    ((totalCompare a b).isLE = true → (totalCompare b c).isLE = true →
      ((totalCompare a c).isLE = true ↔ ¬GoesRound a.marks b.marks c.marks)) ∧
    (totalCompare a b = .eq →
      ((∀ c, totalCompare a c = totalCompare b c) ↔ SameWholes a b)) := by
  refine ⟨totalCompare_self a, (totalCompare_swap a b).symm, isLE_iff_not_goesRound, fun h => ?_⟩
  constructor
  · intro halike
    by_contra hw
    obtain ⟨c, hc⟩ := exists_same_ne a b h hw
    exact hc (congrArg (· == .eq) (halike c))
  · exact compare_congr a b h

/-- The double zeros both equal the integer zero, and yet one is greater than the other. -/
theorem zeros_go_round :
    totalCompare plusZero wholeZero = .eq ∧ totalCompare wholeZero minusZero = .eq ∧
    totalCompare plusZero minusZero = .gt ∧
    GoesRound plusZero.marks wholeZero.marks minusZero.marks ∧
    ¬SameWholes plusZero wholeZero := by
  have hlaws := totalCompare_laws plusZero wholeZero minusZero
  have hround := (hlaws.2.2.1 (by decide) (by decide)).not.1 (by decide)
  have halike := (hlaws.2.2.2 (by decide)).not.1 fun h => absurd (h minusZero) (by decide)
  exact ⟨by decide, by decide, by decide, not_not.1 hround, halike⟩

end Value

end MetadataArchive
