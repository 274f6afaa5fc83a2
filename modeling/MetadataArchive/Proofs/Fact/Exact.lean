import MetadataArchive.Proofs.Collection.Ordered
import MetadataArchive.Proofs.Fact.Zeros
import MetadataArchive.Query.Evaluation

/-!
# Values without doubles

Where no part of a value is a double, equality is identity: the order of values is a linear one, and
so is that of rows. Which of equal rows is kept is then no question, and taking rows once depends on
nothing but what the rows are (`distinct_rows_congr`).
-/

set_option autoImplicit false

namespace MetadataArchive

namespace Value

mutual

/-- No part of a value is a double. -/
def isExact : Value → Bool
  | .float _ => false
  | .list items => allExact items
  | _ => true

def allExact : List Value → Bool
  | [] => true
  | v :: rest => isExact v && allExact rest

end

variable {v : Value} {vs : List Value}

theorem allExact_iff : allExact vs = true ↔ ∀ v ∈ vs, v.isExact = true := by
  induction vs with
  | nil => simp [allExact]
  | cons v vs ih => rw [allExact, Bool.and_eq_true, ih, List.forall_mem_cons]

theorem isExact_of_mem_elements (h : v.isExact = true) : ∀ e ∈ v.elements, e.isExact = true := by
  cases v with
  | list items => exact allExact_iff.1 h
  | _ => simpa [elements] using h

mutual

theorem noNegativeZero_of_isExact (v : Value) (h : v.isExact = true) :
    v.hasNegativeZero = false := by
  cases v with
  | float d => cases h
  | list items => exact noNegativeZero_of_allExact items h
  | _ => rfl

theorem noNegativeZero_of_allExact (vs : List Value) (h : allExact vs = true) :
    anyNegativeZero vs = false := by
  cases vs with
  | nil => rfl
  | cons v rest =>
    rw [allExact, Bool.and_eq_true] at h
    rw [anyNegativeZero, noNegativeZero_of_isExact v h.1, noNegativeZero_of_allExact rest h.2]
    rfl

end

mutual

/-- Equal values without doubles are identical. -/
theorem eq_of_isExact (a b : Value) (ha : a.isExact = true) (hb : b.isExact = true)
    (h : totalCompare a b = .eq) : a = b := by
  by_cases hflat : a.Flat
  · rcases hflat.eq_or_number h with heq | ⟨m, hm, hn⟩
    · exact heq
    · cases a with
      | int i =>
        cases b with
        | int j => exact congrArg Value.int (Int64.toInt_inj.1 (Std.LawfulEqOrd.eq_of_compare h))
        | float d => cases hb
        | _ => cases hn
      | float d => cases ha
      | _ => cases hm
  · cases a with
    | list xs =>
      cases b with
      | list ys => exact congrArg Value.list (eq_of_allExact xs ys ha hb h)
      | _ => cases h
    | _ => exact absurd (fun items h => nomatch h) hflat

theorem eq_of_allExact (xs ys : List Value) (hx : allExact xs = true) (hy : allExact ys = true)
    (h : totalCompareList xs ys = .eq) : xs = ys := by
  cases xs with
  | nil =>
    cases ys with
    | nil => rfl
    | cons y ys => cases h
  | cons x xs =>
    cases ys with
    | nil => cases h
    | cons y ys =>
      rw [allExact, Bool.and_eq_true] at hx hy
      rw [totalCompareList, Ordering.then_eq_eq] at h
      rw [eq_of_isExact x y hx.1 hy.1 h.1, eq_of_allExact xs ys hx.2 hy.2 h.2]

end

end Value

open Value

/-! ## Rows -/

/-- Rows are ordered as lists of values are. -/
theorem compareRows_eq (xs ys : List Value) : compareRows xs ys = totalCompareList xs ys := by
  induction xs generalizing ys with
  | nil => cases ys <;> rfl
  | cons x xs ih =>
    cases ys with
    | nil => rfl
    | cons y ys => exact congrArg _ (ih ys)

/-- A row without doubles. -/
abbrev ExactRow := { row : List Value // allExact row = true }

def ExactRow.compare (a b : ExactRow) : Ordering := compareRows a.1 b.1

instance ExactRow.instTransCmp : Std.TransCmp ExactRow.compare where
  eq_swap {a b} := by
    rw [compare, compare, compareRows_eq, compareRows_eq, totalCompareList_swap]
  isLE_trans {a b c} hab hbc := by
    rw [compare, compareRows_eq] at hab hbc ⊢
    rw [totalCompareList_eq_then _ _ _ (noNegativeZero_of_allExact _ a.2)
      (noNegativeZero_of_allExact _ b.2) (noNegativeZero_of_allExact _ c.2) hab hbc,
      Ordering.isLE_then_iff_and]
    exact ⟨hab, Or.inr hbc⟩

instance ExactRow.instLawfulEqCmp : Std.LawfulEqCmp ExactRow.compare where
  eq_of_compare {a b} h := by
    rw [compare, compareRows_eq] at h
    exact Subtype.ext (eq_of_allExact _ _ a.2 b.2 h)

/-- **Rows without doubles are taken once whatever order they came in.** -/
theorem distinct_rows_congr {rows rows' : List (List Value)}
    (hexact : ∀ row ∈ rows, allExact row = true) (h : ∀ row, row ∈ rows ↔ row ∈ rows') :
    Ordered.distinct compareRows rows = Ordered.distinct compareRows rows' := by
  have hexact' : ∀ row ∈ rows', allExact row = true := fun row hrow => hexact row ((h row).2 hrow)
  have hmap (made : List ExactRow) : Ordered.distinct compareRows (made.map Subtype.val) =
      (Ordered.distinct ExactRow.compare made).map Subtype.val :=
    Ordered.distinct_map Subtype.val (fun _ _ => rfl) made
  rw [← List.attachWith_map_subtype_val hexact, ← List.attachWith_map_subtype_val hexact', hmap,
    hmap, Ordered.distinct_eq_of_mem_iff fun row => ?_]
  simp [h]

end MetadataArchive
