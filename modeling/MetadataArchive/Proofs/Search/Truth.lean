import MetadataArchive.Query.Evaluation
import MetadataArchive.Record.Basic
import MetadataArchive.Search.Compilation

/-!
# What a tree of conditions says of a record

Before there is any query, a tree of conditions is a formula over a record. This module says which
one, without clauses, variables or documents: which comparisons take part, what each of them says of
the properties that the record has, and how nodes put together what their children say.

A comparison that cannot be made is no part of the formula, and neither is a node that has no child
left. There is one thing more to keep account of. A pattern is judged by itself when it takes part,
and is read between the marks of a whole match when it meets a value; the second reading may fail
where the first did not. A `verdict` is what the formula says where no such pattern is met, and
nothing where one is.
-/

set_option autoImplicit false

namespace MetadataArchive

/-! ## What a record shows -/

/-- The properties of a record as a search sees them. -/
abbrev View := String → Option PropertyValue

/-- The scalar values of a property; none where there is no such property. -/
def View.leaves (view : View) (property : String) : List Value :=
  ((view property).map PropertyValue.leaves).getD []

/-- An entity shows the properties that its type has. -/
def Entity.view (ts : TypeSystem) (e : Entity) : View := fun property =>
  if ts.isLegalProperty e.header.typeRef.name property then e.properties.get? property else none

/-- Whether a value is made of others. -/
def PropertyValue.isCollection : PropertyValue → Bool
  | .primitive _ | .choice _ _ _ => false
  | .array _ | .map _ | .record _ _ => true

/-! ## Verdicts -/

/-- What a part of the formula says, or nothing where it stumbles. -/
abbrev Verdict := Option Bool

namespace Verdict

/-- Both hold; the second is not looked at where the first does not. -/
def and (v w : Verdict) : Verdict := v.bind fun t => if t then w else some false

/-- One of them holds; both are looked at. -/
def or (v w : Verdict) : Verdict := v.bind fun t => w.map fun u => t || u

def not (v : Verdict) : Verdict := v.map fun t => !t

@[simp] theorem and_some_true (v : Verdict) : v.and (some true) = v := by
  rcases v with _ | _ | _ <;> rfl

def all : List Verdict → Verdict := List.foldr and (some true)

def any : List Verdict → Verdict := List.foldr or (some false)

@[simp] theorem some_false_or (v : Verdict) : or (some false) v = v := by
  rcases v with _ | _ | _ <;> rfl

theorem all_some {α : Type} (p : α → Bool) (xs : List α) :
    all (xs.map fun x => some (p x)) = some (xs.all p) := by
  induction xs with
  | nil => rfl
  | cons x xs ih =>
    show and (some (p x)) (all (xs.map fun x => some (p x))) = _
    rw [ih, List.all_cons]
    cases p x <;> rfl

theorem any_some {α : Type} (p : α → Bool) (xs : List α) :
    any (xs.map fun x => some (p x)) = some (xs.any p) := by
  induction xs with
  | nil => rfl
  | cons x xs ih =>
    show or (some (p x)) (any (xs.map fun x => some (p x))) = _
    rw [ih, List.any_cons]
    rfl

/-- Where nothing is said but one thing and that it does not hold, that thing is said if
anywhere. -/
theorem any_of_alike {w : Verdict} {vs : List Verdict} (h : ∀ v ∈ vs, v = some false ∨ v = w) :
    any vs = if w ∈ vs then w else some false := by
  induction vs with
  | nil => rfl
  | cons v vs ih =>
    obtain ⟨hv, hvs⟩ := List.forall_mem_cons.1 h
    show or v (any vs) = _
    rw [ih hvs]
    rcases hv with rfl | rfl
    · by_cases hw : w = some false <;> simp [hw]
    · rw [if_pos List.mem_cons_self]
      rcases v with _ | _ | _ <;> split <;> rfl

end Verdict

/-! ## Comparisons -/

namespace Comparison

/-- Why a comparison takes no part in a search, unless it does. -/
def dropReason? (c : Comparison) : Option DropReason :=
  match c.operator, c.value with
  | .isNull, _ | .notNull, _ => none
  | _, none => some .noComparand
  | .eq, some v | .neq, some v => if v.leaves.isEmpty then some .emptyCollection else none
  | .like, some v =>
      match v.asStr? with
      | none => some .notText
      | some pattern => if Pattern.isValid pattern then none else some .badPattern
  | .gt, some v | .gte, some v | .lt, some v | .lte, some v =>
      if v.isCollection then some .collectionRange else none

def isKept (c : Comparison) : Bool := c.dropReason?.isNone

def diagnostic? (c : Comparison) : Option Diagnostic :=
  c.dropReason?.map fun reason => ⟨c.property, reason⟩

def holds (view : View) (c : Comparison) : Bool :=
  let found := view.leaves c.property
  let hasAll (v : PropertyValue) : Bool := v.leaves.all fun w => found.any fun x => x.same w
  let stands (op : CompareOp) (v : PropertyValue) : Bool := found.any fun x => op.holds x v.flatten
  match c.operator, c.value with
  | .isNull, _ => found.isEmpty
  | .notNull, _ => !found.isEmpty
  | _, none => false
  | .eq, some v => hasAll v
  | .neq, some v => !hasAll v
  | .like, some v =>
      match v.asStr?.bind Pattern.readWhole? with
      | none => false
      | some p => found.any fun x => x.asStr?.any p.occursIn
  | .gt, some v => stands .gt v
  | .gte, some v => stands .gte v
  | .lt, some v => stands .lt v
  | .lte, some v => stands .lte v

/-- The pattern that a comparison matches values with. -/
def pattern? (c : Comparison) : Option String :=
  match c.operator, c.value with
  | .like, some v => v.asStr?
  | _, _ => none

/-- Whether a comparison meets a value with a pattern that cannot be read as a whole match. -/
def stumbles (view : View) (c : Comparison) : Bool :=
  c.pattern?.any (fun p => (Pattern.readWhole? p).isNone) && !(view.leaves c.property).isEmpty

def verdict (view : View) (c : Comparison) : Verdict :=
  if c.stumbles view then none else some (c.holds view)

end Comparison

/-! ## Nodes -/

namespace Criteria

/-- What a node says where its children say so. -/
def holds : Criteria → List Bool → Bool
  | .all, ts => ts.all id
  | .any, ts => ts.any id
  | .none, ts => !ts.all id

def verdict : Criteria → List Verdict → Verdict
  | .all, vs => Verdict.all vs
  | .any, vs => Verdict.any vs
  | .none, vs => (Verdict.all vs).not

end Criteria

/-! ## Trees -/

mutual

/-- What a condition comes to, worked out upwards from its comparisons. -/
def Condition.fold {α : Type} (leaf : Comparison → α) (node : Criteria → List α → α) :
    Condition → α
  | .property c => leaf c
  | .nested criteria conditions => node criteria (Condition.foldAll leaf node conditions)

def Condition.foldAll {α : Type} (leaf : Comparison → α) (node : Criteria → List α → α) :
    List Condition → List α
  | [] => []
  | c :: rest => Condition.fold leaf node c :: Condition.foldAll leaf node rest

end

theorem Condition.foldAll_eq {α : Type} (leaf : Comparison → α) (node : Criteria → List α → α)
    (cs : List Condition) : Condition.foldAll leaf node cs = cs.map (Condition.fold leaf node) := by
  induction cs with
  | nil => rfl
  | cons c cs ih => rw [Condition.foldAll, ih, List.map_cons]

namespace Condition

/-- The comparisons of a condition, in the order in which they are met. -/
def comparisons : Condition → List Comparison := fold (fun c => [c]) fun _ parts => parts.flatten

/-- What is left of a condition without the comparisons that take no part: itself or nothing. -/
def kept : Condition → List Condition :=
  fold (fun c => if c.isKept then [.property c] else []) fun criteria parts =>
    if parts.flatten.isEmpty then [] else [.nested criteria parts.flatten]

def holds (view : View) : Condition → Bool := fold (Comparison.holds view) Criteria.holds

def verdict (view : View) : Condition → Verdict :=
  fold (Comparison.verdict view) Criteria.verdict

section

variable {view : View} {c : Comparison} {criteria : Criteria} {cs : List Condition}

theorem comparisons_property : comparisons (.property c) = [c] := rfl

theorem comparisons_nested : comparisons (.nested criteria cs) = cs.flatMap comparisons := by
  rw [comparisons, fold, foldAll_eq, List.flatMap]

theorem kept_property : kept (.property c) = if c.isKept then [.property c] else [] := rfl

theorem kept_nested :
    kept (.nested criteria cs) =
      if (cs.flatMap kept).isEmpty then [] else [.nested criteria (cs.flatMap kept)] := by
  rw [kept, fold, foldAll_eq, List.flatMap]

theorem holds_nested :
    holds view (.nested criteria cs) = criteria.holds (cs.map (holds view)) := by
  rw [holds, fold, foldAll_eq]

theorem verdict_nested :
    verdict view (.nested criteria cs) = criteria.verdict (cs.map (verdict view)) := by
  rw [verdict, fold, foldAll_eq]

end

/-- A property of conditions that nodes have from their children. -/
theorem induct {P : Condition → Prop} (property : ∀ c, P (.property c))
    (nested : ∀ criteria cs, (∀ c ∈ cs, P c) → P (.nested criteria cs)) (c : Condition) : P c :=
  @Condition.rec P (fun cs => ∀ c ∈ cs, P c) property nested (fun _ h => nomatch h)
    (fun _ _ hc hcs => List.forall_mem_cons.2 ⟨hc, hcs⟩) c

end Condition

namespace ConditionTree

def comparisons (t : ConditionTree) : List Comparison :=
  t.conditions.flatMap Condition.comparisons

def kept (t : ConditionTree) : List Condition := t.conditions.flatMap Condition.kept

def diagnostics (t : ConditionTree) : List Diagnostic :=
  t.comparisons.filterMap Comparison.diagnostic?

/-- Whether a record satisfies a tree; any does where nothing is left of it. -/
def holds (view : View) (t : ConditionTree) : Bool :=
  t.kept.isEmpty || t.criteria.holds (t.kept.map (Condition.holds view))

def verdict (view : View) (t : ConditionTree) : Verdict :=
  if t.kept.isEmpty then some true else t.criteria.verdict (t.kept.map (Condition.verdict view))

end ConditionTree

/-! ## Verdicts and what holds -/

/-- A verdict says nothing else than what is so. -/
def Verdict.Agrees (v : Verdict) (t : Bool) : Prop := ∀ u, v = some u → u = t

theorem Comparison.agrees (view : View) (c : Comparison) :
    (c.verdict view).Agrees (c.holds view) := by
  intro u h
  unfold verdict at h
  split at h
  next => cases h
  next => exact (Option.some.inj h).symm

theorem Verdict.agrees_all {α : Type} {xs : List α} {v : α → Verdict} {t : α → Bool}
    (h : ∀ x ∈ xs, (v x).Agrees (t x)) : (Verdict.all (xs.map v)).Agrees ((xs.map t).all id) := by
  induction xs with
  | nil => exact fun u hu => (Option.some.inj hu).symm
  | cons x xs ih =>
    obtain ⟨hx, hxs⟩ := List.forall_mem_cons.1 h
    intro u hu
    obtain ⟨w, hw, hu⟩ := Option.bind_eq_some_iff.1 hu
    rw [List.map_cons, List.all_cons, ← hx w hw]
    cases w with
    | false => exact (Option.some.inj hu).symm
    | true => exact ih hxs u hu

theorem Verdict.agrees_any {α : Type} {xs : List α} {v : α → Verdict} {t : α → Bool}
    (h : ∀ x ∈ xs, (v x).Agrees (t x)) : (Verdict.any (xs.map v)).Agrees ((xs.map t).any id) := by
  induction xs with
  | nil => exact fun u hu => (Option.some.inj hu).symm
  | cons x xs ih =>
    obtain ⟨hx, hxs⟩ := List.forall_mem_cons.1 h
    intro u hu
    obtain ⟨w, hw, hu⟩ := Option.bind_eq_some_iff.1 hu
    obtain ⟨w', hw', rfl⟩ := Option.map_eq_some_iff.1 hu
    rw [List.map_cons, List.any_cons, ← hx w hw, ← ih hxs w' hw']
    rfl

theorem Criteria.agrees (criteria : Criteria) {α : Type} {xs : List α} {v : α → Verdict}
    {t : α → Bool} (h : ∀ x ∈ xs, (v x).Agrees (t x)) :
    (criteria.verdict (xs.map v)).Agrees (criteria.holds (xs.map t)) := by
  cases criteria with
  | all => exact Verdict.agrees_all h
  | any => exact Verdict.agrees_any h
  | none =>
    intro u hu
    obtain ⟨w, hw, rfl⟩ := Option.map_eq_some_iff.1 hu
    rw [Verdict.agrees_all h w hw]
    rfl

theorem Condition.agrees (view : View) (c : Condition) :
    (c.verdict view).Agrees (c.holds view) := by
  induction c using Condition.induct with
  | property c => exact c.agrees view
  | nested criteria cs ih =>
    rw [verdict_nested, holds_nested]
    exact criteria.agrees ih

/-- Where a tree's verdict is anything, it is what the tree says. -/
theorem ConditionTree.agrees (view : View) (t : ConditionTree) :
    (t.verdict view).Agrees (t.holds view) := by
  unfold ConditionTree.verdict ConditionTree.holds
  cases t.kept.isEmpty with
  | true => exact fun u hu => (Option.some.inj hu).symm
  | false => exact t.criteria.agrees fun c _ => c.agrees view

end MetadataArchive
