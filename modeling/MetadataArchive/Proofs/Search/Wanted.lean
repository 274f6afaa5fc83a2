import MetadataArchive.Proofs.Search.Compilation
import MetadataArchive.Proofs.Search.Filter
import MetadataArchive.Proofs.Search.Plan

/-!
# Which records a search wants

A whole search says of a record that it is wanted or that it is not. This module says when, of
records as they were before they were written and without any query: by category, type, status and
kind, by the conditions on properties and classifications, and by the text in it.

What a record shows are the properties that its type has. A classification shows what the type of
its name has; it may say that it is of another type, and shows then what both have from the same
ancestor.
-/

set_option autoImplicit false

namespace MetadataArchive

/-! ## What records show -/

namespace StoredRecord

def properties : StoredRecord → Properties
  | entity e => e.properties
  | proxy p => p.uniqueProperties
  | relationship r => r.properties

def space : StoredRecord → PropertySpace
  | entity _ | proxy _ => .entity
  | relationship _ => .relationship

/-- Neither proxies nor relationships carry classifications. -/
def classifications : StoredRecord → List Classification
  | entity e => e.classifications
  | proxy _ | relationship _ => []

/-- A record shows the properties that its type has. -/
def view (ts : TypeSystem) (r : StoredRecord) : View := fun property =>
  if ts.isLegalProperty r.typeName property then r.properties.get? property else none

/-- The classification of a name that a record carries; of several the last counts. -/
def classification? (r : StoredRecord) (name : String) : Option Classification :=
  r.classifications.reverse.find? fun c => c.name == name

theorem isSome_classification? (r : StoredRecord) (name : String) :
    (r.classification? name).isSome = r.classifications.any fun c => c.name == name := by
  rw [classification?, Bool.eq_iff_iff, List.find?_isSome, List.any_eq_true]
  simp

/-- A pattern matches the whole of a text, or of the name of a choice, in one of the properties that
a record shows. -/
def mentions (ts : TypeSystem) (pattern : String) (r : StoredRecord) : Bool :=
  (Pattern.readWhole? pattern).any fun p => r.properties.toList.any fun (name, v) =>
    ts.isLegalProperty r.typeName name && v.leaves.any fun x => x.asStr?.any p.occursIn

end StoredRecord

/-- A classification shows the properties that the type of its name has, from the ancestor that its
own type has them from. -/
def Classification.view (ts : TypeSystem) (c : Classification) : View := fun property =>
  if ts.isLegalProperty c.name property ∧
      ts.declaringType? c.header.typeRef.name property = ts.declaringType? c.name property then
    c.properties.get? property
  else none

/-- A record carries the classification, and its properties meet their conditions. -/
def ClassificationCondition.holds (ts : TypeSystem) (r : StoredRecord)
    (c : ClassificationCondition) : Bool :=
  (r.classification? c.name).any fun carried => c.properties.all (ConditionTree.holds (carried.view ts))

/-- Where there are no conditions, any record will do. -/
def ClassificationConditions.holds (ts : TypeSystem) (r : StoredRecord)
    (cs : ClassificationConditions) : Bool :=
  cs.conditions.isEmpty || cs.criteria.holds (cs.conditions.map (ClassificationCondition.holds ts r))

namespace RecordSearch

/-- What searches of one kind ask for and those of the other do not: proxies are no entities, and
relationships may be asked for by an end. -/
def asksFor (search : RecordSearch) (r : StoredRecord) : Bool :=
  match search with
  | entities _ => r.isFull
  | relationships entity _ => entity.all fun ref => r.touches ref

/-- The filters of a search let a record through. -/
def admits (ts : TypeSystem) (search : RecordSearch) (r : StoredRecord) : Bool :=
  TypeFilter.admits ts search.types r.typeName && search.asksFor r &&
    search.status.admits r.header.status

end RecordSearch

/-! ## Searches without pitfalls -/

/-- A pattern that can be read by itself can be read as a whole match. -/
def Pattern.Anchors (pattern : String) : Prop :=
  Pattern.isValid pattern = true → (Pattern.readWhole? pattern).isSome = true

/-- The properties of a comparison are named without a full stop, and its pattern, if it has one, can
be read as a whole match. -/
structure Comparison.Plain (c : Comparison) : Prop where
  undotted : '.' ∉ c.property.toList
  anchors : ∀ pattern, c.pattern? = some pattern → Pattern.Anchors pattern

def ConditionTree.Plain (t : ConditionTree) : Prop := ∀ c ∈ t.comparisons, c.Plain

/-- All conditions of a search are plain. -/
structure RecordSearch.Plain (search : RecordSearch) : Prop where
  properties : ∀ t, search.properties = some t → t.Plain
  classifications : ∀ cs, search.classifications = some cs →
    ∀ c ∈ cs.conditions, ∀ t, c.properties = some t → t.Plain
  text : ∀ pattern, search.text = some pattern → Pattern.Anchors pattern

/-- No type declares a property with a full stop in its name. -/
def TypeSystem.PlainProperties (ts : TypeSystem) : Prop :=
  ∀ n t, ts.get? n = some t → ∀ p ∈ t.properties, '.' ∉ p.name.toList

/-! ## Verdicts of plain trees -/

section

variable {view : View}

theorem Comparison.Plain.fits {c : Comparison} (h : c.Plain) : c.Fits fun _ => False :=
  ⟨h.undotted, fun _ pattern hp hvalid hread => by simpa [hread] using h.anchors pattern hp hvalid⟩

/-- A comparison that takes part does not stumble over a pattern that can be read. -/
theorem Comparison.Plain.verdict {c : Comparison} (h : c.Plain) (hkept : c.isKept = true) :
    c.verdict view = some (c.holds view) := by
  have hreads : c.stumbles view = false := by
    cases hp : c.pattern? with
    | none => simp [Comparison.stumbles, hp]
    | some pattern =>
      have hvalid : Pattern.isValid pattern = true := by
        obtain ⟨property, operator, value⟩ := c
        cases operator <;> cases value <;> simp [Comparison.pattern?] at hp
        simpa [Comparison.isKept, Comparison.dropReason?, hp] using hkept
      have hsome := h.anchors pattern hp hvalid
      simp [Comparison.stumbles, hp, Option.isSome_iff_ne_none.1 hsome]
  simp [Comparison.verdict, hreads]

theorem Criteria.verdict_some (criteria : Criteria) {α : Type} {t : α → Bool} {xs : List α}
    {v : α → Verdict} (h : ∀ x ∈ xs, v x = some (t x)) :
    criteria.verdict (xs.map v) = some (criteria.holds (xs.map t)) := by
  rw [List.map_congr_left h]
  cases criteria with
  | all => simp [Criteria.verdict, Criteria.holds, Verdict.all_some]
  | any => simp [Criteria.verdict, Criteria.holds, Verdict.any_some]
  | none => simp [Criteria.verdict, Criteria.holds, Verdict.all_some, Verdict.not]

/-- What is left of a plain condition has a verdict, which is what it says. -/
theorem Condition.verdict_kept {c : Condition} (h : ∀ x ∈ c.comparisons, x.Plain) :
    ∀ k ∈ c.kept, k.verdict view = some (k.holds view) := by
  induction c using Condition.induct with
  | property c =>
    intro k hk
    rw [kept_property] at hk
    split at hk
    next hkept =>
      rw [List.mem_singleton.1 hk]
      exact Comparison.Plain.verdict (h c (by simp [comparisons_property])) hkept
    next => cases hk
  | nested criteria cs ih =>
    intro k hk
    rw [kept_nested] at hk
    split at hk
    next => cases hk
    next =>
      rw [List.mem_singleton.1 hk, verdict_nested, holds_nested]
      refine criteria.verdict_some fun k hk => ?_
      obtain ⟨c, hc, hk⟩ := List.mem_flatMap.1 hk
      refine ih c hc (fun x hx => h x ?_) k hk
      rw [comparisons_nested]
      exact List.mem_flatMap.2 ⟨c, hc, hx⟩

theorem ConditionTree.Plain.verdict {t : ConditionTree} (h : t.Plain) (view : View) :
    t.verdict view = some (t.holds view) := by
  unfold ConditionTree.verdict ConditionTree.holds
  cases t.kept.isEmpty with
  | true => rfl
  | false =>
    refine t.criteria.verdict_some fun k hk => ?_
    obtain ⟨c, hc, hk⟩ := List.mem_flatMap.1 hk
    exact Condition.verdict_kept (fun x hx => h x (List.mem_flatMap.2 ⟨c, hc, hx⟩)) k hk

end

end MetadataArchive
