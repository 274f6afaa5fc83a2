import MetadataArchive.Pattern.Parser
import MetadataArchive.Query.Clause
import MetadataArchive.Record.Attribute
import MetadataArchive.Search.Condition
import MetadataArchive.Search.Error

/-!
# Conditions as clauses

A condition on a property becomes clauses on the attributes that records may store the property
under. There is one attribute for every type that declares the property; where there are several,
each is tried. A property that no type declares has one attribute that no record ever has.

Equality is a pattern for every scalar value of what is compared with. Ranges and patterns bind the
stored value to a variable of their own and test it. Tests for null bind the first attribute that is
there, or null.

What cannot be compared is left out and reported; it never makes a search fail. Variables are
numbered from one in the order in which the conditions are met.
-/

set_option autoImplicit false

namespace MetadataArchive

inductive DropReason where
  | noComparand
  | notText
  | badPattern
  | collectionRange
  | emptyCollection
  deriving DecidableEq, Repr

def DropReason.message : DropReason → String
  | .noComparand => "comparison has no comparand"
  | .notText => "LIKE comparand is not a string"
  | .badPattern => "invalid regular expression"
  | .collectionRange => "collections cannot be range-compared"
  | .emptyCollection => "empty collection comparand"

structure Diagnostic where
  property : String
  reason : DropReason
  deriving DecidableEq, Repr

/-- How far a compilation has come: how many variables were taken, and what was left out. -/
structure Progress where
  taken : Nat
  dropped : List Diagnostic
  deriving DecidableEq, Repr

namespace Progress

def start : Progress := ⟨0, []⟩

def nextVar (p : Progress) : Var := Var.ofName ("v" ++ toString (p.taken + 1))

end Progress

/-- A part of a compilation. -/
abbrev Compile := StateM Progress

namespace Compile

def fresh : Compile Var := fun p => (p.nextVar, { p with taken := p.taken + 1 })

def drop (property : String) (reason : DropReason) : Compile (Option Clause) :=
  fun p => (none, { p with dropped := p.dropped ++ [⟨property, reason⟩] })

end Compile

/-- Where a condition is to be met: by which record, in which space of properties, and of which
types the record may be. -/
structure SearchScope where
  record : Var
  space : PropertySpace
  candidates : List String

namespace SearchScope

/-- The keys of a property; one that no attribute has where no candidate declares it. -/
def keys (ts : TypeSystem) (scope : SearchScope) (property : String) : List AttributeKey :=
  match AttributeKey.resolve ts scope.space property scope.candidates with
  | [] => [⟨scope.space, property, none⟩]
  | keys => keys

/-- The attributes of a property that queries look at. -/
def attributes (ts : TypeSystem) (scope : SearchScope) (property : String) : List String :=
  (scope.keys ts property).map AttributeKey.queryable

end SearchScope

/-- Some attribute has a value that passes a test; the value is bound. -/
def bindAndTest (record : Var) (attributes : List String) (bound : Var) (test : Test) : Clause :=
  .disjunction (attributes.map fun a => .and [.attrBind record a bound, .test test])

/-- Some attribute has all of several values. -/
def hasAll (record : Var) (attributes : List String) (values : List Value) : Clause :=
  .disjunction (attributes.map fun a => .conjunction (values.map (Clause.attrEq record a)))

/-- The first attribute that is there, or null, passes a test. -/
def firstPasses (record : Var) (attributes : List String) (bound : Var) (test : Test) : Clause :=
  .and [.firstOf record attributes bound, .test test]

namespace Comparison

/-- A property equals a value: it has every scalar value of it. -/
def equality (ts : TypeSystem) (scope : SearchScope) (property : String) (v : PropertyValue) :
    Compile (Option Clause) :=
  match v.flatten.elements with
  | [] => Compile.drop property .emptyCollection
  | values => return some (hasAll scope.record (scope.attributes ts property) values)

/-- A property stands so to a value that is no collection. -/
def range (ts : TypeSystem) (scope : SearchScope) (property : String) (op : CompareOp)
    (v : PropertyValue) : Compile (Option Clause) :=
  match v.flatten with
  | .list _ => Compile.drop property .collectionRange
  | value => do
      let bound ← Compile.fresh
      return some (bindAndTest scope.record (scope.attributes ts property) bound
        (.compare op bound value))

def like (ts : TypeSystem) (scope : SearchScope) (property : String) (v : PropertyValue) :
    Compile (Option Clause) :=
  match v.asStr? with
  | none => Compile.drop property .notText
  | some pattern =>
      if Pattern.isValid pattern then do
        let bound ← Compile.fresh
        return some (bindAndTest scope.record (scope.attributes ts property) bound
          (.like bound pattern))
      else Compile.drop property .badPattern

def nullTest (ts : TypeSystem) (scope : SearchScope) (property : String) (test : Var → Test) :
    Compile (Option Clause) := do
  let bound ← Compile.fresh
  return some (firstPasses scope.record (scope.attributes ts property) bound (test bound))

/-- The clause of a comparison, unless it is left out. -/
def compile (ts : TypeSystem) (scope : SearchScope) (c : Comparison) : Compile (Option Clause) :=
  match c.operator, c.value with
  | .isNull, _ => nullTest ts scope c.property .isNull
  | .notNull, _ => nullTest ts scope c.property .notNull
  | _, none => Compile.drop c.property .noComparand
  | .eq, some v => equality ts scope c.property v
  | .neq, some v => return (← equality ts scope c.property v).map fun eq => .not [eq]
  | .like, some v => like ts scope c.property v
  | .gt, some v => range ts scope c.property .gt v
  | .gte, some v => range ts scope c.property .gte v
  | .lt, some v => range ts scope c.property .lt v
  | .lte, some v => range ts scope c.property .lte v

end Comparison

/-- The clauses of a node from those of its children; there are none where it has no child left. -/
def Criteria.join (criteria : Criteria) (root : Bool) (children : List Clause) : List Clause :=
  if children.isEmpty then []
  else
    match criteria with
    -- At the root, clauses that all have to hold stand side by side.
    | .all => if root then children else [.and children]
    | .any => [.or children]
    | .none => [.not children]

mutual

def Condition.compile (ts : TypeSystem) (scope : SearchScope) : Condition → Compile (List Clause)
  | .property c => return (← c.compile ts scope).toList
  | .nested criteria conditions =>
      return criteria.join false (← Condition.compileAll ts scope conditions)

def Condition.compileAll (ts : TypeSystem) (scope : SearchScope) :
    List Condition → Compile (List Clause)
  | [] => return []
  | c :: rest => do
      let here ← Condition.compile ts scope c
      let there ← Condition.compileAll ts scope rest
      return here ++ there

end

def ConditionTree.compile (ts : TypeSystem) (scope : SearchScope) (t : ConditionTree) :
    Compile (List Clause) :=
  return t.criteria.join true (← Condition.compileAll ts scope t.conditions)

/-- The clauses of a classification: it is listed, and its properties meet their conditions. -/
def ClassificationCondition.compile (ts : TypeSystem) (record : Var)
    (c : ClassificationCondition) : Compile (List Clause) := do
  let listed := Clause.attrEq record Attr.classifications (.str c.name)
  match c.properties with
  | none => return [listed]
  | some tree => return listed :: (← tree.compile ts ⟨record, .classification c.name, [c.name]⟩)

def ClassificationConditions.compile (ts : TypeSystem) (record : Var)
    (cs : ClassificationConditions) : Compile (List Clause) := do
  let children ← cs.conditions.mapM (ClassificationCondition.compile ts record)
  if children.isEmpty then return []
  else
    match cs.criteria with
    | .all => return children.flatten
    | .any => return [.or (children.map Clause.conjunction)]
    | .none => return [.not children.flatten]

/-! ## Filters -/

/-- A type that a filter names: known, and of the category that is searched. -/
def TypeSystem.filterType (ts : TypeSystem) (category : TypeCategory) (name : String) :
    Except SearchError TypeDef :=
  match ts.get? name with
  | none => .error (.unknownType name)
  | some d => if d.category = category then .ok d else .error (.wrongCategory name category.name)

/-- The clauses that restrict category and types, the first of which binds the record, and the names
of the types that the record may have. -/
def TypeSystem.typeClauses (ts : TypeSystem) (filter : Option TypeFilter)
    (category : TypeCategory) (record : Var) : Except SearchError (List Clause × List String) := do
  let ofCategory := Clause.attrEq record Attr.typeCategory (.str category.name)
  let unrestricted :=
    ([ofCategory], (ts.types.values.filter fun d => d.category = category).map TypeDef.name)
  match filter with
  | none => .ok unrestricted
  | some (.anyOf []) => .ok unrestricted
  | some (.subtypes name) =>
      let d ← ts.filterType category name
      let below ← (ts.subtypesOf name).mapError SearchError.record
      .ok ([ofCategory, .attrEq record Attr.typeSupers (.str d.guid)], below.map TypeDef.name)
  | some (.anyOf names) =>
      let ds ← names.mapM (ts.filterType category)
      .ok ([ofCategory, .disjunction (ds.map fun d => .attrEq record Attr.typeId (.str d.guid))],
        names)

def StatusFilter.clauses (f : StatusFilter) (record : Var) : List Clause :=
  let has (s : Status) : Clause := .attrEq record Attr.status (.str s.name)
  match f with
  | .all => []
  | .present | .only [] => [.not [has .deleted]]
  | .only statuses => [.disjunction (statuses.map has)]

/-- The attributes of all properties of the candidate types, each once. -/
def SearchScope.allAttributes (ts : TypeSystem) (scope : SearchScope) :
    Except SearchError (List String) :=
  scope.candidates.foldlM
    (fun found candidate => do
      let ps ← (ts.legalProperties candidate).mapError SearchError.record
      let names := ps.flatMap fun p =>
        (AttributeKey.resolve ts scope.space p.name [candidate]).map AttributeKey.queryable
      return names.foldl (fun found a => if found.contains a then found else found ++ [a]) found)
    []

/-- A pattern matches some property of the candidate types. -/
def SearchScope.textClause (ts : TypeSystem) (scope : SearchScope) (pattern : String)
    (bound : Var) : Except SearchError Clause :=
  if Pattern.isValid pattern then
    (scope.allAttributes ts).map fun attributes =>
      bindAndTest scope.record attributes bound (.like bound pattern)
  else .error (.invalidPattern pattern none)

end MetadataArchive
