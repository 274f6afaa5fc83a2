import MetadataArchive.Record.Basic

/-!
# Searches

A search says what records are wanted: of which types, with which properties and classifications, in
which status, as of when, in what order and how many at a time. Conditions on properties form a
tree; each node says how its children are joined.
-/

set_option autoImplicit false

namespace MetadataArchive

/-- How the children of a node are joined. -/
inductive Criteria where
  | all
  | any
  /-- The children do not hold together. -/
  | none
  deriving DecidableEq, Repr

namespace Criteria

def name : Criteria → String
  | .all => "ALL"
  | .any => "ANY"
  | .none => "NONE"

def values : List Criteria := [.all, .any, .none]

end Criteria

inductive Comparator where
  | eq
  | neq
  | gt
  | gte
  | lt
  | lte
  /-- A pattern matches a whole value. -/
  | like
  | isNull
  | notNull
  deriving DecidableEq, Repr

namespace Comparator

def name : Comparator → String
  | .eq => "EQ"
  | .neq => "NEQ"
  | .gt => "GT"
  | .gte => "GTE"
  | .lt => "LT"
  | .lte => "LTE"
  | .like => "LIKE"
  | .isNull => "IS_NULL"
  | .notNull => "NOT_NULL"

def all : List Comparator := [.eq, .neq, .gt, .gte, .lt, .lte, .like, .isNull, .notNull]

end Comparator

/-- The comparison of one property; tests for null need no value. -/
structure Comparison where
  property : String
  operator : Comparator
  value : Option PropertyValue

inductive Condition where
  | property (c : Comparison)
  | nested (criteria : Criteria) (conditions : List Condition)

structure ConditionTree where
  criteria : Criteria
  conditions : List Condition

/-- A classification that a record has to carry, with conditions on its properties. -/
structure ClassificationCondition where
  name : String
  properties : Option ConditionTree

structure ClassificationConditions where
  criteria : Criteria
  conditions : List ClassificationCondition

inductive TypeFilter where
  /-- A type and all that inherit from it. -/
  | subtypes (name : String)
  /-- These types alone. -/
  | anyOf (names : List String)

inductive StatusFilter where
  /-- All but the deleted. -/
  | present
  /-- These alone; where there are none, all but the deleted. -/
  | only (statuses : List Status)
  | all

/-- The order of the records that are found; records that the order does not tell apart follow each
other by key. -/
inductive Sequencing where
  /-- By key. -/
  | any
  | guid
  | creationDateRecent
  | creationDateOldest
  | lastUpdateRecent
  | lastUpdateOldest
  | propertyAscending (property : String)
  | propertyDescending (property : String)

def Sequencing.property? : Sequencing → Option String
  | .propertyAscending p => some p
  | .propertyDescending p => some p
  | _ => none

structure Paging where
  offset : Nat
  /-- How many; zero stands for as many as there may be. -/
  pageSize : Nat
  deriving DecidableEq, Repr

def Paging.first : Paging := ⟨0, 0⟩

structure QueryLimits where
  /-- How long the evaluation of a query may take, in milliseconds. -/
  timeoutMs : Nat
  /-- How many steps a walk over relationships may take. -/
  maxDepth : Nat
  maxPageSize : Nat
  deriving DecidableEq, Repr

namespace QueryLimits

/-- Half a minute, ten steps, a thousand records. -/
def default : QueryLimits := ⟨30000, 10, 1000⟩

def timeout (l : QueryLimits) : Nat := l.timeoutMs * 1000000

/-- How many records a page holds. -/
def pageSize (l : QueryLimits) (p : Paging) : Nat :=
  if p.pageSize = 0 then l.maxPageSize else min p.pageSize l.maxPageSize

/-- How many steps are taken when so many are asked for; zero, or no wish, stands for all that may
be. -/
def depth (l : QueryLimits) : Option Nat → Nat
  | none | some 0 => l.maxDepth
  | some n => min n l.maxDepth

end QueryLimits

structure EntitySearch where
  types : Option TypeFilter
  properties : Option ConditionTree
  classifications : Option ClassificationConditions
  /-- A pattern that has to match a text in one of the properties. -/
  text : Option String
  status : StatusFilter
  asOf : Option Instant
  sequencing : Sequencing
  paging : Paging

structure RelationshipSearch where
  types : Option TypeFilter
  properties : Option ConditionTree
  text : Option String
  status : StatusFilter
  asOf : Option Instant
  sequencing : Sequencing
  paging : Paging

structure GraphSearch where
  /-- The guid of the entity. -/
  root : String
  relationshipTypes : Option TypeFilter
  entityTypes : Option TypeFilter
  /-- Names of which an entity has to carry at least one, unless there are none. -/
  classifications : List String
  status : StatusFilter
  /-- How many steps are wanted. -/
  maxDepth : Option Nat
  asOf : Option Instant
  sequencing : Sequencing
  paging : Paging

def GraphSearch.of (root : String) : GraphSearch :=
  ⟨root, none, none, [], .present, none, none, .any, .first⟩

end MetadataArchive
