import MetadataArchive.Collection.Ordered
import MetadataArchive.Number.Decimal
import MetadataArchive.Time.Rfc3339

/-!
# `Value` -- what an attribute holds

An attribute has a value of one of eight kinds. A list is an attribute with many values: a pattern
matches it where it matches an element.

Two comparisons are needed. `Value.compare?` is the comparison that a query asks for: numbers among
each other whatever their kind, texts, instants, truth values and references among their own kind,
and nothing else. `Value.totalCompare` puts all values in one row, for sorting and for keeping equal
rows once; equality of values is equality there, so the integer one equals the double one.
-/

set_option autoImplicit false

namespace MetadataArchive

abbrev DocId := String

inductive Value where
  | null
  | bool (b : Bool)
  | int (i : Int64)
  | float (d : Double)
  | str (s : String)
  | time (t : Instant)
  | ref (id : DocId)
  | list (items : List Value)
  deriving Repr, Inhabited

namespace Value

/-- Null, or a list without elements. -/
def isNull : Value → Bool
  | .null => true
  | .list items => items.isEmpty
  | _ => false

def asStr? : Value → Option String
  | .str s => some s
  | _ => none

def asInt? : Value → Option Int64
  | .int i => some i
  | _ => none

def asBool? : Value → Option Bool
  | .bool b => some b
  | _ => none

def asTime? : Value → Option Instant
  | .time t => some t
  | _ => none

def asRef? : Value → Option DocId
  | .ref id => some id
  | _ => none

/-- What a pattern is matched against: the elements of a list, and otherwise the value itself. -/
def elements : Value → List Value
  | .list items => items
  | v => [v]

/-- The order that a query compares by; nothing between kinds that do not compare. -/
def compare? : Value → Value → Option Ordering
  | .int a, .int b => some (compare a.toInt b.toInt)
  | .int a, .float b => if b.isNaN then none else some (Double.compareInt a.toInt b)
  | .float a, .int b => if a.isNaN then none else some (Double.compareInt b.toInt a).swap
  | .float a, .float b => Double.compare? a b
  | .str a, .str b => some (compare a b)
  | .time a, .time b => some (a.compare b)
  | .bool a, .bool b => some (compare a b)
  | .ref a, .ref b => some (compare a b)
  | _, _ => none

def rank : Value → Nat
  | .null => 0
  | .bool _ => 1
  | .int _ | .float _ => 2
  | .str _ => 3
  | .time _ => 4
  | .ref _ => 5
  | .list _ => 6

mutual

/-- The total order: kinds in a row, numbers by value, lists element by element. -/
def totalCompare : Value → Value → Ordering
  | .float a, .float b => Double.totalCompare a b
  | .int a, .float b => Double.totalCompareInt a.toInt b
  | .float a, .int b => (Double.totalCompareInt b.toInt a).swap
  | .list xs, .list ys => totalCompareList xs ys
  | .null, .null => .eq
  | .bool a, .bool b => compare a b
  | .int a, .int b => compare a.toInt b.toInt
  | .str a, .str b => compare a b
  | .time a, .time b => a.compare b
  | .ref a, .ref b => compare a b
  | a, b => compare a.rank b.rank

/-- The first elements that differ decide, and then the lengths. -/
def totalCompareList : List Value → List Value → Ordering
  | [], [] => .eq
  | [], _ :: _ => .lt
  | _ :: _, [] => .gt
  | x :: xs, y :: ys => (totalCompare x y).then (totalCompareList xs ys)

end

/-- Equality of values: the total order does not tell them apart. -/
def same (a b : Value) : Bool := totalCompare a b == .eq

mutual

def display : Value → String
  | .null => "nil"
  | .bool b => if b then "true" else "false"
  | .int i => toString i.toInt
  | .float d => d.displayText
  | .str s => "\"" ++ s ++ "\""
  | .time t => "#inst \"" ++ Rfc3339.offsetText t ++ "\""
  | .ref id => "#ref " ++ id
  | .list items => "[" ++ displayItems items ++ "]"

def displayItems : List Value → String
  | [] => ""
  | [v] => display v
  | v :: rest => display v ++ " " ++ displayItems rest

end

/-- Values in ascending order, equals in the order in which they came. -/
def sort (vs : List Value) : List Value :=
  Ordered.sortStable (fun a b => totalCompare a b == .lt) vs

end Value

end MetadataArchive
