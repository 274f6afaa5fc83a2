import MetadataArchive.Fact.Document

/-!
# Queries

A query is a conjunction of clauses over variables. Patterns say that a document has a value under
an attribute, tests restrict what is bound, and clauses combine by `and`, `or` and `not`. The query
names the variables it wants, the order of the rows, and which part of them.
-/

set_option autoImplicit false

namespace MetadataArchive

/-- A variable, written with a question mark in front. -/
abbrev Var := String

/-- The variable of a name, with or without its question mark. -/
def Var.ofName (name : String) : Var := if beginsWith "?" name then name else "?" ++ name

inductive Term where
  | var (v : Var)
  | const (v : Value)
  deriving Repr, Inhabited

inductive CompareOp where
  | eq
  | ne
  | gt
  | gte
  | lt
  | lte
  deriving DecidableEq, Repr

def CompareOp.symbol : CompareOp → String
  | .eq => "="
  | .ne => "not="
  | .gt => ">"
  | .gte => ">="
  | .lt => "<"
  | .lte => "<="

/-- A test of a variable that is bound. -/
inductive Test where
  /-- Some element stands so to the constant. -/
  | compare (op : CompareOp) (var : Var) (value : Value)
  /-- Some element is a text that the pattern matches whole. -/
  | like (var : Var) (pattern : String)
  | isNull (var : Var)
  | notNull (var : Var)
  deriving Repr

inductive Clause where
  /-- A document has a value, or a list with that element, under an attribute. -/
  | pattern (entity : Term) (attr : String) (value : Term)
  /-- Binds the value of the first attribute that a document has, or null. -/
  | firstOf (entity : Var) (attributes : List String) (bind : Var)
  | test (t : Test)
  | and (clauses : List Clause)
  | or (branches : List Clause)
  /-- The clauses do not hold together. -/
  | not (clauses : List Clause)
  /-- A variable has one of several values. -/
  | oneOf (var : Var) (values : List Value)
  deriving Repr, Inhabited

namespace Clause

def attrEq (entity : Var) (attr : String) (value : Value) : Clause :=
  .pattern (.var entity) attr (.const value)

/-- The document has some value under an attribute, which is bound. -/
def attrBind (entity : Var) (attr : String) (bind : Var) : Clause :=
  .pattern (.var entity) attr (.var bind)

/-- Clauses that hold together; a single one stands for itself. -/
def conjunction : List Clause → Clause
  | [c] => c
  | cs => .and cs

/-- Clauses of which one holds; a single one stands for itself. -/
def disjunction : List Clause → Clause
  | [c] => c
  | cs => .or cs

end Clause

inductive Direction where
  | asc
  | desc
  deriving DecidableEq, Repr

structure OrderKey where
  var : Var
  direction : Direction
  deriving DecidableEq, Repr

structure Query where
  /-- The variables of a row. -/
  find : List Var
  clauses : List Clause
  orderBy : List OrderKey
  /-- How many rows are left out in front. -/
  offset : Nat
  limit : Option Nat
  /-- How long the evaluation may take, in nanoseconds. -/
  timeout : Option Nat
  deriving Repr

namespace Query

/-- The query for one variable that says nothing about it. -/
def of (v : Var) : Query := ⟨[v], [], [], 0, none, none⟩

def extend (q : Query) (cs : List Clause) : Query := { q with clauses := q.clauses ++ cs }

def project (q : Query) (v : Var) : Query :=
  if q.find.contains v then q else { q with find := q.find ++ [v] }

end Query

structure Rows where
  columns : List Var
  rows : List (List Value)
  deriving Repr

namespace Rows

def column (r : Rows) (v : Var) : List Value :=
  match r.columns.idxOf? v with
  | some i => r.rows.filterMap fun row => row[i]?
  | none => []

/-- The documents of a column; what is no reference is left out. -/
def refs (r : Rows) (v : Var) : List DocId := (r.column v).filterMap Value.asRef?

end Rows

end MetadataArchive
