import MetadataArchive.Pattern.Parser
import MetadataArchive.Store.Error

/-!
# Evaluating queries

A clause takes a list of bindings to a list of bindings. A pattern extends or drops each of them, a
test keeps or drops, `or` puts the results of its branches one behind the other, and `not` keeps the
bindings from which its clauses lead nowhere. Rows are what the bindings hold of the wanted
variables, each row once.

Time stands still during an evaluation, so a time limit is reached only where there is no time at
all; it is looked at when a clause begins.
-/

set_option autoImplicit false

namespace MetadataArchive

/-- Read access to a fixed set of documents. -/
structure Source where
  /-- The document of a key. -/
  document? : DocId → Option Document
  /-- All documents, in the order in which a scan meets them. -/
  documents : List Document

namespace Source

/-- A list of documents; of those with one key the last counts, and a scan meets them by key. -/
def ofList (docs : List Document) : Source :=
  let m := NameMap.ofList (docs.map fun d => (d.id, d))
  ⟨m.get?, m.values⟩

end Source

abbrev Binding := NameMap Value

/-- Match a value with a place of a pattern: an unbound variable takes it, anything else has to be
the same. -/
def Term.unify (b : Binding) (t : Term) (v : Value) : Option Binding :=
  match t with
  | .const expected => if v.same expected then some b else none
  | .var x =>
      match b.get? x with
      | some bound => if v.same bound then some b else none
      | none => some (b.insert x v)

/-- The documents that a pattern may be about, and the variable that takes the one it is about. -/
def Term.candidates (src : Source) (b : Binding) (t : Term) : Option Var × List Document :=
  let lookup (id : DocId) : List Document := (src.document? id).toList
  match t with
  | .const (.ref id) => (none, lookup id)
  | .const _ => (none, [])
  | .var x =>
      match b.get? x with
      | some (.ref id) => (none, lookup id)
      | some _ => (none, [])
      | none => (some x, src.documents)

/-- Bind the variable of the document, where the pattern has one that is free. The binding of the
value is made before, so a variable in both places takes the document. -/
def bindEntity (entity : Option Var) (id : DocId) (b : Binding) : Binding :=
  match entity with
  | none => b
  | some x => b.insert x (.ref id)

def matchPattern (src : Source) (entity : Term) (attr : String) (value : Term)
    (b : Binding) : List Binding :=
  let (x, docs) := entity.candidates src b
  docs.flatMap fun doc =>
    match doc.get? attr with
    | none => []
    | some stored =>
        (stored.elements.filterMap (value.unify b)).map (bindEntity x doc.id)

/-- Whether a value stands so to a constant. Equality is that of values; the others hold only
between values that compare. -/
def CompareOp.holds (op : CompareOp) (left right : Value) : Bool :=
  match op with
  | .eq => left.same right
  | .ne => !left.same right
  | .gt => left.compare? right == some .gt
  | .gte => (left.compare? right).any (· != .lt)
  | .lt => left.compare? right == some .lt
  | .lte => (left.compare? right).any (· != .gt)

namespace Test

def var : Test → Var
  | .compare _ v _ | .like v _ | .isNull v | .notNull v => v

def holds (t : Test) (v : Value) : Except StoreError Bool :=
  match t with
  | .compare op _ c => .ok (v.elements.any fun e => op.holds e c)
  | .like _ pattern =>
      match Pattern.readWhole? pattern with
      | none => .error (.invalidQuery (.badPattern pattern))
      | some p => .ok (v.elements.any fun e => e.asStr?.any p.occursIn)
  | .isNull _ => .ok v.isNull
  | .notNull _ => .ok !v.isNull

def eval (t : Test) (b : Binding) : Except StoreError Bool :=
  match b.get? t.var with
  | none => .error (.invalidQuery (.testUnbound t.var))
  | some v => t.holds v

end Test

/-- The value of the first attribute that a document has; null where it has none of them, or where
there is no document. -/
def firstValue (src : Source) (id : DocId) (attributes : List String) : Value :=
  match src.document? id with
  | none => .null
  | some doc => (attributes.findSome? doc.get?).getD .null

def bindFirst (src : Source) (entity : Var) (attributes : List String) (bind : Var)
    (b : Binding) : Except StoreError (List Binding) :=
  match b.get? entity with
  | none => .error (.invalidQuery (.entityUnbound entity))
  | some (.ref id) =>
      let found := firstValue src id attributes
      match b.get? bind with
      | none => .ok [b.insert bind found]
      | some bound => .ok (if bound.same found then [b] else [])
  | some _ => .ok []

def bindOneOf (v : Var) (values : List Value) (b : Binding) : List Binding :=
  match b.get? v with
  | some bound => if values.any bound.same then [b] else []
  | none => values.map fun value => b.insert v value

/-- Take each binding to several and put the results one behind the other. -/
def extendEach (step : Binding → Except StoreError (List Binding)) :
    List Binding → Except StoreError (List Binding)
  | [] => .ok []
  | b :: rest => do
      let here ← step b
      let there ← extendEach step rest
      .ok (here ++ there)

def keepEach (test : Binding → Except StoreError Bool) (bs : List Binding) :
    Except StoreError (List Binding) :=
  extendEach (fun b => do if ← test b then .ok [b] else .ok []) bs

/-- Refuse to go on where there is no time at all. -/
def checkTime (limit : Option Nat) : Except StoreError Unit :=
  if limit = some 0 then .error (.timeout 0 0) else .ok ()

mutual

/-- What a clause makes of a list of bindings. -/
def Clause.eval (src : Source) (limit : Option Nat) (c : Clause) (bs : List Binding) :
    Except StoreError (List Binding) := do
  checkTime limit
  match c with
  | .pattern entity attr value => .ok (bs.flatMap (matchPattern src entity attr value))
  | .firstOf entity attributes bind => extendEach (bindFirst src entity attributes bind) bs
  | .test t => keepEach t.eval bs
  | .and clauses => Clause.evalAll src limit clauses bs
  | .or branches => Clause.evalAny src limit branches bs
  | .not clauses =>
      keepEach (fun b => do return (← Clause.evalAll src limit clauses [b]).isEmpty) bs
  | .oneOf v values => .ok (bs.flatMap (bindOneOf v values))
termination_by structural c

/-- What clauses make of a list of bindings, one after the other. -/
def Clause.evalAll (src : Source) (limit : Option Nat) (cs : List Clause) (bs : List Binding) :
    Except StoreError (List Binding) :=
  match cs with
  | [] => .ok bs
  | c :: rest =>
      -- Where no binding is left the clauses that follow are not looked at.
      if bs.isEmpty then .ok bs
      else do
        let bs ← Clause.eval src limit c bs
        Clause.evalAll src limit rest bs
termination_by structural cs

/-- What each of several clauses makes of a list of bindings, one behind the other. -/
def Clause.evalAny (src : Source) (limit : Option Nat) (cs : List Clause) (bs : List Binding) :
    Except StoreError (List Binding) :=
  match cs with
  | [] => .ok []
  | c :: rest => do
      let here ← Clause.eval src limit c bs
      let there ← Clause.evalAny src limit rest bs
      .ok (here ++ there)
termination_by structural cs

end

/-! ## Rows -/

def Binding.row (find : List Var) (b : Binding) : Except StoreError (List Value) :=
  find.mapM fun v =>
    match b.get? v with
    | some value => .ok value
    | none => .error (.invalidQuery (.neverBound v))

def compareRows (a b : List Value) : Ordering := Ordered.lexicographic Value.totalCompare a b

/-- What rows are ordered by: a list counts as its first element. -/
def sortValue : Value → Value
  | .list (v :: _) => v
  | v => v

/-- The order of two values in a direction. -/
def compareSorted (direction : Direction) (a b : Value) : Ordering :=
  let a := sortValue a
  let b := sortValue b
  -- What is null comes last in both directions.
  match a.isNull, b.isNull with
  | true, true => .eq
  | true, false => .gt
  | false, true => .lt
  | false, false =>
      match direction with
      | .asc => a.totalCompare b
      | .desc => (a.totalCompare b).swap

def Query.sortColumns (q : Query) : Except StoreError (List (Nat × Direction)) :=
  q.orderBy.mapM fun key =>
    match q.find.idxOf? key.var with
    | some i => .ok (i, key.direction)
    | none => .error (.invalidQuery (.notProjected key.var))

/-- The order of two rows by columns, the first that tells them apart. -/
def compareByColumns (columns : List (Nat × Direction)) (a b : List Value) : Ordering :=
  columns.foldl
    (fun ord (i, direction) =>
      ord.then (compareSorted direction (a.getD i .null) (b.getD i .null)))
    .eq

/-- The rows of bindings, each once, in the order that the query asks for. -/
def Query.orderedRows (q : Query) (bs : List Binding) : Except StoreError (List (List Value)) := do
  let rows ← bs.mapM (Binding.row q.find)
  let rows := Ordered.distinct compareRows rows
  let columns ← q.sortColumns
  .ok (Ordered.sortStable (fun a b => compareByColumns columns a b == .lt) rows)

def Query.page (q : Query) (rows : List (List Value)) : List (List Value) :=
  let rows := rows.drop q.offset
  match q.limit with
  | none => rows
  | some n => rows.take n

def Query.evaluate (q : Query) (src : Source) : Except StoreError Rows := do
  let bs ← Clause.evalAll src q.timeout q.clauses [∅]
  let rows ← q.orderedRows bs
  .ok ⟨q.find, q.page rows⟩

end MetadataArchive
