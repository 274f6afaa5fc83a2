import MetadataArchive.Search.Plan
import MetadataArchive.Store.Basic

/-!
# Walks over relationships

A walk starts at one entity and follows relationships in both directions, one step at a time: what
was reached last is joined with both ends of all relationships by a single query. Types and statuses
do not matter to a walk; they are asked for afterwards, of the relationships that were met and of
the entities that were reached.

All queries of a walk go to one snapshot.
-/

set_option autoImplicit false

namespace MetadataArchive

/-- A relationship that was met, with its ends in the direction in which it was met first. -/
structure Edge where
  relationship : DocId
  near : DocId
  far : DocId
  deriving DecidableEq, Repr

/-- What a walk has found. -/
structure Walk where
  /-- What was reached, the start left out, in the order in which it was. -/
  reached : List DocId
  /-- The relationships that were met, by key. -/
  edges : NameMap Edge
  /-- How many steps were taken. -/
  hops : Nat

namespace Walk

def start : Walk := ⟨[], ∅, 0⟩

def nearVar : Var := Var.ofName "near"

def farVar : Var := Var.ofName "far"

/-- The query of a step: relationships of which one end is among those reached last. -/
def hopQuery (l : QueryLimits) (frontier : List DocId) : Query :=
  let hop (near far : End) : Clause :=
    .and
      [.oneOf nearVar (frontier.map .ref), .attrBind relationshipVar (Attr.side near) nearVar,
        .attrBind relationshipVar (Attr.side far) farVar]
  let q := (Query.of relationshipVar).extend [.or [hop .one .two, hop .two .one]]
  { (q.project nearVar).project farVar with timeout := some l.timeout }

/-- The relationship of a row; none where a column holds no reference. -/
def edge? : List Value → Option Edge
  | .ref r :: .ref near :: .ref far :: _ => some ⟨r, near, far⟩
  | _ => none

/-- Meet a relationship; what is reached in this step is put behind `next`. -/
def meet (root : DocId) (state : Walk × List DocId) (e : Edge) : Walk × List DocId :=
  let (w, next) := state
  let edges :=
    if w.edges.contains e.relationship then w.edges else w.edges.insert e.relationship e
  -- The far end is reached unless it was before.
  if e.far = root || w.reached.contains e.far then ({ w with edges }, next)
  else ({ w with edges, reached := w.reached ++ [e.far] }, next ++ [e.far])

/-- Take a step with the rows of its query. What was reached by it comes second. -/
def step (root : DocId) (w : Walk) (rows : Rows) : Walk × List DocId :=
  let (w, next) := (rows.rows.filterMap edge?).foldl (meet root) (w, [])
  ({ w with hops := w.hops + 1 }, next)

/-- Take at most so many steps, until nothing new is reached or a query fails. -/
def run (ask : Query → Except StoreError Rows) (l : QueryLimits) (root : DocId) :
    Nat → Walk → List DocId → Walk × Option StoreError
  | 0, w, _ => (w, none)
  | n + 1, w, frontier =>
      if frontier.isEmpty then (w, none)
      else
        match ask (hopQuery l frontier) with
        | .error e => (w, some e)
        | .ok rows =>
            let (w, next) := w.step root rows
            run ask l root n w next

end Walk

variable (ts : TypeSystem) (l : QueryLimits) (s : Store) (snap : Snapshot)

/-- Walk from a document, and say what stopped the walk where a query failed. -/
def Store.walk (root : DocId) (depth : Nat) : Except SearchError (Walk × Option StoreError) := do
  match ← (s.get snap root).mapError SearchError.store with
  | none => .error (.unknownRoot root)
  | some _ => .ok (Walk.run (s.query snap) l root depth .start [root])

/-- What is connected with a document over at most so many relationships. -/
def Store.traverse (root : DocId) (depth : Nat) : Except SearchError Walk := do
  match ← s.walk l snap root depth with
  | (w, none) => .ok w
  | (_, some e) => .error (.store e)

namespace GraphSearch

def ask (q : Query) (v : Var) : Except SearchError (List DocId) :=
  ((s.query snap q).map fun rows => rows.refs v).mapError SearchError.store

/-- The query for those of some documents that pass filters. -/
def among (record : Var) (ids : List DocId) (clauses : List Clause) : Query :=
  (Query.of record).extend (.oneOf record (ids.map .ref) :: clauses)

/-- Of the relationships that a walk has met, those of the wanted types and statuses. -/
def passingEdges (g : GraphSearch) (w : Walk) : Except SearchError (List Edge) := do
  if w.edges.isEmpty then .ok []
  else
    let (types, _) ← ts.typeClauses g.relationshipTypes .relationship relationshipVar
    let q := among relationshipVar w.edges.names (types ++ g.status.clauses relationshipVar)
    let ids ← ask s snap { q with timeout := some l.timeout } relationshipVar
    .ok (ids.filterMap w.edges.get?)

/-- Of some entities those that the search wants; proxies are not wanted. -/
def passingEntities (g : GraphSearch) (ids : List DocId) (paged : Bool) :
    Except SearchError (List DocId) := do
  if ids.isEmpty then .ok []
  else
    let (types, candidates) ← ts.typeClauses g.entityTypes .entity entityVar
    let classified : List Clause :=
      if g.classifications.isEmpty then []
      else [.or (g.classifications.map fun name =>
        .attrEq entityVar Attr.classifications (.str name))]
    let q := among entityVar ids
      (types ++ [.attrEq entityVar Attr.isProxy (.bool false)] ++ g.status.clauses entityVar ++
        classified)
    let q :=
      if paged then
        (q.sequence entityVar g.sequencing
          (g.sequencing.keys ts ⟨entityVar, .entity, candidates⟩)).paged g.paging l
      else { q with timeout := some l.timeout }
    ask s snap q entityVar

def rootId (g : GraphSearch) : DocId := (RecordRef.entity g.root).docId

def traverse (g : GraphSearch) : Except SearchError Walk :=
  s.traverse l snap g.rootId (l.depth g.maxDepth)

/-- The wanted entities that wanted relationships lead to, a page in order. -/
def related (g : GraphSearch) : Except SearchError (List DocId) := do
  let w ← g.traverse l s snap
  let edges ← g.passingEdges ts l s snap w
  let ends := edges.flatMap fun e => [e.near, e.far]
  g.passingEntities ts l s snap (w.reached.filter fun id => ends.contains id) true

/-- The wanted entities that were reached, and the wanted relationships between them and the entity
that the search starts from. -/
def neighborhood (g : GraphSearch) : Except SearchError (List DocId × List DocId) := do
  let w ← g.traverse l s snap
  let edges ← g.passingEdges ts l s snap w
  let entities ← g.passingEntities ts l s snap w.reached false
  let members := g.rootId :: entities
  let inside := edges.filter fun e => members.contains e.near && members.contains e.far
  .ok (entities, inside.map Edge.relationship)

end GraphSearch

end MetadataArchive
