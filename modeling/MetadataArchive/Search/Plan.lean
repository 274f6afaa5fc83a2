import MetadataArchive.Record.Reference
import MetadataArchive.Search.Compilation

/-!
# Searches as queries

The query of a search binds the record by its category and types, restricts status, properties,
classifications and text, and asks for a page of an order. An order by a value binds the first of
the attributes that hold it, so that a record that has several counts once.
-/

set_option autoImplicit false

namespace MetadataArchive

/-! ## Order and page -/

namespace Sequencing

def sortVar : Var := Var.ofName "sort"

/-- The attributes of the value that records are ordered by, and the direction; nothing where they
are ordered by key. The keys are those of the property that the order looks at. -/
def sortBy? (keys : List AttributeKey) : Sequencing → Option (List String × Direction)
  | .any | .guid => none
  | .creationDateRecent => some ([Attr.createTime], .desc)
  | .creationDateOldest => some ([Attr.createTime], .asc)
  | .lastUpdateRecent => some ([Attr.updateTime, Attr.createTime], .desc)
  | .lastUpdateOldest => some ([Attr.updateTime, Attr.createTime], .asc)
  | .propertyAscending _ => some (keys.map AttributeKey.queryable, .asc)
  | .propertyDescending _ => some (keys.map AttributeKey.queryable, .desc)

def keys (ts : TypeSystem) (scope : SearchScope) (s : Sequencing) : List AttributeKey :=
  match s.property? with
  | some p => scope.keys ts p
  | none => []

end Sequencing

namespace Query

def sequence (q : Query) (record : Var) (order : Sequencing) (keys : List AttributeKey) : Query :=
  match order.sortBy? keys with
  | some (attributes, direction) =>
      let q := (q.extend [.firstOf record attributes Sequencing.sortVar]).project Sequencing.sortVar
      { q with orderBy := q.orderBy ++ [⟨Sequencing.sortVar, direction⟩] }
  | none =>
      match order with
      | .guid => { q with orderBy := q.orderBy ++ [⟨record, .asc⟩] }
      | _ => q

def paged (q : Query) (p : Paging) (l : QueryLimits) : Query :=
  { q with offset := p.offset, limit := some (l.pageSize p), timeout := some l.timeout }

end Query

/-! ## Whole searches -/

structure SearchPlan where
  query : Query
  /-- The variable that records are bound to. -/
  record : Var
  dropped : List Diagnostic

def entityVar : Var := Var.ofName "e"

def relationshipVar : Var := Var.ofName "r"

def SearchScope.textClauses (ts : TypeSystem) (scope : SearchScope) (bound : Var) :
    Option String → Except SearchError (List Clause)
  | none => .ok []
  | some pattern => (scope.textClause ts pattern bound).map fun c => [c]

namespace EntitySearch

def everything : EntitySearch := ⟨none, none, none, none, .present, none, .any, .first⟩

def conditions (ts : TypeSystem) (scope : SearchScope) (s : EntitySearch) :
    Compile (List Clause) := do
  let properties ←
    match s.properties with
    | none => pure []
    | some tree => tree.compile ts scope
  let classifications ←
    match s.classifications with
    | none => pure []
    | some cs => cs.compile ts scope.record
  return properties ++ classifications

/-- The query of a search for entities. Proxies are not found. -/
def plan (ts : TypeSystem) (l : QueryLimits) (s : EntitySearch) :
    Except SearchError SearchPlan := do
  let (types, candidates) ← ts.typeClauses s.types .entity entityVar
  let scope : SearchScope := ⟨entityVar, .entity, candidates⟩
  let (conditions, progress) := (s.conditions ts scope).run .start
  let text ← scope.textClauses ts progress.nextVar s.text
  let clauses := types ++ [.attrEq entityVar Attr.isProxy (.bool false)] ++
    s.status.clauses entityVar ++ conditions ++ text
  let query := ((Query.of entityVar).extend clauses).sequence entityVar s.sequencing
    (s.sequencing.keys ts scope)
  .ok ⟨query.paged s.paging l, entityVar, progress.dropped⟩

end EntitySearch

/-- The relationship has the record of a reference at either end. -/
def touches (record : Var) (r : RecordRef) : Clause :=
  .or ([End.one, End.two].map fun e => .attrEq record (Attr.side e) (.ref r.docId))

namespace RelationshipSearch

def everything : RelationshipSearch := ⟨none, none, none, .present, none, .any, .first⟩

/-- The query of a search for relationships, of one entity or of all. -/
def plan (ts : TypeSystem) (l : QueryLimits) (entity : Option RecordRef) (s : RelationshipSearch) :
    Except SearchError SearchPlan := do
  let (types, candidates) ← ts.typeClauses s.types .relationship relationshipVar
  let scope : SearchScope := ⟨relationshipVar, .relationship, candidates⟩
  let (conditions, progress) :=
    (match s.properties with
      | none => pure []
      | some tree => tree.compile ts scope : Compile (List Clause)).run .start
  let text ← scope.textClauses ts progress.nextVar s.text
  let clauses := types ++ entity.toList.map (touches relationshipVar) ++
    s.status.clauses relationshipVar ++ conditions ++ text
  let query := ((Query.of relationshipVar).extend clauses).sequence relationshipVar s.sequencing
    (s.sequencing.keys ts scope)
  .ok ⟨query.paged s.paging l, relationshipVar, progress.dropped⟩

end RelationshipSearch

end MetadataArchive
