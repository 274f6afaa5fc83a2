import MetadataArchive.Lifecycle.Request
import MetadataArchive.Lifecycle.Rule
import MetadataArchive.Record.Storage
import MetadataArchive.Search.Plan
import MetadataArchive.Store.Transaction

/-!
# Acting on the state of a transaction

A request is carried out inside a transaction, for a user and a collection. What it reads is the
state that the transaction sees, and every record it touches carries the transaction's time.
-/

set_option autoImplicit false

namespace MetadataArchive

/-- Who acts, for which collection, on which state. -/
structure Acting where
  types : TypeSystem
  user : String
  collection : Collection
  context : TxContext

namespace Acting

/-- The header of a new record that is homed in the acting collection. -/
def newHeader (a : Acting) (typeRef : TypeRef) : Header :=
  .create typeRef a.collection.id a.collection.name a.user a.context.time

def touch (a : Acting) (h : Header) : Header := h.touch a.user a.context.time

/-! ## Reading -/

def document? (a : Acting) (r : RecordRef) : Option Document := a.context.source.document? r.docId

def stored? (a : Acting) (r : RecordRef) : Except Failure (Option StoredEntity) :=
  match a.document? r with
  | none => .ok none
  | some d => do return some (← StoredEntity.ofDocument d)

/-- An entity that has to be stored in full. -/
def entity (a : Acting) (r : RecordRef) : Except Failure Entity := do
  let stored ← Rule.known r (← a.stored? r)
  Rule.full stored

def relationship? (a : Acting) (r : RecordRef) : Except Failure (Option Relationship) :=
  match a.document? r with
  | none => .ok none
  | some d => do
      let (one, two) ← Relationship.ends d
      let source := a.context.source
      return some
        (← Relationship.ofDocument a.types d (source.document? one) (source.document? two))

def relationship (a : Acting) (r : RecordRef) : Except Failure Relationship := do
  Rule.known r (← a.relationship? r)

/-- The relationships of an entity, of any status and home. -/
def touching (a : Acting) (r : RecordRef) : Except Failure (List DocId) := do
  let q := (Query.of relationshipVar).extend [touches relationshipVar r]
  let rows ← q.evaluate a.context.source
  return rows.refs relationshipVar

/-! ## Writing -/

def putEntity (a : Acting) (e : Entity) : Except Failure Write := do
  return .put (← e.toDocument a.types)

def putProxy (a : Acting) (p : Proxy) : Except Failure Write := do
  return .put (← p.toDocument a.types)

def putRelationship (a : Acting) (r : Relationship) : Except Failure Write := do
  return .put (← r.toDocument a.types)

/-- Proxies for the ends of a relationship that are not stored. Where `live` is set an end that is
stored must not be deleted. -/
def endProxies (a : Acting) (endOne endTwo : Proxy) (live : Bool) :
    Except Failure (List Write) := do
  let proxyOf (p : Proxy) (needed : Bool) : Except Failure (List Write) := do
    match ← a.stored? p.reference with
    | some existing =>
        if live then Rule.live existing.header p.reference
        return []
    | none =>
        if needed then
          let _ ← Rule.typeOf a.types p.header.typeRef.name .entity
          return [← a.putProxy p]
        else return []
  let one ← proxyOf endOne true
  -- A relationship of an entity with itself needs one proxy.
  let two ← proxyOf endTwo (endOne.guid != endTwo.guid)
  return one ++ two

end Acting

/-! ## Changes -/

def Change.apply (a : Acting) (r : RecordRef) (h : Header) (ps : Properties) :
    Change → Except Rejection (Header × Properties)
  | .properties new => do
      updatable
      Rule.legal a.types h.typeRef.name new
      return (a.touch h, new)
  | .status s => do
      updatable
      let s ← Rule.givenStatus s
      return (a.touch { h with status := s }, ps)
  | .delete => do
      updatable
      return (a.touch { h with statusOnDelete := some h.status, status := .deleted }, ps)
  | .restore => do
      Rule.deleted h r
      Rule.owned h a.collection.id r
      let status := h.statusOnDelete.getD .active
      return (a.touch { h with statusOnDelete := none, status }, ps)
where
  updatable : Except Rejection Unit := do
    Rule.live h r
    Rule.owned h a.collection.id r

end MetadataArchive
