import MetadataArchive.Record.Property
import MetadataArchive.Record.Reference
import MetadataArchive.Schema.TypeSystem

/-!
# Records: entities, proxies, relationships and classifications

Every record has a header with its type, version, status, authors, times and home. An entity has
properties and classifications; each classification has a header and properties of its own. A proxy
stands in for an entity that is homed elsewhere and carries its unique properties only. A
relationship connects two entities, each given as a proxy.
-/

set_option autoImplicit false

namespace MetadataArchive

inductive Status where
  | draft
  | prepared
  | proposed
  | approved
  | rejected
  | active
  | disabled
  | deprecated
  | other
  | deleted
  deriving DecidableEq, Repr

namespace Status

def all : List Status :=
  [.draft, .prepared, .proposed, .approved, .rejected, .active, .disabled, .deprecated, .other,
    .deleted]

def name : Status → String
  | .draft => "DRAFT"
  | .prepared => "PREPARED"
  | .proposed => "PROPOSED"
  | .approved => "APPROVED"
  | .rejected => "REJECTED"
  | .active => "ACTIVE"
  | .disabled => "DISABLED"
  | .deprecated => "DEPRECATED"
  | .other => "OTHER"
  | .deleted => "DELETED"

def ofName (text : String) : Except RecordError Status :=
  match all.find? fun s => s.name == text with
  | some s => .ok s
  | none => .error (.mapping "status" (.unknownStatus text))

end Status

/-- Where the authoritative copy of a record lives. -/
inductive Provenance where
  /-- In the home collection, which alone may change it. -/
  | localCohort
  /-- In an external system; it is changed through the collection that replicates it. -/
  | externalSource
  deriving DecidableEq, Repr

namespace Provenance

def all : List Provenance := [.localCohort, .externalSource]

def name : Provenance → String
  | .localCohort => "LOCAL_COHORT"
  | .externalSource => "EXTERNAL_SOURCE"

def ofName (text : String) : Except RecordError Provenance :=
  match all.find? fun p => p.name == text with
  | some p => .ok p
  | none => .error (.mapping "provenance" (.unknownProvenance text))

end Provenance

inductive Origin where
  | assigned
  | propagated
  deriving DecidableEq, Repr

namespace Origin

def all : List Origin := [.assigned, .propagated]

def name : Origin → String
  | .assigned => "ASSIGNED"
  | .propagated => "PROPAGATED"

def ofName (text : String) : Except RecordError Origin :=
  match all.find? fun o => o.name == text with
  | some o => .ok o
  | none => .error (.mapping "classification" (.unknownOrigin text))

end Origin

/-- What all records carry. -/
structure Header where
  typeRef : TypeRef
  version : UInt64
  status : Status
  /-- Of a deleted record, the status that it had before. -/
  statusOnDelete : Option Status
  createdBy : Option String
  updatedBy : Option String
  maintainedBy : List String
  createTime : Instant
  updateTime : Option Instant
  provenance : Provenance
  /-- The home collection. -/
  collectionId : String
  collectionName : Option String
  replicatedBy : Option String
  license : Option String
  deriving DecidableEq, Repr

namespace Header

/-- The header of a record that a user creates in a home collection: version one, active. -/
def create (typeRef : TypeRef) (collectionId : String) (collectionName : Option String)
    (user : String) (now : Instant) : Header where
  typeRef := typeRef
  version := 1
  status := .active
  statusOnDelete := none
  createdBy := some user
  updatedBy := none
  maintainedBy := [user]
  createTime := now
  updateTime := none
  provenance := .localCohort
  collectionId := collectionId
  collectionName := collectionName
  replicatedBy := none
  license := none

def isDeleted (h : Header) : Bool := h.status = .deleted

/-- The header after a change: the next version, the user who made it and when. Users who have
changed the record are listed once. -/
def touch (h : Header) (user : String) (now : Instant) : Header :=
  { h with
    version := h.version + 1
    updatedBy := some user
    updateTime := some now
    maintainedBy := if h.maintainedBy.contains user then h.maintainedBy
      else h.maintainedBy ++ [user] }

def lastChange (h : Header) : Instant := h.updateTime.getD h.createTime

end Header

structure Classification where
  name : String
  header : Header
  origin : Origin
  originGuid : Option String
  properties : Properties

structure Entity where
  guid : String
  header : Header
  properties : Properties
  classifications : List Classification

namespace Entity

def reference (e : Entity) : RecordRef := .entity e.guid

def classification? (e : Entity) (name : String) : Option Classification :=
  e.classifications.find? fun c => c.name == name

/-- The classifications with the first of a name replaced by another of that name. -/
def replaceFirst (e : Entity) (c : Classification) : List Classification :=
  replace e.classifications
where
  replace : List Classification → List Classification
    | [] => []
    | d :: rest => if d.name = c.name then c :: rest else d :: replace rest

/-- The classifications without the first of a name. -/
def removeFirst (e : Entity) (name : String) : List Classification :=
  e.classifications.eraseP fun c => c.name == name

def latestClassificationChange (e : Entity) : Option Instant :=
  (e.classifications.map fun c => c.header.lastChange).foldl
    (fun latest t =>
      match latest with
      | none => some t
      | some l => some (if l.le t then t else l))
    none

end Entity

/-- The stand-in for an entity. -/
structure Proxy where
  guid : String
  header : Header
  uniqueProperties : Properties

def Proxy.reference (p : Proxy) : RecordRef := .entity p.guid

structure Relationship where
  guid : String
  header : Header
  properties : Properties
  endOne : Proxy
  endTwo : Proxy

namespace Relationship

def reference (r : Relationship) : RecordRef := .relationship r.guid

def otherEnd? (r : Relationship) (guid : String) : Option Proxy :=
  if r.endOne.guid = guid then some r.endTwo
  else if r.endTwo.guid = guid then some r.endOne
  else none

end Relationship

/-- What is stored under the reference of an entity. -/
inductive StoredEntity where
  | full (entity : Entity)
  | proxy (proxy : Proxy)

namespace StoredEntity

def guid : StoredEntity → String
  | .full e => e.guid
  | .proxy p => p.guid

def header : StoredEntity → Header
  | .full e => e.header
  | .proxy p => p.header

def isProxy : StoredEntity → Bool
  | .full _ => false
  | .proxy _ => true

end StoredEntity

end MetadataArchive
