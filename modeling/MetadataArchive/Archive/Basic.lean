import MetadataArchive.Archive.Reading
import MetadataArchive.Archive.Settings
import MetadataArchive.Archive.Site

/-!
# `Archive` -- records with history

An archive works on a site for one collection. Reading opens a snapshot of the present or of an
instant of the past, reads all it needs from it, and releases it whatever comes of it. A change is
one transaction that calls one function; where the result is wanted, the record is read back as of
the transaction, so that what others commit meanwhile does not show.

A copy that comes back to its home is no copy: it is taken as a change of the home.
-/

set_option autoImplicit false

namespace MetadataArchive

/-- What an archive is set up with. -/
structure Archive where
  types : TypeSystem
  settings : Settings

/-- The records of a page, and the conditions that were left out. -/
structure Page (α : Type) where
  records : List α
  dropped : List Diagnostic

/-- An entity, what it is connected with, and the relationships between them. -/
structure Neighborhood where
  /-- The entity in the middle, which may be a proxy. -/
  root : StoredEntity
  entities : List Entity
  relationships : List Relationship

namespace Archive

/-- Make the catalog known to a site. A name that is taken ends it, and what was known before that
name stays known. -/
def install (a : Archive) : OnSite StoreError Unit := do
  (Catalog.functions a.types).forM Site.register
  modify fun s => { s with rejections := .empty a.settings.rejections }

def setUp (types : TypeSystem) (settings : Settings) : OnSite Failure Archive := do
  let (_ : Unit) ← (settings.validate.mapError SettingsError.invalid : Except SettingsError Unit)
  let a : Archive := ⟨types, settings⟩
  a.install
  return a

variable (a : Archive) (c : Clock)

/-! ## Reading -/

/-- Read from a snapshot that is released at once. -/
def reading {α : Type} (asOf : Option Instant) (read : Store → Snapshot → Except Failure α) :
    OnSite Failure α := fun site =>
  let (snap, site) := Site.openSnapshot c asOf site
  let result := read site.store snap
  let (released, site) := Site.release snap site
  match result, released with
  | .ok x, .ok _ => (.ok x, site)
  | .ok _, .error e => (.error (.ofStore e), site)
  -- What went wrong in reading counts more than what went wrong in releasing.
  | .error failure, _ => (.error failure, site)

def storedEntity (guid : String) (asOf : Option Instant) : OnSite Failure (Option StoredEntity) :=
  reading c asOf fun s snap => s.entity? snap (RecordRef.entity guid).docId

/-- An entity that has to be stored in full. -/
def entity (guid : String) (asOf : Option Instant) : OnSite Failure Entity := do
  let stored ← storedEntity c guid asOf
  let known : Except Failure StoredEntity := Rule.known (.entity guid) stored
  let full : Except Failure Entity := do Rule.full (← known)
  full

def relationship (guid : String) (asOf : Option Instant) : OnSite Failure Relationship := do
  let r := RecordRef.relationship guid
  let stored ← reading c asOf fun s snap => s.relationship? a.types snap r.docId
  let known : Except Failure Relationship := Rule.known r stored
  known

/-- The records of a page, hydrated from the keys that a plan's query finds. -/
def page {α : Type} (plan : Except SearchError SearchPlan) (asOf : Option Instant)
    (read : Store → Snapshot → List DocId → Except Failure (List α)) : OnSite Failure (Page α) := do
  let plan : SearchPlan ← (do plan : Except Failure SearchPlan)
  let records ← reading c asOf fun s snap => do
    let rows ← s.query snap plan.query
    read s snap (rows.refs plan.record)
  return ⟨records, plan.dropped⟩

def findEntities (search : EntitySearch) : OnSite Failure (Page Entity) :=
  page c (search.plan a.types a.settings.query) search.asOf fun s snap ids => s.entities snap ids

def findRelationships (search : RelationshipSearch) : OnSite Failure (Page Relationship) :=
  page c (search.plan a.types a.settings.query none) search.asOf fun s snap ids =>
    s.relationships a.types snap ids

/-- The relationships of an entity that a search finds, of any home. The entity has to be stored. -/
def relationshipsOf (guid : String) (search : RelationshipSearch) :
    OnSite Failure (Page Relationship) := do
  let r := RecordRef.entity guid
  let plan : SearchPlan ←
    (do search.plan a.types a.settings.query (some r) : Except Failure SearchPlan)
  let records ← reading c search.asOf fun s snap => do
    let _ ← Rule.known r (← s.entity? snap r.docId)
    let rows ← s.query snap plan.query
    s.relationships a.types snap (rows.refs plan.record)
  return ⟨records, plan.dropped⟩

def related (g : GraphSearch) : OnSite Failure (List Entity) :=
  reading c g.asOf fun s snap => do
    let ids ← g.related a.types a.settings.query s snap
    s.entities snap ids

def neighborhood (g : GraphSearch) : OnSite Failure Neighborhood :=
  reading c g.asOf fun s snap => do
    let (entities, relationships) ← g.neighborhood a.types a.settings.query s snap
    let root ← Rule.known (.entity g.root) (← s.entity? snap g.rootId)
    return ⟨root, ← s.entities snap entities, ← s.relationships a.types snap relationships⟩

/-! ## Changes -/

/-- The outcome of a transaction: the failure with which its request was rejected, what aborted it,
or what it committed. -/
def resolve (tx : TxId) : OnSite Failure Outcome := do
  let o ← Site.claim tx
  match ← Site.takeRejection c tx with
  | some failure => throw failure
  | none =>
      match o.result with
      | .aborted fault => throw ⟨.functionFault, fault.message⟩
      | .committed _ => return o

def commit (ops : List TxOp) : OnSite Failure Outcome := do
  let tx ← Site.submit c ops
  resolve c tx

def carryOut (user : String) (r : Request) : OnSite Failure Outcome :=
  commit c [(⟨user, a.settings.collection, r⟩ : Invocation).toOp]

/-- Have a request carried out and read its entity back as of the transaction. -/
def entityAfter (user : String) (r : Request) : OnSite Failure Entity := do
  let o ← a.carryOut c user r
  entity c r.target.guid (some o.time)

def relationshipAfter (user : String) (r : Request) : OnSite Failure Relationship := do
  let o ← a.carryOut c user r
  a.relationship c r.target.guid (some o.time)

/-! ## Copies -/

def isHome (home : String) : Bool := home == a.settings.collection.id

/-- Take over a copy of an entity. -/
def saveEntityCopy (user : String) (e : Entity) : OnSite Failure Outcome := do
  if a.isHome e.header.collectionId then
    -- What comes home is put as it is; no function is called.
    let d : Document ← (do e.toDocument a.types : Except Failure Document)
    commit c [.write (.put d)]
  else a.carryOut c user (.storeEntityCopy e)

def purgeEntityCopy (user guid home : String) : OnSite Failure Outcome :=
  a.carryOut c user
    (if a.isHome home then .purgeEntity guid true else .purgeEntityCopy guid home)

def saveRelationshipCopy (user : String) (r : Relationship) : OnSite Failure Outcome :=
  a.carryOut c user
    (if a.isHome r.header.collectionId then .storeHomeRelationship r
      else .storeRelationshipCopy r)

def purgeRelationshipCopy (user guid home : String) : OnSite Failure Outcome :=
  a.carryOut c user
    (if a.isHome home then .purgeRelationship guid true else .purgeRelationshipCopy guid home)

/-- Take over a copy of a classification. One that is homed here is assigned anew. -/
def saveClassificationCopy (user guid : String) (cl : Classification) : OnSite Failure Outcome :=
  a.carryOut c user
    (if a.isHome cl.header.collectionId then .classify guid cl.name cl.properties .upsert
      else .storeClassificationCopy guid cl)

def purgeClassificationCopy (user guid name home : String) : OnSite Failure Outcome :=
  a.carryOut c user
    (if a.isHome home then .declassify guid name else .purgeClassificationCopy guid name home)

end Archive

end MetadataArchive
