import MetadataArchive.Record.Attribute
import MetadataArchive.Record.Basic

/-!
# Records as documents

A record is stored as one document. The fields of its header are attributes of their own, its type
is written out with all ancestors so that a query finds it by any of them, every property has its
flattened and its stored form side by side, and each classification has its header and properties
under names that begin with its own.

Reading takes back the stored forms and never looks at what was written for queries only.
-/

set_option autoImplicit false

namespace MetadataArchive

namespace Value

def ofStr? : Option String → Value
  | none => .null
  | some s => .str s

/-- The texts of a list, or of a single text; what is no text is left out. -/
def strings (v : Value) : List String := v.elements.filterMap asStr?

end Value

namespace Document

/-- The document with several attributes set, one after the other. -/
def setAll (d : Document) (fields : List (String × Value)) : Document :=
  fields.foldl (fun d f => d.set f.1 f.2) d

/-- The texts of an attribute; none where there is no such attribute. -/
def getStrings (d : Document) (name : String) : List String :=
  ((d.get? name).map Value.strings).getD []

/-- A part of the document that has to be there. -/
def demand {α : Type} (d : Document) (name : String) (part : Option α) : Except RecordError α :=
  match part with
  | some a => .ok a
  | none => .error (.mapping d.id (.missing name))

end Document

/-! ## Headers -/

namespace Header

/-- The fields of a header; the optional ones are null where they are absent. -/
def fields (h : Header) : List (String × Value) :=
  [(Attr.typeId, .str h.typeRef.guid),
   (Attr.typeName, .str h.typeRef.name),
   (Attr.version, .int (Int64.ofInt h.version.toNat)),
   (Attr.status, .str h.status.name),
   (Attr.statusOnDelete, .ofStr? (h.statusOnDelete.map Status.name)),
   (Attr.createdBy, .ofStr? h.createdBy),
   (Attr.updatedBy, .ofStr? h.updatedBy),
   (Attr.maintainedBy,
     if h.maintainedBy.isEmpty then .null else .list (h.maintainedBy.map .str)),
   (Attr.createTime, .time h.createTime),
   (Attr.updateTime, (h.updateTime.map Value.time).getD .null),
   (Attr.provenance, .str h.provenance.name),
   (Attr.collectionId, .str h.collectionId),
   (Attr.collectionName, .ofStr? h.collectionName),
   (Attr.replicatedBy, .ofStr? h.replicatedBy),
   (Attr.license, .ofStr? h.license)]

def writeTo (h : Header) (stem : String) (d : Document) : Document :=
  d.setAll (h.fields.map fun f => (stem ++ f.1, f.2))

/-- Read the header that was written under names with a common beginning. -/
def ofDocument (d : Document) (stem : String) : Except RecordError Header := do
  let text (field : String) : Except RecordError String :=
    d.demand (stem ++ field) (d.getStr? (stem ++ field))
  let version ← d.demand (stem ++ Attr.version) (d.getInt? (stem ++ Attr.version))
  let createTime ← d.demand (stem ++ Attr.createTime) (d.getTime? (stem ++ Attr.createTime))
  let statusOnDelete ← (d.getStr? (stem ++ Attr.statusOnDelete)).mapM Status.ofName
  let typeGuid ← text Attr.typeId
  let typeName ← text Attr.typeName
  let status ← Status.ofName (← text Attr.status)
  let provenance ← Provenance.ofName (← text Attr.provenance)
  let collectionId ← text Attr.collectionId
  .ok
    { typeRef := ⟨typeGuid, typeName⟩
      -- A negative version counts as zero.
      version := UInt64.ofNat version.toInt.toNat
      status, statusOnDelete
      createdBy := d.getStr? (stem ++ Attr.createdBy)
      updatedBy := d.getStr? (stem ++ Attr.updatedBy)
      maintainedBy := d.getStrings (stem ++ Attr.maintainedBy)
      createTime
      updateTime := d.getTime? (stem ++ Attr.updateTime)
      provenance, collectionId
      collectionName := d.getStr? (stem ++ Attr.collectionName)
      replicatedBy := d.getStr? (stem ++ Attr.replicatedBy)
      license := d.getStr? (stem ++ Attr.license) }

end Header

/-! ## Types and properties -/

namespace TypeSystem

/-- Write what queries ask of a record's type: the guids of the type and its ancestors, and its
category. -/
def writeType (ts : TypeSystem) (h : Header) (d : Document) : Except RecordError Document := do
  match ← ts.supertypeClosure h.typeRef.name with
  | [] => .error (.unknownType h.typeRef.name)
  | t :: rest =>
      .ok (d.setAll
        [(Attr.typeSupers, .list ((t :: rest).map fun t => .str t.guid)),
         (Attr.typeCategory, .str t.category.name)])

end TypeSystem

namespace Properties

/-- The two attributes of every property of a record of a type. -/
def fields (ts : TypeSystem) (space : PropertySpace) (typeName : String) (ps : Properties) :
    List (String × Value) :=
  ps.toList.flatMap fun (name, v) =>
    let key := AttributeKey.forStorage ts space typeName name
    [(key.queryable, v.flatten), (key.serialized, v.toStored)]

/-- Write properties in the place of all that there were in their space. -/
def writeTo (ts : TypeSystem) (space : PropertySpace) (typeName : String) (ps : Properties)
    (d : Document) : Document :=
  ((d.eraseStartingWith space.queryableStem).eraseStartingWith space.serializedStem).setAll
    (ps.fields ts space typeName)

/-- Read the properties of a space, in the order of their attributes; of those with one name the
last counts. -/
def ofDocument (d : Document) (space : PropertySpace) : Except RecordError Properties := do
  let es ← (d.startingWith space.serializedStem).filterMapM fun (attr, stored) =>
    match AttributeKey.propertyOf? space attr with
    | none => .ok none
    | some name => do .ok (some (name, ← PropertyValue.ofStored stored))
  .ok (NameMap.ofList es)

end Properties

/-! ## Classifications -/

namespace Classification

/-- Write a classification of an entity in the place of one of the same name. -/
def writeTo (ts : TypeSystem) (c : Classification) (d : Document) : Document :=
  let d := c.header.writeTo (Attr.classificationStem c.name) d
  let d := d.set (Attr.ofClassification c.name Attr.origin) (.str c.origin.name)
  let d :=
    match c.originGuid with
    -- The guid that it was propagated from stays where the new one has none.
    | none => d
    | some guid => d.set (Attr.ofClassification c.name Attr.originGuid) (.str guid)
  c.properties.writeTo ts (.classification c.name) c.header.typeRef.name d

/-- Read the classification of a name; without an origin it counts as assigned. -/
def ofDocument (d : Document) (name : String) : Except RecordError Classification := do
  let origin ←
    match d.getStr? (Attr.ofClassification name Attr.origin) with
    | some text => Origin.ofName text
    | none => .ok .assigned
  let header ← Header.ofDocument d (Attr.classificationStem name)
  let properties ← Properties.ofDocument d (.classification name)
  .ok
    { name, header, origin
      originGuid := d.getStr? (Attr.ofClassification name Attr.originGuid)
      properties }

end Classification

/-! ## Entities -/

namespace Entity

def toDocument (ts : TypeSystem) (e : Entity) : Except RecordError Document := do
  let d ← ts.writeType e.header (.ofId e.reference.docId)
  let d := e.header.writeTo "" d
  let d := d.set Attr.isProxy (.bool false)
  let d := e.properties.writeTo ts .entity e.header.typeRef.name d
  let d := d.set Attr.classifications (.list (e.classifications.map fun c => .str c.name))
  let d :=
    match e.latestClassificationChange with
    | none => d
    | some t => d.set Attr.latestClassificationChange (.time t)
  .ok (e.classifications.foldl (fun d c => c.writeTo ts d) d)

/-- The proxy of an entity: its header and its unique properties. -/
def toProxy (ts : TypeSystem) (e : Entity) : Proxy :=
  let unique := ts.uniqueProperties e.header.typeRef.name
  ⟨e.guid, e.header, e.properties.filter fun name _ => unique.contains name⟩

end Entity

def Proxy.toDocument (ts : TypeSystem) (p : Proxy) : Except RecordError Document := do
  let d ← ts.writeType p.header (.ofId p.reference.docId)
  let d := p.header.writeTo "" d
  let d := d.set Attr.isProxy (.bool true)
  .ok (p.uniqueProperties.writeTo ts .entity p.header.typeRef.name d)

/-- The names of the classifications that an entity's document lists. -/
def Document.classificationNames (d : Document) : List String := d.getStrings Attr.classifications

namespace StoredEntity

/-- The entity or proxy that a document holds. -/
def ofDocument (d : Document) : Except RecordError StoredEntity := do
  let r ← RecordRef.ofDocId d.id
  if r.kind ≠ .entity then .error (.mapping d.id .notEntity)
  else
    let header ← Header.ofDocument d ""
    let properties ← Properties.ofDocument d .entity
    if ((d.get? Attr.isProxy).bind Value.asBool?).getD false then
      .ok (.proxy ⟨r.guid, header, properties⟩)
    else
      let classifications ← d.classificationNames.mapM (Classification.ofDocument d)
      .ok (.full ⟨r.guid, header, properties, classifications⟩)

def toProxy (ts : TypeSystem) : StoredEntity → Proxy
  | .full e => e.toProxy ts
  | .proxy p => p

end StoredEntity

def Proxy.ofDocument (ts : TypeSystem) (d : Document) : Except RecordError Proxy :=
  (StoredEntity.ofDocument d).map (StoredEntity.toProxy ts)

/-! ## Relationships -/

namespace Relationship

def toDocument (ts : TypeSystem) (r : Relationship) : Except RecordError Document := do
  let d ← ts.writeType r.header (.ofId r.reference.docId)
  let d := r.header.writeTo "" d
  let d := d.set (Attr.side .one) (.ref r.endOne.reference.docId)
  let d := d.set (Attr.side .two) (.ref r.endTwo.reference.docId)
  .ok (r.properties.writeTo ts .relationship r.header.typeRef.name d)

/-- The keys of the two ends that a relationship's document names. -/
def ends (d : Document) : Except RecordError (DocId × DocId) := do
  let one ← d.demand (Attr.side .one) (d.getRef? (Attr.side .one))
  let two ← d.demand (Attr.side .two) (d.getRef? (Attr.side .two))
  .ok (one, two)

/-- The relationship that a document holds, its ends read from the documents of its ends. -/
def ofDocument (ts : TypeSystem) (d : Document) (one two : Option Document) :
    Except RecordError Relationship := do
  let r ← RecordRef.ofDocId d.id
  if r.kind ≠ .relationship then .error (.mapping d.id .notRelationship)
  else
    match one, two with
    | none, _ => .error (.inconsistentRelationship r.guid .one)
    | some _, none => .error (.inconsistentRelationship r.guid .two)
    | some one, some two => do
        let header ← Header.ofDocument d ""
        let properties ← Properties.ofDocument d .relationship
        let endOne ← Proxy.ofDocument ts one
        let endTwo ← Proxy.ofDocument ts two
        .ok ⟨r.guid, header, properties, endOne, endTwo⟩

end Relationship

end MetadataArchive
