import MetadataArchive.Lifecycle.Acting

/-!
# Requests of a record's home

What the acting collection does to records of its own: create, change and remove entities and
relationships, and classify entities. Each request reads what it needs, checks the rules, and ends
in a list of writes.
-/

set_option autoImplicit false

namespace MetadataArchive.Acting

variable (a : Acting)

/-- A classification that is assigned here, fit for entities of a type. -/
def newClassification (entityType name : String) (ps : Properties) :
    Except Failure Classification := do
  let d ← Rule.typeOf a.types name .classification
  Rule.applicable a.types name entityType
  Rule.legal a.types name ps
  return ⟨name, a.newHeader d.typeRef, .assigned, none, ps⟩

def newClassifications (entityType : String) :
    List Classification → List NewClassification → Except Failure (List Classification)
  | done, [] => .ok done
  | done, c :: rest => do
      if done.any fun d => d.name == c.name then
        throw (Rejection.listedTwice c.name).toFailure
      let new ← a.newClassification entityType c.name c.properties
      newClassifications entityType (done ++ [new]) rest

def createEntity (guid typeName : String) (ps : Properties) (cs : List NewClassification)
    (status : Option Status) : Except Failure (List Write) := do
  let d ← Rule.typeOf a.types typeName .entity
  Rule.legal a.types typeName ps
  let status ← Rule.firstStatus status
  let r := RecordRef.entity guid
  -- A proxy gives way to the entity that it stands for.
  if let some existing ← a.stored? r then
    if !existing.isProxy then throw (Rejection.alreadyExists r).toFailure
  let classifications ← a.newClassifications typeName [] cs
  return [← a.putEntity
    ⟨guid, { a.newHeader d.typeRef with status }, ps, classifications⟩]

/-- Store a proxy where nothing is stored. -/
def createStub (p : Proxy) : Except Failure (List Write) := do
  let _ ← Rule.typeOf a.types p.header.typeRef.name .entity
  if (a.document? p.reference).isSome then return []
  else return [← a.putProxy p]

def changeEntity (guid : String) (change : Change) : Except Failure (List Write) := do
  let r := RecordRef.entity guid
  let e ← a.entity r
  let (header, properties) ← change.apply a r e.header e.properties
  return [← a.putEntity { e with header, properties }]

/-- Evict an entity and all its relationships. The proxies at their other ends stay. -/
def purgeEntity (guid : String) (force : Bool) : Except Failure (List Write) := do
  let r := RecordRef.entity guid
  let e ← a.entity r
  Rule.owned e.header a.collection.id r
  if !force then Rule.deleted e.header r
  return (← a.touching r).map .evict ++ [.evict r.docId]

def classify (guid name : String) (ps : Properties) (mode : ClassifyMode) :
    Except Failure (List Write) := do
  let r := RecordRef.entity guid
  let e ← a.entity r
  Rule.live e.header r
  let entityType := e.header.typeRef.name
  let classifications ←
    match e.classification? name, mode with
    | some _, .add => throw (Rejection.alreadyClassified r name).toFailure
    | none, .update => throw (Rejection.notClassified r name).toFailure
    | some c, _ => do
        -- The entity need not be homed here, but what it is classified with has to be.
        Rule.owned c.header a.collection.id r
        Rule.applicable a.types name entityType
        Rule.legal a.types name ps
        pure (e.replaceFirst { c with properties := ps, header := a.touch c.header })
    | none, _ => do
        let c ← a.newClassification entityType name ps
        pure (e.classifications ++ [c])
  return [← a.putEntity { e with classifications, header := a.touch e.header }]

def declassify (guid name : String) : Except Failure (List Write) := do
  let r := RecordRef.entity guid
  let e ← a.entity r
  Rule.live e.header r
  match e.classification? name with
  | none => throw (Rejection.notClassified r name).toFailure
  | some c =>
      Rule.owned c.header a.collection.id r
      return [← a.putEntity
        { e with classifications := e.removeFirst name, header := a.touch e.header }]

/-- Create a relationship, with proxies for ends that are not stored. -/
def createRelationship (guid typeName : String) (ps : Properties) (status : Option Status)
    (endOne endTwo : Proxy) : Except Failure (List Write) := do
  let d ← Rule.typeOf a.types typeName .relationship
  Rule.legal a.types typeName ps
  let status ← Rule.firstStatus status
  let r := RecordRef.relationship guid
  if (a.document? r).isSome then throw (Rejection.alreadyExists r).toFailure
  let proxies ← a.endProxies endOne endTwo true
  let new ← a.putRelationship
    ⟨guid, { a.newHeader d.typeRef with status }, ps, endOne, endTwo⟩
  return proxies ++ [new]

def changeRelationship (guid : String) (change : Change) : Except Failure (List Write) := do
  let r := RecordRef.relationship guid
  let rel ← a.relationship r
  let (header, properties) ← change.apply a r rel.header rel.properties
  return [← a.putRelationship { rel with header, properties }]

def purgeRelationship (guid : String) (force : Bool) : Except Failure (List Write) := do
  let r := RecordRef.relationship guid
  let rel ← a.relationship r
  Rule.owned rel.header a.collection.id r
  if !force then Rule.deleted rel.header r
  return [.evict r.docId]

end MetadataArchive.Acting
