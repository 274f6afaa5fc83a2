import MetadataArchive.Lifecycle.Acting

/-!
# Copies of records that are homed elsewhere

A copy keeps the header that it comes with. One that is no newer than what is stored is ignored, and
a copy never takes the place of a record that is homed in the acting collection.
-/

set_option autoImplicit false

namespace MetadataArchive.Acting

variable (a : Acting)

/-- A record, or its copy, must be homed elsewhere. -/
def homedElsewhere (h : Header) (r : RecordRef) : Except Failure Unit :=
  Rule.homedElsewhere h a.collection.id r

/-- Store a copy of an entity. -/
def storeEntityCopy (e : Entity) : Except Failure (List Write) := do
  let r := e.reference
  let _ ← Rule.typeOf a.types e.header.typeRef.name .entity
  a.homedElsewhere e.header r
  match ← a.stored? r with
  | none => return [← a.putEntity e]
  | some (.proxy p) => do
      -- A proxy gives way to a copy whatever its version.
      a.homedElsewhere p.header r
      return [← a.putEntity e]
  | some (.full current) => do
      a.homedElsewhere current.header r
      if e.header.version ≤ current.header.version then return []
      else return [← a.putEntity e]

/-- Remove a copy of an entity that comes from a collection. -/
def purgeEntityCopy (guid home : String) : Except Failure (List Write) := do
  let r := RecordRef.entity guid
  match ← a.stored? r with
  | none => return []
  | some existing => do
      a.homedElsewhere existing.header r
      if existing.header.collectionId ≠ home then return []
      else if (← a.touching r).isEmpty then return [.evict r.docId]
      else
        -- Relationships keep their ends, so a proxy stays.
        match existing with
        | .full e => return [← a.putProxy (e.toProxy a.types)]
        | .proxy _ => return []

/-- Store a copy of a relationship, with proxies for ends that are not stored. -/
def storeRelationshipCopy (rel : Relationship) : Except Failure (List Write) := do
  let r := rel.reference
  let _ ← Rule.typeOf a.types rel.header.typeRef.name .relationship
  a.homedElsewhere rel.header r
  let stale ←
    match ← a.relationship? r with
    | none => pure false
    | some current => do
        a.homedElsewhere current.header r
        pure (rel.header.version ≤ current.header.version : Bool)
  if stale then return []
  else
    let proxies ← a.endProxies rel.endOne rel.endTwo false
    return proxies ++ [← a.putRelationship rel]

/-- Store a relationship of the acting collection in the place of what is stored, with proxies for
ends that are not. -/
def storeHomeRelationship (rel : Relationship) : Except Failure (List Write) := do
  let r := rel.reference
  let _ ← Rule.typeOf a.types rel.header.typeRef.name .relationship
  Rule.owned rel.header a.collection.id r
  let _ ← Rule.typeOf a.types rel.endOne.header.typeRef.name .entity
  let _ ← Rule.typeOf a.types rel.endTwo.header.typeRef.name .entity
  let proxies ← a.endProxies rel.endOne rel.endTwo false
  return proxies ++ [← a.putRelationship rel]

def purgeRelationshipCopy (guid home : String) : Except Failure (List Write) := do
  let r := RecordRef.relationship guid
  match ← a.relationship? r with
  | none => return []
  | some current => do
      a.homedElsewhere current.header r
      if current.header.collectionId ≠ home then return [] else return [.evict r.docId]

/-- Store a copy of a classification of an entity, whose own header does not change. -/
def storeClassificationCopy (guid : String) (c : Classification) : Except Failure (List Write) := do
  let r := RecordRef.entity guid
  let e ← a.entity r
  a.homedElsewhere c.header r
  Rule.applicable a.types c.name e.header.typeRef.name
  match e.classification? c.name with
  | none => return [← a.putEntity { e with classifications := e.classifications ++ [c] }]
  | some current => do
      a.homedElsewhere current.header r
      if c.header.version ≤ current.header.version then return []
      else return [← a.putEntity { e with classifications := e.replaceFirst c }]

def purgeClassificationCopy (guid name home : String) : Except Failure (List Write) := do
  let r := RecordRef.entity guid
  match ← a.stored? r with
  | none | some (.proxy _) => return []
  | some (.full e) =>
      match e.classification? name with
      | none => throw (Rejection.notClassified r name).toFailure
      | some current => do
          a.homedElsewhere current.header r
          if current.header.collectionId ≠ home then return []
          else return [← a.putEntity { e with classifications := e.removeFirst name }]

end MetadataArchive.Acting
