import MetadataArchive.Record.Basic

/-!
# Requests

A request asks for one change of one record: to create it, to change its properties or its status,
to remove it, to classify it, or to take over a copy of a record that is homed elsewhere. Every
request is carried out by one function of the store, known by its name.
-/

set_option autoImplicit false

namespace MetadataArchive

/-- The collection that a change is made for. -/
structure Collection where
  id : String
  name : Option String
  deriving DecidableEq, Repr

/-- A classification that a new entity is to have. -/
structure NewClassification where
  name : String
  properties : Properties

/-- What classifying does where the entity has a classification of the name, or has none. -/
inductive ClassifyMode where
  /-- There has to be none. -/
  | add
  /-- There has to be one. -/
  | update
  | upsert
  deriving DecidableEq, Repr

namespace ClassifyMode

def name : ClassifyMode → String
  | .add => "add"
  | .update => "update"
  | .upsert => "upsert"

def all : List ClassifyMode := [.add, .update, .upsert]

end ClassifyMode

inductive Change where
  /-- Have these properties and no others. -/
  | properties (ps : Properties)
  /-- Have this status, which has to be given. -/
  | status (s : Option Status)
  /-- Be deleted, and remember the status. -/
  | delete
  /-- Be no longer deleted. -/
  | restore

inductive Request where
  | createEntity (guid typeName : String) (properties : Properties)
      (classifications : List NewClassification) (status : Option Status)
  /-- Store a proxy where nothing is stored. -/
  | createStub (proxy : Proxy)
  | changeEntity (guid : String) (change : Change)
  /-- Remove an entity for good, with its relationships; unless by force, only a deleted one. -/
  | purgeEntity (guid : String) (force : Bool)
  | classify (guid name : String) (properties : Properties) (mode : ClassifyMode)
  | declassify (guid name : String)
  | createRelationship (guid typeName : String) (properties : Properties)
      (status : Option Status) (endOne endTwo : Proxy)
  | changeRelationship (guid : String) (change : Change)
  | purgeRelationship (guid : String) (force : Bool)
  | storeEntityCopy (entity : Entity)
  /-- Remove a copy that comes from a collection. -/
  | purgeEntityCopy (guid home : String)
  | storeRelationshipCopy (relationship : Relationship)
  /-- Store a relationship that is homed here, as a copy brought it back. -/
  | storeHomeRelationship (relationship : Relationship)
  | purgeRelationshipCopy (guid home : String)
  | storeClassificationCopy (guid : String) (classification : Classification)
  | purgeClassificationCopy (guid name home : String)

namespace Change

/-- The function that makes a change, but for the kind of record it is made to. -/
def function (kind : RecordKind) : Change → String
  | .properties _ => "update-" ++ kind.name ++ "-properties"
  | .status _ => "update-" ++ kind.name ++ "-status"
  | .delete => "delete-" ++ kind.name
  | .restore => "restore-" ++ kind.name

end Change

namespace Request

def function : Request → String
  | .createEntity .. => "create-entity"
  | .createStub _ => "create-entity-stub"
  | .changeEntity _ change => change.function .entity
  | .purgeEntity .. => "purge-entity"
  | .classify .. => "classify-entity"
  | .declassify .. => "declassify-entity"
  | .createRelationship .. => "create-relationship"
  | .changeRelationship _ change => change.function .relationship
  | .purgeRelationship .. => "purge-relationship"
  | .storeEntityCopy _ => "store-entity-reference-copy"
  | .purgeEntityCopy .. => "purge-entity-reference-copy"
  | .storeRelationshipCopy _ => "store-relationship-reference-copy"
  | .storeHomeRelationship _ => "store-home-relationship"
  | .purgeRelationshipCopy .. => "purge-relationship-reference-copy"
  | .storeClassificationCopy .. => "store-classification-reference-copy"
  | .purgeClassificationCopy .. => "purge-classification-reference-copy"

/-- The functions of all requests, in the order in which a store learns them. -/
def functions : List String :=
  ["create-entity", "create-entity-stub", "update-entity-properties", "update-entity-status",
    "delete-entity", "restore-entity", "purge-entity", "classify-entity", "declassify-entity",
    "create-relationship", "update-relationship-properties", "update-relationship-status",
    "delete-relationship", "restore-relationship", "purge-relationship",
    "store-entity-reference-copy", "purge-entity-reference-copy",
    "store-relationship-reference-copy", "store-home-relationship",
    "purge-relationship-reference-copy", "store-classification-reference-copy",
    "purge-classification-reference-copy"]

/-- The record that a request creates or changes. -/
def target : Request → RecordRef
  | .createEntity guid _ _ _ _ => .entity guid
  | .createStub proxy => proxy.reference
  | .changeEntity guid _ => .entity guid
  | .purgeEntity guid _ => .entity guid
  | .classify guid _ _ _ => .entity guid
  | .declassify guid _ => .entity guid
  | .createRelationship guid _ _ _ _ _ => .relationship guid
  | .changeRelationship guid _ => .relationship guid
  | .purgeRelationship guid _ => .relationship guid
  | .storeEntityCopy entity => entity.reference
  | .purgeEntityCopy guid _ => .entity guid
  | .storeRelationshipCopy relationship => relationship.reference
  | .storeHomeRelationship relationship => relationship.reference
  | .purgeRelationshipCopy guid _ => .relationship guid
  | .storeClassificationCopy guid _ => .entity guid
  | .purgeClassificationCopy guid _ _ => .entity guid

end Request

/-- A request, with who asks for it and for which collection. -/
structure Invocation where
  user : String
  collection : Collection
  request : Request

end MetadataArchive
