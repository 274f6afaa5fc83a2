import MetadataArchive.Schema.TypeSystem

/-!
# Names of attributes

A property is stored under a name that is put together from the space it belongs to, the type that
declares it and its own name. The space separates the properties of an entity from those of each of
its classifications; the declaring type lets a query reach a property wherever it is inherited.
-/

set_option autoImplicit false

namespace MetadataArchive

/-- What is left of a text behind a beginning, where it has that beginning. -/
def stripBeginning? (stem s : String) : Option String :=
  (stem.toList.isPrefixOf? s.toList).map String.ofList

inductive PropertySpace where
  | entity
  | relationship
  /-- The properties of the classification of that name. -/
  | classification (name : String)
  deriving DecidableEq, Repr

namespace PropertySpace

def name : PropertySpace → String
  | .entity => "entityProperties"
  | .relationship => "relationshipProperties"
  | .classification n => "classifications." ++ n ++ ".classificationProperties"

def queryableStem (s : PropertySpace) : String := s.name ++ "/"

def serializedStem (s : PropertySpace) : String := s.name ++ ".value/"

end PropertySpace

/-- What the name of a property's attributes is put together from. -/
structure AttributeKey where
  space : PropertySpace
  property : String
  /-- The type that the name is qualified by. -/
  qualifier : Option String
  deriving DecidableEq, Repr

namespace AttributeKey

def localName (k : AttributeKey) : String :=
  match k.qualifier with
  | some q => q ++ "." ++ k.property
  | none => k.property

/-- The attribute with the flattened value. -/
def queryable (k : AttributeKey) : String := k.space.queryableStem ++ k.localName

/-- The attribute with the stored text. -/
def serialized (k : AttributeKey) : String := k.space.serializedStem ++ k.localName

/-- The key under which a property of a record of a type is stored: qualified by the nearest type
that declares it, and by the record's own type where none does. -/
def forStorage (ts : TypeSystem) (space : PropertySpace) (typeName property : String) :
    AttributeKey :=
  ⟨space, property, some (((ts.declaringType? typeName property).map TypeDef.name).getD typeName)⟩

/-- Add a key at the end unless it is there. -/
def addNew (keys : List AttributeKey) (k : AttributeKey) : List AttributeKey :=
  if keys.contains k then keys else keys ++ [k]

/-- The keys under which records of candidate types may store a property, each once, in the order of
the types. There is none where no candidate has the property. -/
def resolve (ts : TypeSystem) (space : PropertySpace) (property : String)
    (candidates : List String) : List AttributeKey :=
  candidates.foldl
    (fun keys candidate =>
      match ts.declaringType? candidate property with
      | some d => addNew keys ⟨space, property, some d.name⟩
      | none => keys)
    []

/-- What follows the first full stop of a text, or all of it where there is none. -/
def afterDot (s : String) : String :=
  match s.toList.dropWhile (· != '.') with
  | _ :: rest => String.ofList rest
  | [] => s

/-- The property whose stored text an attribute of a space holds. -/
def propertyOf? (space : PropertySpace) (attr : String) : Option String :=
  (stripBeginning? space.serializedStem attr).map afterDot

end AttributeKey

/-! ## Header attributes -/

namespace Attr

def typeId : String := "type.id"

def typeName : String := "type.name"

def typeSupers : String := "type.supers"

def typeCategory : String := "type.category"

def version : String := "version"

def status : String := "status"

def statusOnDelete : String := "statusOnDelete"

def createdBy : String := "createdBy"

def updatedBy : String := "updatedBy"

def maintainedBy : String := "maintainedBy"

def createTime : String := "createTime"

def updateTime : String := "updateTime"

def provenance : String := "provenanceType"

def collectionId : String := "metadataCollectionId"

def collectionName : String := "metadataCollectionName"

def replicatedBy : String := "replicatedBy"

def license : String := "instanceLicense"

def isProxy : String := "isProxy"

def side : End → String := End.name

def classifications : String := "classifications"

def latestClassificationChange : String := "latestClassificationChange"

def origin : String := "origin"

def originGuid : String := "originGuid"

def classificationStem (name : String) : String := "classifications." ++ name ++ "/"

def ofClassification (name field : String) : String := classificationStem name ++ field

end Attr

end MetadataArchive
