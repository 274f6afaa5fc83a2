import MetadataArchive.Text.Quoted

/-!
# What is wrong with types and records
-/

set_option autoImplicit false

namespace MetadataArchive

inductive SchemaFault where
  | duplicateGuid (guid : String)
  | duplicateName (name : String)
  | unknownSupertype (name parent : String)
  | otherCategory (name parent : String)
  | cycle (name : String)
  | other (reason : String)
  deriving DecidableEq, Repr

def SchemaFault.message : SchemaFault → String
  | .duplicateGuid guid => "duplicate type guid " ++ guid
  | .duplicateName name => "duplicate type name " ++ name
  | .unknownSupertype name parent => name ++ " has unknown supertype " ++ parent
  | .otherCategory name parent => name ++ " and its supertype " ++ parent ++ " differ in category"
  | .cycle name => "inheritance cycle through " ++ name
  | .other reason => reason

/-- Why a document, or a text in it, denotes no part of a record. -/
inductive MappingFault where
  /-- An attribute is missing or of another kind. -/
  | missing (attr : String)
  | notEntity
  | notRelationship
  /-- The stored form of a property is the value that is shown, and no text. -/
  | notText (shown : String)
  | unknownStatus (text : String)
  | unknownProvenance (text : String)
  | unknownOrigin (text : String)
  | other (reason : String)
  deriving DecidableEq, Repr

def MappingFault.message : MappingFault → String
  | .missing attr => "missing " ++ attr
  | .notEntity => "not an entity document"
  | .notRelationship => "not a relationship document"
  | .notText shown => "serialized form is not a string: " ++ shown
  | .unknownStatus text => "unknown instance status " ++ quoted text
  | .unknownProvenance text => "unknown provenance type " ++ quoted text
  | .unknownOrigin text => "unknown origin " ++ quoted text
  | .other reason => reason

inductive End where
  | one
  | two
  deriving DecidableEq, Repr

def End.name : End → String
  | .one => "end1"
  | .two => "end2"

inductive RecordError where
  | invalidReference (id : String)
  | unknownType (name : String)
  | invalidTypeSystem (fault : SchemaFault)
  /-- A document, or a part named in its place, cannot be mapped. -/
  | mapping (doc : String) (fault : MappingFault)
  /-- An end of a relationship leads nowhere. -/
  | inconsistentRelationship (guid : String) (side : End)
  /-- A text is not the JSON that it should be. -/
  | serialization
  deriving DecidableEq, Repr

def RecordError.kindName : RecordError → String
  | .invalidReference _ => "InvalidReference"
  | .unknownType _ => "UnknownType"
  | .invalidTypeSystem _ => "InvalidTypeSystem"
  | .mapping _ _ => "Mapping"
  | .inconsistentRelationship _ _ => "InconsistentRelationship"
  | .serialization => "Serialization"

def RecordError.message : RecordError → String
  | .invalidReference id => "invalid record reference: " ++ id
  | .unknownType name => "unknown type: " ++ name
  | .invalidTypeSystem fault => "invalid type system: " ++ fault.message
  | .mapping doc fault => "document " ++ doc ++ " cannot be mapped: " ++ fault.message
  | .inconsistentRelationship guid side =>
      "relationship " ++ guid ++ " has an unresolvable " ++ side.name
  | .serialization => "serialization error"

end MetadataArchive
