import MetadataArchive.Json.Decode
import MetadataArchive.Record.Error
import MetadataArchive.Store.Error

/-!
# `Failure` -- what every public operation reports

A failure has a kind, which programs branch on, and a message for people. Kinds fall into five
families. Whatever goes wrong below, in the store or in a record, is reported as a failure of the
kind that fits it, with its own words as the message.
-/

set_option autoImplicit false

namespace MetadataArchive

inductive FailureFamily where
  | notFound
  | state
  | validation
  | conflict
  | infrastructure
  deriving DecidableEq, Repr

namespace FailureFamily

def name : FailureFamily → String
  | .notFound => "NotFound"
  | .state => "State"
  | .validation => "Validation"
  | .conflict => "Conflict"
  | .infrastructure => "Infrastructure"

def words : FailureFamily → String
  | .notFound => "not found"
  | .state => "invalid state"
  | .validation => "validation failed"
  | .conflict => "conflict"
  | .infrastructure => "infrastructure failure"

end FailureFamily

inductive FailureKind where
  | notKnown
  | proxyOnly
  | alreadyDeleted
  | notDeleted
  | classificationAlreadyPresent
  | classificationNotPresent
  | nullRequiredProperty
  | invalidClassificationForEntity
  | invalidPropertyForType
  | invalidType
  | invalidParameter
  | statusNotSupported
  | invalidSearchPattern
  | notLocal
  | duplicateReference
  | queryTimeout
  | commitTimeout
  | snapshotRelease
  | functionFault
  | inconsistentRelationship
  | storeFailure
  deriving DecidableEq, Repr

namespace FailureKind

def all : List FailureKind :=
  [.notKnown, .proxyOnly, .alreadyDeleted, .notDeleted, .classificationAlreadyPresent,
    .classificationNotPresent, .nullRequiredProperty, .invalidClassificationForEntity,
    .invalidPropertyForType, .invalidType, .invalidParameter, .statusNotSupported,
    .invalidSearchPattern, .notLocal, .duplicateReference, .queryTimeout, .commitTimeout,
    .snapshotRelease, .functionFault, .inconsistentRelationship, .storeFailure]

def name : FailureKind → String
  | .notKnown => "NOT_KNOWN"
  | .proxyOnly => "PROXY_ONLY"
  | .alreadyDeleted => "ALREADY_DELETED"
  | .notDeleted => "NOT_DELETED"
  | .classificationAlreadyPresent => "CLASSIFICATION_ALREADY_PRESENT"
  | .classificationNotPresent => "CLASSIFICATION_NOT_PRESENT"
  | .nullRequiredProperty => "NULL_REQUIRED_PROPERTY"
  | .invalidClassificationForEntity => "INVALID_CLASSIFICATION_FOR_ENTITY"
  | .invalidPropertyForType => "INVALID_PROPERTY_FOR_TYPE"
  | .invalidType => "INVALID_TYPE"
  | .invalidParameter => "INVALID_PARAMETER"
  | .statusNotSupported => "STATUS_NOT_SUPPORTED"
  | .invalidSearchPattern => "INVALID_SEARCH_PATTERN"
  | .notLocal => "NOT_LOCAL"
  | .duplicateReference => "DUPLICATE_REFERENCE"
  | .queryTimeout => "QUERY_TIMEOUT"
  | .commitTimeout => "COMMIT_TIMEOUT"
  | .snapshotRelease => "SNAPSHOT_RELEASE"
  | .functionFault => "FUNCTION_FAULT"
  | .inconsistentRelationship => "INCONSISTENT_RELATIONSHIP"
  | .storeFailure => "STORE_FAILURE"

def family : FailureKind → FailureFamily
  | .notKnown => .notFound
  | .proxyOnly | .alreadyDeleted | .notDeleted | .classificationAlreadyPresent
  | .classificationNotPresent => .state
  | .nullRequiredProperty | .invalidClassificationForEntity | .invalidPropertyForType
  | .invalidType | .invalidParameter | .statusNotSupported | .invalidSearchPattern => .validation
  | .notLocal | .duplicateReference => .conflict
  | .queryTimeout | .commitTimeout | .snapshotRelease | .functionFault
  | .inconsistentRelationship | .storeFailure => .infrastructure

end FailureKind

structure Failure where
  kind : FailureKind
  message : String
  deriving DecidableEq, Repr

namespace Failure

def family (f : Failure) : FailureFamily := f.kind.family

def display (f : Failure) : String :=
  f.family.words ++ " [" ++ f.kind.name ++ "]: " ++ f.message

def ofStore (e : StoreError) : Failure :=
  let kind : FailureKind :=
    match e with
    | .timeout _ _ => .queryTimeout
    | .commitTimeout _ => .commitTimeout
    | .snapshotClosed _ => .snapshotRelease
    | .invalidQuery _ => .invalidSearchPattern
    | .unknownTransaction _ | .duplicateFunction _ | .unavailable _ => .storeFailure
  ⟨kind, e.message⟩

def ofRecord (e : RecordError) : Failure :=
  let kind : FailureKind :=
    match e with
    | .invalidReference _ => .invalidParameter
    | .unknownType _ => .invalidType
    | .inconsistentRelationship _ _ => .inconsistentRelationship
    | .invalidTypeSystem _ | .mapping _ _ | .serialization => .storeFailure
  ⟨kind, e.message⟩

instance : MonadLift (Except StoreError) (Except Failure) := ⟨Except.mapError ofStore⟩

instance : MonadLift (Except RecordError) (Except Failure) := ⟨Except.mapError ofRecord⟩

/-- The JSON form: the kind and the message under the name of the family. -/
def toJson (f : Failure) : Json :=
  .obj [(f.family.name, .obj [("kind", .str f.kind.name), ("message", .str f.message)])]

def ofJson? : Json → Option Failure
  | .obj [(family, .obj ms)] => do
      let kind ← Json.required ms "kind" (Json.toNamed? FailureKind.all FailureKind.name)
      let message ← Json.required ms "message" Json.toString?
      if kind.family.name = family then some ⟨kind, message⟩ else none
  | _ => none

end Failure

end MetadataArchive
