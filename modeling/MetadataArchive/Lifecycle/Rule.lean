import MetadataArchive.Failure
import MetadataArchive.Record.Basic

/-!
# The rules of changes

A change is rejected where the record is not there or only as a proxy, where its status does not
allow it, where the acting collection does not own it, or where types and properties do not fit. The
rules are plain checks; each names the rejection that it ends in.
-/

set_option autoImplicit false

namespace MetadataArchive

/-- Why a request is rejected. -/
inductive Rejection where
  | unknown (r : RecordRef)
  | onlyProxy (r : RecordRef)
  | alreadyDeleted (r : RecordRef)
  | notDeleted (r : RecordRef)
  /-- The record is homed elsewhere. -/
  | foreign (r : RecordRef) (home collection : String)
  /-- What claims to be a copy is homed here. -/
  | homedHere (r : RecordRef) (collection : String)
  | alreadyExists (r : RecordRef)
  | statusMissing
  | statusReserved
  | unknownType (name : String)
  | otherCategory (name : String) (category : TypeCategory)
  | illegalProperty (property typeName : String)
  | notApplicable (classification entityType : String)
  | listedTwice (classification : String)
  | alreadyClassified (r : RecordRef) (classification : String)
  | notClassified (r : RecordRef) (classification : String)
  deriving DecidableEq, Repr

namespace Rejection

def kind : Rejection → FailureKind
  | .unknown _ => .notKnown
  | .onlyProxy _ => .proxyOnly
  | .alreadyDeleted _ => .alreadyDeleted
  | .notDeleted _ => .notDeleted
  | .foreign _ _ _ => .notLocal
  | .homedHere _ _ | .alreadyExists _ => .duplicateReference
  | .statusMissing => .nullRequiredProperty
  | .statusReserved => .statusNotSupported
  | .unknownType _ | .otherCategory _ _ => .invalidType
  | .illegalProperty _ _ => .invalidPropertyForType
  | .notApplicable _ _ => .invalidClassificationForEntity
  | .listedTwice _ | .alreadyClassified _ _ => .classificationAlreadyPresent
  | .notClassified _ _ => .classificationNotPresent

def message : Rejection → String
  | .unknown r => r.docId ++ " is not known"
  | .onlyProxy r => r.docId ++ " is only held as a proxy"
  | .alreadyDeleted r => r.docId ++ " is already deleted"
  | .notDeleted r => r.docId ++ " is not deleted"
  | .foreign r home collection =>
      r.docId ++ " is homed in " ++ home ++ " and cannot be changed by " ++ collection
  | .homedHere r collection => r.docId ++ " is homed in the local collection " ++ collection
  | .alreadyExists r => r.docId ++ " already exists"
  | .statusMissing => "new status is required"
  | .statusReserved => "DELETED can only be reached by deleting"
  | .unknownType name => "unknown type " ++ name
  | .otherCategory name category => name ++ " is not a " ++ category.name ++ " type"
  | .illegalProperty property typeName => property ++ " is not a property of " ++ typeName
  | .notApplicable classification entityType =>
      classification ++ " cannot classify an entity of type " ++ entityType
  | .listedTwice classification => classification ++ " listed twice"
  | .alreadyClassified r classification => r.docId ++ " is already classified as " ++ classification
  | .notClassified r classification => r.docId ++ " is not classified as " ++ classification

def toFailure (r : Rejection) : Failure := ⟨r.kind, r.message⟩

end Rejection

instance : MonadLift (Except Rejection) (Except Failure) := ⟨Except.mapError Rejection.toFailure⟩

/-- Whether a collection may change a record: its home, or, for one that comes from an external
system, the collection that replicates it. -/
def Header.isLocalTo (h : Header) (collection : String) : Bool :=
  match h.provenance with
  | .localCohort => h.collectionId == collection
  | .externalSource => h.replicatedBy == some collection

namespace Rule

def known {α : Type} (r : RecordRef) : Option α → Except Rejection α
  | some a => .ok a
  | none => .error (.unknown r)

def full : StoredEntity → Except Rejection Entity
  | .full e => .ok e
  | .proxy p => .error (.onlyProxy p.reference)

def live (h : Header) (r : RecordRef) : Except Rejection Unit :=
  if h.isDeleted then .error (.alreadyDeleted r) else .ok ()

def deleted (h : Header) (r : RecordRef) : Except Rejection Unit :=
  if h.isDeleted then .ok () else .error (.notDeleted r)

def owned (h : Header) (collection : String) (r : RecordRef) : Except Rejection Unit :=
  if h.isLocalTo collection then .ok () else .error (.foreign r h.collectionId collection)

def homedElsewhere (h : Header) (collection : String) (r : RecordRef) : Except Rejection Unit :=
  if h.collectionId = collection then .error (.homedHere r collection) else .ok ()

/-- A status that is set has to be given, and deletion is not set this way. -/
def givenStatus : Option Status → Except Rejection Status
  | none => .error .statusMissing
  | some .deleted => .error .statusReserved
  | some s => .ok s

/-- The first status of a record; active unless another is given. -/
def firstStatus : Option Status → Except Rejection Status
  | none => .ok .active
  | some s => givenStatus (some s)

def typeOf (ts : TypeSystem) (name : String) (category : TypeCategory) :
    Except Rejection TypeDef :=
  match ts.get? name with
  | none => .error (.unknownType name)
  | some d => if d.category = category then .ok d else .error (.otherCategory name category)

def legal (ts : TypeSystem) (typeName : String) (ps : Properties) : Except Rejection Unit :=
  match ps.names.find? fun name => !ts.isLegalProperty typeName name with
  | some name => .error (.illegalProperty name typeName)
  | none => .ok ()

def applicable (ts : TypeSystem) (classification entityType : String) : Except Rejection Unit :=
  if ts.isValidFor classification entityType then .ok ()
  else .error (.notApplicable classification entityType)

end Rule

end MetadataArchive
