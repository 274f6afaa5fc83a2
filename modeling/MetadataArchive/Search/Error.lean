import MetadataArchive.Failure

/-!
# What makes a search impossible
-/

set_option autoImplicit false

namespace MetadataArchive

inductive SearchError where
  | unknownType (name : String)
  /-- A type is not of the category that is searched. -/
  | wrongCategory (name expected : String)
  /-- A text is no pattern; the reason may be given. -/
  | invalidPattern (pattern : String) (reason : Option String)
  /-- There is no entity to start from. -/
  | unknownRoot (id : String)
  | store (e : StoreError)
  | record (e : RecordError)
  deriving DecidableEq, Repr

def SearchError.kindName : SearchError → String
  | .unknownType _ => "UnknownType"
  | .wrongCategory _ _ => "WrongCategory"
  | .invalidPattern _ _ => "InvalidPattern"
  | .unknownRoot _ => "UnknownRoot"
  | .store e => e.kindName
  | .record e => e.kindName

def SearchError.message : SearchError → String
  | .unknownType name => "unknown type: " ++ name
  | .wrongCategory name expected => "type " ++ name ++ " is not of category " ++ expected
  | .invalidPattern pattern none => "invalid search pattern " ++ quoted pattern
  | .invalidPattern pattern (some reason) =>
      "invalid search pattern " ++ quoted pattern ++ ": " ++ reason
  | .unknownRoot id => "entity not known: " ++ id
  | .store e => e.message
  | .record e => e.message

def Failure.ofSearch (e : SearchError) : Failure :=
  match e with
  | .store e => .ofStore e
  | .record e => .ofRecord e
  | .unknownType _ | .wrongCategory _ _ => ⟨.invalidType, e.message⟩
  | .invalidPattern _ _ => ⟨.invalidSearchPattern, e.message⟩
  | .unknownRoot _ => ⟨.notKnown, e.message⟩

instance : MonadLift (Except SearchError) (Except Failure) := ⟨Except.mapError Failure.ofSearch⟩

end MetadataArchive
