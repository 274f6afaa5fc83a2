import MetadataArchive.Fact.Value
import MetadataArchive.Json.Decode
import MetadataArchive.Record.Error

/-!
# `RecordRef` -- references to entities and relationships

An entity is stored under `e:` and its guid, a relationship under `r:` and its guid. The same text
is the value by which other records point at it.
-/

set_option autoImplicit false

namespace MetadataArchive

inductive RecordKind where
  | entity
  | relationship
  deriving DecidableEq, Repr

namespace RecordKind

/-- The letter that keys of the kind begin with. -/
def tag : RecordKind → String
  | .entity => "e"
  | .relationship => "r"

def name : RecordKind → String
  | .entity => "entity"
  | .relationship => "relationship"

def all : List RecordKind := [.entity, .relationship]

end RecordKind

structure RecordRef where
  kind : RecordKind
  guid : String
  deriving DecidableEq, Repr

namespace RecordRef

def entity (guid : String) : RecordRef := ⟨.entity, guid⟩

def relationship (guid : String) : RecordRef := ⟨.relationship, guid⟩

def docId (r : RecordRef) : DocId := r.kind.tag ++ ":" ++ r.guid

/-- The record that is stored under a key. The guid is what follows the first colon, and there has
to be one. -/
def ofDocId (id : DocId) : Except RecordError RecordRef :=
  match id.toList with
  | 'e' :: ':' :: c :: rest => .ok (entity (String.ofList (c :: rest)))
  | 'r' :: ':' :: c :: rest => .ok (relationship (String.ofList (c :: rest)))
  | _ => .error (.invalidReference id)

def toJson (r : RecordRef) : Json := .obj [("kind", .str r.kind.name), ("guid", .str r.guid)]

def ofJson? (j : Json) : Option RecordRef := do
  let ms ← j.toMembers?
  some ⟨← Json.required ms "kind" (Json.toNamed? RecordKind.all RecordKind.name),
    ← Json.required ms "guid" Json.toString?⟩

end RecordRef

end MetadataArchive
