import MetadataArchive.Lifecycle.Request
import MetadataArchive.Record.Encoding

/-!
# Requests as JSON

A request is an object that names its function beside its fields. An invocation travels to the
store in this form and is read back by the function that carries it out.
-/

set_option autoImplicit false

namespace MetadataArchive

namespace Collection

def toJson (c : Collection) : Json := .obj [("id", .str c.id), ("name", .ofString? c.name)]

def ofJson? (j : Json) : Option Collection := do
  let ms ← j.toMembers?
  some
    { id := ← Json.required ms "id" Json.toString?
      name := ← Json.optional ms "name" Json.toString? }

end Collection

namespace NewClassification

def toJson (c : NewClassification) : Json :=
  .obj [("name", .str c.name), ("properties", c.properties.toJson)]

def ofJson? (j : Json) : Option NewClassification := do
  let ms ← j.toMembers?
  some
    { name := ← Json.required ms "name" Json.toString?
      properties := ← Json.defaulted ms "properties" Properties.ofJson? ∅ }

end NewClassification

namespace Request

def changeMembers : Change → List (String × Json)
  | .properties ps => [("properties", ps.toJson)]
  | .status s => [("status", .ofOption Status.toJson s)]
  | .delete | .restore => []

def members : Request → List (String × Json)
  | .createEntity guid typeName properties classifications status =>
      [("guid", .str guid), ("type_name", .str typeName), ("properties", properties.toJson),
        ("classifications", .ofList NewClassification.toJson classifications),
        ("initial_status", .ofOption Status.toJson status)]
  | .createStub proxy => [("proxy", proxy.toJson)]
  | .changeEntity guid change => ("guid", .str guid) :: changeMembers change
  | .purgeEntity guid force => [("guid", .str guid), ("force", .bool force)]
  | .classify guid name properties mode =>
      [("guid", .str guid), ("classification", .str name), ("properties", properties.toJson),
        ("mode", .str mode.name)]
  | .declassify guid name => [("guid", .str guid), ("classification", .str name)]
  | .createRelationship guid typeName properties status endOne endTwo =>
      [("guid", .str guid), ("type_name", .str typeName), ("properties", properties.toJson),
        ("initial_status", .ofOption Status.toJson status), ("end_one", endOne.toJson),
        ("end_two", endTwo.toJson)]
  | .changeRelationship guid change => ("guid", .str guid) :: changeMembers change
  | .purgeRelationship guid force => [("guid", .str guid), ("force", .bool force)]
  | .storeEntityCopy entity => [("entity", entity.toJson)]
  | .purgeEntityCopy guid home => [("guid", .str guid), ("home_collection_id", .str home)]
  | .storeRelationshipCopy relationship => [("relationship", relationship.toJson)]
  | .storeHomeRelationship relationship => [("relationship", relationship.toJson)]
  | .purgeRelationshipCopy guid home => [("guid", .str guid), ("home_collection_id", .str home)]
  | .storeClassificationCopy guid c => [("guid", .str guid), ("classification", c.toJson)]
  | .purgeClassificationCopy guid name home =>
      [("guid", .str guid), ("classification", .str name), ("home_collection_id", .str home)]

def toJson (r : Request) : Json := .obj (("function", .str r.function) :: r.members)

section Fields

variable (ms : List (String × Json))

def guid? : Option String := Json.required ms "guid" Json.toString?

def classification? : Option String := Json.required ms "classification" Json.toString?

def home? : Option String := Json.required ms "home_collection_id" Json.toString?

def properties? : Option Properties := Json.defaulted ms "properties" Properties.ofJson? ∅

def initialStatus? : Option (Option Status) := Json.optional ms "initial_status" Status.ofJson?

def force? : Option Bool := Json.defaulted ms "force" Json.toBool? false

/-- The change whose fields these are, by the function that makes it. -/
def change? (kind : RecordKind) (function : String) : Option Change :=
  if function = "update-" ++ kind.name ++ "-properties" then
    (Json.required ms "properties" Properties.ofJson?).map .properties
  else if function = "update-" ++ kind.name ++ "-status" then
    (Json.optional ms "status" Status.ofJson?).map .status
  else if function = "delete-" ++ kind.name then some .delete
  else if function = "restore-" ++ kind.name then some .restore
  else none

def ofMembers? (function : String) : Option Request :=
  match function with
  | "create-entity" => do
      let guid ← guid? ms
      let typeName ← Json.required ms "type_name" Json.toString?
      let properties ← properties? ms
      let classifications ←
        Json.defaulted ms "classifications" (Json.toList? NewClassification.ofJson?) []
      let status ← initialStatus? ms
      some (.createEntity guid typeName properties classifications status)
  | "create-entity-stub" => (Json.required ms "proxy" Proxy.ofJson?).map .createStub
  | "purge-entity" => do some (.purgeEntity (← guid? ms) (← force? ms))
  | "classify-entity" => do
      let guid ← guid? ms
      let name ← classification? ms
      let properties ← properties? ms
      let mode ←
        Json.defaulted ms "mode" (Json.toNamed? ClassifyMode.all ClassifyMode.name) .add
      some (.classify guid name properties mode)
  | "declassify-entity" => do some (.declassify (← guid? ms) (← classification? ms))
  | "create-relationship" => do
      let guid ← guid? ms
      let typeName ← Json.required ms "type_name" Json.toString?
      let properties ← properties? ms
      let status ← initialStatus? ms
      let endOne ← Json.required ms "end_one" Proxy.ofJson?
      let endTwo ← Json.required ms "end_two" Proxy.ofJson?
      some (.createRelationship guid typeName properties status endOne endTwo)
  | "purge-relationship" => do some (.purgeRelationship (← guid? ms) (← force? ms))
  | "store-entity-reference-copy" =>
      (Json.required ms "entity" Entity.ofJson?).map .storeEntityCopy
  | "purge-entity-reference-copy" => do some (.purgeEntityCopy (← guid? ms) (← home? ms))
  | "store-relationship-reference-copy" =>
      (Json.required ms "relationship" Relationship.ofJson?).map .storeRelationshipCopy
  | "store-home-relationship" =>
      (Json.required ms "relationship" Relationship.ofJson?).map .storeHomeRelationship
  | "purge-relationship-reference-copy" => do
      some (.purgeRelationshipCopy (← guid? ms) (← home? ms))
  | "store-classification-reference-copy" => do
      let guid ← guid? ms
      let c ← Json.required ms "classification" Classification.ofJson?
      some (.storeClassificationCopy guid c)
  | "purge-classification-reference-copy" => do
      some (.purgeClassificationCopy (← guid? ms) (← classification? ms) (← home? ms))
  | function =>
      match change? ms .entity function, change? ms .relationship function with
      | some change, _ => do some (.changeEntity (← guid? ms) change)
      | none, some change => do some (.changeRelationship (← guid? ms) change)
      | none, none => none

end Fields

def ofJson? (j : Json) : Option Request := do
  let ms ← j.toMembers?
  ofMembers? ms (← Json.required ms "function" Json.toString?)

end Request

namespace Invocation

def toJson (i : Invocation) : Json :=
  .obj [("user", .str i.user), ("collection", i.collection.toJson),
    ("request", i.request.toJson)]

def ofJson? (j : Json) : Option Invocation := do
  let ms ← j.toMembers?
  some
    { user := ← Json.required ms "user" Json.toString?
      collection := ← Json.required ms "collection" Collection.ofJson?
      request := ← Json.required ms "request" Request.ofJson? }

end Invocation

end MetadataArchive
