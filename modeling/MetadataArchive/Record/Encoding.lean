import MetadataArchive.Record.Attribute
import MetadataArchive.Record.Basic

/-!
# Records as JSON
-/

set_option autoImplicit false

namespace MetadataArchive

namespace Status

def toJson (s : Status) : Json := .str s.name

def ofJson? : Json → Option Status := Json.toNamed? all name

end Status

namespace Header

def toJson (h : Header) : Json :=
  .obj
    [("type_ref", h.typeRef.toJson),
     ("version", .int h.version.toNat),
     ("status", h.status.toJson),
     ("status_on_delete", .ofOption Status.toJson h.statusOnDelete),
     ("created_by", .ofString? h.createdBy),
     ("updated_by", .ofString? h.updatedBy),
     ("maintained_by", .ofStrings h.maintainedBy),
     ("create_time", .ofInstant h.createTime),
     ("update_time", .ofOption Json.ofInstant h.updateTime),
     ("provenance", .str h.provenance.name),
     ("metadata_collection_id", .str h.collectionId),
     ("metadata_collection_name", .ofString? h.collectionName),
     ("replicated_by", .ofString? h.replicatedBy),
     ("instance_license", .ofString? h.license)]

def ofJson? (j : Json) : Option Header := do
  let ms ← j.toMembers?
  let typeRef ← Json.required ms "type_ref" TypeRef.ofJson?
  let version ← Json.required ms "version" Json.toUInt64?
  let status ← Json.required ms "status" Status.ofJson?
  let statusOnDelete ← Json.optional ms "status_on_delete" Status.ofJson?
  let createdBy ← Json.optional ms "created_by" Json.toString?
  let updatedBy ← Json.optional ms "updated_by" Json.toString?
  let maintainedBy ← Json.required ms "maintained_by" (Json.toList? Json.toString?)
  let createTime ← Json.required ms "create_time" Json.toInstant?
  let updateTime ← Json.optional ms "update_time" Json.toInstant?
  let provenance ← Json.required ms "provenance" (Json.toNamed? Provenance.all Provenance.name)
  let collectionId ← Json.required ms "metadata_collection_id" Json.toString?
  let collectionName ← Json.optional ms "metadata_collection_name" Json.toString?
  let replicatedBy ← Json.optional ms "replicated_by" Json.toString?
  let license ← Json.optional ms "instance_license" Json.toString?
  some
    { typeRef, version, status, statusOnDelete, createdBy, updatedBy, maintainedBy, createTime,
      updateTime, provenance, collectionId, collectionName, replicatedBy, license }

end Header

namespace Classification

def toJson (c : Classification) : Json :=
  .obj [("name", .str c.name), ("header", c.header.toJson), ("origin", .str c.origin.name),
    ("origin_guid", .ofString? c.originGuid), ("properties", c.properties.toJson)]

def ofJson? (j : Json) : Option Classification := do
  let ms ← j.toMembers?
  some
    { name := ← Json.required ms "name" Json.toString?
      header := ← Json.required ms "header" Header.ofJson?
      origin := ← Json.required ms "origin" (Json.toNamed? Origin.all Origin.name)
      originGuid := ← Json.optional ms "origin_guid" Json.toString?
      properties := ← Json.required ms "properties" Properties.ofJson? }

end Classification

namespace Entity

def toJson (e : Entity) : Json :=
  .obj [("guid", .str e.guid), ("header", e.header.toJson), ("properties", e.properties.toJson),
    ("classifications", .ofList Classification.toJson e.classifications)]

def ofJson? (j : Json) : Option Entity := do
  let ms ← j.toMembers?
  some
    { guid := ← Json.required ms "guid" Json.toString?
      header := ← Json.required ms "header" Header.ofJson?
      properties := ← Json.required ms "properties" Properties.ofJson?
      classifications :=
        ← Json.required ms "classifications" (Json.toList? Classification.ofJson?) }

end Entity

namespace Proxy

def toJson (p : Proxy) : Json :=
  .obj [("guid", .str p.guid), ("header", p.header.toJson),
    ("unique_properties", p.uniqueProperties.toJson)]

def ofJson? (j : Json) : Option Proxy := do
  let ms ← j.toMembers?
  some
    { guid := ← Json.required ms "guid" Json.toString?
      header := ← Json.required ms "header" Header.ofJson?
      uniqueProperties := ← Json.required ms "unique_properties" Properties.ofJson? }

end Proxy

namespace Relationship

def toJson (r : Relationship) : Json :=
  .obj [("guid", .str r.guid), ("header", r.header.toJson), ("properties", r.properties.toJson),
    ("end_one", r.endOne.toJson), ("end_two", r.endTwo.toJson)]

def ofJson? (j : Json) : Option Relationship := do
  let ms ← j.toMembers?
  some
    { guid := ← Json.required ms "guid" Json.toString?
      header := ← Json.required ms "header" Header.ofJson?
      properties := ← Json.required ms "properties" Properties.ofJson?
      endOne := ← Json.required ms "end_one" Proxy.ofJson?
      endTwo := ← Json.required ms "end_two" Proxy.ofJson? }

end Relationship

namespace StoredEntity

def toJson : StoredEntity → Json
  | .full e => .obj [("Full", e.toJson)]
  | .proxy p => .obj [("Proxy", p.toJson)]

def ofJson? : Json → Option StoredEntity
  | .obj [("Full", j)] => (Entity.ofJson? j).map .full
  | .obj [("Proxy", j)] => (Proxy.ofJson? j).map .proxy
  | _ => none

end StoredEntity

def PropertySpace.ofJson? : Json → Option PropertySpace
  | .str "EntityProperties" => some .entity
  | .str "RelationshipProperties" => some .relationship
  | .obj [("ClassificationProperties", j)] => j.toString?.map .classification
  | _ => none

/-- The JSON form of a key: the two attributes, and what the name is qualified by. -/
def AttributeKey.toJson (k : AttributeKey) : Json :=
  .obj [("queryable", .str k.queryable), ("serialized", .str k.serialized),
    ("qualifier", .ofString? k.qualifier)]

end MetadataArchive
