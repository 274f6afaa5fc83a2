import MetadataArchive.Query.Encoding
import MetadataArchive.Record.Encoding
import MetadataArchive.Search.Graph

/-!
# Searches as JSON

Every field of a search may be left out and then has the value of the widest search.
-/

set_option autoImplicit false

namespace MetadataArchive

namespace Comparison

def toJson (c : Comparison) : Json :=
  .obj [("property", .str c.property), ("operator", .str c.operator.name),
    ("value", .ofOption PropertyValue.toJson c.value)]

def ofJson? (j : Json) : Option Comparison := do
  let ms ← j.toMembers?
  some
    { property := ← Json.required ms "property" Json.toString?
      operator := ← Json.required ms "operator" (Json.toNamed? Comparator.all Comparator.name)
      value := ← Json.optional ms "value" PropertyValue.ofJson? }

end Comparison

def Criteria.ofJson? : Json → Option Criteria := Json.toNamed? values name

namespace Condition

mutual

def toJson : Condition → Json
  | .property c => .obj [("property", c.toJson)]
  | .nested criteria conditions =>
      .obj [("nested",
        .obj [("criteria", .str criteria.name), ("conditions", .arr (toJsonAll conditions))])]

def toJsonAll : List Condition → List Json
  | [] => []
  | c :: rest => toJson c :: toJsonAll rest

end

def ofJson? (j : Json) : Option Condition :=
  match j with
  | .obj [("property", c)] => (Comparison.ofJson? c).map .property
  | .obj [("nested", .obj ms)] =>
      match _h : Json.member? ms "conditions" with
      | some (.arr items) => do
          let criteria ← Json.required ms "criteria" Criteria.ofJson?
          let conditions ← items.attach.mapM fun (item : { i // i ∈ items }) => ofJson? item.1
          some (.nested criteria conditions)
      | _ => none
  | _ => none
termination_by sizeOf j
decreasing_by
  have h1 := Json.sizeOf_member?_lt _h
  have h2 := List.sizeOf_lt_of_mem item.2
  simp only [Json.arr.sizeOf_spec] at h1
  simp only [Json.obj.sizeOf_spec, List.cons.sizeOf_spec, Prod.mk.sizeOf_spec]
  omega

end Condition

namespace ConditionTree

def toJson (t : ConditionTree) : Json :=
  .obj [("criteria", .str t.criteria.name), ("conditions", .ofList Condition.toJson t.conditions)]

def ofJson? (j : Json) : Option ConditionTree := do
  let ms ← j.toMembers?
  some
    { criteria := ← Json.required ms "criteria" Criteria.ofJson?
      conditions := ← Json.required ms "conditions" (Json.toList? Condition.ofJson?) }

end ConditionTree

namespace ClassificationCondition

def toJson (c : ClassificationCondition) : Json :=
  .obj [("name", .str c.name), ("properties", .ofOption ConditionTree.toJson c.properties)]

def ofJson? (j : Json) : Option ClassificationCondition := do
  let ms ← j.toMembers?
  some
    { name := ← Json.required ms "name" Json.toString?
      properties := ← Json.optional ms "properties" ConditionTree.ofJson? }

end ClassificationCondition

namespace ClassificationConditions

def toJson (cs : ClassificationConditions) : Json :=
  .obj [("criteria", .str cs.criteria.name),
    ("conditions", .ofList ClassificationCondition.toJson cs.conditions)]

def ofJson? (j : Json) : Option ClassificationConditions := do
  let ms ← j.toMembers?
  some
    { criteria := ← Json.required ms "criteria" Criteria.ofJson?
      conditions :=
        ← Json.required ms "conditions" (Json.toList? ClassificationCondition.ofJson?) }

end ClassificationConditions

namespace TypeFilter

def toJson : TypeFilter → Json
  | .subtypes name => .obj [("subtypes", .str name)]
  | .anyOf names => .obj [("any_of", .ofStrings names)]

def ofJson? : Json → Option TypeFilter
  | .obj [("subtypes", j)] => j.toString?.map .subtypes
  | .obj [("any_of", j)] => (j.toList? Json.toString?).map .anyOf
  | _ => none

end TypeFilter

namespace StatusFilter

def toJson : StatusFilter → Json
  | .present => .str "default"
  | .only statuses => .obj [("only", .ofList Status.toJson statuses)]
  | .all => .str "all"

def ofJson? : Json → Option StatusFilter
  | .str "default" => some .present
  | .str "all" => some .all
  | .obj [("only", j)] => (j.toList? Status.ofJson?).map .only
  | _ => none

end StatusFilter

namespace Sequencing

def toJson : Sequencing → Json
  | .any => .str "any"
  | .guid => .str "guid"
  | .creationDateRecent => .str "creation_date_recent"
  | .creationDateOldest => .str "creation_date_oldest"
  | .lastUpdateRecent => .str "last_update_recent"
  | .lastUpdateOldest => .str "last_update_oldest"
  | .propertyAscending p => .obj [("property_ascending", .str p)]
  | .propertyDescending p => .obj [("property_descending", .str p)]

def ofJson? : Json → Option Sequencing
  | .str "any" => some .any
  | .str "guid" => some .guid
  | .str "creation_date_recent" => some .creationDateRecent
  | .str "creation_date_oldest" => some .creationDateOldest
  | .str "last_update_recent" => some .lastUpdateRecent
  | .str "last_update_oldest" => some .lastUpdateOldest
  | .obj [("property_ascending", j)] => j.toString?.map .propertyAscending
  | .obj [("property_descending", j)] => j.toString?.map .propertyDescending
  | _ => none

end Sequencing

namespace Paging

def toJson (p : Paging) : Json :=
  .obj [("offset", .int p.offset), ("page_size", .int p.pageSize)]

def ofJson? (j : Json) : Option Paging := do
  let ms ← j.toMembers?
  some
    { offset := ← Json.defaulted ms "offset" (Json.toNat? 64) 0
      pageSize := ← Json.defaulted ms "page_size" (Json.toNat? 64) 0 }

end Paging

namespace QueryLimits

def toJson (l : QueryLimits) : Json :=
  .obj [("query_timeout_ms", .int l.timeoutMs), ("max_traversal_depth", .int l.maxDepth),
    ("max_page_size", .int l.maxPageSize)]

def ofJson? (j : Json) : Option QueryLimits := do
  let ms ← j.fields? ["query_timeout_ms", "max_traversal_depth", "max_page_size"]
  some
    { timeoutMs := ← Json.defaulted ms "query_timeout_ms" (Json.toNat? 64) default.timeoutMs
      maxDepth := ← Json.defaulted ms "max_traversal_depth" (Json.toNat? 32) default.maxDepth
      maxPageSize := ← Json.defaulted ms "max_page_size" (Json.toNat? 64) default.maxPageSize }

end QueryLimits

namespace EntitySearch

def toJson (s : EntitySearch) : Json :=
  .obj
    [("type_filter", .ofOption TypeFilter.toJson s.types),
     ("properties", .ofOption ConditionTree.toJson s.properties),
     ("classifications", .ofOption ClassificationConditions.toJson s.classifications),
     ("text", .ofString? s.text),
     ("status", s.status.toJson),
     ("as_of", .ofOption Json.ofInstant s.asOf),
     ("sequencing", s.sequencing.toJson),
     ("paging", s.paging.toJson)]

def ofJson? (j : Json) : Option EntitySearch := do
  let ms ← j.toMembers?
  some
    { types := ← Json.optional ms "type_filter" TypeFilter.ofJson?
      properties := ← Json.optional ms "properties" ConditionTree.ofJson?
      classifications := ← Json.optional ms "classifications" ClassificationConditions.ofJson?
      text := ← Json.optional ms "text" Json.toString?
      status := ← Json.defaulted ms "status" StatusFilter.ofJson? .present
      asOf := ← Json.optional ms "as_of" Json.toInstant?
      sequencing := ← Json.defaulted ms "sequencing" Sequencing.ofJson? .any
      paging := ← Json.defaulted ms "paging" Paging.ofJson? .first }

end EntitySearch

namespace RelationshipSearch

def toJson (s : RelationshipSearch) : Json :=
  .obj
    [("type_filter", .ofOption TypeFilter.toJson s.types),
     ("properties", .ofOption ConditionTree.toJson s.properties),
     ("text", .ofString? s.text),
     ("status", s.status.toJson),
     ("as_of", .ofOption Json.ofInstant s.asOf),
     ("sequencing", s.sequencing.toJson),
     ("paging", s.paging.toJson)]

def ofJson? (j : Json) : Option RelationshipSearch := do
  let ms ← j.toMembers?
  some
    { types := ← Json.optional ms "type_filter" TypeFilter.ofJson?
      properties := ← Json.optional ms "properties" ConditionTree.ofJson?
      text := ← Json.optional ms "text" Json.toString?
      status := ← Json.defaulted ms "status" StatusFilter.ofJson? .present
      asOf := ← Json.optional ms "as_of" Json.toInstant?
      sequencing := ← Json.defaulted ms "sequencing" Sequencing.ofJson? .any
      paging := ← Json.defaulted ms "paging" Paging.ofJson? .first }

end RelationshipSearch

namespace GraphSearch

def toJson (s : GraphSearch) : Json :=
  .obj
    [("root", .str s.root),
     ("relationship_types", .ofOption TypeFilter.toJson s.relationshipTypes),
     ("entity_types", .ofOption TypeFilter.toJson s.entityTypes),
     ("classifications", .ofStrings s.classifications),
     ("status", s.status.toJson),
     ("max_depth", .ofOption (fun n : Nat => .int n) s.maxDepth),
     ("as_of", .ofOption Json.ofInstant s.asOf),
     ("sequencing", s.sequencing.toJson),
     ("paging", s.paging.toJson)]

def ofJson? (j : Json) : Option GraphSearch := do
  let ms ← j.toMembers?
  some
    { root := ← Json.defaulted ms "root" Json.toString? ""
      relationshipTypes := ← Json.optional ms "relationship_types" TypeFilter.ofJson?
      entityTypes := ← Json.optional ms "entity_types" TypeFilter.ofJson?
      classifications := ← Json.defaulted ms "classifications" (Json.toList? Json.toString?) []
      status := ← Json.defaulted ms "status" StatusFilter.ofJson? .present
      maxDepth := ← Json.optional ms "max_depth" (Json.toNat? 32)
      asOf := ← Json.optional ms "as_of" Json.toInstant?
      sequencing := ← Json.defaulted ms "sequencing" Sequencing.ofJson? .any
      paging := ← Json.defaulted ms "paging" Paging.ofJson? .first }

end GraphSearch

def Diagnostic.toJson (d : Diagnostic) : Json :=
  .obj [("property", .str d.property), ("reason", .str d.reason.message)]

def SearchPlan.toJson (p : SearchPlan) : Json :=
  .obj [("query", p.query.toJson), ("record", .str p.record),
    ("diagnostics", .ofList Diagnostic.toJson p.dropped)]

/-- The JSON form of a walk: what was reached, in order of keys, and the relationships that were
met, each under its key. -/
def Walk.toJson (w : Walk) : Json :=
  .obj
    [("reachable", .ofStrings (NameMap.ofList (w.reached.map fun id => (id, ()))).names),
     ("edges", .arr (w.edges.toList.map fun e =>
        .ofStrings [e.1, e.2.relationship, e.2.near, e.2.far])),
     ("hops", .int w.hops)]

end MetadataArchive
