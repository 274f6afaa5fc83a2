import MetadataArchive.Collection.NameMap
import MetadataArchive.Json.Decode
import MetadataArchive.Json.Reader
import MetadataArchive.Record.Error

/-!
# `TypeSystem` -- the types of records and what they inherit

A type has a name, a guid and a category, declares properties and may have a supertype. A list of
definitions makes up a type system when guids and names are distinct, supertypes are defined with
the same category, and no type is among its own ancestors.

Ancestors are found by following supertypes. In a type system that has passed the checks every chain
ends before it is as long as there are types, which is what bounds the walk.
-/

set_option autoImplicit false

namespace MetadataArchive

/-- What a type is a type of. -/
inductive TypeCategory where
  | entity
  | relationship
  | classification
  deriving DecidableEq, Repr

namespace TypeCategory

def name : TypeCategory → String
  | .entity => "ENTITY"
  | .relationship => "RELATIONSHIP"
  | .classification => "CLASSIFICATION"

def all : List TypeCategory := [.entity, .relationship, .classification]

end TypeCategory

/-- A property that a type declares. The unique ones are carried by proxies. -/
structure PropertyDef where
  name : String
  unique : Bool
  deriving DecidableEq, Repr

/-- The guid and name of a type, as records carry them. -/
structure TypeRef where
  guid : String
  name : String
  deriving DecidableEq, Repr

structure TypeDef where
  guid : String
  name : String
  category : TypeCategory
  supertype : Option String
  /-- The properties that it declares itself. -/
  properties : List PropertyDef
  /-- Of a classification: the entity types that it may be attached to, with their subtypes; where
  there are none, all. -/
  validEntityTypes : List String
  deriving DecidableEq, Repr

namespace TypeDef

def typeRef (d : TypeDef) : TypeRef := ⟨d.guid, d.name⟩

def declares (d : TypeDef) (property : String) : Bool :=
  d.properties.any fun p => p.name == property

end TypeDef

structure TypeSystem where
  types : NameMap TypeDef

namespace TypeSystem

def empty : TypeSystem := ⟨∅⟩

instance : Inhabited TypeSystem := ⟨empty⟩

def get? (ts : TypeSystem) (name : String) : Option TypeDef := ts.types.get? name

def parent? (ts : TypeSystem) (d : TypeDef) : Option TypeDef := d.supertype.bind ts.get?

/-- A type and its ancestors, nearest first, no more than so many. -/
def chain (ts : TypeSystem) : Nat → TypeDef → List TypeDef
  | 0, _ => []
  | n + 1, d =>
      d :: match ts.parent? d with
        | some p => chain ts n p
        | none => []

/-- Whether following supertypes from a type comes to some type twice. -/
def hasCycle (ts : TypeSystem) (d : TypeDef) : Bool :=
  !((ts.chain (ts.types.size + 1) d).map TypeDef.name).Nodup

/-- Put definitions under their names, as long as guids and names are new. -/
def gather : NameMap TypeDef → List TypeDef → Except SchemaFault (NameMap TypeDef)
  | m, [] => .ok m
  | m, d :: rest =>
      if m.values.any fun e => e.guid == d.guid then .error (.duplicateGuid d.guid)
      else if m.contains d.name then .error (.duplicateName d.name)
      else gather (m.insert d.name d) rest

/-- Check the supertype of a type, and that it is not its own ancestor. -/
def check (ts : TypeSystem) (d : TypeDef) : Except SchemaFault Unit :=
  match d.supertype with
  | none => .ok ()
  | some parent =>
      match ts.get? parent with
      | none => .error (.unknownSupertype d.name parent)
      | some p =>
          if p.category ≠ d.category then .error (.otherCategory d.name parent)
          else if ts.hasCycle d then .error (.cycle d.name)
          else .ok ()

/-- The type system of a list of definitions. Types are checked in name order. -/
def ofList (defs : List TypeDef) : Except RecordError TypeSystem :=
  let build : Except SchemaFault TypeSystem := do
    let m ← gather ∅ defs
    let ts : TypeSystem := ⟨m⟩
    m.values.forM ts.check
    .ok ts
  match build with
  | .ok ts => .ok ts
  | .error fault => .error (.invalidTypeSystem fault)

def require (ts : TypeSystem) (name : String) : Except RecordError TypeDef :=
  match ts.get? name with
  | some d => .ok d
  | none => .error (.unknownType name)

def getByGuid? (ts : TypeSystem) (guid : String) : Option TypeDef :=
  ts.types.values.find? fun d => d.guid == guid

/-- A type and its ancestors, nearest first. -/
def closure (ts : TypeSystem) (d : TypeDef) : List TypeDef := ts.chain ts.types.size d

/-- The type of a name and its ancestors, nearest first; none where the name is not known. -/
def closureOf (ts : TypeSystem) (name : String) : List TypeDef :=
  match ts.get? name with
  | some d => ts.closure d
  | none => []

/-- The type of a name, which has to be known, and its ancestors, nearest first. -/
def supertypeClosure (ts : TypeSystem) (name : String) : Except RecordError (List TypeDef) := do
  let d ← ts.require name
  .ok (ts.closure d)

def isSubtypeOf (ts : TypeSystem) (name ancestor : String) : Bool :=
  (ts.closureOf name).any fun d => d.name == ancestor

/-- A type, which has to be known, and all that inherit from it, in name order. -/
def subtypesOf (ts : TypeSystem) (name : String) : Except RecordError (List TypeDef) := do
  let _ ← ts.require name
  .ok (ts.types.values.filter fun d => ts.isSubtypeOf d.name name)

/-- The nearest of a type and its ancestors that declares a property. -/
def declaringType? (ts : TypeSystem) (typeName property : String) : Option TypeDef :=
  (ts.closureOf typeName).find? fun d => d.declares property

def propertiesOf (ts : TypeSystem) (typeName : String) : List PropertyDef :=
  (ts.closureOf typeName).flatMap TypeDef.properties

/-- The properties of a type, which has to be known, inherited ones among them. -/
def legalProperties (ts : TypeSystem) (typeName : String) :
    Except RecordError (List PropertyDef) := do
  let _ ← ts.require typeName
  .ok (ts.propertiesOf typeName)

def isLegalProperty (ts : TypeSystem) (typeName property : String) : Bool :=
  (ts.declaringType? typeName property).isSome

def uniqueProperties (ts : TypeSystem) (typeName : String) : List String :=
  ((ts.propertiesOf typeName).filter PropertyDef.unique).map PropertyDef.name

/-- Whether a classification may be attached to entities of a type. -/
def isValidFor (ts : TypeSystem) (classification entityType : String) : Bool :=
  match ts.get? classification with
  | none => false
  | some d =>
      d.category = .classification &&
        (d.validEntityTypes.isEmpty ||
          d.validEntityTypes.any fun allowed => ts.isSubtypeOf entityType allowed)

end TypeSystem

/-! ## JSON -/

namespace TypeRef

def toJson (r : TypeRef) : Json := .obj [("guid", .str r.guid), ("name", .str r.name)]

def ofJson? (j : Json) : Option TypeRef := do
  let ms ← j.toMembers?
  some ⟨← Json.required ms "guid" Json.toString?, ← Json.required ms "name" Json.toString?⟩

end TypeRef

namespace PropertyDef

def toJson (p : PropertyDef) : Json := .obj [("name", .str p.name), ("unique", .bool p.unique)]

def ofJson? (j : Json) : Option PropertyDef := do
  let ms ← j.fields? ["name", "unique"]
  some ⟨← Json.required ms "name" Json.toString?, ← Json.defaulted ms "unique" Json.toBool? false⟩

end PropertyDef

namespace TypeDef

def toJson (d : TypeDef) : Json :=
  .obj [("guid", .str d.guid), ("name", .str d.name), ("category", .str d.category.name),
    ("supertype", .ofString? d.supertype), ("properties", .ofList PropertyDef.toJson d.properties),
    ("valid_entity_types", .ofStrings d.validEntityTypes)]

def ofJson? (j : Json) : Option TypeDef := do
  let ms ← j.fields? ["guid", "name", "category", "supertype", "properties", "valid_entity_types"]
  let guid ← Json.required ms "guid" Json.toString?
  let name ← Json.required ms "name" Json.toString?
  let category ← Json.required ms "category" (Json.toNamed? TypeCategory.all TypeCategory.name)
  let supertype ← Json.optional ms "supertype" Json.toString?
  let properties ← Json.defaulted ms "properties" (Json.toList? ofPropertyJson?) []
  let valid ← Json.defaulted ms "valid_entity_types" (Json.toList? Json.toString?) []
  some ⟨guid, name, category, supertype, properties, valid⟩
where
  ofPropertyJson? : Json → Option PropertyDef := PropertyDef.ofJson?

end TypeDef

def TypeSystem.ofText (text : String) : Except RecordError TypeSystem :=
  match (Json.read? text).bind (Json.toList? TypeDef.ofJson?) with
  | some defs => TypeSystem.ofList defs
  | none => .error .serialization

end MetadataArchive
