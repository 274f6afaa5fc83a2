import MetadataArchive.Fact.Document
import MetadataArchive.Json.Decode
import MetadataArchive.Json.Reader
import MetadataArchive.Json.Writer
import MetadataArchive.Record.Error

/-!
# `PropertyValue` -- typed property values

A property is a primitive value, a choice from an enumeration, or a collection of properties. It is
stored twice: as text, from which the value is read again, and flattened to the values that a query
matches. A collection flattens to the list of the scalar values in it, so a query finds it by any of
them.
-/

set_option autoImplicit false

namespace MetadataArchive

inductive PrimitiveValue where
  | bool (b : Bool)
  | int (i : Int64)
  | float (d : Double)
  | string (s : String)
  | date (t : Instant)
  deriving DecidableEq, Repr

/-- The value of a property. The entries of maps and structures are in name order. -/
inductive PropertyValue where
  | primitive (value : PrimitiveValue)
  | choice (ordinal : Int32) (symbolicName : String) (description : Option String)
  | array (items : List PropertyValue)
  | map (entries : List (String × PropertyValue))
  | record (typeName : Option String) (fields : List (String × PropertyValue))
  deriving Repr, Inhabited

inductive PropertyCategory where
  | primitive
  | choice
  | array
  | map
  | record
  deriving DecidableEq, Repr

abbrev Properties := NameMap PropertyValue

namespace PrimitiveValue

/-- The value that a query matches. -/
def flatten : PrimitiveValue → Value
  | .bool b => .bool b
  | .int i => .int i
  | .float d => .float d
  | .string s => .str s
  | .date t => .time t

/-- The JSON form: the kind and the value. A double that is not finite has none that reads back. -/
def toJson : PrimitiveValue → Json
  | .bool b => tagged "bool" (.bool b)
  | .int i => tagged "int" (.int i.toInt)
  | .float d => tagged "float" (.ofDouble d)
  | .string s => tagged "string" (.str s)
  | .date t => tagged "date" (.ofInstant t)
where
  tagged (kind : String) (value : Json) : Json := .obj [("kind", .str kind), ("value", value)]

def ofJson? (j : Json) : Option PrimitiveValue := do
  let ms ← j.fields? ["kind", "value"]
  let kind ← Json.required ms "kind" Json.toString?
  let value ← Json.member? ms "value"
  match kind with
  | "bool" => value.toBool?.map .bool
  | "int" => value.toInt64?.map .int
  | "float" => value.toDouble?.map .float
  | "string" => value.toString?.map .string
  | "date" => value.toInstant?.map .date
  | _ => none

end PrimitiveValue

namespace PropertyCategory

def all : List PropertyCategory := [primitive, choice, array, map, record]

def name : PropertyCategory → String
  | primitive => "primitive"
  | choice => "enum"
  | array => "array"
  | map => "map"
  | record => "struct"

def fieldNames : PropertyCategory → List String
  | primitive => ["value"]
  | choice => ["ordinal", "symbolic_name", "description"]
  | array => ["items"]
  | map => ["entries"]
  | record => ["type_name", "fields"]

def ofJson? : Json → Option PropertyCategory := Json.toNamed? all name

end PropertyCategory

namespace PropertyValue

def string (s : String) : PropertyValue := .primitive (.string s)

def int (i : Int64) : PropertyValue := .primitive (.int i)

def float (d : Double) : PropertyValue := .primitive (.float d)

def bool (b : Bool) : PropertyValue := .primitive (.bool b)

def date (t : Instant) : PropertyValue := .primitive (.date t)

def enumeration (ordinal : Int32) (symbolicName : String) : PropertyValue :=
  .choice ordinal symbolicName none

mutual

/-- The scalar values in a property, from left to right; a choice counts by its name. -/
def leaves : PropertyValue → List Value
  | .primitive v => [v.flatten]
  | .choice _ name _ => [.str name]
  | .array items => leavesOfItems items
  | .map entries => leavesOfEntries entries
  | .record _ fields => leavesOfEntries fields

def leavesOfItems : List PropertyValue → List Value
  | [] => []
  | v :: rest => leaves v ++ leavesOfItems rest

def leavesOfEntries : List (String × PropertyValue) → List Value
  | [] => []
  | (_, v) :: rest => leaves v ++ leavesOfEntries rest

end

/-- What a query matches: the value of a scalar, and the list of the scalar values of a
collection. -/
def flatten : PropertyValue → Value
  | .primitive v => v.flatten
  | .choice _ name _ => .str name
  | v => .list v.leaves

def isString : PropertyValue → Bool
  | .primitive (.string _) => true
  | _ => false

/-- The text of a text, or the name of a choice. -/
def asStr? : PropertyValue → Option String
  | .primitive (.string s) => some s
  | .choice _ name _ => some name
  | _ => none

mutual

/-- The JSON form. Absent descriptions and type names are left out. -/
def toJson : PropertyValue → Json
  | .primitive v => .obj [categoryMember .primitive, ("value", v.toJson)]
  | .choice ordinal name description =>
      .obj ([categoryMember .choice, ("ordinal", .int ordinal.toInt),
        ("symbolic_name", .str name)] ++ optionalMember "description" description)
  | .array items => .obj [categoryMember .array, ("items", .arr (toJsonItems items))]
  | .map entries => .obj [categoryMember .map, ("entries", .obj (toJsonEntries entries))]
  | .record typeName fields =>
      .obj ([categoryMember .record] ++ optionalMember "type_name" typeName ++
        [("fields", .obj (toJsonEntries fields))])
where
  categoryMember (c : PropertyCategory) : String × Json := ("category", .str c.name)
  optionalMember (name : String) : Option String → List (String × Json)
    | none => []
    | some s => [(name, .str s)]

def toJsonItems : List PropertyValue → List Json
  | [] => []
  | v :: rest => toJson v :: toJsonItems rest

def toJsonEntries : List (String × PropertyValue) → List (String × Json)
  | [] => []
  | (name, v) :: rest => (name, toJson v) :: toJsonEntries rest

end

/-- Entries in name order; of those with one name the last counts. -/
def sortedEntries (es : List (String × PropertyValue)) : List (String × PropertyValue) :=
  (NameMap.ofList es).entries

/-- The category of a JSON form and its fields. An object names them; an array holds the category
and behind it the fields in their order. -/
def parts? : Json → Option (PropertyCategory × List (String × Json))
  | .obj ms => (Json.required ms "category" PropertyCategory.ofJson?).map fun c => (c, ms)
  | .arr (j :: items) =>
      (PropertyCategory.ofJson? j).bind fun c =>
        (Json.fields? c.fieldNames (.arr items)).map fun ms => (c, ms)
  | _ => none

theorem sizeOf_lt_of_parts? {j v : Json} {category : PropertyCategory} {name : String}
    {ms : List (String × Json)} (h : parts? j = some (category, ms))
    (hm : Json.member? ms name = some v) : sizeOf v < sizeOf j := by
  unfold parts? at h
  split at h
  next ms' =>
    obtain ⟨_, _, he⟩ := Option.map_eq_some_iff.1 h
    cases he
    have := Json.sizeOf_member?_lt hm
    simp only [Json.obj.sizeOf_spec]
    omega
  next item items =>
    obtain ⟨c, _, hb⟩ := Option.bind_eq_some_iff.1 h
    obtain ⟨ms', hf, he⟩ := Option.map_eq_some_iff.1 hb
    cases he
    simp only [Json.fields?, Option.ite_none_right_eq_some, Option.some.injEq] at hf
    obtain ⟨_, rfl⟩ := hf
    have := List.sizeOf_lt_of_mem (List.of_mem_zip (Json.mem_of_member?_eq_some hm)).2
    simp only [Json.arr.sizeOf_spec, List.cons.sizeOf_spec]
    omega
  next => cases h

def ofJson? (j : Json) : Option PropertyValue :=
  match _hp : parts? j with
  | none => none
  | some (category, ms) =>
      match category, _hi : Json.member? ms "items", _he : Json.member? ms "entries",
          _hf : Json.member? ms "fields" with
      | .primitive, _, _, _ => (Json.required ms "value" PrimitiveValue.ofJson?).map .primitive
      | .choice, _, _, _ => do
          let ordinal ← Json.required ms "ordinal" Json.toInt32?
          let name ← Json.required ms "symbolic_name" Json.toString?
          let description ← Json.optional ms "description" Json.toString?
          some (.choice ordinal name description)
      | .array, some (.arr items), _, _ =>
          (items.attach.mapM fun (item : { i // i ∈ items }) => ofJson? item.1).map .array
      | .map, _, some (.obj entries), _ =>
          (entries.attach.mapM fun (e : { e // e ∈ entries }) =>
            (ofJson? e.1.2).map fun v => (e.1.1, v)).map fun es => .map (sortedEntries es)
      | .record, _, _, some (.obj fields) => do
          let typeName ← Json.optional ms "type_name" Json.toString?
          let es ← fields.attach.mapM fun (e : { e // e ∈ fields }) =>
            (ofJson? e.1.2).map fun v => (e.1.1, v)
          some (.record typeName (sortedEntries es))
      | _, _, _, _ => none
termination_by sizeOf j
decreasing_by
  · have h1 := sizeOf_lt_of_parts? _hp _hi
    have h2 := List.sizeOf_lt_of_mem item.2
    simp only [Json.arr.sizeOf_spec] at h1
    omega
  · have h1 := sizeOf_lt_of_parts? _hp _he
    have h2 := Json.sizeOf_lt_of_mem e.2
    simp only [Json.obj.sizeOf_spec] at h1
    omega
  · have h1 := sizeOf_lt_of_parts? _hp _hf
    have h2 := Json.sizeOf_lt_of_mem e.2
    simp only [Json.obj.sizeOf_spec] at h1
    omega

def toStored (v : PropertyValue) : Value := .str v.toJson.write

def ofStored : Value → Except RecordError PropertyValue
  | .str text =>
      match (Json.read? text).bind ofJson? with
      | some v => .ok v
      | none => .error .serialization
  | v => .error (.mapping "property" (.notText v.display))

end PropertyValue

namespace Properties

def toJson (ps : Properties) : Json := .ofNameMap PropertyValue.toJson ps

def ofJson? (j : Json) : Option Properties := j.toNameMap? PropertyValue.ofJson?

end Properties

end MetadataArchive
