import MetadataArchive.Fact.Document
import MetadataArchive.Json.Decode

/-!
# Documents as JSON

A value is an object with its kind under `t` and its content under `v`. Doubles that JSON has no
number for, and minus zero, are written as text, so every value has a JSON form that reads back.
-/

set_option autoImplicit false

namespace MetadataArchive

namespace Double

/-- The JSON form of any double: a number, or the name of one that has none. -/
def toJson (d : Double) : Json :=
  if d.isNaN then .str (if d.isNegative then "-NaN" else "NaN")
  else if d.isInfinite then .str d.displayText
  else if d.isNegative && d.magnitude = 0 then .str "-0"
  else .num d

def ofJson? : Json → Option Double
  | .str "NaN" => some nan
  | .str "-NaN" => some nan.neg
  | .str "inf" => some infinity
  | .str "-inf" => some infinity.neg
  | .str "-0" => some (ofMagnitude true 0)
  | .str _ => none
  | j => j.toDouble?

end Double

namespace Value

mutual

def toJson : Value → Json
  | .null => .obj [("t", .str "null")]
  | .bool b => tagged "bool" (.bool b)
  | .int i => tagged "int" (.int i.toInt)
  | .float d => tagged "float" d.toJson
  | .str s => tagged "str" (.str s)
  | .time t => tagged "time" (.ofInstant t)
  | .ref id => tagged "ref" (.str id)
  | .list items => tagged "list" (.arr (toJsonItems items))
where
  tagged (kind : String) (content : Json) : Json := .obj [("t", .str kind), ("v", content)]

def toJsonItems : List Value → List Json
  | [] => []
  | v :: rest => toJson v :: toJsonItems rest

end

def ofJson? (j : Json) : Option Value :=
  match j with
  | .obj ms =>
      match Json.member? ms "t", _h : Json.member? ms "v" with
      | some (.str "null"), _ => some .null
      | some (.str "bool"), some v => v.toBool?.map .bool
      | some (.str "int"), some v => v.toInt64?.map .int
      | some (.str "float"), some v => (Double.ofJson? v).map .float
      | some (.str "str"), some v => v.toString?.map .str
      | some (.str "time"), some v => v.toInstant?.map .time
      | some (.str "ref"), some v => v.toString?.map .ref
      | some (.str "list"), some (.arr items) =>
          (items.attach.mapM fun (item : { i // i ∈ items }) => ofJson? item.1).map .list
      | _, _ => none
  | _ => none
termination_by sizeOf j
decreasing_by
  have h1 := Json.sizeOf_member?_lt _h
  have h2 := List.sizeOf_lt_of_mem item.2
  simp only [Json.arr.sizeOf_spec] at h1
  simp only [Json.obj.sizeOf_spec]
  omega

end Value

namespace Document

def toJson (d : Document) : Json :=
  .obj [("id", .str d.id), ("attributes", .ofNameMap Value.toJson d.attributes)]

/-- The document that a JSON form stands for. Its attributes are taken as they are. -/
def ofJson? (j : Json) : Option Document := do
  let ms ← j.toMembers?
  some ⟨← Json.required ms "id" Json.toString?,
    ← Json.required ms "attributes" (Json.toNameMap? Value.ofJson?)⟩

end Document

end MetadataArchive
