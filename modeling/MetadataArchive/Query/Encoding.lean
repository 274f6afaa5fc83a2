import MetadataArchive.Fact.Encoding
import MetadataArchive.Query.Clause

/-!
# Queries as JSON

A clause is an object with one member, named for the kind of clause. Time limits are written in
seconds and nanoseconds.
-/

set_option autoImplicit false

namespace MetadataArchive

namespace Term

def toJson : Term → Json
  | .var v => .obj [("Var", .str v)]
  | .const v => .obj [("Const", v.toJson)]

def ofJson? : Json → Option Term
  | .obj [("Var", j)] => j.toString?.map .var
  | .obj [("Const", j)] => (Value.ofJson? j).map .const
  | _ => none

end Term

namespace CompareOp

def name : CompareOp → String
  | .eq => "eq"
  | .ne => "ne"
  | .gt => "gt"
  | .gte => "gte"
  | .lt => "lt"
  | .lte => "lte"

def all : List CompareOp := [.eq, .ne, .gt, .gte, .lt, .lte]

end CompareOp

namespace Test

def toJson : Test → Json
  | .compare op v value =>
      .obj [("compare", .obj [("op", .str op.name), ("var", .str v), ("value", value.toJson)])]
  | .like v pattern => .obj [("matches", .obj [("var", .str v), ("pattern", .str pattern)])]
  | .isNull v => .obj [("is_null", .str v)]
  | .notNull v => .obj [("not_null", .str v)]

def ofJson? : Json → Option Test
  | .obj [("compare", .obj ms)] => do
      let op ← Json.required ms "op" (Json.toNamed? CompareOp.all CompareOp.name)
      let v ← Json.required ms "var" Json.toString?
      let value ← Json.required ms "value" Value.ofJson?
      some (.compare op v value)
  | .obj [("matches", .obj ms)] => do
      let v ← Json.required ms "var" Json.toString?
      let pattern ← Json.required ms "pattern" Json.toString?
      some (.like v pattern)
  | .obj [("is_null", j)] => j.toString?.map .isNull
  | .obj [("not_null", j)] => j.toString?.map .notNull
  | _ => none

end Test

namespace Clause

mutual

def toJson : Clause → Json
  | .pattern entity attr value =>
      .obj [("pattern", .obj [("entity", entity.toJson), ("attribute", .str attr),
        ("value", value.toJson)])]
  | .firstOf entity attributes bind =>
      .obj [("first_of", .obj [("entity", .str entity), ("attributes", .ofStrings attributes),
        ("bind", .str bind)])]
  | .test t => .obj [("predicate", t.toJson)]
  | .and clauses => .obj [("and", .arr (toJsonAll clauses))]
  | .or branches => .obj [("or", .arr (toJsonAll branches))]
  | .not clauses => .obj [("not", .arr (toJsonAll clauses))]
  | .oneOf v values =>
      .obj [("in", .obj [("var", .str v), ("values", .ofList Value.toJson values)])]

def toJsonAll : List Clause → List Json
  | [] => []
  | c :: rest => toJson c :: toJsonAll rest

end

def ofJson? (j : Json) : Option Clause :=
  match j with
  | .obj [("pattern", .obj ms)] => do
      let entity ← Json.required ms "entity" Term.ofJson?
      let attr ← Json.required ms "attribute" Json.toString?
      let value ← Json.required ms "value" Term.ofJson?
      some (.pattern entity attr value)
  | .obj [("first_of", .obj ms)] => do
      let entity ← Json.required ms "entity" Json.toString?
      let attributes ← Json.required ms "attributes" (Json.toList? Json.toString?)
      let bind ← Json.required ms "bind" Json.toString?
      some (.firstOf entity attributes bind)
  | .obj [("predicate", t)] => (Test.ofJson? t).map .test
  | .obj [("and", .arr items)] =>
      (items.attach.mapM fun (item : { i // i ∈ items }) => ofJson? item.1).map .and
  | .obj [("or", .arr items)] =>
      (items.attach.mapM fun (item : { i // i ∈ items }) => ofJson? item.1).map .or
  | .obj [("not", .arr items)] =>
      (items.attach.mapM fun (item : { i // i ∈ items }) => ofJson? item.1).map .not
  | .obj [("in", .obj ms)] => do
      let v ← Json.required ms "var" Json.toString?
      let values ← Json.required ms "values" (Json.toList? Value.ofJson?)
      some (.oneOf v values)
  | _ => none
termination_by sizeOf j
decreasing_by
  all_goals
    have h := List.sizeOf_lt_of_mem item.2
    simp only [Json.obj.sizeOf_spec, Json.arr.sizeOf_spec, List.cons.sizeOf_spec,
      Prod.mk.sizeOf_spec]
    omega

end Clause

namespace Direction

def name : Direction → String
  | .asc => "asc"
  | .desc => "desc"

def all : List Direction := [.asc, .desc]

end Direction

namespace OrderKey

def toJson (k : OrderKey) : Json :=
  .obj [("var", .str k.var), ("direction", .str k.direction.name)]

def ofJson? (j : Json) : Option OrderKey := do
  let ms ← j.toMembers?
  some
    { var := ← Json.required ms "var" Json.toString?
      direction := ← Json.required ms "direction" (Json.toNamed? Direction.all Direction.name) }

end OrderKey

namespace Query

def durationJson (ns : Nat) : Json :=
  .obj [("secs", .int (ns / 1000000000)), ("nanos", .int (ns % 1000000000))]

def durationOfJson? (j : Json) : Option Nat := do
  let ms ← j.toMembers?
  let secs ← Json.required ms "secs" (Json.toNat? 64)
  let nanos ← Json.required ms "nanos" (Json.toNat? 32)
  some (secs * 1000000000 + nanos)

def toJson (q : Query) : Json :=
  .obj
    [("find", .ofStrings q.find),
     ("clauses", .ofList Clause.toJson q.clauses),
     ("order_by", .ofList OrderKey.toJson q.orderBy),
     ("offset", .int q.offset),
     ("limit", .ofOption (fun n : Nat => .int n) q.limit),
     ("timeout", .ofOption durationJson q.timeout)]

def ofJson? (j : Json) : Option Query := do
  let ms ← j.toMembers?
  some
    { find := ← Json.required ms "find" (Json.toList? Json.toString?)
      clauses := ← Json.required ms "clauses" (Json.toList? Clause.ofJson?)
      orderBy := ← Json.required ms "order_by" (Json.toList? OrderKey.ofJson?)
      offset := ← Json.required ms "offset" (Json.toNat? 64)
      limit := ← Json.optional ms "limit" (Json.toNat? 64)
      timeout := ← Json.optional ms "timeout" durationOfJson? }

end Query

def Rows.toJson (r : Rows) : Json :=
  .obj [("columns", .ofStrings r.columns),
    ("rows", .arr (r.rows.map (Json.ofList Value.toJson)))]

end MetadataArchive
