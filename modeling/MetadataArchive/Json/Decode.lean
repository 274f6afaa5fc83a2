import MetadataArchive.Collection.NameMap
import MetadataArchive.Json.Basic
import MetadataArchive.Time.Rfc3339

/-!
# Decoding JSON into domain types

A decoder is a partial function from JSON values. Records are objects: members with unknown names do
not count, a member that is given twice is refused, and a field may be required, optional (absent or
null) or defaulted (absent only).
-/

set_option autoImplicit false

namespace MetadataArchive.Json

variable {α : Type}

def toString? : Json → Option String
  | .str s => some s
  | _ => none

def toBool? : Json → Option Bool
  | .bool b => some b
  | _ => none

def toIntIn? (low high : Int) : Json → Option Int
  | .int i => if low ≤ i && i ≤ high then some i else none
  | _ => none

def toInt64? (j : Json) : Option Int64 :=
  (j.toIntIn? Int64.minValue.toInt Int64.maxValue.toInt).map Int64.ofInt

def toInt32? (j : Json) : Option Int32 :=
  (j.toIntIn? Int32.minValue.toInt Int32.maxValue.toInt).map Int32.ofInt

def toNat? (bits : Nat) (j : Json) : Option Nat :=
  (j.toIntIn? 0 ((Nat.pow 2 bits : Nat) - 1)).map Int.toNat

def toUInt64? (j : Json) : Option UInt64 := (j.toNat? 64).map UInt64.ofNat

/-- A double; an integer stands for the double next to it. -/
def toDouble? : Json → Option Double
  | .num d => some d
  | .int i => some (.ofInt i)
  | _ => none

def toInstant? : Json → Option Instant
  | .str s => Rfc3339.read? s
  | _ => none

def toMembers? : Json → Option (List (String × Json))
  | .obj ms => some ms
  | _ => none

def toList? (decode : Json → Option α) : Json → Option (List α)
  | .arr js => js.mapM decode
  | _ => none

/-- A map from names; of members with one name the last counts. -/
def toNameMap? (decode : Json → Option α) : Json → Option (NameMap α)
  | .obj ms => (ms.mapM fun m => (decode m.2).map fun v => (m.1, v)).map NameMap.ofList
  | _ => none

def toOption? (decode : Json → Option α) : Json → Option (Option α)
  | .null => some none
  | j => (decode j).map some

def toNamed? (all : List α) (name : α → String) (j : Json) : Option α :=
  j.toString?.bind fun s => all.find? fun a => name a == s

def required (ms : List (String × Json)) (name : String) (decode : Json → Option α) : Option α :=
  (member? ms name).bind decode

/-- A field that may be absent or null. -/
def optional (ms : List (String × Json)) (name : String) (decode : Json → Option α) :
    Option (Option α) :=
  if lacks ms name then some none else required ms name (toOption? decode)

/-- A field that may be absent and then has a default. -/
def defaulted (ms : List (String × Json)) (name : String) (decode : Json → Option α)
    (default : α) : Option α :=
  if lacks ms name then some default else required ms name decode

def ofInstant (t : Instant) : Json := .str (Rfc3339.text t)

def ofOption (encode : α → Json) : Option α → Json
  | none => .null
  | some a => encode a

def ofList (encode : α → Json) (as : List α) : Json := .arr (as.map encode)

def ofNameMap (encode : α → Json) (m : NameMap α) : Json :=
  .obj (m.entries.map fun e => (e.1, encode e.2))

end MetadataArchive.Json
