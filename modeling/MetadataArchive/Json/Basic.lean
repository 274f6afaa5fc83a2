import MetadataArchive.Number.Double

/-!
# `Json` -- JSON values

Values as a text holds them: numbers written without fraction and exponent are integers, all others
doubles, and the members of an object keep their order and their repetitions. What a reader makes of
a repeated name is the reader's choice: `Json.member?` refuses it, since a record has each field
once.
-/

set_option autoImplicit false

namespace MetadataArchive

inductive Json where
  | null
  | bool (b : Bool)
  | int (i : Int)
  | num (d : Double)
  | str (s : String)
  | arr (items : List Json)
  | obj (members : List (String × Json))
  deriving Repr, Inhabited

namespace Json

/-- A double; what is not finite has no number and is null. -/
def ofDouble (d : Double) : Json := if d.isFinite then .num d else .null

def ofString? : Option String → Json
  | none => .null
  | some s => .str s

def ofStrings (ss : List String) : Json := .arr (ss.map .str)

/-- The value of the member with a name, where there is exactly one such member. -/
def member? (members : List (String × Json)) (name : String) : Option Json :=
  match members.filter fun m => m.1 == name with
  | [m] => some m.2
  | _ => none

def lacks (members : List (String × Json)) (name : String) : Bool :=
  members.all fun m => m.1 != name

/-- The fields of a record whose fields have these names: the members of an object, or the items of
an array that holds the fields in their order and may end early. -/
def fields? (names : List String) : Json → Option (List (String × Json))
  | .obj members => some members
  | .arr items => if items.length ≤ names.length then some (names.zip items) else none
  | _ => none

theorem sizeOf_lt_of_mem {members : List (String × Json)} {m : String × Json} (h : m ∈ members) :
    sizeOf m.2 < sizeOf members := by
  have h1 := List.sizeOf_lt_of_mem h
  obtain ⟨name, v⟩ := m
  simp only [Prod.mk.sizeOf_spec] at h1
  simp only
  omega

theorem mem_of_member?_eq_some {members : List (String × Json)} {name : String} {v : Json}
    (h : member? members name = some v) : (name, v) ∈ members := by
  unfold member? at h
  split at h
  next m hm =>
    have hf : m ∈ members.filter fun m => m.1 == name := hm ▸ List.mem_singleton.2 rfl
    obtain ⟨hmem, hname⟩ := List.mem_filter.1 hf
    obtain ⟨n, w⟩ := m
    cases h
    simp only [beq_iff_eq] at hname
    exact hname ▸ hmem
  next => cases h

theorem sizeOf_member?_lt {members : List (String × Json)} {name : String} {v : Json}
    (h : member? members name = some v) : sizeOf v < sizeOf members :=
  sizeOf_lt_of_mem (mem_of_member?_eq_some h)

end Json

end MetadataArchive
