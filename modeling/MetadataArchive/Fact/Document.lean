import MetadataArchive.Collection.NameMap
import MetadataArchive.Fact.Value

/-!
# `Document` -- what is stored under one key

A document is its key and a map from attribute names to values. Setting an attribute to null takes
it away, so a document that was built by setting holds no null; one that was handed over whole may.
-/

set_option autoImplicit false

namespace MetadataArchive

structure Document where
  id : DocId
  attributes : NameMap Value

namespace Document

def ofId (id : DocId) : Document := ⟨id, ∅⟩

def get? (d : Document) (name : String) : Option Value := d.attributes.get? name

/-- The document with an attribute set, or without it where the value is null. -/
def set (d : Document) (name : String) : Value → Document
  | .null => { d with attributes := d.attributes.erase name }
  | v => { d with attributes := d.attributes.insert name v }

def erase (d : Document) (name : String) : Document :=
  { d with attributes := d.attributes.erase name }

def startingWith (d : Document) (stem : String) : List (String × Value) :=
  d.attributes.startingWith stem

/-- The document without the attributes whose name begins with `stem`. -/
def eraseStartingWith (d : Document) (stem : String) : Document :=
  { d with attributes := d.attributes.eraseStartingWith stem }

/-- Take away the attributes whose name begins with `stem`: by how many the document becomes smaller,
and what is left of it. -/
def removeStartingWith (d : Document) (stem : String) : Nat × Document :=
  let kept := d.eraseStartingWith stem
  (d.attributes.size - kept.attributes.size, kept)

def getStr? (d : Document) (name : String) : Option String := (d.get? name).bind Value.asStr?

def getTime? (d : Document) (name : String) : Option Instant := (d.get? name).bind Value.asTime?

def getInt? (d : Document) (name : String) : Option Int64 := (d.get? name).bind Value.asInt?

def getRef? (d : Document) (name : String) : Option DocId := (d.get? name).bind Value.asRef?

end Document

end MetadataArchive
