import MetadataArchive.Failure
import MetadataArchive.Record.Storage
import MetadataArchive.Store.Basic

/-!
# Reading records from a snapshot

A relationship is read together with the documents of its two ends, all from the same snapshot.
-/

set_option autoImplicit false

namespace MetadataArchive.Store

variable (ts : TypeSystem) (s : Store) (snap : Snapshot)

def entity? (id : DocId) : Except Failure (Option StoredEntity) := do
  match ← s.get snap id with
  | none => return none
  | some d => return some (← StoredEntity.ofDocument d)

def relationship? (id : DocId) : Except Failure (Option Relationship) := do
  match ← s.get snap id with
  | none => return none
  | some d =>
      let (one, two) ← Relationship.ends d
      let one ← s.get snap one
      let two ← s.get snap two
      return some (← Relationship.ofDocument ts d one two)

/-- The entities under some keys that are stored in full, in the order of the keys. -/
def entities : List DocId → Except Failure (List Entity)
  | [] => .ok []
  | id :: rest => do
      let here ← s.entity? snap id
      let there ← entities rest
      match here with
      | some (.full e) => return e :: there
      | _ => return there

def relationships : List DocId → Except Failure (List Relationship)
  | [] => .ok []
  | id :: rest => do
      let here ← s.relationship? ts snap id
      let there ← relationships rest
      return here.toList ++ there

end MetadataArchive.Store
