import MetadataArchive.Fact.Encoding
import MetadataArchive.Store.Usage

/-!
# Transactions, snapshots and use as JSON
-/

set_option autoImplicit false

namespace MetadataArchive

namespace TxOp

/-- The JSON form: an object with one member, named for the kind of operation. -/
def toJson : TxOp → Json
  | .write (.put doc) => .obj [("put", doc.toJson)]
  | .write (.evict id) => .obj [("evict", .str id)]
  | .call function args => .obj [("call", .obj [("function", .str function), ("args", args)])]

def ofJson? : Json → Option TxOp
  | .obj [("put", j)] => (Document.ofJson? j).map fun doc => .write (.put doc)
  | .obj [("evict", j)] => j.toString?.map fun id => .write (.evict id)
  | .obj [("call", .obj ms)] => do
      let function ← Json.required ms "function" Json.toString?
      let args ← Json.member? ms "args"
      some (.call function args)
  | _ => none

end TxOp

def Outcome.toJson (o : Outcome) : Json :=
  let (fault, writes) : Json × Nat :=
    match o.result with
    | .committed n => (.null, n)
    | .aborted fault => (.str fault.message, 0)
  .obj [("tx", .str o.tx.text), ("committed", .bool o.committed), ("tx_time", .ofInstant o.time),
    ("fault", fault), ("writes", .int writes)]

def Snapshot.toJson (s : Snapshot) : Json :=
  .obj [("id", .int s.id), ("basis", .int s.basis), ("as_of", .ofInstant s.asOf)]

namespace Usage

/-- The counts of transactions and of snapshots that are outstanding. -/
def members (u : Usage) : List (String × Json) :=
  [("tx_submitted", .int u.submitted), ("tx_committed", .int u.committed),
    ("tx_aborted", .int u.aborted), ("outstanding", .int u.outstanding)]

def readMembers (u : Usage) : List (String × Json) :=
  [("query_count", .int u.queries), ("query_errors", .int u.queryErrors),
    ("get_count", .int u.gets), ("snapshots_opened", .int u.opened),
    ("snapshots_released", .int u.released)]

end Usage

end MetadataArchive
