import MetadataArchive.Json.Basic
import MetadataArchive.Query.Evaluation

/-!
# Transactions

A transaction is a list of operations that are run in order against the latest state: documents are
put or evicted, and functions that the store knows are called. What is written is staged, and each
operation sees what those before it staged. Either all of it is committed or, where a call fails,
nothing.

A function may leave a note beside its writes. Notes are handed to whoever runs the transaction,
whether it commits or not.
-/

set_option autoImplicit false

namespace MetadataArchive

inductive Write where
  | put (doc : Document)
  | evict (id : DocId)

def Write.id : Write → DocId
  | .put doc => doc.id
  | .evict id => id

inductive TxOp where
  | write (w : Write)
  | call (function : String) (args : Json)

/-- What a function may see: the transaction it runs in and the state it runs on. -/
structure TxContext where
  tx : TxId
  time : Instant
  source : Source

/-- How a call ends. -/
inductive Reply (ν : Type) where
  | writes (ws : List Write) (note : Option ν)
  | fault (reason : String)
  /-- The function broke down, with a message or without. -/
  | panic (message : Option String)

/-- A function that the store runs inside transactions. -/
structure TxFunction (ν : Type) where
  name : String
  run : TxContext → Json → Reply ν

inductive TxFault where
  | unknownFunction (name : String)
  | failed (name reason : String)
  | panicked (message : Option String)
  deriving DecidableEq, Repr

def TxFault.message : TxFault → String
  | .unknownFunction name => "unknown transaction function: " ++ name
  | .failed name reason => name ++ ": " ++ reason
  | .panicked none => "transaction function panicked"
  | .panicked (some message) => "transaction function panicked: " ++ message

inductive TxResult where
  | committed (writes : Nat)
  | aborted (fault : TxFault)
  deriving DecidableEq, Repr

structure Outcome where
  tx : TxId
  time : Instant
  result : TxResult
  deriving DecidableEq, Repr

def Outcome.committed (o : Outcome) : Bool :=
  match o.result with
  | .committed _ => true
  | .aborted _ => false

/-- What a transaction has staged: under each key a document, or nothing for an eviction. -/
abbrev Staged := NameMap (Option Document)

namespace Staged

/-- Stage a write; the last one under a key counts. -/
def apply (s : Staged) : Write → Staged
  | .put doc => s.insert doc.id (some doc)
  | .evict id => s.insert id none

/-- The state with what is staged laid over it. A scan meets the documents that are not staged
first. -/
def laidOver (s : Staged) (base : Source) : Source where
  document? id :=
    match s.get? id with
    | some staged => staged
    | none => base.document? id
  documents :=
    (base.documents.filter fun d => !s.contains d.id) ++ s.values.filterMap fun staged => staged

end Staged

variable {ν : Type}

/-- Run operations in order on a state. -/
def runOps (functions : List (TxFunction ν)) (tx : TxId) (time : Instant) (base : Source) :
    Staged → List TxOp → Except TxFault Staged × List ν
  | staged, [] => (.ok staged, [])
  | staged, .write w :: rest => runOps functions tx time base (staged.apply w) rest
  | staged, .call name args :: rest =>
      match functions.find? fun f => f.name == name with
      | none => (.error (.unknownFunction name), [])
      | some f =>
          match f.run ⟨tx, time, staged.laidOver base⟩ args with
          | .panic message => (.error (.panicked message), [])
          | .fault reason => (.error (.failed name reason), [])
          | .writes ws note =>
              let (result, notes) :=
                runOps functions tx time base (ws.foldl Staged.apply staged) rest
              (result, note.toList ++ notes)

end MetadataArchive
