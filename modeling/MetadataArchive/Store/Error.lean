import MetadataArchive.Query.Clause
import MetadataArchive.Text.Quoted

/-!
# What a store refuses
-/

set_option autoImplicit false

namespace MetadataArchive

structure TxId where
  number : Nat
  deriving DecidableEq, Repr, Inhabited

def TxId.text (tx : TxId) : String := "tx-" ++ toString tx.number

inductive QueryFault where
  /-- The document of a choice of attributes is not bound. -/
  | entityUnbound (v : Var)
  /-- The variable of a test is not bound. -/
  | testUnbound (v : Var)
  /-- A text is no pattern once it is put to match whole values. -/
  | badPattern (pattern : String)
  /-- A variable of the rows is not bound by the clauses. -/
  | neverBound (v : Var)
  /-- Rows are to be ordered by a variable that they do not have. -/
  | notProjected (v : Var)
  /-- A reason in words. -/
  | other (reason : String)
  deriving DecidableEq, Repr

def QueryFault.message : QueryFault → String
  | .entityUnbound v => "first-of requires " ++ v ++ " to be bound"
  | .testUnbound v => "predicate variable " ++ v ++ " is unbound"
  | .badPattern p => "invalid pattern " ++ quoted p
  | .neverBound v => "find variable " ++ v ++ " is never bound"
  | .notProjected v => "order variable " ++ v ++ " is not projected"
  | .other reason => reason

inductive StoreError where
  | invalidQuery (fault : QueryFault)
  /-- The evaluation of a query took longer than it may, both in milliseconds. -/
  | timeout (elapsed limit : Nat)
  | snapshotClosed (id : Nat)
  | unknownTransaction (tx : TxId)
  | commitTimeout (tx : TxId)
  | duplicateFunction (name : String)
  | unavailable (reason : String)
  deriving DecidableEq, Repr

def StoreError.kindName : StoreError → String
  | .invalidQuery _ => "InvalidQuery"
  | .timeout _ _ => "Timeout"
  | .snapshotClosed _ => "SnapshotClosed"
  | .unknownTransaction _ => "UnknownTransaction"
  | .commitTimeout _ => "CommitTimeout"
  | .duplicateFunction _ => "DuplicateFunction"
  | .unavailable _ => "Unavailable"

def StoreError.message : StoreError → String
  | .invalidQuery fault => "invalid query: " ++ fault.message
  | .timeout elapsed limit =>
      "query timed out after " ++ toString elapsed ++ " ms (limit: " ++ toString limit ++ " ms)"
  | .snapshotClosed id => "snapshot " ++ toString id ++ " is not open"
  | .unknownTransaction tx => "unknown transaction: " ++ tx.text
  | .commitTimeout tx => "timed out waiting for commit of " ++ tx.text
  | .duplicateFunction name => "transaction function already registered: " ++ name
  | .unavailable reason => "store unavailable: " ++ reason

end MetadataArchive
