import MetadataArchive.Store.Basic

/-!
# What a store was used for

Operations of a store are counted as they are answered: queries and reads of documents whether they
succeed or not, transactions and snapshots where they do. Snapshots that were opened and not
released are outstanding.
-/

set_option autoImplicit false

namespace MetadataArchive

/-- The counts since the last reset. -/
structure Usage where
  queries : Nat
  queryErrors : Nat
  gets : Nat
  submitted : Nat
  /-- Transactions whose outcome was claimed and which committed. -/
  committed : Nat
  /-- Transactions whose outcome was claimed and which did not commit. -/
  aborted : Nat
  opened : Nat
  released : Nat
  deriving DecidableEq, Repr

namespace Usage

def zero : Usage := ⟨0, 0, 0, 0, 0, 0, 0, 0⟩

def outstanding (u : Usage) : Nat := u.opened - u.released

def countGet (u : Usage) : Usage := { u with gets := u.gets + 1 }

def countQueries (u : Usage) (n : Nat) (failed : Bool) : Usage :=
  { u with
    queries := u.queries + n
    queryErrors := if failed then u.queryErrors + 1 else u.queryErrors }

def countOutcome (u : Usage) (o : Outcome) : Usage :=
  if o.committed then { u with committed := u.committed + 1 }
  else { u with aborted := u.aborted + 1 }

end Usage

end MetadataArchive
