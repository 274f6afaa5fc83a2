import MetadataArchive.Failure

/-!
# `Rejections` -- failures on their way to who caused them

A transaction whose request was rejected commits nothing, so the failure is kept beside the store,
under the number of the transaction, until whoever submitted it takes it. Failures that nobody takes
are dropped: those that are too old, and the first where there are too many.

The failures are in the order in which their transactions were first met. A failure recorded anew
under the same number takes the place of the old one and keeps its position. What is too old is
dropped from the front, up to the first that is not.
-/

set_option autoImplicit false

namespace MetadataArchive

/-- How much is kept, and for how long. -/
structure RejectionLimits where
  maxEntries : Nat
  /-- In milliseconds. -/
  ttlMs : Nat
  deriving DecidableEq, Repr

namespace RejectionLimits

def default : RejectionLimits := ⟨10000, 60000⟩

def toJson (l : RejectionLimits) : Json :=
  .obj [("max_entries", .int l.maxEntries), ("ttl_ms", .int l.ttlMs)]

def ofJson? (j : Json) : Option RejectionLimits := do
  let ms ← j.fields? ["max_entries", "ttl_ms"]
  some
    { maxEntries := ← Json.defaulted ms "max_entries" (Json.toNat? 64) default.maxEntries
      ttlMs := ← Json.defaulted ms "ttl_ms" (Json.toNat? 64) default.ttlMs }

end RejectionLimits

/-- A failure that was recorded, at a time in microseconds. -/
structure Recorded where
  tx : TxId
  failure : Failure
  time : Nat
  deriving DecidableEq, Repr

structure RejectionCounts where
  recorded : Nat
  taken : Nat
  expired : Nat
  overflowed : Nat
  deriving DecidableEq, Repr

def RejectionCounts.toJson (c : RejectionCounts) : Json :=
  .obj [("recorded", .int c.recorded), ("taken", .int c.taken), ("expired", .int c.expired),
    ("overflowed", .int c.overflowed)]

/-- The failures that nobody has taken. -/
structure Rejections where
  limits : RejectionLimits
  entries : List Recorded
  counts : RejectionCounts
  deriving Repr

namespace Rejections

def empty (limits : RejectionLimits) : Rejections := ⟨limits, [], ⟨0, 0, 0, 0⟩⟩

def size (r : Rejections) : Nat := r.entries.length

def isStale (limits : RejectionLimits) (now : Nat) (e : Recorded) : Bool :=
  limits.ttlMs * 1000 ≤ now - e.time

/-- Drop what is too old from the front. -/
def expire (r : Rejections) (now : Nat) : Rejections :=
  let kept := r.entries.dropWhile (isStale r.limits now)
  { r with
    entries := kept
    counts := { r.counts with
      expired := r.counts.expired + (r.entries.length - kept.length) } }

/-- Put a failure in the place of one of the same transaction, or else at the end. -/
def place (e : Recorded) : List Recorded → List Recorded
  | [] => [e]
  | d :: rest => if d.tx = e.tx then e :: rest else d :: place e rest

def overflow (r : Rejections) : Rejections :=
  let excess := r.entries.length - r.limits.maxEntries
  { r with
    entries := r.entries.drop excess
    counts := { r.counts with overflowed := r.counts.overflowed + excess } }

def record (r : Rejections) (now : Nat) (tx : TxId) (failure : Failure) : Rejections :=
  let r := r.expire now
  overflow
    { r with
      entries := place ⟨tx, failure, now⟩ r.entries
      counts := { r.counts with recorded := r.counts.recorded + 1 } }

def take (r : Rejections) (now : Nat) (tx : TxId) : Option Failure × Rejections :=
  let r := r.expire now
  match r.entries.find? fun e => e.tx == tx with
  | none => (none, r)
  | some e =>
      (some e.failure,
        { r with
          entries := r.entries.filter fun e => e.tx != tx
          counts := { r.counts with taken := r.counts.taken + 1 } })

end Rejections

end MetadataArchive
