import MetadataArchive.Store.History
import MetadataArchive.Store.Transaction

/-!
# `Store` -- histories, snapshots and transactions

A store keeps the history of every document, the log of commits, the outcomes that nobody has
claimed, and the pins of the snapshots that are open. All of it is plain data; the functions that
transactions may call and the time of day are arguments.

Transactions are numbered from one, whether they commit or not. Only commits are logged, with times
that strictly ascend: a transaction that comes no later than the last commit is given the time one
microsecond after it. Evicted history is dropped as soon as no open snapshot can see it.
-/

set_option autoImplicit false

namespace MetadataArchive

structure Commit where
  tx : Nat
  time : Instant
  deriving DecidableEq, Repr

/-- A reader's view of the store at a point in time, known by its number. -/
structure Snapshot where
  id : Nat
  basis : Nat
  asOf : Instant
  deriving DecidableEq, Repr

structure Store where
  histories : NameMap History
  /-- The documents whose history holds an eviction. -/
  evicted : List DocId
  log : List Commit
  /-- The number of the last transaction. -/
  lastTx : Nat
  /-- Outcomes that were not claimed, oldest first. -/
  outcomes : List Outcome
  /-- How many of them are kept. -/
  capacity : Nat
  /-- The pins of the open snapshots, by number. -/
  pins : List (Nat × Pin)
  /-- The number of the last snapshot. -/
  lastSnapshot : Nat

namespace Store

/-- How many unclaimed outcomes a store keeps unless told otherwise. -/
def defaultCapacity : Nat := 10000

/-- The store in which nothing has happened; it keeps at least one unclaimed outcome. -/
def empty (capacity : Nat) : Store := ⟨∅, [], [], 0, [], max capacity 1, [], 0⟩

instance : Inhabited Store := ⟨empty defaultCapacity⟩

/-! ## Views -/

/-- The number of the last commit; zero before the first. -/
def lastCommitted (s : Store) : Nat := (s.log.getLast?.map Commit.tx).getD 0

/-- The pin of a reader of the present. -/
def latestPin (s : Store) : Pin := ⟨s.lastCommitted, s.lastCommitted⟩

/-- What a pinned reader sees. -/
def view (s : Store) (pin : Pin) : Source where
  document? id := (s.histories.get? id).bind (History.visible pin)
  documents := s.histories.values.filterMap (History.visible pin)

def latest (s : Store) : Source := s.view s.latestPin

def documentCount (s : Store) : Nat := s.latest.documents.length

def historyLength (s : Store) (id : DocId) : Nat :=
  ((s.histories.get? id).map History.documentCount).getD 0

/-! ## Snapshots -/

/-- The number of the last commit that is not later than an instant; zero before the first. -/
def basisAsOf (s : Store) (t : Instant) : Nat :=
  ((s.log.takeWhile fun c => c.time.le t).getLast?.map Commit.tx).getD 0

def openSnapshot (s : Store) (now : Instant) (asOf : Option Instant) : Snapshot × Store :=
  let horizon := s.lastCommitted
  let basis :=
    match asOf with
    | none => horizon
    -- An instant that is yet to come is the present.
    | some t => min (s.basisAsOf t) horizon
  let id := s.lastSnapshot + 1
  (⟨id, basis, asOf.getD now⟩,
    { s with pins := s.pins ++ [(id, ⟨basis, horizon⟩)], lastSnapshot := id })

def pinOf (s : Store) (snap : Snapshot) : Except StoreError Pin :=
  match s.pins.lookup snap.id with
  | some pin => .ok pin
  | none => .error (.snapshotClosed snap.id)

def get (s : Store) (snap : Snapshot) (id : DocId) : Except StoreError (Option Document) := do
  let pin ← s.pinOf snap
  .ok ((s.view pin).document? id)

def query (s : Store) (snap : Snapshot) (q : Query) : Except StoreError Rows := do
  let pin ← s.pinOf snap
  q.evaluate (s.view pin)

/-- The least horizon of the open snapshots. -/
def oldestHorizon (s : Store) : Option Nat := (s.pins.map fun p => p.2.horizon).min?

/-- Drop the evicted history that no open snapshot can see. -/
def prune (s : Store) : Store :=
  let oldest := s.oldestHorizon
  let histories := s.histories.filterMap fun id h =>
    if s.evicted.contains id then
      let h := h.prune oldest
      if h.isEmpty then none else some h
    else some h
  { s with
    histories := histories
    evicted := s.evicted.filter fun id =>
      (histories.get? id).any fun h => h.any Version.isEviction }

def release (s : Store) (snap : Snapshot) : Except StoreError Store := do
  let _ ← s.pinOf snap
  .ok (prune { s with pins := s.pins.filter fun p => p.1 != snap.id })

/-! ## Transactions -/

def nextTime (s : Store) (now : Instant) : Instant :=
  -- The times of commits strictly ascend, whatever the clock says.
  match s.log.getLast? with
  | some c => if now.le c.time then c.time.addMicroseconds 1 else now
  | none => now

/-- Add a version to the history of a document. -/
def record (tx : Nat) (s : Store) (id : DocId) (doc : Option Document) : Store :=
  let h := (s.histories.get? id).getD []
  match doc with
  | some _ => { s with histories := s.histories.insert id (h ++ [⟨tx, doc⟩]) }
  | none =>
      -- Nothing is evicted that is not there.
      if h.isLive then
        { s with
          histories := s.histories.insert id (h ++ [⟨tx, doc⟩])
          evicted := if s.evicted.contains id then s.evicted else s.evicted ++ [id] }
      else s

def commit (s : Store) (tx : Nat) (time : Instant) (staged : Staged) : Store :=
  let s := staged.toList.foldl (fun (s : Store) e => s.record tx e.1 e.2) s
  prune { s with log := s.log ++ [⟨tx, time⟩] }

/-- Keep an outcome until it is claimed; of too many the oldest are dropped. -/
def keepOutcome (s : Store) (o : Outcome) : Store :=
  let outcomes := s.outcomes ++ [o]
  { s with outcomes := outcomes.drop (outcomes.length - s.capacity) }

variable {ν : Type}

/-- Run a transaction. Its number is returned, and the notes that functions left. -/
def submit (functions : List (TxFunction ν)) (now : Instant) (s : Store) (ops : List TxOp) :
    TxId × List ν × Store :=
  let tx := s.lastTx + 1
  let time := s.nextTime now
  let (result, notes) := runOps functions ⟨tx⟩ time s.latest ∅ ops
  let s := { s with lastTx := tx }
  match result with
  | .ok staged =>
      (⟨tx⟩, notes,
        (s.commit tx time staged).keepOutcome ⟨⟨tx⟩, time, .committed staged.size⟩)
  | .error fault => (⟨tx⟩, notes, s.keepOutcome ⟨⟨tx⟩, time, .aborted fault⟩)

def claim (s : Store) (tx : TxId) : Except StoreError (Outcome × Store) :=
  match s.outcomes.find? fun o => o.tx == tx with
  | some o => .ok (o, { s with outcomes := s.outcomes.filter fun o => o.tx != tx })
  | none => .error (.unknownTransaction tx)

end Store

end MetadataArchive
