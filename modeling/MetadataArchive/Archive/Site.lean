import MetadataArchive.Lifecycle.Catalog
import MetadataArchive.Lifecycle.Rejections
import MetadataArchive.Search.Graph
import MetadataArchive.Store.Usage

/-!
# `Site` -- a store in operation

A site is a store together with the functions it knows, the count of its use, and the failures of
requests that were rejected in it. Work on a site may fail and changes it nevertheless: a
transaction that was aborted has its number, and a snapshot that was opened before a failure is
released.
-/

set_option autoImplicit false

namespace MetadataArchive

/-- The time of day, and the microseconds that have passed; the time of day may be set back. -/
structure Clock where
  now : Instant
  elapsed : Nat
  deriving DecidableEq, Repr

/-- The clock after the time of day has moved by so many microseconds. Only forwards does time
pass. -/
def Clock.advance (c : Clock) (us : Int) : Clock :=
  ⟨c.now.addMicroseconds us, c.elapsed + us.toNat⟩

/-- A store in operation. -/
structure Site where
  store : Store
  functions : List (TxFunction Failure)
  usage : Usage
  rejections : Rejections

/-- Work on a site that may fail. -/
abbrev OnSite (ε α : Type) := ExceptT ε (StateM Site) α

namespace Site

/-- A site where nothing has happened; its store keeps so many unclaimed outcomes. -/
def empty (capacity : Nat) : Site := ⟨.empty capacity, [], .zero, .empty .default⟩

def register (f : TxFunction Failure) : OnSite StoreError Unit := fun s =>
  if s.functions.any fun g => g.name == f.name then (.error (.duplicateFunction f.name), s)
  else (.ok (), { s with functions := s.functions ++ [f] })

def openSnapshot (c : Clock) (asOf : Option Instant) : StateM Site Snapshot := fun s =>
  let (snap, store) := s.store.openSnapshot c.now asOf
  (snap, { s with store, usage := { s.usage with opened := s.usage.opened + 1 } })

def release (snap : Snapshot) : OnSite StoreError Unit := fun s =>
  match s.store.release snap with
  | .ok store =>
      (.ok (), { s with store, usage := { s.usage with released := s.usage.released + 1 } })
  | .error e => (.error e, s)

def get (snap : Snapshot) (id : DocId) : OnSite StoreError (Option Document) := fun s =>
  (s.store.get snap id, { s with usage := s.usage.countGet })

def query (snap : Snapshot) (q : Query) : OnSite StoreError Rows := fun s =>
  let result := s.store.query snap q
  (result, { s with usage := s.usage.countQueries 1 (result matches .error _) })

/-- What is connected with a document over at most so many relationships. -/
def traverse (l : QueryLimits) (snap : Snapshot) (root : DocId) (depth : Nat) :
    OnSite SearchError Walk := fun s =>
  let usage := s.usage.countGet
  match s.store.walk l snap root depth with
  | .error e => (.error e, { s with usage })
  | .ok (w, none) => (.ok w, { s with usage := usage.countQueries w.hops false })
  | .ok (w, some e) => (.error (.store e), { s with usage := usage.countQueries (w.hops + 1) true })

/-- Run a transaction. The failures that functions note are kept under its number. -/
def submit (c : Clock) (ops : List TxOp) : StateM Site TxId := fun s =>
  let (tx, notes, store) := s.store.submit s.functions c.now ops
  (tx,
    { s with
      store
      usage := { s.usage with submitted := s.usage.submitted + 1 }
      rejections := notes.foldl (fun r failure => r.record c.elapsed tx failure) s.rejections })

def claim (tx : TxId) : OnSite StoreError Outcome := fun s =>
  match s.store.claim tx with
  | .error e => (.error e, s)
  | .ok (o, store) => (.ok o, { s with store, usage := s.usage.countOutcome o })

/-- Take the failure of a transaction whose request was rejected. -/
def takeRejection (c : Clock) (tx : TxId) : StateM Site (Option Failure) := fun s =>
  let (failure, rejections) := s.rejections.take c.elapsed tx
  (failure, { s with rejections })

end Site

instance : MonadLift (OnSite StoreError) (OnSite Failure) := ⟨ExceptT.adapt Failure.ofStore⟩

instance : MonadLift (Except Failure) (OnSite Failure) := ⟨fun result => ExceptT.mk (pure result)⟩

end MetadataArchive
