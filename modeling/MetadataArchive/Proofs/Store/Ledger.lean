import MetadataArchive.Proofs.Collection.NameMap
import MetadataArchive.Proofs.Store.History
import MetadataArchive.Proofs.Time.Instant
import MetadataArchive.Store.Basic

/-!
# `Ledger` -- the store without forgetting

A ledger is the list of all transactions that were committed, each with everything it wrote. Nothing
is ever taken from it, and what a pinned reader sees is read off it by number (`Ledger.shows`). It
runs transactions on what it shows itself, so it needs no store beside it; that a store gives the
same answers is for another module to prove.

A ledger carries its own good order: numbers and times ascend. Every view below rests on that.
-/

set_option autoImplicit false

namespace MetadataArchive

/-- A transaction that was committed, and all that it wrote. -/
structure Ledger.Entry where
  tx : Nat
  time : Instant
  writes : Staged

/-- Every transaction that was committed, and how many there were altogether. -/
structure Ledger where
  /-- The number of the last transaction, committed or not. -/
  submitted : Nat
  entries : List Ledger.Entry
  numbered : ∀ e ∈ entries, 0 < e.tx ∧ e.tx ≤ submitted
  ascending : entries.Pairwise fun e f => e.tx < f.tx ∧ f.time.le e.time = false

namespace Ledger

def Entry.commit (e : Entry) : Commit := ⟨e.tx, e.time⟩

def empty : Ledger := ⟨0, [], by simp, List.Pairwise.nil⟩

/-! ## Views -/

/-- The number of the last commit; zero before the first. -/
def last (l : Ledger) : Nat := (l.entries.getLast?.map Entry.tx).getD 0

/-- The number of the last commit with a time not later than an instant; zero before the first. -/
def lastBy (l : Ledger) (t : Instant) : Nat :=
  ((l.entries.filter fun e => e.time.le t).getLast?.map Entry.tx).getD 0

/-- All that was ever written under a key, evictions of what was not there included. -/
def writesTo (l : Ledger) (id : DocId) : History :=
  l.entries.filterMap fun e => (e.writes.get? id).map fun doc => ⟨e.tx, doc⟩

/-- The document that a pinned reader sees under a key: of what was written after the last eviction
by the horizon, the last by the basis. -/
def shows (l : Ledger) (pin : Pin) (id : DocId) : Option Document :=
  (l.writesTo id).lastBetween ((l.writesTo id).evictedAt pin.horizon) pin.basis

def keys (l : Ledger) : List DocId :=
  (NameMap.ofList (l.entries.flatMap fun e => e.writes.toList)).names

def source (l : Ledger) (pin : Pin) : Source := ⟨l.shows pin, l.keys.filterMap (l.shows pin)⟩

/-- The pin of a reader of the present or of an instant of the past. -/
def pinAt (l : Ledger) (asOf : Option Instant) : Pin :=
  ⟨(asOf.map l.lastBy).getD l.last, l.last⟩

def latest (l : Ledger) : Source := l.source ⟨l.last, l.last⟩

variable {l : Ledger} {e : Entry} {pin : Pin} {id : DocId}

theorem le_last (he : e ∈ l.entries) : e.tx ≤ l.last := by
  unfold last
  have hord := l.ascending
  rcases List.eq_nil_or_concat l.entries with hnil | ⟨es, f, hes⟩
  · rw [hnil] at he
    simp at he
  · rw [List.concat_eq_append] at hes
    rw [hes] at hord he ⊢
    rcases List.mem_append.1 he with he | he
    · have := ((List.pairwise_append.1 hord).2.2 e he f (by simp)).1
      simp
      omega
    · simp [List.mem_singleton.1 he]

theorem last_le_submitted (l : Ledger) : l.last ≤ l.submitted := by
  unfold last
  cases h : l.entries.getLast? with
  | none => simp
  | some e => exact (l.numbered e (List.mem_of_getLast? h)).2

theorem lastBy_le_last (l : Ledger) (t : Instant) : l.lastBy t ≤ l.last := by
  unfold lastBy
  cases h : (l.entries.filter fun e => e.time.le t).getLast? with
  | none => simp
  | some e => exact le_last (List.mem_filter.1 (List.mem_of_getLast? h)).1

theorem pinAt_basis_le (l : Ledger) (asOf : Option Instant) :
    (l.pinAt asOf).basis ≤ (l.pinAt asOf).horizon := by
  cases asOf with
  | none => exact Nat.le_refl _
  | some t => exact l.lastBy_le_last t

theorem numbered_writesTo (l : Ledger) (id : DocId) : (l.writesTo id).Numbered := by
  constructor
  · refine List.pairwise_filterMap.2 (l.ascending.imp fun hlt v hv w hw => ?_)
    simp only [Option.map_eq_some_iff] at hv hw
    obtain ⟨_, _, rfl⟩ := hv
    obtain ⟨_, _, rfl⟩ := hw
    exact hlt.1
  · intro v hv
    obtain ⟨e, he, hev⟩ := List.mem_filterMap.1 hv
    obtain ⟨_, _, rfl⟩ := Option.map_eq_some_iff.1 hev
    exact (l.numbered e he).1

theorem shows_eq_visible (l : Ledger) (pin : Pin) (id : DocId) :
    l.shows pin id = (l.writesTo id).visible pin :=
  (History.visible_eq_lastBetween (l.numbered_writesTo id)).symm

theorem mem_keys_of_shows (h : l.shows pin id ≠ none) : id ∈ l.keys := by
  rw [shows_eq_visible] at h
  cases hw : l.writesTo id with
  | nil => rw [hw] at h; exact absurd rfl h
  | cons v vs =>
    have hv : v ∈ l.writesTo id := by simp [hw]
    obtain ⟨e, he, hev⟩ := List.mem_filterMap.1 hv
    obtain ⟨doc, hdoc, _⟩ := Option.map_eq_some_iff.1 hev
    exact NameMap.mem_names_ofList.2
      ⟨doc, List.mem_flatMap.2 ⟨e, he, NameMap.mem_entries.2 hdoc⟩⟩

/-! ## Growth -/

def nextTime (l : Ledger) (now : Instant) : Instant :=
  match l.entries.getLast? with
  | some e => if now.le e.time then e.time.addMicroseconds 1 else now
  | none => now

theorem nextTime_later (l : Ledger) (now : Instant) (he : e ∈ l.entries) :
    (l.nextTime now).le e.time = false := by
  have hord := l.ascending
  rcases List.eq_nil_or_concat l.entries with hnil | ⟨es, f, hes⟩
  · rw [hnil] at he
    simp at he
  · rw [List.concat_eq_append] at hes
    have hnext : (l.nextTime now).le f.time = false := by
      simp only [nextTime, hes, List.getLast?_concat]
      split
      · exact f.time.not_addMicrosecond_le
      next h => simpa using h
    rw [hes] at hord he
    rcases List.mem_append.1 he with he | he
    · -- What is later than the last commit is later than all of them.
      have hef := ((List.pairwise_append.1 hord).2.2 e he f (by simp)).2
      rw [← Bool.not_eq_true]
      intro hle
      have := Instant.le_trans hle (Instant.le_of_not_le hef)
      simp [hnext] at this
    · rw [List.mem_singleton.1 he]
      exact hnext

/-- The ledger after a transaction that was not committed. -/
def skip (l : Ledger) : Ledger where
  submitted := l.submitted + 1
  entries := l.entries
  numbered e he := ⟨(l.numbered e he).1, Nat.le_succ_of_le (l.numbered e he).2⟩
  ascending := l.ascending

def append (l : Ledger) (now : Instant) (writes : Staged) : Ledger where
  submitted := l.submitted + 1
  entries := l.entries ++ [⟨l.submitted + 1, l.nextTime now, writes⟩]
  numbered e he := by
    rcases List.mem_append.1 he with he | he
    · exact ⟨(l.numbered e he).1, Nat.le_succ_of_le (l.numbered e he).2⟩
    · rw [List.mem_singleton.1 he]
      exact ⟨Nat.succ_pos _, Nat.le_refl _⟩
  ascending := by
    refine List.pairwise_append.2 ⟨l.ascending, List.pairwise_singleton _ _, ?_⟩
    intro e he f hf
    rw [List.mem_singleton.1 hf]
    exact ⟨Nat.lt_succ_of_le (l.numbered e he).2, l.nextTime_later now he⟩

variable {ν : Type}

/-- Run a transaction on the latest state. Its number is returned, and the notes that functions
left. -/
def submit (functions : List (TxFunction ν)) (now : Instant) (l : Ledger) (ops : List TxOp) :
    TxId × List ν × Ledger :=
  let tx := l.submitted + 1
  let (result, notes) := runOps functions ⟨tx⟩ (l.nextTime now) l.latest ∅ ops
  match result with
  | .ok writes => (⟨tx⟩, notes, l.append now writes)
  | .error _ => (⟨tx⟩, notes, l.skip)

variable {now : Instant} {writes : Staged}

@[simp] theorem last_skip (l : Ledger) : l.skip.last = l.last := rfl

@[simp] theorem last_append (l : Ledger) (now : Instant) (writes : Staged) :
    (l.append now writes).last = l.submitted + 1 := by
  simp [last, append]

theorem writesTo_append (l : Ledger) (now : Instant) (writes : Staged) (id : DocId) :
    (l.append now writes).writesTo id = l.writesTo id ++
      ((writes.get? id).map fun doc => ⟨l.submitted + 1, doc⟩).toList := by
  simp only [writesTo, append, List.filterMap_append, List.filterMap_cons, List.filterMap_nil]
  cases writes.get? id <;> rfl

/-- A commit is beyond every reader that was pinned before it. -/
theorem shows_append (hb : pin.basis ≤ pin.horizon) (hh : pin.horizon ≤ l.last) :
    (l.append now writes).shows pin id = l.shows pin id := by
  have hnew : pin.horizon < l.submitted + 1 :=
    Nat.lt_succ_of_le (Nat.le_trans hh l.last_le_submitted)
  rw [shows_eq_visible, shows_eq_visible, writesTo_append]
  cases writes.get? id with
  | none => simp
  | some doc =>
    have hev : Version.isEvictionBy pin.horizon ⟨l.submitted + 1, doc⟩ = false := by
      simp [Version.isEvictionBy]
      omega
    rw [Option.map_some, Option.toList_some, History.visible_concat, hev, if_neg (by simp),
      if_neg (by simp; omega)]

theorem source_append (hb : pin.basis ≤ pin.horizon) (hh : pin.horizon ≤ l.last) :
    (l.append now writes).source pin = l.source pin := by
  have hshows : (l.append now writes).shows pin = l.shows pin :=
    funext fun id => shows_append hb hh
  have hdocs : (l.append now writes).keys.filterMap (l.shows pin) =
      l.keys.filterMap (l.shows pin) :=
    Entries.filterMap_eq_of_ascending (NameMap.names_ascending _) (NameMap.names_ascending _)
      fun x hx => ⟨fun _ => mem_keys_of_shows hx, fun _ => mem_keys_of_shows (hshows ▸ hx)⟩
  unfold source
  rw [hshows, hdocs]

end Ledger

end MetadataArchive
