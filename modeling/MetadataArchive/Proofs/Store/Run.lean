import MetadataArchive.Proofs.Store.Refinement

/-!
# Runs of a store

A run is any order of transactions, snapshots opened and released, and outcomes claimed, at times of
day that may go back and forth. The ledger of a run is that of its transactions alone. A snapshot
that is not released reads the ledger by its pin, at the end of the run as on the day it was opened.
-/

set_option autoImplicit false

namespace MetadataArchive

/-- What may happen to a store. The functions that it knows are those of the time. -/
inductive StoreEvent (ν : Type) where
  | submit (functions : List (TxFunction ν)) (now : Instant) (ops : List TxOp)
  | openSnapshot (now : Instant) (asOf : Option Instant)
  | release (snap : Snapshot)
  | claim (tx : TxId)

def StoreEvent.Releases {ν : Type} (id : Nat) : StoreEvent ν → Prop
  | .release snap => snap.id = id
  | _ => False

variable {ν : Type} {s : Store} {l : Ledger} {pin : Pin} {n : Nat} {ev : StoreEvent ν}

/-- The store after an event; what is refused changes nothing. -/
def Store.step (s : Store) : StoreEvent ν → Store
  | .submit functions now ops => (s.submit functions now ops).2.2
  | .openSnapshot now asOf => (s.openSnapshot now asOf).2
  | .release snap =>
      match s.release snap with
      | .ok s' => s'
      | .error _ => s
  | .claim tx =>
      match s.claim tx with
      | .ok (_, s') => s'
      | .error _ => s

def Store.run (s : Store) (events : List (StoreEvent ν)) : Store := events.foldl Store.step s

/-- The ledger after an event: only transactions are entered. -/
def Ledger.step (l : Ledger) : StoreEvent ν → Ledger
  | .submit functions now ops => (l.submit functions now ops).2.2
  | _ => l

def Ledger.run (l : Ledger) (events : List (StoreEvent ν)) : Ledger := events.foldl Ledger.step l

theorem Tracks.step (h : Tracks s l) (ev : StoreEvent ν) : Tracks (s.step ev) (l.step ev) := by
  cases ev with
  | submit functions now ops => exact (h.submit functions now ops).2.2
  | openSnapshot now asOf => exact h.openSnapshot now asOf
  | release snap =>
    simp only [Store.step, Ledger.step]
    cases hs : s.release snap with
    | ok s' => exact h.release hs
    | error e => exact h
  | claim tx =>
    simp only [Store.step, Ledger.step]
    cases hs : s.claim tx with
    | ok r => exact h.claim hs
    | error e => exact h

theorem Tracks.run (h : Tracks s l) (events : List (StoreEvent ν)) :
    Tracks (s.run events) (l.run events) := by
  induction events generalizing s l with
  | nil => exact h
  | cons ev events ih => exact ih (h.step ev)

/-! ## What a ledger shows does not change -/

theorem Ledger.source_step (hb : pin.basis ≤ pin.horizon) (hh : pin.horizon ≤ l.last)
    (ev : StoreEvent ν) :
    (l.step ev).source pin = l.source pin ∧ pin.horizon ≤ (l.step ev).last := by
  cases ev with
  | submit functions now ops =>
    simp only [Ledger.step, Ledger.submit]
    split
    · refine ⟨Ledger.source_append hb hh, ?_⟩
      rw [Ledger.last_append]
      exact Nat.le_succ_of_le (Nat.le_trans hh l.last_le_submitted)
    · exact ⟨rfl, hh⟩
  | openSnapshot | release | claim => exact ⟨rfl, hh⟩

theorem Ledger.source_run (hb : pin.basis ≤ pin.horizon) (hh : pin.horizon ≤ l.last)
    (events : List (StoreEvent ν)) : (l.run events).source pin = l.source pin := by
  induction events generalizing l with
  | nil => rfl
  | cons ev events ih =>
    obtain ⟨hsource, hh'⟩ := Ledger.source_step hb hh ev
    rw [← hsource]
    exact ih hh'

/-! ## Snapshots stay open -/

theorem Store.submit_pins (s : Store) (functions : List (TxFunction ν)) (now : Instant)
    (ops : List TxOp) : (s.submit functions now ops).2.2.pins = s.pins := by
  simp only [Store.submit]
  split
  · exact Store.commit_pins _ _ (s.nextTime now) _
  · rfl

theorem lookup_filter_ne {pins : List (Nat × Pin)} {m : Nat} (h : n ≠ m) :
    (pins.filter fun p => p.1 != m).lookup n = pins.lookup n := by
  induction pins with
  | nil => rfl
  | cons p pins ih =>
    obtain ⟨k, q⟩ := p
    rw [List.filter_cons]
    by_cases hk : k = m
    · rw [if_neg (by simp [hk]), ih, List.lookup_cons, beq_false_of_ne (hk ▸ h)]
    · rw [if_pos (by simpa using hk), List.lookup_cons, List.lookup_cons, ih]

/-- Only its release closes a snapshot. -/
theorem Store.lookup_pins_step (hp : s.pins.lookup n = some pin) (hev : ¬ ev.Releases n) :
    (s.step ev).pins.lookup n = some pin := by
  cases ev with
  | submit functions now ops =>
    simp only [Store.step, Store.submit_pins, hp]
  | openSnapshot now asOf =>
    simp only [Store.step, Store.openSnapshot, List.lookup_append, hp, Option.some_or]
  | release snap =>
    simp only [Store.step, Store.release]
    cases hs : s.pinOf snap with
    | error e => exact hp
    | ok _ => exact (lookup_filter_ne fun heq => hev heq.symm).trans hp
  | claim tx =>
    simp only [Store.step, Store.claim]
    cases s.outcomes.find? fun o => o.tx == tx <;> exact hp

theorem Store.lookup_pins_run {events : List (StoreEvent ν)} (hp : s.pins.lookup n = some pin)
    (hev : ∀ ev ∈ events, ¬ ev.Releases n) : (s.run events).pins.lookup n = some pin := by
  induction events generalizing s with
  | nil => exact hp
  | cons ev events ih =>
    exact ih (Store.lookup_pins_step hp (hev ev (by simp)))
      fun e he => hev e (List.mem_cons_of_mem _ he)

theorem Tracks.lookup_pins_opened (h : Tracks s l) (now : Instant) (asOf : Option Instant) :
    (s.openSnapshot now asOf).2.pins.lookup (s.openSnapshot now asOf).1.id =
      some (l.pinAt asOf) := by
  have hfresh : s.pins.lookup (s.lastSnapshot + 1) = none := by
    refine List.lookup_eq_none_iff.2 fun p hp => ?_
    have := (h.pins p hp).1
    simp
    omega
  rw [h.openSnapshot_eq, List.lookup_append, hfresh]
  simp

/-- **A snapshot reads the ledger.** However a run goes on, a snapshot that was not released shows
under each key, and answers to each query, what follows from the transactions of the whole run by
its pin; and that is what followed from them when it was opened. -/
theorem snapshot_reads_ledger (capacity : Nat) (before after : List (StoreEvent ν)) (now : Instant)
    (asOf : Option Instant) {snap : Snapshot} {opened : Store}
    (hopened : ((Store.empty capacity).run before).openSnapshot now asOf = (snap, opened))
    (hheld : ∀ ev ∈ after, ¬ ev.Releases snap.id) :
    let past := Ledger.empty.run before
    let ledger := past.run after
    let pin := past.pinAt asOf
    snap.basis = pin.basis ∧
      (∀ id, (opened.run after).get snap id = .ok (ledger.shows pin id)) ∧
      (∀ q, (opened.run after).query snap q = q.evaluate (ledger.source pin)) ∧
      ledger.source pin = past.source pin := by
  intro past ledger pin
  have htracks : Tracks ((Store.empty capacity).run before) past :=
    (Tracks.empty capacity).run before
  have hopen := htracks.lookup_pins_opened now asOf
  have htracks' := htracks.openSnapshot now asOf
  have hbasis : snap.basis = pin.basis := by
    rw [htracks.openSnapshot_eq] at hopened
    rw [← (Prod.mk.inj hopened).1]
  rw [hopened] at hopen htracks'
  have hlookup : (opened.run after).pins.lookup snap.id = some pin :=
    Store.lookup_pins_run hopen hheld
  have hpin : (opened.run after).pinOf snap = .ok pin := by
    rw [Store.pinOf, hlookup]
  -- The snapshot is among the open ones, so its reader is served.
  have hserves : Serves (opened.run after) ledger pin := by
    obtain ⟨_, _, hpins, _⟩ := List.lookup_eq_some_iff.1 hlookup
    exact ⟨past.pinAt_basis_le asOf, Or.inr ⟨snap.id, by simp [hpins]⟩⟩
  have hview : (opened.run after).view pin = ledger.source pin :=
    (htracks'.run after).view_eq hserves
  refine ⟨hbasis, fun id => ?_, fun q => ?_, ?_⟩
  · have hshows : ledger.shows pin id = ((opened.run after).view pin).document? id := by
      rw [hview]
      rfl
    rw [Store.get, hpin, hshows]
    rfl
  · rw [Store.query, hpin, ← hview]
    rfl
  · exact Ledger.source_run (past.pinAt_basis_le asOf) (Nat.le_refl _) after

/-- A document that was evicted after a snapshot was opened is still there for its reader. -/
theorem snapshot_reads_evicted_document :
    let put : List (StoreEvent Unit) := [.submit [] ⟨0, 0⟩ [.write (.put (.ofId "e:1"))]]
    let evict : List (StoreEvent Unit) := [.submit [] ⟨0, 0⟩ [.write (.evict "e:1")], .claim ⟨2⟩]
    let (snap, opened) := ((Store.empty 1).run put).openSnapshot ⟨0, 0⟩ none
    (∀ ev ∈ evict, ¬ ev.Releases snap.id) ∧
      (opened.run evict).get snap "e:1" = .ok (some (.ofId "e:1")) := by
  have hheld : ∀ ev ∈ ([.submit [] ⟨0, 0⟩ [.write (.evict "e:1")], .claim ⟨2⟩] :
      List (StoreEvent Unit)), ¬ ev.Releases 1 := by
    simp [StoreEvent.Releases]
  exact ⟨hheld, (snapshot_reads_ledger 1 [.submit [] ⟨0, 0⟩ [.write (.put (.ofId "e:1"))]] _ ⟨0, 0⟩
    none rfl hheld).2.1 "e:1"⟩

end MetadataArchive
