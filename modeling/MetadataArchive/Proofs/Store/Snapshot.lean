import MetadataArchive.Proofs.Store.Run

/-!
# What an open snapshot shows

A snapshot that was just opened shows the ledger by its pin, and it shows the same as long as it is
open.
-/

set_option autoImplicit false

namespace MetadataArchive

variable {s : Store} {snap : Snapshot} {src : Source}

/-- A snapshot that is open shows a fixed set of documents. -/
def Store.Shows (s : Store) (snap : Snapshot) (src : Source) : Prop :=
  ∃ pin, s.pinOf snap = .ok pin ∧ s.view pin = src

theorem Store.Shows.get (h : s.Shows snap src) (id : DocId) :
    s.get snap id = .ok (src.document? id) := by
  obtain ⟨pin, hpin, rfl⟩ := h
  rw [Store.get, hpin]
  rfl

theorem Store.Shows.query (h : s.Shows snap src) (q : Query) :
    s.query snap q = q.evaluate src := by
  obtain ⟨pin, hpin, rfl⟩ := h
  rw [Store.query, hpin]
  rfl

/-- A snapshot that was just opened shows the ledger by its pin. -/
theorem Tracks.shows_opened {l : Ledger} (h : Tracks s l) (now : Instant)
    (asOf : Option Instant) :
    (s.openSnapshot now asOf).2.Shows (s.openSnapshot now asOf).1 (l.source (l.pinAt asOf)) := by
  have hlookup := h.lookup_pins_opened now asOf
  refine ⟨l.pinAt asOf, by rw [Store.pinOf, hlookup], ?_⟩
  have hserves : Serves (s.openSnapshot now asOf).2 l (l.pinAt asOf) :=
    ⟨l.pinAt_basis_le asOf, Or.inl (Nat.le_refl _)⟩
  exact (h.openSnapshot now asOf).view_eq hserves

/-- Whoever opens a snapshot of this instant, or of the present, is shown these documents. -/
def Store.ShowsAsOf (s : Store) (asOf : Option Instant) (src : Source) : Prop :=
  ∀ now, (s.openSnapshot now asOf).2.Shows (s.openSnapshot now asOf).1 src

theorem Tracks.showsAsOf {l : Ledger} (h : Tracks s l) (asOf : Option Instant) :
    s.ShowsAsOf asOf (l.source (l.pinAt asOf)) := fun now => h.shows_opened now asOf

/-- A document that someone gets who opens a snapshot now, of the present or of an instant of the
past. -/
def Store.Visible (s : Store) (d : Document) : Prop :=
  ∃ (now : Instant) (asOf : Option Instant),
    (s.openSnapshot now asOf).2.get (s.openSnapshot now asOf).1 d.id = .ok (some d)

theorem Tracks.visible_iff {l : Ledger} (h : Tracks s l) {d : Document} :
    s.Visible d ↔ ∃ asOf, l.shows (l.pinAt asOf) d.id = some d := by
  have hget (now : Instant) (asOf : Option Instant) :
      (s.openSnapshot now asOf).2.get (s.openSnapshot now asOf).1 d.id =
        .ok (l.shows (l.pinAt asOf) d.id) := (h.shows_opened now asOf).get d.id
  constructor
  · rintro ⟨now, asOf, hd⟩
    rw [hget, Except.ok.injEq] at hd
    exact ⟨asOf, hd⟩
  · rintro ⟨asOf, hd⟩
    exact ⟨⟨0, 0⟩, asOf, by rw [hget, hd]⟩

theorem Store.lookup_of_pinOf {pin : Pin} (h : s.pinOf snap = .ok pin) :
    s.pins.lookup snap.id = some pin := by
  unfold Store.pinOf at h
  split at h
  next hl =>
    cases h
    exact hl
  · cases h

/-- What a snapshot shows is the ledger by some pin. -/
theorem Tracks.source_of_shows {l : Ledger} (h : Tracks s l) (hsnap : s.Shows snap src) :
    ∃ pin, src = l.source pin := by
  obtain ⟨pin, hpin, rfl⟩ := hsnap
  obtain ⟨_, _, hpins, _⟩ := List.lookup_eq_some_iff.1 (Store.lookup_of_pinOf hpin)
  have hmem : (snap.id, pin) ∈ s.pins := by simp [hpins]
  exact ⟨pin, h.view_eq ⟨(h.pins _ hmem).2.1, Or.inr ⟨_, hmem⟩⟩⟩

/-- **A snapshot shows the same as long as it is open**, whatever happens meanwhile. -/
theorem Tracks.shows_run {ν : Type} {l : Ledger} (h : Tracks s l) (hsnap : s.Shows snap src)
    {events : List (StoreEvent ν)} (hheld : ∀ ev ∈ events, ¬ ev.Releases snap.id) :
    (s.run events).Shows snap src := by
  obtain ⟨pin, hpin, rfl⟩ := hsnap
  have hlookup : s.pins.lookup snap.id = some pin := Store.lookup_of_pinOf hpin
  have hserves {s' : Store} {l' : Ledger} (h' : Tracks s' l')
      (hl : s'.pins.lookup snap.id = some pin) : (snap.id, pin) ∈ s'.pins ∧ Serves s' l' pin := by
    obtain ⟨_, _, hpins, _⟩ := List.lookup_eq_some_iff.1 hl
    have hmem : (snap.id, pin) ∈ s'.pins := by simp [hpins]
    exact ⟨hmem, (h'.pins _ hmem).2.1, Or.inr ⟨_, hmem⟩⟩
  have hlookup' : (s.run events).pins.lookup snap.id = some pin :=
    Store.lookup_pins_run hlookup hheld
  obtain ⟨hmem, hbefore⟩ := hserves h hlookup
  obtain ⟨-, hafter⟩ := hserves (h.run events) hlookup'
  refine ⟨pin, by rw [Store.pinOf, hlookup'], ?_⟩
  rw [(h.run events).view_eq hafter, h.view_eq hbefore]
  exact Ledger.source_run hbefore.1 (h.pins _ hmem).2.2 events

end MetadataArchive
