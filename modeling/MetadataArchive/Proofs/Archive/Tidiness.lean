import MetadataArchive.Proofs.Archive.Edit
import MetadataArchive.Proofs.Store.Reclamation

/-!
# No call leaves a snapshot open

Whatever is read of an archive is read from one snapshot, which is released before the answer is
judged. To open and release a snapshot leaves a store as it was but for the numbers it gives out:
the other snapshots stay open, and nothing that is held for their sake is dropped, because a store
never holds more than its open snapshots need (`Reclaims.prune_eq`). So after any call the site is
as the call's own transaction left it, with one more snapshot opened and released at most
(`calls_leave_no_snapshot_open`).
-/

set_option autoImplicit false

namespace MetadataArchive

/-! ## Stores -/

/-- A store that is in order is pruned. -/
theorem Reclaims.prune_eq {s : Store} {l : Ledger} (h : Reclaims s l) : s.prune = s := by
  have hhistory (id : DocId) : s.prune.histories.get? id = s.histories.get? id := by
    rw [Store.get?_prune]
    cases hget : s.histories.get? id with
    | none => rfl
    | some old =>
      have hhistory : s.historyOf id = old := by rw [Store.historyOf, hget, Option.getD_some]
      have hkept : old.prune s.oldestHorizon = old := by
        rw [← hhistory, h.held]
        exact History.prune_prune fun _ _ hpassed => hpassed
      have hold : old ≠ [] := fun hnil => h.marked.nonempty id (hnil ▸ hget)
      simp [hkept, hold]
  have hhistories : s.prune.histories = s.histories := NameMap.ext_get? hhistory
  have hevicted : s.prune.evicted = s.evicted := by
    refine List.filter_eq_self.2 fun id hid => ?_
    obtain ⟨v, hv, hev⟩ := h.exact id hid
    have hpruned : v ∈ s.prune.historyOf id := by rwa [Store.historyOf, hhistories]
    exact (List.mem_filter.1 ((s.mem_evicted_prune id).2 ⟨hid, v, hpruned, hev⟩)).2
  rw [Store.prune] at hhistories hevicted ⊢
  simp only at hhistories hevicted
  rw [hevicted, hhistories]

namespace Store.Reached

variable {s : Store}

theorem reclaims (h : s.Reached) : ∃ l, Tracks s l ∧ Reclaims s l := by
  obtain ⟨capacity, events, rfl⟩ := h
  exact ⟨_, (Tracks.empty capacity).run events,
    (Reclaims.empty capacity).run (Tracks.empty capacity) events⟩

/-- **A snapshot that is released at once** has taken a number, and that is all. -/
theorem release_opened (h : s.Reached) (now : Instant) (asOf : Option Instant) :
    (s.openSnapshot now asOf).2.release (s.openSnapshot now asOf).1 =
      .ok { s with lastSnapshot := s.lastSnapshot + 1 } := by
  obtain ⟨l, htracks, hreclaims⟩ := h.reclaims
  have hpin : (s.openSnapshot now asOf).2.pinOf (s.openSnapshot now asOf).1 =
      .ok (l.pinAt asOf) := by
    rw [Store.pinOf, htracks.lookup_pins_opened]
  have hpins : ((s.pins ++ [(s.lastSnapshot + 1, l.pinAt asOf)]).filter
      fun p => p.1 != s.lastSnapshot + 1) = s.pins := by
    rw [List.filter_append, List.filter_eq_self.2]
    · simp
    · intro p hp
      have hle := (htracks.pins p hp).1
      simp only [bne_iff_ne]
      omega
  have hnumbered : Reclaims { s with lastSnapshot := s.lastSnapshot + 1 } l :=
    hreclaims.congr rfl rfl rfl fun _ => rfl
  rw [Store.release, hpin]
  simp only [htracks.openSnapshot_eq, hpins]
  exact congrArg Except.ok hnumbered.prune_eq

/-- To take numbers is to open snapshots and to release them. -/
theorem visited (h : s.Reached) (n : Nat) :
    ({ s with lastSnapshot := s.lastSnapshot + n } : Store).Reached := by
  induction n with
  | zero => exact h
  | succ n ih =>
    let s' : Store := { s with lastSnapshot := s.lastSnapshot + n }
    let now : Instant := ⟨0, 0⟩
    have hstep := (ih.step (.openSnapshot now none)).step
      (.release (s'.openSnapshot now none).1)
    simp only [Store.step, s', ih.release_opened now none] at hstep
    exact hstep

end Store.Reached

/-! ## Sites -/

/-- The site after so many snapshots were opened and released there. -/
def Site.visited (n : Nat) (site : Site) : Site :=
  { site with
    store := { site.store with lastSnapshot := site.store.lastSnapshot + n }
    usage :=
      { site.usage with opened := site.usage.opened + n, released := site.usage.released + n } }

section Work

variable {α β : Type} {site : Site} {c : Clock} {asOf : Option Instant}

/-- **Whatever is read, and whatever goes wrong with it**, the snapshot that it is read from is
released. -/
theorem Archive.reading_eq (h : site.store.Reached)
    (read : Store → Snapshot → Except Failure α) :
    Archive.reading c asOf read site =
      (read (site.store.openSnapshot c.now asOf).2 (site.store.openSnapshot c.now asOf).1,
        site.visited 1) := by
  have hrelease := h.release_opened c.now asOf
  simp only [Archive.reading, Site.openSnapshot, Site.release, hrelease]
  cases read (site.store.openSnapshot c.now asOf).2 (site.store.openSnapshot c.now asOf).1 <;> rfl

/-- Work that opens a snapshot at most, releases it, and does nothing else to a site. -/
def OnSite.Visits (x : OnSite Failure α) : Prop :=
  ∀ site : Site, site.store.Reached → ∃ n ≤ 1, (x site).2 = site.visited n

namespace OnSite.Visits

variable {x : OnSite Failure α}

theorem reading (asOf : Option Instant) (read : Store → Snapshot → Except Failure α) :
    Visits (Archive.reading c asOf read) := fun _ h =>
  ⟨1, Nat.le_refl 1, congrArg Prod.snd (Archive.reading_eq h read)⟩

/-- What is read may be judged afterwards. -/
theorem judged (hx : Visits x) {f : α → OnSite Failure β}
    (hf : ∀ a site, (f a site).2 = site) : Visits (x >>= f) := by
  intro site h
  obtain ⟨n, hn, hsite⟩ := hx site h
  refine ⟨n, hn, ?_⟩
  rw [bind_eq]
  rcases hread : x site with ⟨_ | a, site'⟩ <;> rw [hread] at hsite
  · exact hsite
  · exact (hf a site').trans hsite

/-- What is wanted may be worked out before. -/
theorem planned (plan : Except Failure α) {f : α → OnSite Failure β} (hf : ∀ a, Visits (f a)) :
    Visits ((liftM plan : OnSite Failure α) >>= f) := by
  intro site h
  cases plan with
  | error failure => exact ⟨0, Nat.zero_le 1, rfl⟩
  | ok a => exact hf a site h

end OnSite.Visits

/-- A transaction, whatever comes of it, has nothing to do with snapshots. -/
theorem Archive.commit_snapshots (h : site.store.Reached) (c : Clock) (ops : List TxOp) :
    (Archive.commit c ops site).2.store.Reached ∧
      (Archive.commit c ops site).2.store.pins = site.store.pins ∧
      (Archive.commit c ops site).2.usage.opened = site.usage.opened ∧
      (Archive.commit c ops site).2.usage.released = site.usage.released := by
  have hreached : (Site.submit c ops site).2.store.Reached :=
    h.step (.submit site.functions c.now ops)
  have hpins : (Site.submit c ops site).2.store.pins = site.store.pins :=
    Store.submit_pins site.store site.functions c.now ops
  rw [commit_eq]
  generalize (Site.submit c ops site).1 = tx
  cases hclaim : (Site.submit c ops site).2.store.claim tx with
  | error e =>
    rw [resolve_error hclaim]
    exact ⟨hreached, hpins, rfl, rfl⟩
  | ok r =>
    obtain ⟨o, store⟩ := r
    have hstore : store.Reached ∧ store.pins = site.store.pins := by
      have hstep := hreached.step (.claim tx)
      simp only [Store.step, hclaim] at hstep
      refine ⟨hstep, ?_⟩
      unfold Store.claim at hclaim
      split at hclaim
      · cases hclaim
        exact hpins
      · cases hclaim
    rw [resolve_eq hclaim]
    refine ⟨hstore.1, hstore.2, ?_, ?_⟩ <;>
    · simp only [Usage.countOutcome]
      split <;> rfl

end Work

/-! ## Calls -/

/-- What may be asked of an archive: to read a record, to search, to follow relationships, and to
carry out an operation, where it is said whether the record is read back. -/
inductive Call where
  | storedEntity (guid : String) (asOf : Option Instant)
  | entity (guid : String) (asOf : Option Instant)
  | relationship (guid : String) (asOf : Option Instant)
  | findEntities (search : EntitySearch)
  | findRelationships (search : RelationshipSearch)
  | relationshipsOf (guid : String) (search : RelationshipSearch)
  | related (search : GraphSearch)
  | neighborhood (search : GraphSearch)
  | entityAfter (user : String) (request : Request)
  | relationshipAfter (user : String) (request : Request)
  | operate (op : Operation)

namespace Call

def Result : Call → Type
  | .storedEntity .. => Option StoredEntity
  | .entity .. | .entityAfter .. => Entity
  | .relationship .. | .relationshipAfter .. => Relationship
  | .findEntities .. => Page Entity
  | .findRelationships .. | .relationshipsOf .. => Page Relationship
  | .related .. => List Entity
  | .neighborhood .. => Neighborhood
  | .operate .. => Outcome

variable (a : Archive) (c : Clock)

def perform : (call : Call) → OnSite Failure call.Result
  | .storedEntity guid asOf => Archive.storedEntity c guid asOf
  | .entity guid asOf => Archive.entity c guid asOf
  | .relationship guid asOf => a.relationship c guid asOf
  | .findEntities search => a.findEntities c search
  | .findRelationships search => a.findRelationships c search
  | .relationshipsOf guid search => a.relationshipsOf c guid search
  | .related search => a.related c search
  | .neighborhood search => a.neighborhood c search
  | .entityAfter user request => a.entityAfter c user request
  | .relationshipAfter user request => a.relationshipAfter c user request
  | .operate op => op.perform a c

/-- The operation that a call carries out; most of them only read. -/
def operation? : Call → Option Operation
  | .entityAfter user request | .relationshipAfter user request => some (.invoke user request)
  | .operate op => some op
  | _ => none

/-- The site after the operation of a call, before anything is read back. -/
def carriedOut (call : Call) (site : Site) : Site :=
  match call.operation? with
  | some op => (op.perform a c site).2
  | none => site

end Call

section Calls

variable {a : Archive} {c : Clock} {site : Site}

theorem Operation.perform_snapshots (h : site.store.Reached) (op : Operation) :
    (op.perform a c site).2.store.Reached ∧
      (op.perform a c site).2.store.pins = site.store.pins ∧
      (op.perform a c site).2.usage.opened = site.usage.opened ∧
      (op.perform a c site).2.usage.released = site.usage.released := by
  rw [Operation.perform_eq]
  cases op.ops a with
  | error failure => exact ⟨h, rfl, rfl, rfl⟩
  | ok ops => exact Archive.commit_snapshots h c ops

theorem Archive.visits_entity (guid : String) (asOf : Option Instant) :
    OnSite.Visits (Archive.entity c guid asOf) :=
  (OnSite.Visits.reading asOf _).judged fun _ _ => rfl

theorem Archive.visits_relationship (guid : String) (asOf : Option Instant) :
    OnSite.Visits (a.relationship c guid asOf) :=
  (OnSite.Visits.reading asOf _).judged fun _ _ => rfl

theorem Archive.visits_page {α : Type} (plan : Except SearchError SearchPlan)
    (asOf : Option Instant) (read : Store → Snapshot → List DocId → Except Failure (List α)) :
    OnSite.Visits (Archive.page c plan asOf read) :=
  OnSite.Visits.planned _ fun _ => (OnSite.Visits.reading asOf _).judged fun _ _ => rfl

theorem Archive.visits_relationshipsOf (guid : String) (search : RelationshipSearch) :
    OnSite.Visits (a.relationshipsOf c guid search) :=
  OnSite.Visits.planned _ fun _ => (OnSite.Visits.reading search.asOf _).judged fun _ _ => rfl

/-- What is read back is read as of the operation; nothing is where that was refused. -/
theorem Archive.readBack_visited {α : Type} {user : String} {r : Request}
    (h : site.store.Reached) {read : Outcome → OnSite Failure α}
    (hread : ∀ o, OnSite.Visits (read o)) :
    ∃ n ≤ 1, ((a.carryOut c user r >>= read) site).2 =
      ((Operation.invoke user r).perform a c site).2.visited n := by
  have hreached := (Operation.perform_snapshots (a := a) (c := c) h (.invoke user r)).1
  rw [Operation.perform] at hreached ⊢
  rw [OnSite.bind_eq]
  rcases hsite : a.carryOut c user r site with ⟨failure | o, site'⟩
  · exact ⟨0, Nat.zero_le 1, rfl⟩
  · rw [hsite] at hreached
    exact hread o site' hreached

theorem Call.perform_visited (h : site.store.Reached) (call : Call) :
    ∃ n ≤ 1, (call.perform a c site).2 = (call.carriedOut a c site).visited n := by
  cases call with
  | storedEntity guid asOf => exact OnSite.Visits.reading asOf _ site h
  | entity guid asOf => exact Archive.visits_entity guid asOf site h
  | relationship guid asOf => exact Archive.visits_relationship guid asOf site h
  | findEntities search => exact Archive.visits_page _ search.asOf _ site h
  | findRelationships search => exact Archive.visits_page _ search.asOf _ site h
  | relationshipsOf guid search => exact Archive.visits_relationshipsOf guid search site h
  | related search => exact OnSite.Visits.reading search.asOf _ site h
  | neighborhood search => exact OnSite.Visits.reading search.asOf _ site h
  | entityAfter user r =>
    exact Archive.readBack_visited h fun o => Archive.visits_entity r.target.guid (some o.time)
  | relationshipAfter user r =>
    exact Archive.readBack_visited h fun o =>
      Archive.visits_relationship r.target.guid (some o.time)
  | operate op => exact ⟨0, Nat.zero_le 1, rfl⟩

end Calls

/-- **No call leaves a snapshot open**, whether it is answered or fails. Whatever a store has been
through, after any call with any arguments

* the site is as the operation of the call left it, or as it was if the call only reads, but that
  at most one snapshot was opened and released,
* so the snapshots that are open are those that were, each with its pin, and since the call as many
  were released as were opened, and
* where none was open, nothing is held for the sake of one.

And it is so with anything else that might be read from a snapshot, and anything it might fail
with. -/
theorem calls_leave_no_snapshot_open (a : Archive) (c : Clock) (site : Site)
    (hreached : site.store.Reached) :
    (∀ call : Call,
      let after := (call.perform a c site).2
      (∃ n ≤ 1, after = (call.carriedOut a c site).visited n) ∧
      after.store.Reached ∧
      after.store.pins = site.store.pins ∧
      after.usage.opened + site.usage.released = site.usage.opened + after.usage.released ∧
      (site.store.pins = [] → after.store.evicted = [])) ∧
    ∀ (α : Type) (asOf : Option Instant) (read : Store → Snapshot → Except Failure α),
      (Archive.reading c asOf read site).2 = site.visited 1 := by
  refine ⟨fun call => ?_, fun α asOf read =>
    congrArg Prod.snd (Archive.reading_eq hreached read)⟩
  intro after
  obtain ⟨n, hn, hafter⟩ := call.perform_visited (a := a) (c := c) hreached
  have hdone : (call.carriedOut a c site).store.Reached ∧
      (call.carriedOut a c site).store.pins = site.store.pins ∧
      (call.carriedOut a c site).usage.opened = site.usage.opened ∧
      (call.carriedOut a c site).usage.released = site.usage.released := by
    unfold Call.carriedOut
    cases call.operation? with
    | none => exact ⟨hreached, rfl, rfl, rfl⟩
    | some op => exact op.perform_snapshots hreached
  obtain ⟨hstore, hpins, hopened, hreleased⟩ := hdone
  have hafter' : after.store.Reached := by
    show (call.perform a c site).2.store.Reached
    rw [hafter]
    exact hstore.visited n
  have hsame : after.store.pins = site.store.pins := by
    show (call.perform a c site).2.store.pins = _
    rw [hafter]
    exact hpins
  refine ⟨⟨n, hn, hafter⟩, hafter', hsame, ?_, fun hnone => ?_⟩
  · show (call.perform a c site).2.usage.opened + _ = _ + (call.perform a c site).2.usage.released
    rw [hafter]
    simp only [Site.visited, hopened, hreleased]
    omega
  · obtain ⟨l, -, hreclaims⟩ := hafter'.reclaims
    exact hreclaims.evicted_of_no_pins (hsame.trans hnone)

/-- A search from an entity that is not stored fails, and the document that was evicted is held for
the one reader there was before. -/
theorem unknown_root_leaves_no_snapshot_open :
    let a : Archive := ⟨.empty, .default⟩
    let c : Clock := ⟨⟨0, 0⟩, 0⟩
    let events : List (StoreEvent Failure) :=
      [.submit [] c.now [.write (.put (.ofId "e:1"))], .openSnapshot c.now none,
        .submit [] c.now [.write (.evict "e:1")]]
    let store := (Store.empty 1).run events
    let site := { Site.empty 1 with store }
    let call := Call.neighborhood (.of "2")
    store.Reached ∧ (call.perform a c site).1.isOk = false ∧
      (call.perform a c site).2.store.pins = [(1, ⟨1, 1⟩)] ∧
      (call.perform a c site).2 = site.visited 1 := by
  intro a c events store site call
  have hreached : store.Reached := ⟨1, events, rfl⟩
  have hfails : (call.perform a c site).1.isOk = false := by decide +kernel
  have hpins : store.pins = [(1, ⟨1, 1⟩)] := by decide +kernel
  obtain ⟨hcalls, hreading⟩ := calls_leave_no_snapshot_open a c site hreached
  obtain ⟨-, -, hsame, -⟩ := hcalls call
  exact ⟨hreached, hfails, hsame.trans hpins, hreading _ _ _⟩

end MetadataArchive
