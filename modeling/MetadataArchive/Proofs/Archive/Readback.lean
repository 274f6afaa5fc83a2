import MetadataArchive.Proofs.Archive.Version

/-!
# What is read of a record

To read a record, an archive opens a snapshot and releases it at once. It reads what the ledger
shows by the pin of that snapshot, and leaves the ledger alone; so all that is read of the present
is a matter of the latest state (`Archive.On.entity_eq`, `Archive.On.relationship_eq`). A change
that was accepted is the last that was committed, and to read as of its time is to read the present
(`Ledger.source_pinAt_append`).
-/

set_option autoImplicit false

namespace MetadataArchive

/-! ## Sources -/

namespace Source

variable (src : Source)

/-- What is stored of an entity. -/
def stored? (id : DocId) : Except Failure (Option StoredEntity) :=
  match src.document? id with
  | none => .ok none
  | some d => do return some (← StoredEntity.ofDocument d)

/-- The entity that is stored in full. -/
def entity (guid : String) : Except Failure Entity := do
  let stored ← Rule.known (.entity guid) (← src.stored? (RecordRef.entity guid).docId)
  Rule.full stored

/-- What is stored of a relationship, with its ends as they are stored. -/
def relationship? (ts : TypeSystem) (id : DocId) : Except Failure (Option Relationship) :=
  match src.document? id with
  | none => .ok none
  | some d => do
      let (one, two) ← Relationship.ends d
      return some (← Relationship.ofDocument ts d (src.document? one) (src.document? two))

def relationship (ts : TypeSystem) (guid : String) : Except Failure Relationship := do
  let r := RecordRef.relationship guid
  Rule.known r (← src.relationship? ts r.docId)

variable {src} {ts : TypeSystem} {guid : String} {d : Document}

theorem entity_eq_ok {e : Entity} (hd : src.document? (RecordRef.entity guid).docId = some d) :
    src.entity guid = .ok e ↔ StoredEntity.ofDocument d = .ok (.full e) := by
  simp only [entity, stored?, hd, bind_eq_ok, pure_eq_ok, liftM_record_eq_ok,
    liftM_rejection_eq_ok]
  constructor
  · rintro ⟨_, ⟨stored, hstored, rfl⟩, known, hknown, hfull⟩
    cases hknown
    cases stored with
    | full e' =>
      cases hfull
      exact hstored
    | proxy p => cases hfull
  · exact fun hread => ⟨_, ⟨_, hread, rfl⟩, _, rfl, rfl⟩

theorem entity_ok {e : Entity} (h : src.entity guid = .ok e) :
    ∃ d, src.document? (RecordRef.entity guid).docId = some d ∧
      StoredEntity.ofDocument d = .ok (.full e) := by
  cases hd : src.document? (RecordRef.entity guid).docId with
  | none =>
    simp only [entity, stored?, hd, bind_eq_ok, liftM_rejection_eq_ok] at h
    obtain ⟨_, hnone, _, hknown, -⟩ := h
    cases hnone
    cases hknown
  | some d => exact ⟨d, rfl, (entity_eq_ok hd).1 h⟩

theorem relationship_eq_ok {rel : Relationship} {one two : DocId}
    (hd : src.document? (RecordRef.relationship guid).docId = some d)
    (hends : Relationship.ends d = .ok (one, two)) :
    src.relationship ts guid = .ok rel ↔
      Relationship.ofDocument ts d (src.document? one) (src.document? two) = .ok rel := by
  simp only [relationship, relationship?, hd, hends, bind_eq_ok, pure_eq_ok, liftM_record_eq_ok,
    liftM_rejection_eq_ok]
  constructor
  · rintro ⟨_, ⟨_, heq, rel', hread, rfl⟩, hknown⟩
    cases heq
    cases hknown
    exact hread
  · exact fun hread => ⟨_, ⟨_, rfl, _, hread, rfl⟩, rfl⟩

end Source

section Shows

variable {s : Store} {snap : Snapshot} {src : Source} {ts : TypeSystem}

theorem Store.Shows.entity?_eq (h : s.Shows snap src) (id : DocId) :
    s.entity? snap id = src.stored? id := by
  rw [Store.entity?, h.get, Source.stored?]
  cases src.document? id <;> rfl

theorem Store.Shows.relationship?_eq (h : s.Shows snap src) (id : DocId) :
    s.relationship? ts snap id = src.relationship? ts id := by
  simp only [Store.relationship?, Source.relationship?, h.get]
  cases src.document? id <;> rfl

/-- Work that ends with what needs no site leaves the site as it was by then. -/
theorem OnSite.bind_lift_eq {α β : Type} (x : OnSite Failure α) (f : α → Except Failure β)
    (site : Site) :
    (x >>= fun a => (liftM (f a) : OnSite Failure β)) site = ((x site).1 >>= f, (x site).2) := by
  rw [OnSite.bind_eq]
  rcases x site with ⟨_ | _, _⟩ <;> rfl

/-- To judge what was got leaves the site alone. -/
theorem OnSite.bind_lift_site {α β : Type} (x : OnSite Failure α) (f : α → Except Failure β)
    (site : Site) : ((x >>= fun a => (liftM (f a) : OnSite Failure β)) site).2 = (x site).2 :=
  congrArg Prod.snd (OnSite.bind_lift_eq x f site)

variable {a : Archive} {site : Site} {c : Clock} {guid : String} {asOf : Option Instant}

/-- **Whoever asks for an entity** is answered by what a snapshot shows. -/
theorem Archive.entity_fst (h : site.store.ShowsAsOf asOf src) :
    (Archive.entity c guid asOf site).1 = src.entity guid := by
  obtain ⟨s, snap, hshows, hanswer⟩ := Archive.reading_fst (c := c) h fun s snap =>
    s.entity? snap (RecordRef.entity guid).docId
  rw [hshows.entity?_eq] at hanswer
  refine (congrArg Prod.fst (OnSite.bind_lift_eq _ _ site)).trans ?_
  rw [Archive.storedEntity, hanswer]
  rfl

theorem Archive.relationship_fst (h : site.store.ShowsAsOf asOf src) :
    (a.relationship c guid asOf site).1 = src.relationship a.types guid := by
  obtain ⟨s, snap, hshows, hanswer⟩ := Archive.reading_fst (c := c) h fun s snap =>
    s.relationship? a.types snap (RecordRef.relationship guid).docId
  rw [hshows.relationship?_eq] at hanswer
  refine (congrArg Prod.fst (OnSite.bind_lift_eq _ _ site)).trans ?_
  rw [hanswer]
  rfl

end Shows

/-! ## Snapshots -/

namespace Archive.On

variable {a : Archive} {site : Site} {l : Ledger}

theorem openSnapshot (h : a.On site l) (c : Clock) (asOf : Option Instant) :
    a.On (Site.openSnapshot c asOf site).2 l :=
  ⟨h.tracks.openSnapshot c.now asOf, h.keyed, h.functions, h.ttl, h.entries, h.rejected, h.outcomes,
    h.capacity⟩

theorem release (h : a.On site l) (snap : Snapshot) : a.On (Site.release snap site).2 l := by
  unfold Site.release
  cases hs : site.store.release snap with
  | error e => exact h
  | ok store =>
    have htracks := h.tracks.release hs
    unfold Store.release at hs
    cases hpin : site.store.pinOf snap with
    | error e =>
      rw [hpin] at hs
      cases hs
    | ok pin =>
      rw [hpin] at hs
      cases hs
      exact ⟨htracks, h.keyed, h.functions, h.ttl, h.entries, h.rejected, h.outcomes, h.capacity⟩

theorem reading {α : Type} (h : a.On site l) (c : Clock) (asOf : Option Instant)
    (read : Store → Snapshot → Except Failure α) : a.On (Archive.reading c asOf read site).2 l := by
  rw [Archive.reading_snd]
  exact (h.openSnapshot c asOf).release _

/-- **Whoever asks for an entity** is answered by what the ledger shows, and leaves it alone. -/
theorem entity_eq (h : a.On site l) (c : Clock) (guid : String) (asOf : Option Instant) :
    (Archive.entity c guid asOf site).1 = (l.source (l.pinAt asOf)).entity guid ∧
      a.On (Archive.entity c guid asOf site).2 l := by
  refine ⟨Archive.entity_fst (h.tracks.showsAsOf asOf), ?_⟩
  unfold Archive.entity
  rw [OnSite.bind_lift_site]
  exact h.reading c asOf _

theorem relationship_eq (h : a.On site l) (c : Clock) (guid : String) (asOf : Option Instant) :
    (a.relationship c guid asOf site).1 =
        (l.source (l.pinAt asOf)).relationship a.types guid ∧
      a.On (a.relationship c guid asOf site).2 l := by
  refine ⟨Archive.relationship_fst (h.tracks.showsAsOf asOf), ?_⟩
  unfold Archive.relationship
  rw [OnSite.bind_lift_site]
  exact h.reading c asOf _

end Archive.On

/-! ## The time of a change -/

theorem Ledger.lastBy_append (l : Ledger) (now : Instant) (writes : Staged) :
    (l.append now writes).lastBy (l.nextTime now) = (l.append now writes).last := by
  have hnow : (l.nextTime now).le (l.nextTime now) = true := Instant.le_refl _
  simp [Ledger.lastBy, Ledger.last, Ledger.append, hnow]

/-- As of its own time, a commit is in the present. -/
theorem Ledger.source_pinAt_append (l : Ledger) (now : Instant) (writes : Staged) :
    (l.append now writes).source ((l.append now writes).pinAt (some (l.nextTime now))) =
      (l.append now writes).latest := by
  unfold Ledger.pinAt
  rw [Option.map_some, Option.getD_some, Ledger.lastBy_append]
  rfl

/-- What an accepted request has come to: it was carried out as it arrived, and what it wrote was
committed at the time of its outcome. -/
theorem Archive.On.carryOut_ok {a : Archive} {site : Site} {l : Ledger} (h : a.On site l)
    {c : Clock} {user : String} {r : Request} {o : Outcome}
    (hok : (a.carryOut c user r site).1 = .ok o) :
    ∃ (i : Invocation) (ws : List Write), i.request.function = r.function ∧
      i.request.target = r.target ∧
      i.request.carryOut ⟨a.types, i.user, i.collection,
        ⟨⟨l.submitted + 1⟩, l.nextTime c.now, l.latest⟩⟩ = .ok ws ∧
      a.On (a.carryOut c user r site).2 (l.append c.now (ws.foldl Staged.apply ∅)) ∧
      o.time = l.nextTime c.now := by
  obtain ⟨hon, haccepts⟩ := h.commit c [(⟨user, a.settings.collection, r⟩ : Invocation).toOp]
  obtain ⟨staged, hrun⟩ := haccepts.1 ⟨o, hok⟩
  have htime : o.time = l.nextTime c.now := by
    rw [h.commit_ok hok, ← h.tracks.nextTime_eq]
    rfl
  simp only [Ledger.submit, hrun] at hon
  rw [Catalog.runOps_toOp] at hrun
  split at hrun
  next ws note hreply =>
    obtain ⟨hstaged, hnote⟩ := Prod.mk.inj hrun
    cases hstaged
    obtain ⟨i, hi, hfunction, ⟨hcarried, -⟩ | ⟨failure, -, -, rfl⟩⟩ :=
      Catalog.run_writes (List.mem_map_of_mem r.function_mem) hreply
    · have htarget := (Request.effect_ofJson? (Invocation.ofJson?_request hi)).1
      exact ⟨i, ws, hfunction, htarget, hcarried, hon, htime⟩
    · cases hnote
  next => cases (Prod.mk.inj hrun).1
  next => cases (Prod.mk.inj hrun).1

end MetadataArchive
