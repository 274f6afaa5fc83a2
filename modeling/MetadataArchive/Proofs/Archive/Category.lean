import MetadataArchive.Proofs.Archive.Answer
import MetadataArchive.Proofs.Search.Category

/-!
# Keys and categories in every run

Every function of the catalog keeps documents under the right kind of key, on the state that it
sees, so this holds of all that is ever written, and of whatever a reader of the present or of the
past is shown. One way around the catalog is left: an entity that comes home is put as it is, and
nobody looks at its type. `kinds_agree_with_categories` says that this is the one exception, and
that a search for relationships selects nothing else as long as it is not made use of.
-/

set_option autoImplicit false

namespace MetadataArchive

/-- An entity comes home that is no entity by its type. -/
def Operation.Misfiles (a : Archive) : Operation → Prop
  | .saveEntityCopy _ entity =>
      a.isHome entity.header.collectionId = true ∧
        ∃ t, a.types.get? entity.header.typeRef.name = some t ∧ t.category ≠ .entity
  | _ => False

/-- A document that is got by someone who opens a snapshot now, of the present or of an instant of
the past. -/
def Site.Visible (site : Site) (d : Document) : Prop :=
  ∃ (c : Clock) (asOf : Option Instant),
    (Site.openSnapshot c asOf site).2.store.get (Site.openSnapshot c asOf site).1 d.id =
      .ok (some d)

/-- A key under which a snapshot has a relationship with both ends. -/
def Store.HasRelationship (ts : TypeSystem) (s : Store) (snap : Snapshot) (id : DocId) : Prop :=
  ∃ guid d, id = (RecordRef.relationship guid).docId ∧ s.get snap id = .ok (some d) ∧
    d.OfCategory ts .relationship ∧ ∃ ends, Relationship.ends d = .ok ends

/-- Why a search for relationships fails on a snapshot. -/
inductive RelationshipSearch.Fails (a : Archive) (s : Store) (snap : Snapshot)
    (search : RelationshipSearch) (failure : Failure) : Prop
  /-- It has no query. -/
  | plan {e : SearchError} (hplan : search.plan a.types a.settings.query none = .error e)
      (hfailure : failure = .ofSearch e)
  /-- Its query fails. -/
  | query {plan : SearchPlan} {e : StoreError}
      (hplan : search.plan a.types a.settings.query none = .ok plan)
      (hquery : s.query snap plan.query = .error e) (hfailure : failure = .ofStore e)
  /-- A relationship that it selects cannot be read. -/
  | record {plan : SearchPlan} {rows : Rows} {id : DocId}
      (hplan : search.plan a.types a.settings.query none = .ok plan)
      (hquery : s.query snap plan.query = .ok rows) (hid : id ∈ rows.refs plan.record)
      (hrecord : s.HasRelationship a.types snap id)
      (hread : s.relationship? a.types snap id = .error failure)

/-! ## What operations write -/

section Operations

variable {a : Archive} {c : Clock} {op : Operation} {site : Site} {l : Ledger}
variable {fit : TypeCategory → Prop} {events : List ArchiveEvent}

/-- What an operation puts past the catalog is an entity that fits. -/
def Operation.PutsFit (a : Archive) (fit : TypeCategory → Prop) (op : Operation) : Prop :=
  ∀ entity, op.task a = .inl entity →
    ∀ t, a.types.get? entity.header.typeRef.name = some t → fit t.category

/-- Whatever else is asked of an archive, an operation puts entities that fit, or misfiles one. -/
theorem Operation.putsFit_entity_iff : op.PutsFit a (· = .entity) ↔ ¬ op.Misfiles a := by
  cases op with
  | saveEntityCopy user entity =>
    cases hhome : a.isHome entity.header.collectionId with
    | true => simp [PutsFit, Misfiles, task, hhome]
    | false => simp [PutsFit, Misfiles, task, hhome]
  | _ => simp [PutsFit, Misfiles, task]

/-- What archives submit keeps documents under the right kind of key. -/
theorem Operation.keeps_filed {ops : List TxOp} (hts : a.types.Named) (hfit : fit .entity)
    (hop : op.PutsFit a fit) (hops : op.ops a = .ok ops) (now : Instant) :
    (StoreEvent.submit (Catalog.functions a.types) now ops).Keeps (Filed a.types fit)
      fun _ => True := by
  refine ⟨fun docs w hw hdocs => ?_, fun name args hcall f hf hname ctx ws note _ hdocs hrun => ?_⟩
  · have hwrite : w.Filed a.types fit → Filed a.types fit (writeAll docs [w]) := fun hfiled =>
      hdocs.writeAll fun w' hw' => List.mem_singleton.1 hw' ▸ hfiled
    refine hwrite ?_
    unfold Operation.ops at hops
    split at hops
    next entity htask =>
      obtain ⟨d, hd, hops⟩ := bind_eq_ok.1 hops
      rw [liftM_record_eq_ok] at hd
      cases hops
      cases List.mem_singleton.1 hw
      obtain ⟨t, ht, -⟩ := Entity.ofCategory_toDocument hd
      exact Entity.filed_toDocument hd ⟨t, ht, hop entity htask t ht⟩
    next user request htask =>
      cases hops
      cases List.mem_singleton.1 hw
  · refine ⟨hdocs.writeAll ?_, fun _ _ => trivial⟩
    obtain ⟨i, -, -, ⟨hok, -⟩ | ⟨failure, -, rfl, -⟩⟩ := Catalog.run_writes hf hrun
    · exact Request.files_carryOut (a := ⟨a.types, i.user, i.collection, ctx⟩) hts hfit hdocs hok
    · simp

theorem Archive.On.filed_perform (h : a.On site l) (hl : l.Holds (Document.Filed a.types fit))
    (hts : a.types.Named) (hfit : fit .entity) (c : Clock) (hop : op.PutsFit a fit) :
    ∃ l', a.On (op.perform a c site).2 l' ∧ l'.Holds (Document.Filed a.types fit) := by
  refine ⟨_, h.perform_ledger c op, ?_⟩
  unfold Operation.ledger
  cases hops : op.ops a with
  | ok ops => exact hl.submit h.keyed (Operation.keeps_filed hts hfit hop hops c.now)
  | error failure => exact hl

/-- **All that is ever written is filed**, as far as what comes home fits. -/
theorem Archive.On.filed_through (h : a.On site l) (hl : l.Holds (Document.Filed a.types fit))
    (hts : a.types.Named) (hfit : fit .entity)
    (hevents : ∀ c op, .operate c op ∈ events → op.PutsFit a fit) :
    ∃ l', a.On (a.through site events) l' ∧ l'.Holds (Document.Filed a.types fit) := by
  induction events generalizing site l with
  | nil => exact ⟨l, h, hl⟩
  | cons ev events ih =>
    have hrest : ∀ c op, .operate c op ∈ events → op.PutsFit a fit :=
      fun c op hop => hevents c op (List.mem_cons_of_mem _ hop)
    have hstep : ∃ l', a.On (a.happen site ev) l' ∧ l'.Holds (Document.Filed a.types fit) := by
      cases ev with
      | operate c op => exact h.filed_perform hl hts hfit c (hevents c op List.mem_cons_self)
      | openSnapshot c asOf => exact ⟨l, h.openSnapshot c asOf, hl⟩
      | release snap => exact ⟨l, h.release snap, hl⟩
    obtain ⟨l', h', hl'⟩ := hstep
    exact ih h' hl' hrest

/-! ## What readers see -/

theorem Archive.On.visible_iff (h : a.On site l) {d : Document} :
    site.Visible d ↔ ∃ asOf, l.shows (l.pinAt asOf) d.id = some d := by
  have hget (c : Clock) (asOf : Option Instant) :
      (Site.openSnapshot c asOf site).2.store.get (Site.openSnapshot c asOf site).1 d.id =
        .ok (l.shows (l.pinAt asOf) d.id) :=
    (h.tracks.shows_opened c.now asOf).get d.id
  constructor
  · rintro ⟨c, asOf, hd⟩
    rw [hget, Except.ok.injEq] at hd
    exact ⟨asOf, hd⟩
  · rintro ⟨asOf, hd⟩
    exact ⟨⟨⟨0, 0⟩, 0⟩, asOf, by rw [hget, hd]⟩

/-- Right after it was brought home, an entity of another category can be seen. -/
theorem Archive.On.visible_misfiled (h : a.On site l) (c : Clock) (hop : op.Misfiles a) :
    ∃ d guid category, (op.perform a c site).2.Visible d ∧ d.id = (RecordRef.entity guid).docId ∧
      d.OfCategory a.types category ∧ category ≠ .entity := by
  cases op with
  | saveEntityCopy user entity =>
    obtain ⟨hhome, t, ht, hne⟩ := hop
    have hknown : a.types.get? entity.header.typeRef.name ≠ none := by simp [ht]
    obtain ⟨d, hd⟩ := Entity.exists_toDocument hknown
    obtain ⟨t', ht', hcategory⟩ := Entity.ofCategory_toDocument hd
    cases ht.symm.trans ht'
    have hops : (Operation.saveEntityCopy user entity).ops a = .ok [.write (.put d)] := by
      simp [Operation.ops, Operation.task, hhome, hd]
      rfl
    have hon := h.perform_ledger c (.saveEntityCopy user entity)
    rw [Operation.ledger, hops] at hon
    refine ⟨d, entity.guid, t.category, hon.visible_iff.2 ⟨none, ?_⟩, (Entity.lays hd).id,
      hcategory, hne⟩
    show (Ledger.latest _).document? d.id = some d
    rw [Ledger.latest_submit]
    show ((Staged.apply ∅ (.put d)).laidOver l.latest).document? (Write.put d).id = some d
    rw [Staged.laidOver_apply, Write.on_self]
    rfl
  | _ => cases hop

theorem Store.relationships_error {ts : TypeSystem} {s : Store} {snap : Snapshot}
    {ids : List DocId} {failure : Failure} (h : s.relationships ts snap ids = .error failure) :
    ∃ id ∈ ids, s.relationship? ts snap id = .error failure := by
  induction ids with
  | nil => cases h
  | cons id ids ih =>
    simp only [Store.relationships, bind_eq_error] at h
    rcases h with h | ⟨here, -, h | ⟨there, -, h⟩⟩
    · exact ⟨id, List.mem_cons_self, h⟩
    · obtain ⟨id', hid', hread⟩ := ih h
      exact ⟨id', List.mem_cons_of_mem _ hid', hread⟩
    · cases h

/-- What there is no page of: the search has no plan, or it was planned and reading failed. -/
theorem Archive.page_error {α : Type} {plan : Except SearchError SearchPlan}
    {asOf : Option Instant} {read : Store → Snapshot → List DocId → Except Failure (List α)}
    {failure : Failure} (h : (Archive.page c plan asOf read site).1 = .error failure) :
    (∃ e, plan = .error e ∧ failure = .ofSearch e) ∨
      ∃ p, plan = .ok p ∧ (Archive.reading c asOf (fun s snap => do
        let rows ← s.query snap p.query
        read s snap (rows.refs p.record)) site).1 = .error failure := by
  unfold Archive.page at h
  rw [OnSite.bind_eq] at h
  cases plan with
  | error e =>
    cases h
    exact Or.inl ⟨e, rfl, rfl⟩
  | ok p =>
    refine Or.inr ⟨p, rfl, ?_⟩
    change ((Archive.reading c asOf _ >>= _) site).1 = _ at h
    rw [OnSite.bind_eq] at h
    split at h
    next => cases h
    next heq =>
      cases h
      rw [heq]

/-- Where all that was written is filed, a search selects relationships. -/
theorem Archive.On.selects (h : a.On site l)
    (hl : l.Holds (Document.Filed a.types (· = .entity))) {s : Store} {snap : Snapshot}
    {search : RelationshipSearch} (hshows : s.Shows snap (l.source (l.pinAt search.asOf)))
    {entity : Option RecordRef} {plan : SearchPlan} {rows : Rows} {id : DocId}
    (hplan : search.plan a.types a.settings.query entity = .ok plan)
    (hrows : s.query snap plan.query = .ok rows) (hid : id ∈ rows.refs plan.record) :
    s.HasRelationship a.types snap id := by
  rw [hshows.query] at hrows
  obtain ⟨guid, d, hkey, hd, hcategory, hends⟩ := RelationshipSearch.selects
    (Ledger.coherent_source h.keyed _) (fun id d hd => hl.shows hd) hplan hrows hid
  exact ⟨guid, d, hkey, by rw [hshows.get, hd], hcategory, hends⟩

/-- What a search fails on, if not on its query, is a relationship. -/
theorem Archive.On.searches (h : a.On site l)
    (hl : l.Holds (Document.Filed a.types (· = .entity))) (c : Clock)
    (search : RelationshipSearch) :
    let opened := Site.openSnapshot c search.asOf site
    (∀ entity plan rows id, search.plan a.types a.settings.query entity = .ok plan →
      opened.2.store.query opened.1 plan.query = .ok rows → id ∈ rows.refs plan.record →
        opened.2.store.HasRelationship a.types opened.1 id) ∧
    ∀ failure, (a.findRelationships c search site).1 = .error failure →
      search.Fails a opened.2.store opened.1 failure := by
  intro opened
  have hnow := h.tracks.showsAsOf search.asOf
  have hshows : opened.2.store.Shows opened.1 (l.source (l.pinAt search.asOf)) := hnow c.now
  refine ⟨fun entity plan rows id => h.selects hl hshows, fun failure hfail => ?_⟩
  rcases Archive.page_error hfail with ⟨e, hplan, rfl⟩ | ⟨plan, hplan, hread⟩
  · exact .plan hplan rfl
  · obtain ⟨s, snap, hshows', hanswer⟩ := Archive.reading_fst (c := c) hnow fun s snap => do
      let rows ← s.query snap plan.query
      s.relationships a.types snap (rows.refs plan.record)
    -- What the search read from is open no more, but another snapshot shows the same.
    rw [hanswer, bind_eq_error] at hread
    rcases hread with hquery | ⟨rows, hquery, hread⟩
    · rw [hshows'.query, ← hshows.query] at hquery
      cases hfails : opened.2.store.query opened.1 plan.query with
      | ok rows =>
        rw [hfails] at hquery
        cases hquery
      | error e =>
        rw [hfails] at hquery
        cases hquery
        exact .query hplan hfails rfl
    · rw [liftM_store_eq_ok, hshows'.query, ← hshows.query] at hquery
      obtain ⟨id, hid, hread⟩ := Store.relationships_error hread
      rw [hshows'.relationship?_eq, ← hshows.relationship?_eq] at hread
      exact .record hplan hquery hid (h.selects hl hshows hplan hquery hid) hread

end Operations

/-- **Keys agree with categories but for entities that come home under another type.** An archive of
a type system that was accepted is set up where nothing has happened, and then anything happens:
operations, each at a time of its own, and snapshots that are opened and released in any order.

* A relationship that anyone can see is of the category of relationships, and names both ends.
* All entities that anyone can see were of the category of entities all along, if and only if no
  operation has brought an entity home under a type of another category.
* Then a search for relationships, of one entity or of all, of the present or of the past, selects
  relationships alone, and it never fails on anything but its own conditions, its query or a
  relationship that cannot be read. -/
theorem kinds_agree_with_categories {defs : List TypeDef} {ts : TypeSystem} {settings : Settings}
    {capacity : Nat} {a : Archive} {start : Site} (hts : TypeSystem.ofList defs = .ok ts)
    (hsetUp : Archive.setUp ts settings (.empty capacity) = (.ok a, start))
    (events : List ArchiveEvent) :
    let site := a.through start events
    let proper := ∀ c op, .operate c op ∈ events → ¬ op.Misfiles a
    (∀ d, site.Visible d → ∀ guid, d.id = (RecordRef.relationship guid).docId →
      d.OfCategory ts .relationship ∧ ∃ ends, Relationship.ends d = .ok ends) ∧
    ((∀ part, part <+: events → ∀ d, (a.through start part).Visible d → ∀ guid,
      d.id = (RecordRef.entity guid).docId → d.OfCategory ts .entity) ↔ proper) ∧
    (proper → ∀ c (search : RelationshipSearch),
      let opened := Site.openSnapshot c search.asOf site
      (∀ entity plan rows id, search.plan ts a.settings.query entity = .ok plan →
        opened.2.store.query opened.1 plan.query = .ok rows → id ∈ rows.refs plan.record →
          opened.2.store.HasRelationship ts opened.1 id) ∧
      ∀ failure, (a.findRelationships c search site).1 = .error failure →
        search.Fails a opened.2.store opened.1 failure) := by
  intro site proper
  obtain ⟨rfl, hon⟩ := Archive.setUp_ok hsetUp
  have hnamed := TypeSystem.named_ofList hts
  have hfiled (hhome : proper) (part : List ArchiveEvent) (hpart : part <+: events) :
      ∃ l, Archive.On ⟨ts, settings⟩ ((⟨ts, settings⟩ : Archive).through start part) l ∧
        l.Holds (Document.Filed ts (· = .entity)) :=
    hon.filed_through Ledger.holds_empty hnamed rfl fun c op hop =>
      Operation.putsFit_entity_iff.2 (hhome c op (hpart.subset hop))
  refine ⟨fun d hd guid hid => ?_,
    ⟨fun hall c op hop hmisfiles => ?_, fun hhome part hpart d hd guid hid => ?_⟩,
    fun hhome c search => ?_⟩
  · have hany : ∀ c op, ArchiveEvent.operate c op ∈ events →
        op.PutsFit ⟨ts, settings⟩ fun _ => True := fun _ _ _ _ _ _ _ => trivial
    obtain ⟨l, h, hl⟩ := hon.filed_through Ledger.holds_empty hnamed trivial hany
    obtain ⟨asOf, hshows⟩ := h.visible_iff.1 hd
    exact (hl.shows hshows).of_relationship hid
  · obtain ⟨before, after, rfl⟩ := List.append_of_mem hop
    obtain ⟨l, h⟩ := hon.through before
    obtain ⟨d, guid, category, hd, hid, hcategory, hne⟩ := h.visible_misfiled c hmisfiles
    have hthrough : (⟨ts, settings⟩ : Archive).through start (before ++ [.operate c op]) =
        (op.perform ⟨ts, settings⟩ c ((⟨ts, settings⟩ : Archive).through start before)).2 :=
      List.foldl_append
    obtain ⟨-, -, -, hentity⟩ :=
      hall (before ++ [.operate c op]) (by simp) d (hthrough ▸ hd) guid hid
    obtain ⟨-, -, -, hown⟩ := hcategory
    rw [hown, Option.some.injEq, Value.str.injEq] at hentity
    exact hne (TypeCategory.name_injective hentity)
  · obtain ⟨l, h, hl⟩ := hfiled hhome part hpart
    obtain ⟨asOf, hshows⟩ := h.visible_iff.1 hd
    obtain ⟨category, rfl, hcategory⟩ := (hl.shows hshows).of_entity hid
    exact hcategory
  · obtain ⟨l, h, hl⟩ := hfiled hhome events (List.prefix_refl _)
    exact h.searches hl c search

/-- An entity comes home under the type of links. Its document can be seen as one of a relationship,
so that a search for relationships selects it and fails. -/
theorem homecoming_under_another_type :
    let thing : TypeDef := ⟨"t1", "Thing", .entity, none, [], []⟩
    let link : TypeDef := ⟨"t2", "Link", .relationship, none, [], []⟩
    let ts := (TypeSystem.ofList [thing, link]).toOption.getD .empty
    let a : Archive := ⟨ts, .default⟩
    let c : Clock := ⟨⟨0, 0⟩, 0⟩
    let start := (Archive.setUp ts .default (.empty 1)).2
    let header : Header := .create ⟨"t1", "Thing"⟩ a.settings.collection.id none "user" ⟨0, 0⟩
    let homecoming (typeRef : TypeRef) : ArchiveEvent :=
      .operate c (.saveEntityCopy "user" ⟨"e1", { header with typeRef }, ∅, []⟩)
    let entities (typeRef : TypeRef) :=
      ∀ part, part <+: [homecoming typeRef] → ∀ d, (a.through start part).Visible d → ∀ guid,
        d.id = (RecordRef.entity guid).docId → d.OfCategory ts .entity
    let found (typeRef : TypeRef) : Except Failure Nat :=
      (a.findRelationships c .everything (a.through start [homecoming typeRef])).1.map
        fun page => page.records.length
    TypeSystem.ofList [thing, link] = .ok ts ∧
      Archive.setUp ts .default (.empty 1) = (.ok a, start) ∧
      entities thing.typeRef ∧ found thing.typeRef = .ok 0 ∧ ¬ entities link.typeRef ∧
      found link.typeRef =
        .error ⟨.storeFailure, "document e:e1 cannot be mapped: missing end1"⟩ := by
  intro thing link ts a c start header homecoming entities found
  have hts : TypeSystem.ofList [thing, link] = .ok ts := eq_ok_of_isSome (by decide +kernel) _
  have hsetUp : Archive.setUp ts .default (.empty 1) = (.ok a, start) :=
    Archive.setUp_of_isOk (by decide +kernel)
  have hlaw (typeRef : TypeRef) :=
    (kinds_agree_with_categories hts hsetUp [homecoming typeRef]).2.1
  refine ⟨hts, hsetUp, (hlaw thing.typeRef).2 ?_, by decide +kernel, fun hall => ?_,
    by decide +kernel⟩
  · intro c' op hop hmisfiles
    cases List.mem_singleton.1 hop
    obtain ⟨-, t, ht, hne⟩ := hmisfiles
    have hthing : (ts.get? "Thing").map TypeDef.category = some .entity := by decide +kernel
    have ht : ts.get? "Thing" = some t := ht
    rw [ht] at hthing
    exact hne (Option.some.inj hthing)
  · refine (hlaw link.typeRef).1 hall c _ List.mem_cons_self ⟨by decide +kernel, ?_⟩
    have hlink : (ts.get? "Link").map TypeDef.category = some .relationship := by decide +kernel
    obtain ⟨t, ht, hcategory⟩ := Option.map_eq_some_iff.1 hlink
    exact ⟨t, ht, by rw [hcategory]; decide⟩

end MetadataArchive
