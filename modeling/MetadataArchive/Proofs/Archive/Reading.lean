import MetadataArchive.Archive.Basic
import MetadataArchive.Proofs.Lifecycle.Integrity
import MetadataArchive.Proofs.Store.Latest
import MetadataArchive.Proofs.Store.Snapshot

/-!
# Reading relationships

A reader is shown what there is to be seen of the present or of an instant of the past. Where both
ends of all relationships are among it, no reader fails for want of an end, whatever else may be
wrong with what is asked: neither one that reads a single relationship nor one that reads those that
a search or a walk has found.
-/

set_option autoImplicit false

namespace MetadataArchive

variable {ts : TypeSystem} {s : Store} {snap : Snapshot} {src : Source} {α β : Type}

/-! ## Records -/

theorem Store.Shows.avoids_entity? (h : s.Shows snap src) (id : DocId) :
    Avoids Failure.Dangling (s.entity? snap id) := by
  simp only [Store.entity?, h.get, avoids_bind, avoids_liftM_store, true_and]
  intro d _
  cases d <;> simp [StoredEntity.avoids_ofDocument]

/-- **A relationship of a linked state is read without fail**, as far as its ends are concerned. -/
theorem Store.Shows.avoids_relationship? (h : s.Shows snap src) (hends : src.HasEnds)
    (id : DocId) : Avoids Failure.Dangling (s.relationship? ts snap id) := by
  simp only [Store.relationship?, h.get, avoids_bind, avoids_liftM_store, liftM_store_eq_ok,
    true_and, Except.ok.injEq]
  rintro d rfl
  cases hd : src.document? id with
  | none => exact avoids_pure
  | some d =>
    simp only [avoids_bind, avoids_liftM_record, avoids_liftM_store, liftM_record_eq_ok,
      liftM_store_eq_ok, true_and, Except.ok.injEq]
    refine ⟨Relationship.avoids_ends d, ?_⟩
    rintro ⟨one, two⟩ htwo
    obtain ⟨⟨d₁, h₁⟩, d₂, h₂⟩ := hends id d hd one two htwo
    rintro _ rfl _ rfl
    simp only [h₁, h₂]
    simp [Relationship.avoids_ofDocument]

theorem Store.Shows.avoids_entities (h : s.Shows snap src) (ids : List DocId) :
    Avoids Failure.Dangling (s.entities snap ids) := by
  induction ids with
  | nil => exact avoids_ok
  | cons id ids ih =>
    simp only [Store.entities, avoids_bind, h.avoids_entity?, ih, true_and]
    intro here _ there _
    split <;> simp

theorem Store.Shows.avoids_relationships (h : s.Shows snap src) (hends : src.HasEnds)
    (ids : List DocId) : Avoids Failure.Dangling (s.relationships ts snap ids) := by
  induction ids with
  | nil => exact avoids_ok
  | cons id ids ih => simp [Store.relationships, h.avoids_relationship? hends, ih]

/-! ## Searches -/

/-- A search fails for want of an end where a record of it does. -/
def SearchError.Dangling : SearchError → Prop
  | .record e => e.Dangling
  | _ => False

@[simp] theorem avoids_liftM_search {x : Except SearchError α} :
    Avoids Failure.Dangling (liftM x : Except Failure α) ↔ Avoids SearchError.Dangling x := by
  cases x with
  | ok a => exact iff_of_true avoids_ok avoids_ok
  | error e =>
    show Avoids Failure.Dangling (.error (Failure.ofSearch e) : Except Failure α) ↔ _
    rw [avoids_error, avoids_error]
    cases e with
    | store e => exact not_congr (iff_of_false (not_dangling_ofStore e) id)
    | record e => exact not_congr dangling_ofRecord
    | unknownType | wrongCategory | invalidPattern | unknownRoot =>
      simp [Failure.ofSearch, Failure.Dangling, SearchError.Dangling]

theorem avoids_mapError_store (x : Except StoreError α) :
    Avoids SearchError.Dangling (x.mapError SearchError.store) :=
  avoids_mapError.2 (avoids_of_forall fun _ => id)

theorem avoids_mapError_record {x : Except RecordError α} :
    Avoids SearchError.Dangling (x.mapError SearchError.record) ↔ Avoids RecordError.Dangling x :=
  avoids_mapError

theorem TypeSystem.avoids_require (name : String) :
    Avoids RecordError.Dangling (ts.require name) := by
  unfold TypeSystem.require
  split <;> simp [RecordError.Dangling]

theorem TypeSystem.avoids_filterType (category : TypeCategory) (name : String) :
    Avoids SearchError.Dangling (ts.filterType category name) := by
  unfold TypeSystem.filterType
  split
  · simp [SearchError.Dangling]
  · split <;> simp [SearchError.Dangling]

theorem TypeSystem.avoids_typeClauses (filter : Option TypeFilter) (category : TypeCategory)
    (record : Var) : Avoids SearchError.Dangling (ts.typeClauses filter category record) := by
  unfold TypeSystem.typeClauses
  split
  · exact avoids_ok
  · exact avoids_ok
  · simp [TypeSystem.avoids_filterType, TypeSystem.subtypesOf, avoids_mapError_record,
      TypeSystem.avoids_require]
  · simp [avoids_mapM (TypeSystem.avoids_filterType category)]

theorem SearchScope.avoids_textClauses (scope : SearchScope) (bound : Var)
    (text : Option String) : Avoids SearchError.Dangling (scope.textClauses ts bound text) := by
  have hall : Avoids SearchError.Dangling (scope.allAttributes ts) :=
    avoids_foldlM (fun _ _ => by
      simp [TypeSystem.legalProperties, avoids_mapError_record, TypeSystem.avoids_require]) _ _
  cases text with
  | none => exact avoids_ok
  | some pattern =>
    simp only [SearchScope.textClauses, SearchScope.textClause, avoids_map]
    split
    · simpa using hall
    · simp [SearchError.Dangling]

theorem RelationshipSearch.avoids_plan (l : QueryLimits) (entity : Option RecordRef)
    (search : RelationshipSearch) : Avoids SearchError.Dangling (search.plan ts l entity) := by
  simp only [RelationshipSearch.plan, avoids_bind, TypeSystem.avoids_typeClauses, true_and]
  rintro ⟨types, candidates⟩ -
  split
  simp [SearchScope.avoids_textClauses]

theorem GraphSearch.avoids_ask (q : Query) (v : Var) :
    Avoids SearchError.Dangling (GraphSearch.ask s snap q v) :=
  avoids_mapError_store _

theorem GraphSearch.avoids_neighborhood (l : QueryLimits) (g : GraphSearch) :
    Avoids SearchError.Dangling (g.neighborhood ts l s snap) := by
  have htraverse : Avoids SearchError.Dangling (g.traverse l s snap) := by
    simp only [GraphSearch.traverse, Store.traverse, Store.walk, avoids_bind,
      avoids_mapError_store, true_and]
    refine ⟨fun d _ => ?_, fun w _ => ?_⟩
    · split <;> simp [SearchError.Dangling]
    · split <;> simp [SearchError.Dangling]
  have hedges (w : Walk) : Avoids SearchError.Dangling (g.passingEdges ts l s snap w) := by
    unfold GraphSearch.passingEdges
    split <;> simp [TypeSystem.avoids_typeClauses, GraphSearch.avoids_ask]
  have hentities (ids : List DocId) :
      Avoids SearchError.Dangling (g.passingEntities ts l s snap ids false) := by
    unfold GraphSearch.passingEntities
    split <;> simp [TypeSystem.avoids_typeClauses, GraphSearch.avoids_ask]
  simp [GraphSearch.neighborhood, htraverse, hedges, hentities]

/-! ## Archives -/

/-- Work on a site does not fail for want of an end. -/
def AvoidsOn (site : Site) (x : OnSite Failure α) : Prop := Avoids Failure.Dangling (x site).1

section Archives

variable {site : Site} {c : Clock}

/-- Work that fails goes no further, and leaves the site as it was left by then. -/
theorem OnSite.bind_eq {ε : Type} (x : OnSite ε α) (f : α → OnSite ε β) (site : Site) :
    (x >>= f) site =
      match x site with
      | (.ok a, site') => f a site'
      | (.error e, site') => (.error e, site') := by
  simp only [bind, ExceptT.bind, ExceptT.mk, ExceptT.bindCont, StateT.bind]
  rcases x site with ⟨_ | _, _⟩ <;> rfl

theorem avoidsOn_bind {x : OnSite Failure α} {f : α → OnSite Failure β} (hx : AvoidsOn site x)
    (hf : ∀ a site', x site = (.ok a, site') → AvoidsOn site' (f a)) :
    AvoidsOn site (x >>= f) := by
  unfold AvoidsOn at *
  rw [OnSite.bind_eq]
  rcases hsite : x site with ⟨e | a, site'⟩
  · rw [hsite] at hx
    exact avoids_error.2 (avoids_error.1 hx)
  · exact hf a site' hsite

theorem avoidsOn_pure (a : α) : AvoidsOn site (pure a : OnSite Failure α) := avoids_ok

theorem avoidsOn_lift {x : Except Failure α} (hx : Avoids Failure.Dangling x) :
    AvoidsOn site (liftM x : OnSite Failure α) := hx

theorem avoidsOn_lift_bind {x : Except Failure α} {f : α → OnSite Failure β}
    (hx : Avoids Failure.Dangling x) (hf : ∀ a, AvoidsOn site (f a)) :
    AvoidsOn site (liftM x >>= f) := by
  refine avoidsOn_bind (avoidsOn_lift hx) fun a site' h => ?_
  -- Lifting leaves the site as it is.
  cases (Prod.mk.inj h).2
  exact hf a

/-- A reader is shown what snapshots of its instant show. What was just opened can be released, so
that does not fail. -/
theorem Archive.reading_fst {asOf : Option Instant} (h : site.store.ShowsAsOf asOf src)
    (read : Store → Snapshot → Except Failure α) :
    ∃ s snap, s.Shows snap src ∧ (Archive.reading c asOf read site).1 = read s snap := by
  have hshows := h c.now
  refine ⟨_, _, hshows, ?_⟩
  obtain ⟨pin, hpin, -⟩ := hshows
  simp only [Archive.reading, Site.openSnapshot, Site.release, Store.release, hpin]
  cases read (site.store.openSnapshot c.now asOf).2 (site.store.openSnapshot c.now asOf).1 <;> rfl

/-- All that reading leaves behind is that a snapshot was opened and released. -/
theorem Archive.reading_snd (c : Clock) (asOf : Option Instant)
    (read : Store → Snapshot → Except Failure α) (site : Site) :
    (Archive.reading c asOf read site).2 =
      (Site.release (Site.openSnapshot c asOf site).1 (Site.openSnapshot c asOf site).2).2 := by
  unfold Archive.reading
  rcases Site.openSnapshot c asOf site with ⟨snap, opened⟩
  dsimp only
  rcases Site.release snap opened with ⟨released, closed⟩
  cases read opened.store snap <;> cases released <;> rfl

theorem avoidsOn_reading {asOf : Option Instant} (h : site.store.ShowsAsOf asOf src)
    {read : Store → Snapshot → Except Failure α}
    (hread : ∀ s snap, s.Shows snap src → Avoids Failure.Dangling (read s snap)) :
    AvoidsOn site (Archive.reading c asOf read) := by
  obtain ⟨s, snap, hshows, hanswer⟩ := Archive.reading_fst (c := c) h read
  rw [AvoidsOn, hanswer]
  exact hread s snap hshows

variable {a : Archive}

/-- **Where ends are stored, nothing that reads relationships fails for want of one**: neither
reading one, nor a search for them, nor those of one entity, nor what surrounds one. -/
theorem Archive.avoids_reads {asOf : Option Instant} (h : site.store.ShowsAsOf asOf src)
    (hends : src.HasEnds) (guid : String) :
    AvoidsOn site (a.relationship c guid asOf) ∧
      (∀ search : RelationshipSearch, search.asOf = asOf →
        AvoidsOn site (a.findRelationships c search) ∧
        AvoidsOn site (a.relationshipsOf c guid search)) ∧
      ∀ g : GraphSearch, g.asOf = asOf → AvoidsOn site (a.neighborhood c g) := by
  refine ⟨?_, fun search htime => ⟨?_, ?_⟩, fun g htime => ?_⟩
  · refine avoidsOn_bind (avoidsOn_reading h fun s snap h => ?_) fun stored site' _ => ?_
    · exact h.avoids_relationship? hends _
    · exact avoidsOn_lift (avoids_liftM_rejection _)
  · refine avoidsOn_lift_bind (by simp [RelationshipSearch.avoids_plan]) fun plan => ?_
    rw [htime]
    refine avoidsOn_bind (avoidsOn_reading h fun s snap h => ?_) fun _ _ _ => avoidsOn_pure _
    simp [h.avoids_relationships hends]
  · refine avoidsOn_lift_bind (by simp [RelationshipSearch.avoids_plan]) fun plan => ?_
    rw [htime]
    refine avoidsOn_bind (avoidsOn_reading h fun s snap h => ?_) fun _ _ _ => avoidsOn_pure _
    simp [h.avoids_entity?, h.avoids_relationships hends]
  · rw [Archive.neighborhood, htime]
    refine avoidsOn_reading h fun s snap h => ?_
    simp [GraphSearch.avoids_neighborhood, h.avoids_entity?, h.avoids_entities,
      h.avoids_relationships hends]

end Archives

end MetadataArchive
