import MetadataArchive.Lifecycle.Home
import MetadataArchive.Proofs.Lifecycle.Acting

/-!
# What the requests of a record's home write

One lemma for each request that was accepted: what was stored of its record, and what is written in
its place. No request here fails for want of an end in a state that has the ends of all.
-/

set_option autoImplicit false

namespace MetadataArchive.Acting

variable {a : Acting} {ws : List Write} {guid name typeName : String} {ps : Properties}
variable {status : Option Status}

/-- An entity is created where nothing is stored of it but a proxy. -/
theorem createEntity_ok {cs : List NewClassification}
    (h : a.createEntity guid typeName ps cs status = .ok ws) :
    (∃ stored, a.stored? (.entity guid) = .ok stored ∧ ∀ e, stored ≠ some (.full e)) ∧
      ∃ (e : Entity) (d : Document), e.guid = guid ∧ e.header.lastChange = a.context.time ∧
        e.toDocument a.types = .ok d ∧ ws = [.put d] := by
  simp only [createEntity, bind_eq_ok] at h
  obtain ⟨_, -, _, -, _, -, stored, hstored, h⟩ := h
  have hput : ∀ e : Entity, e.guid = guid → e.header.lastChange = a.context.time →
      ∀ w, a.putEntity e = .ok w → [w] = ws →
      ∃ (e : Entity) (d : Document), e.guid = guid ∧ e.header.lastChange = a.context.time ∧
        e.toDocument a.types = .ok d ∧ ws = [.put d] := by
    rintro e hguid htime w hw rfl
    obtain ⟨d, hd, rfl⟩ := putEntity_ok hw
    exact ⟨e, d, hguid, htime, hd, rfl⟩
  cases stored with
  | none =>
    simp only [bind_eq_ok, pure_eq_ok] at h
    obtain ⟨_, -, w, hw, rfl⟩ := h
    exact ⟨⟨none, hstored, by simp⟩, hput _ rfl rfl w hw rfl⟩
  | some existing =>
    cases existing with
    | full e => simp [StoredEntity.isProxy, bind_eq_ok, throw_eq_ok] at h
    | proxy p =>
      simp only [StoredEntity.isProxy, Bool.not_true, Bool.false_eq_true, if_false, bind_eq_ok,
        pure_eq_ok] at h
      obtain ⟨_, -, w, hw, rfl⟩ := h
      exact ⟨⟨_, hstored, by simp⟩, hput _ rfl rfl w hw rfl⟩

theorem createStub_ok {p : Proxy} (h : a.createStub p = .ok ws) :
    ws = [] ∨ a.document? p.reference = none ∧
      ∃ d, p.toDocument a.types = .ok d ∧ ws = [.put d] := by
  simp only [createStub, bind_eq_ok] at h
  obtain ⟨_, -, h⟩ := h
  split at h
  · exact Or.inl (pure_eq_ok.1 h).symm
  next hnone =>
    simp only [bind_eq_ok, pure_eq_ok] at h
    obtain ⟨w, hw, rfl⟩ := h
    obtain ⟨d, hd, rfl⟩ := putProxy_ok hw
    exact Or.inr ⟨by simpa using hnone, d, hd, rfl⟩

theorem changeEntity_ok {change : Change} (h : a.changeEntity guid change = .ok ws) :
    a.Touches guid ws := by
  simp only [changeEntity, bind_eq_ok, pure_eq_ok, liftM_rejection_eq_ok] at h
  obtain ⟨e, he, ⟨header, properties⟩, hchange, w, hw, rfl⟩ := h
  obtain ⟨h, hversion, -, rfl⟩ := Change.touches_apply hchange
  exact touches_of_putEntity (entity_ok he) hw rfl hversion rfl

theorem purgeEntity_ok {force : Bool} (h : a.purgeEntity guid force = .ok ws) :
    ∃ ids, a.touching (.entity guid) = .ok ids ∧
      ws = ids.map .evict ++ [.evict (RecordRef.entity guid).docId] := by
  simp only [purgeEntity, bind_eq_ok] at h
  obtain ⟨_, -, _, -, h⟩ := h
  split at h
  · simp only [bind_eq_ok, pure_eq_ok] at h
    obtain ⟨_, -, ids, hids, rfl⟩ := h
    exact ⟨ids, hids, rfl⟩
  · simp only [bind_eq_ok, pure_eq_ok] at h
    obtain ⟨ids, hids, rfl⟩ := h
    exact ⟨ids, hids, rfl⟩

theorem classify_ok {mode : ClassifyMode} (h : a.classify guid name ps mode = .ok ws) :
    a.Touches guid ws := by
  simp only [classify, bind_eq_ok] at h
  obtain ⟨e, he, _, -, h⟩ := h
  split at h
  · simp only [bind_eq_ok, throw_eq_ok, false_and, exists_false] at h
  · simp only [bind_eq_ok, throw_eq_ok, false_and, exists_false] at h
  · simp only [bind_eq_ok, pure_eq_ok] at h
    obtain ⟨_, -, _, -, _, -, _, -, w, hw, rfl⟩ := h
    exact touches_of_putEntity (entity_ok he) hw rfl rfl rfl
  · simp only [bind_eq_ok, pure_eq_ok] at h
    obtain ⟨_, -, _, -, w, hw, rfl⟩ := h
    exact touches_of_putEntity (entity_ok he) hw rfl rfl rfl

theorem declassify_ok (h : a.declassify guid name = .ok ws) : a.Touches guid ws := by
  simp only [declassify, bind_eq_ok] at h
  obtain ⟨e, he, _, -, h⟩ := h
  split at h
  · simp only [throw_eq_ok] at h
  · simp only [bind_eq_ok, pure_eq_ok] at h
    obtain ⟨_, -, w, hw, rfl⟩ := h
    exact touches_of_putEntity (entity_ok he) hw rfl rfl rfl

/-- A relationship is created where nothing is stored of it. -/
theorem createRelationship_ok {endOne endTwo : Proxy}
    (h : a.createRelationship guid typeName ps status endOne endTwo = .ok ws) :
    a.document? (.relationship guid) = none ∧
      ∃ rel : Relationship, rel.guid = guid ∧ a.Connects rel ws := by
  simp only [createRelationship, bind_eq_ok] at h
  obtain ⟨_, -, _, -, _, -, h⟩ := h
  split at h
  · simp only [bind_eq_ok, throw_eq_ok, false_and, exists_false] at h
  next hnone =>
    simp only [bind_eq_ok, pure_eq_ok] at h
    obtain ⟨proxies, hproxies, w, hw, rfl⟩ := h
    obtain ⟨d, hd, rfl⟩ := putRelationship_ok hw
    exact ⟨by simpa using hnone, _, rfl, proxies, d, true, hproxies, hd, rfl⟩

theorem changeRelationship_ok {change : Change} (h : a.changeRelationship guid change = .ok ws) :
    ∃ (rel rel' : Relationship) (d : Document),
      a.relationship? (.relationship guid) = .ok (some rel) ∧ rel'.guid = rel.guid ∧
      rel'.endOne = rel.endOne ∧ rel'.endTwo = rel.endTwo ∧
      rel'.header.version = rel.header.version + 1 ∧ rel'.toDocument a.types = .ok d ∧
      ws = [.put d] := by
  simp only [changeRelationship, bind_eq_ok, pure_eq_ok, liftM_rejection_eq_ok] at h
  obtain ⟨rel, hrel, ⟨header, properties⟩, hchange, w, hw, rfl⟩ := h
  obtain ⟨d, hd, rfl⟩ := putRelationship_ok hw
  exact ⟨rel, { rel with header, properties }, d, relationship_ok hrel, rfl, rfl, rfl,
    Change.version_apply hchange, hd, rfl⟩

theorem purgeRelationship_ok {force : Bool} (h : a.purgeRelationship guid force = .ok ws) :
    ws = [.evict (RecordRef.relationship guid).docId] := by
  simp only [purgeRelationship, bind_eq_ok] at h
  obtain ⟨_, -, _, -, h⟩ := h
  split at h
  · simp only [bind_eq_ok, pure_eq_ok] at h
    obtain ⟨_, -, h⟩ := h
    exact h.symm
  · exact (pure_eq_ok.1 h).symm

/-! ## What does not fail for want of an end -/

theorem avoids_newClassification (entityType : String) :
    Avoids Failure.Dangling (a.newClassification entityType name ps) := by
  simp [newClassification]

theorem avoids_newClassifications (entityType : String) (done : List Classification)
    (cs : List NewClassification) :
    Avoids Failure.Dangling (a.newClassifications entityType done cs) := by
  induction cs generalizing done with
  | nil => exact avoids_ok
  | cons c cs ih =>
    unfold newClassifications
    split <;> simp [avoids_newClassification, ih]

theorem avoids_createEntity (guid typeName : String) (ps : Properties) (cs : List NewClassification)
    (status : Option Status) :
    Avoids Failure.Dangling (a.createEntity guid typeName ps cs status) := by
  simp only [createEntity, avoids_bind, avoids_liftM_rejection, avoids_stored?, true_and]
  intro _ _ _ _ _ _ stored _
  split
  · split <;> simp [avoids_newClassifications, avoids_putEntity]
  · simp [avoids_newClassifications, avoids_putEntity]

theorem avoids_createStub (p : Proxy) : Avoids Failure.Dangling (a.createStub p) := by
  simp only [createStub, avoids_bind, avoids_liftM_rejection, true_and]
  intro _ _
  split <;> simp [avoids_putProxy]

theorem avoids_changeEntity (guid : String) (change : Change) :
    Avoids Failure.Dangling (a.changeEntity guid change) := by
  simp [changeEntity, avoids_entity, avoids_putEntity]

theorem avoids_purgeEntity (guid : String) (force : Bool) :
    Avoids Failure.Dangling (a.purgeEntity guid force) := by
  simp only [purgeEntity, avoids_bind, avoids_liftM_rejection, avoids_entity, true_and]
  intro _ _ _ _
  split <;> simp [avoids_touching]

theorem avoids_classify (guid name : String) (ps : Properties) (mode : ClassifyMode) :
    Avoids Failure.Dangling (a.classify guid name ps mode) := by
  simp only [classify, avoids_bind, avoids_liftM_rejection, avoids_entity, true_and]
  intro _ _ _ _
  split <;> simp [avoids_newClassification, avoids_putEntity]

theorem avoids_declassify (guid name : String) :
    Avoids Failure.Dangling (a.declassify guid name) := by
  simp only [declassify, avoids_bind, avoids_liftM_rejection, avoids_entity, true_and]
  intro _ _ _ _
  split <;> simp [avoids_putEntity]

theorem avoids_createRelationship (guid typeName : String) (ps : Properties)
    (status : Option Status) (endOne endTwo : Proxy) :
    Avoids Failure.Dangling (a.createRelationship guid typeName ps status endOne endTwo) := by
  simp only [createRelationship, avoids_bind, avoids_liftM_rejection, true_and]
  intro _ _ _ _ _ _
  split <;> simp [avoids_endProxies, avoids_putRelationship]

theorem avoids_changeRelationship (hends : a.context.source.HasEnds) (guid : String)
    (change : Change) : Avoids Failure.Dangling (a.changeRelationship guid change) := by
  simp [changeRelationship, avoids_relationship hends, avoids_putRelationship]

theorem avoids_purgeRelationship (hends : a.context.source.HasEnds) (guid : String)
    (force : Bool) : Avoids Failure.Dangling (a.purgeRelationship guid force) := by
  simp only [purgeRelationship, avoids_bind, avoids_liftM_rejection, avoids_relationship hends,
    true_and]
  intro _ _ _ _
  split <;> simp

end MetadataArchive.Acting
