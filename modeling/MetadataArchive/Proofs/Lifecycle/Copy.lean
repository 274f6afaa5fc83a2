import MetadataArchive.Lifecycle.Copy
import MetadataArchive.Proofs.Lifecycle.Acting

/-!
# What is written for copies

One lemma for each request about a copy that was accepted. A copy that is no newer than what is
stored leads to no write; the one exception is a relationship that comes back to its home, which is
written without a look at what it replaces.
-/

set_option autoImplicit false

namespace MetadataArchive.Acting

variable {a : Acting} {ws : List Write} {guid name home : String}

/-- A copy of an entity is ignored where it is no newer than the entity that is stored. -/
theorem storeEntityCopy_ok {e : Entity} (h : a.storeEntityCopy e = .ok ws) :
    ∃ stored, a.stored? e.reference = .ok stored ∧
      ((ws = [] ∧ ∃ current, stored = some (.full current) ∧
          e.header.version ≤ current.header.version) ∨
        ∃ d, e.toDocument a.types = .ok d ∧ ws = [.put d] ∧
          ∀ current, stored = some (.full current) →
            ¬ e.header.version ≤ current.header.version) := by
  simp only [storeEntityCopy, bind_eq_ok] at h
  obtain ⟨_, -, _, -, stored, hstored, h⟩ := h
  refine ⟨stored, hstored, ?_⟩
  split at h
  · simp only [bind_eq_ok, pure_eq_ok] at h
    obtain ⟨w, hw, rfl⟩ := h
    obtain ⟨d, hd, rfl⟩ := putEntity_ok hw
    exact Or.inr ⟨d, hd, rfl, by simp⟩
  · simp only [bind_eq_ok, pure_eq_ok] at h
    obtain ⟨_, -, w, hw, rfl⟩ := h
    obtain ⟨d, hd, rfl⟩ := putEntity_ok hw
    exact Or.inr ⟨d, hd, rfl, by simp⟩
  next current =>
    simp only [bind_eq_ok] at h
    obtain ⟨_, -, h⟩ := h
    split at h
    next hstale => exact Or.inl ⟨(pure_eq_ok.1 h).symm, current, rfl, hstale⟩
    next hnewer =>
      simp only [bind_eq_ok, pure_eq_ok] at h
      obtain ⟨w, hw, rfl⟩ := h
      obtain ⟨d, hd, rfl⟩ := putEntity_ok hw
      refine Or.inr ⟨d, hd, rfl, fun current' hc => ?_⟩
      cases hc
      exact hnewer

theorem purgeEntityCopy_ok (h : a.purgeEntityCopy guid home = .ok ws) :
    ws = [] ∨
    (a.touching (.entity guid) = .ok [] ∧ ws = [.evict (RecordRef.entity guid).docId]) ∨
    (∃ (e : Entity) (d : Document), a.stored? (.entity guid) = .ok (some (.full e)) ∧
      (e.toProxy a.types).toDocument a.types = .ok d ∧ ws = [.put d]) := by
  simp only [purgeEntityCopy, bind_eq_ok] at h
  obtain ⟨stored, hstored, h⟩ := h
  split at h
  · exact Or.inl (pure_eq_ok.1 h).symm
  next existing =>
    simp only [bind_eq_ok] at h
    obtain ⟨_, -, h⟩ := h
    split at h
    · exact Or.inl (pure_eq_ok.1 h).symm
    · simp only [bind_eq_ok] at h
      obtain ⟨ids, hids, h⟩ := h
      split at h
      next hempty =>
        have hnil : ids = [] := by simpa using hempty
        exact Or.inr (Or.inl ⟨hnil ▸ hids, (pure_eq_ok.1 h).symm⟩)
      · cases existing with
        | proxy p => exact Or.inl (pure_eq_ok.1 h).symm
        | full e =>
          simp only [bind_eq_ok, pure_eq_ok] at h
          obtain ⟨w, hw, rfl⟩ := h
          obtain ⟨d, hd, rfl⟩ := putProxy_ok hw
          exact Or.inr (Or.inr ⟨e, d, hstored, hd, rfl⟩)

/-- A copy of a relationship is ignored where it is no newer than the one that is stored. -/
theorem storeRelationshipCopy_ok {rel : Relationship} (h : a.storeRelationshipCopy rel = .ok ws) :
    ∃ stored, a.relationship? rel.reference = .ok stored ∧
      ((ws = [] ∧ ∃ current, stored = some current ∧
          rel.header.version ≤ current.header.version) ∨
        (a.Connects rel ws ∧ ∀ current, stored = some current →
          ¬ rel.header.version ≤ current.header.version)) := by
  simp only [storeRelationshipCopy, bind_eq_ok] at h
  obtain ⟨_, -, _, -, stored, hstored, h⟩ := h
  refine ⟨stored, hstored, ?_⟩
  have hput : (∃ proxies, a.endProxies rel.endOne rel.endTwo false = .ok proxies ∧
      ∃ w, a.putRelationship rel = .ok w ∧ proxies ++ [w] = ws) → a.Connects rel ws := by
    rintro ⟨proxies, hproxies, w, hw, rfl⟩
    obtain ⟨d, hd, rfl⟩ := putRelationship_ok hw
    exact ⟨proxies, d, false, hproxies, hd, rfl⟩
  cases stored with
  | none =>
    simp only [bind_eq_ok, pure_eq_ok] at h
    obtain ⟨stale, rfl, h⟩ := h
    simp only [Bool.false_eq_true, if_false, bind_eq_ok, pure_eq_ok] at h
    exact Or.inr ⟨hput h, by simp⟩
  | some current =>
    simp only [bind_eq_ok, pure_eq_ok] at h
    obtain ⟨_, -, stale, rfl, h⟩ := h
    split at h
    next hstale => exact Or.inl ⟨(pure_eq_ok.1 h).symm, current, rfl, by simpa using hstale⟩
    next hnewer =>
      simp only [bind_eq_ok, pure_eq_ok] at h
      refine Or.inr ⟨hput h, fun current' hc => ?_⟩
      cases hc
      simpa using hnewer

theorem storeHomeRelationship_ok {rel : Relationship} (h : a.storeHomeRelationship rel = .ok ws) :
    a.Connects rel ws := by
  simp only [storeHomeRelationship, bind_eq_ok, pure_eq_ok] at h
  obtain ⟨_, -, _, -, _, -, _, -, proxies, hproxies, w, hw, rfl⟩ := h
  obtain ⟨d, hd, rfl⟩ := putRelationship_ok hw
  exact ⟨proxies, d, false, hproxies, hd, rfl⟩

theorem purgeRelationshipCopy_ok (h : a.purgeRelationshipCopy guid home = .ok ws) :
    ws = [] ∨ ws = [.evict (RecordRef.relationship guid).docId] := by
  simp only [purgeRelationshipCopy, bind_eq_ok] at h
  obtain ⟨stored, -, h⟩ := h
  split at h
  · exact Or.inl (pure_eq_ok.1 h).symm
  · simp only [bind_eq_ok] at h
    obtain ⟨_, -, h⟩ := h
    split at h
    · exact Or.inl (pure_eq_ok.1 h).symm
    · exact Or.inr (pure_eq_ok.1 h).symm

/-- A copy of a classification leaves the version of its entity as it is. -/
theorem storeClassificationCopy_ok {c : Classification}
    (h : a.storeClassificationCopy guid c = .ok ws) : ws = [] ∨ a.Rewrites guid id ws := by
  simp only [storeClassificationCopy, bind_eq_ok] at h
  obtain ⟨e, he, _, -, _, -, h⟩ := h
  split at h
  · simp only [bind_eq_ok, pure_eq_ok] at h
    obtain ⟨w, hw, rfl⟩ := h
    exact Or.inr (rewrites_of_putEntity (entity_ok he) hw rfl rfl)
  · simp only [bind_eq_ok] at h
    obtain ⟨_, -, h⟩ := h
    split at h
    · exact Or.inl (pure_eq_ok.1 h).symm
    · simp only [bind_eq_ok, pure_eq_ok] at h
      obtain ⟨w, hw, rfl⟩ := h
      exact Or.inr (rewrites_of_putEntity (entity_ok he) hw rfl rfl)

theorem purgeClassificationCopy_ok (h : a.purgeClassificationCopy guid name home = .ok ws) :
    ws = [] ∨ a.Rewrites guid id ws := by
  simp only [purgeClassificationCopy, bind_eq_ok] at h
  obtain ⟨stored, hstored, h⟩ := h
  split at h
  · exact Or.inl (pure_eq_ok.1 h).symm
  · exact Or.inl (pure_eq_ok.1 h).symm
  next e =>
    split at h
    · simp only [throw_eq_ok] at h
    · simp only [bind_eq_ok] at h
      obtain ⟨_, -, h⟩ := h
      split at h
      · exact Or.inl (pure_eq_ok.1 h).symm
      · simp only [bind_eq_ok, pure_eq_ok] at h
        obtain ⟨w, hw, rfl⟩ := h
        exact Or.inr (rewrites_of_putEntity hstored hw rfl rfl)

/-! ## What does not fail for want of an end -/

theorem avoids_homedElsewhere (h : Header) (r : RecordRef) :
    Avoids Failure.Dangling (a.homedElsewhere h r) := by
  simp [homedElsewhere]

theorem avoids_storeEntityCopy (e : Entity) :
    Avoids Failure.Dangling (a.storeEntityCopy e) := by
  simp only [storeEntityCopy, avoids_bind, avoids_liftM_rejection, avoids_homedElsewhere,
    avoids_stored?, true_and]
  intro _ _ _ _ stored _
  split
  · simp [avoids_putEntity]
  · simp [avoids_homedElsewhere, avoids_putEntity]
  · simp only [avoids_bind, avoids_homedElsewhere, true_and]
    intro _ _
    split <;> simp [avoids_putEntity]

theorem avoids_purgeEntityCopy (guid home : String) :
    Avoids Failure.Dangling (a.purgeEntityCopy guid home) := by
  simp only [purgeEntityCopy, avoids_bind, avoids_stored?, true_and]
  intro stored _
  split
  · exact avoids_pure
  · simp only [avoids_bind, avoids_homedElsewhere, true_and]
    intro _ _
    split
    · exact avoids_pure
    · simp only [avoids_bind, avoids_touching, true_and]
      intro _ _
      split
      · exact avoids_pure
      · split <;> simp [avoids_putProxy]

theorem avoids_storeRelationshipCopy (hends : a.context.source.HasEnds) (rel : Relationship) :
    Avoids Failure.Dangling (a.storeRelationshipCopy rel) := by
  simp only [storeRelationshipCopy, avoids_bind, avoids_liftM_rejection, avoids_homedElsewhere,
    avoids_relationship? hends, true_and]
  intro _ _ _ _ stored _
  split
  · simp only [avoids_bind, avoids_pure, true_and]
    intro stale _
    split <;> simp [avoids_endProxies, avoids_putRelationship]
  · simp only [avoids_bind, avoids_homedElsewhere, avoids_pure, true_and]
    intro _ _ stale _
    split <;> simp [avoids_endProxies, avoids_putRelationship]

theorem avoids_storeHomeRelationship (rel : Relationship) :
    Avoids Failure.Dangling (a.storeHomeRelationship rel) := by
  simp [storeHomeRelationship, avoids_endProxies, avoids_putRelationship]

theorem avoids_purgeRelationshipCopy (hends : a.context.source.HasEnds) (guid home : String) :
    Avoids Failure.Dangling (a.purgeRelationshipCopy guid home) := by
  simp only [purgeRelationshipCopy, avoids_bind, avoids_relationship? hends, true_and]
  intro stored _
  split
  · exact avoids_pure
  · simp only [avoids_bind, avoids_homedElsewhere, true_and]
    intro _ _
    split <;> simp

theorem avoids_storeClassificationCopy (guid : String) (c : Classification) :
    Avoids Failure.Dangling (a.storeClassificationCopy guid c) := by
  simp only [storeClassificationCopy, avoids_bind, avoids_liftM_rejection, avoids_homedElsewhere,
    avoids_entity, true_and]
  intro _ _ _ _ _ _
  split
  · simp [avoids_putEntity]
  · simp only [avoids_bind, avoids_homedElsewhere, true_and]
    intro _ _
    split <;> simp [avoids_putEntity]

theorem avoids_purgeClassificationCopy (guid name home : String) :
    Avoids Failure.Dangling (a.purgeClassificationCopy guid name home) := by
  simp only [purgeClassificationCopy, avoids_bind, avoids_stored?, true_and]
  intro stored _
  split
  · exact avoids_pure
  · exact avoids_pure
  · split
    · simp
    · simp only [avoids_bind, avoids_homedElsewhere, true_and]
      intro _ _
      split <;> simp [avoids_putEntity]

end MetadataArchive.Acting
