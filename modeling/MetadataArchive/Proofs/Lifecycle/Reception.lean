import MetadataArchive.Proofs.Lifecycle.Edit

/-!
# When copies are taken in

The exact conditions under which a request about a copy is carried out, and what it writes then. Two
of the requests that store a copy compare versions with what is stored in full; the third compares
them with the classification of the same name. Whoever is homed is asked of the copy and of what it
would replace, and of nothing else: not who replicates the record, nor what its entity carries.
-/

set_option autoImplicit false

namespace MetadataArchive

/-- The classifications of an entity with another one taken in, in the place of the first of its
name. -/
def Entity.takingIn (e : Entity) (c : Classification) : List Classification :=
  match e.classification? c.name with
  | none => e.classifications ++ [c]
  | some _ => e.replaceFirst c

theorem Entity.swapped_takingIn (e : Entity) (c : Classification) :
    Swapped c.name (e.classification? c.name) (some c) e.classifications (e.takingIn c) := by
  unfold Entity.takingIn
  cases hfound : e.classification? c.name with
  | none => exact Entity.swapped_concat hfound rfl
  | some current => exact Entity.swapped_replaceFirst hfound rfl

theorem Rule.typeOf_eq_ok {ts : TypeSystem} {name : String} {category : TypeCategory} :
    (∃ t, Rule.typeOf ts name category = .ok t) ↔ ts.Knows (· = category) name := by
  constructor
  · rintro ⟨t, ht⟩
    exact Rule.knows_of_typeOf ht
  · rintro ⟨t, ht, hcategory⟩
    exact ⟨t, by rw [Rule.typeOf, ht]; exact if_pos hcategory⟩

theorem Rule.applicable_eq_ok {ts : TypeSystem} {name entityType : String} :
    (∃ u, Rule.applicable ts name entityType = .ok u) ↔ ts.isValidFor name entityType = true := by
  unfold Rule.applicable
  by_cases hvalid : ts.isValidFor name entityType = true
  · rw [if_pos hvalid]
    exact iff_of_true ⟨(), rfl⟩ hvalid
  · rw [if_neg hvalid]
    exact iff_of_false (by simp) hvalid

/-- Only a known type is valid for entities of some type. -/
theorem TypeSystem.undotted_of_isValidFor {ts : TypeSystem} {name entityType : String}
    (hnamed : ts.Named) (hundotted : ts.Undotted) (h : ts.isValidFor name entityType = true) :
    '.' ∉ name.toList := by
  unfold TypeSystem.isValidFor at h
  split at h
  · cases h
  next t ht => exact hnamed _ _ ht ▸ hundotted _ _ ht

namespace Acting

variable {a : Acting} {ws : List Write} {guid name home : String} {r : RecordRef} {d : Document}

/-! ## What can be read -/

theorem stored?_of_none (hd : a.document? r = none) : a.stored? r = .ok none := by
  rw [stored?, hd]

theorem stored?_of_ofDocument {stored : StoredEntity} (hd : a.document? r = some d)
    (hread : StoredEntity.ofDocument d = .ok stored) : a.stored? r = .ok (some stored) := by
  rw [stored?, hd]
  simp only [bind_eq_ok, pure_eq_ok, liftM_record_eq_ok]
  exact ⟨stored, hread, rfl⟩

theorem entity_of_stored? {e : Entity} (h : a.stored? r = .ok (some (.full e))) :
    a.entity r = .ok e := by
  simp only [entity, bind_eq_ok, liftM_rejection_eq_ok]
  exact ⟨_, h, _, rfl, rfl⟩

/-- Proxies can be written for ends of known types where what is stored of the ends can be read. -/
theorem exists_endProxies {one two : Proxy}
    (h : ∀ p, p = one ∨ p = two → ∃ stored, a.stored? p.reference = .ok stored ∧
      (stored = none → a.types.Knows (· = .entity) p.header.typeRef.name)) :
    ∃ ws, a.endProxies one two false = .ok ws := by
  have hend {p : Proxy} (hp : p = one ∨ p = two) (needed : Bool) :
      ∃ ws, a.endProxy false p needed = .ok ws := by
    obtain ⟨stored, hstored, hknown⟩ := h p hp
    unfold endProxy
    rw [hstored, ok_bind]
    cases stored with
    | some existing => exact ⟨[], rfl⟩
    | none =>
      cases needed with
      | false => exact ⟨[], rfl⟩
      | true =>
        obtain ⟨t, ht⟩ := Rule.typeOf_eq_ok.2 (hknown rfl)
        obtain ⟨_, hget, -⟩ := hknown rfl
        have hput : ∃ d, p.toDocument a.types = .ok d := Proxy.exists_toDocument (by simp [hget])
        obtain ⟨d, hd⟩ := hput
        refine ⟨[.put d], ?_⟩
        simp only [if_true, putProxy, bind_eq_ok, pure_eq_ok, liftM_rejection_eq_ok,
          liftM_record_eq_ok]
        exact ⟨t, ht, _, ⟨d, hd, rfl⟩, rfl⟩
  obtain ⟨ws, hws⟩ := hend (Or.inl rfl) true
  obtain ⟨ws', hws'⟩ := hend (Or.inr rfl) (one.guid != two.guid)
  refine ⟨ws ++ ws', ?_⟩
  rw [endProxies_eq, hws, ok_bind, hws', ok_bind]
  rfl

/-! ## Taking copies in -/

/-- A record is not homed in the acting collection. -/
def Elsewhere (a : Acting) (h : Header) : Prop := h.collectionId ≠ a.collection.id

theorem homedElsewhere_eq_ok {h : Header} {r : RecordRef} :
    (∃ u, a.homedElsewhere h r = .ok u) ↔ a.Elsewhere h := by
  unfold homedElsewhere Elsewhere Rule.homedElsewhere
  by_cases hhome : h.collectionId = a.collection.id
  · rw [if_pos hhome]
    exact iff_of_false (by simp [liftM_rejection_eq_ok]) (not_not_intro hhome)
  · rw [if_neg hhome]
    exact iff_of_true ⟨(), rfl⟩ hhome

theorem putEntity_eq_ok {e : Entity} :
    (∃ w, a.putEntity e = .ok w ∧ [w] = ws) ↔
      ∃ d, e.toDocument a.types = .ok d ∧ ws = [.put d] := by
  constructor
  · rintro ⟨w, hw, rfl⟩
    obtain ⟨d, hd, rfl⟩ := putEntity_ok hw
    exact ⟨d, hd, rfl⟩
  · rintro ⟨d, hd, rfl⟩
    refine ⟨.put d, ?_, rfl⟩
    simp only [putEntity, bind_eq_ok, pure_eq_ok, liftM_record_eq_ok]
    exact ⟨d, hd, rfl⟩

theorem storeEntityCopy_eq_ok {e : Entity} :
    a.storeEntityCopy e = .ok ws ↔
      a.types.Knows (· = .entity) e.header.typeRef.name ∧ a.Elsewhere e.header ∧
      ∃ stored, a.stored? e.reference = .ok stored ∧
        (∀ existing, stored = some existing → a.Elsewhere existing.header) ∧
        ((∃ current, stored = some (.full current) ∧
            e.header.version ≤ current.header.version) ∧ ws = [] ∨
          (∀ current, stored = some (.full current) →
            current.header.version < e.header.version) ∧
          ∃ d, e.toDocument a.types = .ok d ∧ ws = [.put d]) := by
  simp only [storeEntityCopy, bind_eq_ok, liftM_rejection_eq_ok, exists_and_right,
    Rule.typeOf_eq_ok, homedElsewhere_eq_ok]
  refine and_congr_right fun _ => and_congr_right fun _ => exists_congr fun stored =>
    and_congr_right fun _ => ?_
  cases stored with
  | none =>
    simp only [bind_eq_ok, pure_eq_ok, putEntity_eq_ok]
    simp
  | some existing =>
    cases existing with
    | proxy p =>
      simp only [bind_eq_ok, pure_eq_ok, putEntity_eq_ok, exists_and_right, homedElsewhere_eq_ok]
      simp [StoredEntity.header]
    | full current =>
      simp only [bind_eq_ok, exists_and_right, homedElsewhere_eq_ok]
      by_cases hlate : e.header.version ≤ current.header.version
      · rw [if_pos hlate, pure_eq_ok]
        simp [StoredEntity.header, hlate, UInt64.not_lt.2 hlate, eq_comm]
      · rw [if_neg hlate]
        simp only [bind_eq_ok, pure_eq_ok, putEntity_eq_ok]
        simp [StoredEntity.header, hlate, UInt64.not_le.1 hlate]

theorem putRelationship_eq_ok {rel : Relationship} {proxies : List Write} :
    (∃ w, a.putRelationship rel = .ok w ∧ proxies ++ [w] = ws) ↔
      ∃ d, rel.toDocument a.types = .ok d ∧ ws = proxies ++ [.put d] := by
  constructor
  · rintro ⟨w, hw, rfl⟩
    obtain ⟨d, hd, rfl⟩ := putRelationship_ok hw
    exact ⟨d, hd, rfl⟩
  · rintro ⟨d, hd, rfl⟩
    refine ⟨.put d, ?_, rfl⟩
    simp only [putRelationship, bind_eq_ok, pure_eq_ok, liftM_record_eq_ok]
    exact ⟨d, hd, rfl⟩

theorem storeRelationshipCopy_eq_ok {rel : Relationship} :
    a.storeRelationshipCopy rel = .ok ws ↔
      a.types.Knows (· = .relationship) rel.header.typeRef.name ∧ a.Elsewhere rel.header ∧
      ∃ stored, a.relationship? rel.reference = .ok stored ∧
        (∀ current, stored = some current → a.Elsewhere current.header) ∧
        ((∃ current, stored = some current ∧ rel.header.version ≤ current.header.version) ∧
            ws = [] ∨
          (∀ current, stored = some current → current.header.version < rel.header.version) ∧
          ∃ proxies, a.endProxies rel.endOne rel.endTwo false = .ok proxies ∧
            ∃ d, rel.toDocument a.types = .ok d ∧ ws = proxies ++ [.put d]) := by
  simp only [storeRelationshipCopy, bind_eq_ok, liftM_rejection_eq_ok, exists_and_right,
    Rule.typeOf_eq_ok, homedElsewhere_eq_ok]
  refine and_congr_right fun _ => and_congr_right fun _ => exists_congr fun stored =>
    and_congr_right fun _ => ?_
  cases stored with
  | none =>
    simp only [pure_eq_ok, exists_eq_left', Bool.false_eq_true, if_false, bind_eq_ok,
      putRelationship_eq_ok]
    simp
  | some current =>
    simp only [bind_eq_ok, pure_eq_ok, exists_and_right, homedElsewhere_eq_ok]
    by_cases hlate : rel.header.version ≤ current.header.version
    · simp only [hlate, decide_true, exists_eq_left', if_true, pure_eq_ok]
      simp [hlate, UInt64.not_lt.2 hlate, eq_comm]
    · simp only [hlate, decide_false, exists_eq_left', Bool.false_eq_true, if_false, bind_eq_ok,
        pure_eq_ok, putRelationship_eq_ok]
      simp [hlate, UInt64.not_le.1 hlate]

theorem storeClassificationCopy_eq_ok {c : Classification} :
    a.storeClassificationCopy guid c = .ok ws ↔
      ∃ e, a.entity (.entity guid) = .ok e ∧ a.Elsewhere c.header ∧
        a.types.isValidFor c.name e.header.typeRef.name = true ∧
        (∀ current, e.classification? c.name = some current → a.Elsewhere current.header) ∧
        ((∃ current, e.classification? c.name = some current ∧
            c.header.version ≤ current.header.version) ∧ ws = [] ∨
          (∀ current, e.classification? c.name = some current →
            current.header.version < c.header.version) ∧
          ∃ d, Entity.toDocument a.types { e with classifications := e.takingIn c } = .ok d ∧
            ws = [.put d]) := by
  simp only [storeClassificationCopy, bind_eq_ok, liftM_rejection_eq_ok, exists_and_right,
    Rule.applicable_eq_ok, homedElsewhere_eq_ok]
  refine exists_congr fun e => and_congr_right fun _ => and_congr_right fun _ =>
    and_congr_right fun _ => ?_
  unfold Entity.takingIn
  cases e.classification? c.name with
  | none =>
    simp only [bind_eq_ok, pure_eq_ok, putEntity_eq_ok]
    simp
  | some current =>
    simp only [bind_eq_ok, exists_and_right, homedElsewhere_eq_ok]
    by_cases hlate : c.header.version ≤ current.header.version
    · rw [if_pos hlate, pure_eq_ok]
      simp [hlate, UInt64.not_lt.2 hlate, eq_comm]
    · rw [if_neg hlate]
      simp only [bind_eq_ok, pure_eq_ok, putEntity_eq_ok]
      simp [hlate, UInt64.not_le.1 hlate]

/-! ## Taking copies away -/

theorem purgeEntityCopy_takes (h : a.purgeEntityCopy guid home = .ok ws) :
    ws = [] ∨ ∃ existing, a.stored? (.entity guid) = .ok (some existing) ∧
      a.Elsewhere existing.header ∧ existing.header.collectionId = home ∧
      ∃ ids, a.touching (.entity guid) = .ok ids ∧
        (ids = [] ∧ ws = [.evict (RecordRef.entity guid).docId] ∨
          ids ≠ [] ∧ ∃ e d, existing = .full e ∧
            (e.toProxy a.types).toDocument a.types = .ok d ∧ ws = [.put d]) := by
  simp only [purgeEntityCopy, bind_eq_ok] at h
  obtain ⟨stored, hstored, h⟩ := h
  split at h
  · exact Or.inl (pure_eq_ok.1 h).symm
  next existing =>
    simp only [bind_eq_ok] at h
    obtain ⟨u, helsewhere, h⟩ := h
    have helsewhere := homedElsewhere_eq_ok.1 ⟨u, helsewhere⟩
    by_cases hhome : existing.header.collectionId = home
    · rw [if_neg (not_not_intro hhome)] at h
      simp only [bind_eq_ok] at h
      obtain ⟨ids, hids, h⟩ := h
      split at h
      next hempty =>
        have hnil : ids = [] := by simpa using hempty
        exact Or.inr ⟨existing, hstored, helsewhere, hhome, ids, hids,
          Or.inl ⟨hnil, (pure_eq_ok.1 h).symm⟩⟩
      next hsome =>
        have hsome : ids ≠ [] := by simpa using hsome
        cases existing with
        | proxy p => exact Or.inl (pure_eq_ok.1 h).symm
        | full e =>
          simp only [bind_eq_ok, pure_eq_ok] at h
          obtain ⟨w, hw, rfl⟩ := h
          obtain ⟨d, hd, rfl⟩ := putProxy_ok hw
          exact Or.inr ⟨_, hstored, helsewhere, hhome, ids, hids,
            Or.inr ⟨hsome, e, d, rfl, hd, rfl⟩⟩
    · rw [if_pos hhome] at h
      exact Or.inl (pure_eq_ok.1 h).symm

theorem purgeRelationshipCopy_takes (h : a.purgeRelationshipCopy guid home = .ok ws) :
    ws = [] ∨ ∃ current, a.relationship? (.relationship guid) = .ok (some current) ∧
      a.Elsewhere current.header ∧ current.header.collectionId = home ∧
      ws = [.evict (RecordRef.relationship guid).docId] := by
  simp only [purgeRelationshipCopy, bind_eq_ok] at h
  obtain ⟨stored, hstored, h⟩ := h
  split at h
  · exact Or.inl (pure_eq_ok.1 h).symm
  next current =>
    simp only [bind_eq_ok] at h
    obtain ⟨u, helsewhere, h⟩ := h
    have helsewhere := homedElsewhere_eq_ok.1 ⟨u, helsewhere⟩
    by_cases hhome : current.header.collectionId = home
    · rw [if_neg (not_not_intro hhome)] at h
      exact Or.inr ⟨current, hstored, helsewhere, hhome, (pure_eq_ok.1 h).symm⟩
    · rw [if_pos hhome] at h
      exact Or.inl (pure_eq_ok.1 h).symm

theorem purgeClassificationCopy_takes (h : a.purgeClassificationCopy guid name home = .ok ws) :
    ws = [] ∨ ∃ e c d, a.stored? (.entity guid) = .ok (some (.full e)) ∧
      e.classification? name = some c ∧ a.Elsewhere c.header ∧ c.header.collectionId = home ∧
      Entity.toDocument a.types { e with classifications := e.removeFirst name } = .ok d ∧
      ws = [.put d] := by
  simp only [purgeClassificationCopy, bind_eq_ok] at h
  obtain ⟨stored, hstored, h⟩ := h
  split at h
  · exact Or.inl (pure_eq_ok.1 h).symm
  · exact Or.inl (pure_eq_ok.1 h).symm
  next e =>
    split at h
    · simp only [throw_eq_ok] at h
    next c hfound =>
      simp only [bind_eq_ok] at h
      obtain ⟨u, helsewhere, h⟩ := h
      have helsewhere := homedElsewhere_eq_ok.1 ⟨u, helsewhere⟩
      by_cases hhome : c.header.collectionId = home
      · rw [if_neg (not_not_intro hhome)] at h
        simp only [bind_eq_ok, pure_eq_ok] at h
        obtain ⟨w, hw, rfl⟩ := h
        obtain ⟨d, hd, rfl⟩ := putEntity_ok hw
        exact Or.inr ⟨e, c, d, hstored, hfound, helsewhere, hhome, hd, rfl⟩
      · rw [if_pos hhome] at h
        exact Or.inl (pure_eq_ok.1 h).symm

end Acting

end MetadataArchive
