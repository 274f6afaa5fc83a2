import MetadataArchive.Lifecycle.Acting
import MetadataArchive.Proofs.Record.Reading

/-!
# What is read and written in carrying out a request

The steps that all requests are made of: reading what is stored of a record, writing a record's
document, and seeing to it that both ends of a relationship are stored. For each, what was there
when it succeeded; and for those that read relationships, that nothing fails for want of an end as
long as the state has both.
-/

set_option autoImplicit false

namespace MetadataArchive

/-- A state in which the ends of relationships can be read: a document that names two ends is stored
together with them. -/
def Source.HasEnds (src : Source) : Prop :=
  ∀ id d, src.document? id = some d → ∀ one two, Relationship.ends d = .ok (one, two) →
    (∃ d', src.document? one = some d') ∧ ∃ d', src.document? two = some d'

namespace Acting

variable {a : Acting} {r : RecordRef} {w : Write} {ws : List Write} {d : Document}

/-! ## Reading -/

theorem stored?_some {stored : StoredEntity} (h : a.stored? r = .ok (some stored)) :
    ∃ d, a.document? r = some d ∧ StoredEntity.ofDocument d = .ok stored := by
  unfold stored? at h
  split at h
  · cases h
  next d hd =>
    simp only [bind_eq_ok, pure_eq_ok, Option.some.injEq] at h
    obtain ⟨stored, hstored, rfl⟩ := h
    exact ⟨d, hd, liftM_record_eq_ok.1 hstored⟩

theorem stored?_none (h : a.stored? r = .ok none) : a.document? r = none := by
  unfold stored? at h
  split at h
  next hd => exact hd
  · simp only [bind_eq_ok, pure_eq_ok, reduceCtorEq, and_false, exists_false] at h

theorem entity_ok {e : Entity} (h : a.entity r = .ok e) : a.stored? r = .ok (some (.full e)) := by
  simp only [entity, bind_eq_ok, liftM_rejection_eq_ok] at h
  obtain ⟨stored, hstored, known, hknown, hfull⟩ := h
  cases stored with
  | none => cases hknown
  | some stored =>
    cases hknown
    cases known with
    | proxy p => cases hfull
    | full e' =>
      cases hfull
      exact hstored

theorem relationship?_some {rel : Relationship} (h : a.relationship? r = .ok (some rel)) :
    ∃ d one two, a.document? r = some d ∧ Relationship.ends d = .ok (one, two) ∧
      Relationship.ofDocument a.types d (a.context.source.document? one)
        (a.context.source.document? two) = .ok rel := by
  unfold relationship? at h
  split at h
  · cases h
  next d hd =>
    simp only [bind_eq_ok, pure_eq_ok, liftM_record_eq_ok, Option.some.injEq] at h
    obtain ⟨⟨one, two⟩, hends, rel, hrel, rfl⟩ := h
    exact ⟨d, one, two, hd, hends, hrel⟩

theorem relationship?_none (h : a.relationship? r = .ok none) : a.document? r = none := by
  unfold relationship? at h
  split at h
  next hd => exact hd
  · simp only [bind_eq_ok, pure_eq_ok, reduceCtorEq, and_false, exists_false] at h

theorem relationship_ok {rel : Relationship} (h : a.relationship r = .ok rel) :
    a.relationship? r = .ok (some rel) := by
  simp only [relationship, bind_eq_ok, liftM_rejection_eq_ok] at h
  obtain ⟨stored, hstored, hknown⟩ := h
  cases stored with
  | none => cases hknown
  | some rel' =>
    cases hknown
    exact hstored

/-! ## Writing -/

theorem putEntity_ok {e : Entity} (h : a.putEntity e = .ok w) :
    ∃ d, e.toDocument a.types = .ok d ∧ w = .put d := by
  simp only [putEntity, bind_eq_ok, pure_eq_ok, liftM_record_eq_ok] at h
  obtain ⟨d, hd, rfl⟩ := h
  exact ⟨d, hd, rfl⟩

theorem putProxy_ok {p : Proxy} (h : a.putProxy p = .ok w) :
    ∃ d, p.toDocument a.types = .ok d ∧ w = .put d := by
  simp only [putProxy, bind_eq_ok, pure_eq_ok, liftM_record_eq_ok] at h
  obtain ⟨d, hd, rfl⟩ := h
  exact ⟨d, hd, rfl⟩

theorem putRelationship_ok {rel : Relationship} (h : a.putRelationship rel = .ok w) :
    ∃ d, rel.toDocument a.types = .ok d ∧ w = .put d := by
  simp only [putRelationship, bind_eq_ok, pure_eq_ok, liftM_record_eq_ok] at h
  obtain ⟨d, hd, rfl⟩ := h
  exact ⟨d, hd, rfl⟩

/-- An entity that is stored in full is written anew, with a version that follows from the one it
has. -/
def Rewrites (a : Acting) (guid : String) (next : UInt64 → UInt64) (ws : List Write) : Prop :=
  ∃ (e e' : Entity) (d : Document), a.stored? (.entity guid) = .ok (some (.full e)) ∧
    e'.guid = e.guid ∧ e'.header.version = next e.header.version ∧
    e'.toDocument a.types = .ok d ∧ ws = [.put d]

theorem rewrites_of_putEntity {guid : String} {next : UInt64 → UInt64} {e e' : Entity}
    (he : a.stored? (.entity guid) = .ok (some (.full e))) (hw : a.putEntity e' = .ok w)
    (hguid : e'.guid = e.guid) (hversion : e'.header.version = next e.header.version) :
    a.Rewrites guid next [w] := by
  obtain ⟨d, hd, rfl⟩ := putEntity_ok hw
  exact ⟨e, e', d, he, hguid, hversion, hd, rfl⟩

/-- An entity that is stored in full is written anew, changed by who acts and at the time of the
transaction. -/
def Touches (a : Acting) (guid : String) (ws : List Write) : Prop :=
  ∃ (e e' : Entity) (h : Header) (d : Document), a.stored? (.entity guid) = .ok (some (.full e)) ∧
    e'.guid = e.guid ∧ h.version = e.header.version ∧ e'.header = a.touch h ∧
    e'.toDocument a.types = .ok d ∧ ws = [.put d]

theorem touches_of_putEntity {guid : String} {e e' : Entity} {h : Header}
    (he : a.stored? (.entity guid) = .ok (some (.full e))) (hw : a.putEntity e' = .ok w)
    (hguid : e'.guid = e.guid) (hversion : h.version = e.header.version)
    (htouch : e'.header = a.touch h) : a.Touches guid [w] := by
  obtain ⟨d, hd, rfl⟩ := putEntity_ok hw
  exact ⟨e, e', h, d, he, hguid, hversion, htouch, hd, rfl⟩

theorem Touches.rewrites {guid : String} (h : a.Touches guid ws) :
    a.Rewrites guid (· + 1) ws := by
  obtain ⟨e, e', h, d, he, hguid, hversion, htouch, hd, rfl⟩ := h
  refine ⟨e, e', d, he, hguid, ?_, hd, rfl⟩
  rw [htouch, ← hversion]
  rfl

/-- The writes are proxies of records of which nothing is stored. -/
def OnlyNewProxies (a : Acting) (ws : List Write) : Prop :=
  ∀ w ∈ ws, ∃ (p : Proxy) (d : Document),
    w = .put d ∧ p.toDocument a.types = .ok d ∧ a.document? p.reference = none

/-- A relationship is written, with proxies for the ends that are not stored. -/
def Connects (a : Acting) (rel : Relationship) (ws : List Write) : Prop :=
  ∃ (proxies : List Write) (d : Document) (live : Bool),
    a.endProxies rel.endOne rel.endTwo live = .ok proxies ∧
      rel.toDocument a.types = .ok d ∧ ws = proxies ++ [.put d]

/-- A record is stored, or will be by the writes. -/
def StoredOrWritten (a : Acting) (ws : List Write) (r : RecordRef) : Prop :=
  a.document? r ≠ none ∨ ∃ d, Write.put d ∈ ws ∧ d.id = r.docId

/-- The proxy of one end, where nothing is stored of it and it is needed. -/
def endProxy (a : Acting) (live : Bool) (p : Proxy) (needed : Bool) :
    Except Failure (List Write) := do
  match ← a.stored? p.reference with
  | some existing =>
      if live then Rule.live existing.header p.reference
      return []
  | none =>
      if needed then
        let _ ← Rule.typeOf a.types p.header.typeRef.name .entity
        return [← a.putProxy p]
      else return []

theorem endProxies_eq (one two : Proxy) (live : Bool) :
    a.endProxies one two live = (do
      let ws ← a.endProxy live one true
      let ws' ← a.endProxy live two (one.guid != two.guid)
      return ws ++ ws') := rfl

theorem endProxy_ok {p : Proxy} {live needed : Bool} (h : a.endProxy live p needed = .ok ws) :
    a.OnlyNewProxies ws ∧ (needed = true → a.StoredOrWritten ws p.reference) := by
  simp only [endProxy, bind_eq_ok] at h
  obtain ⟨stored, hstored, h⟩ := h
  cases stored with
  | some existing =>
    obtain ⟨d, hd, -⟩ := stored?_some hstored
    have hnil : [] = ws := by
      cases live with
      | false => simpa only [Bool.false_eq_true, if_false, pure_eq_ok] using h
      | true =>
        simp only [if_true, bind_eq_ok, pure_eq_ok] at h
        obtain ⟨_, -, h⟩ := h
        exact h
    subst hnil
    exact ⟨by simp [OnlyNewProxies], fun _ => Or.inl (by simp [hd])⟩
  | none =>
    have hnone : a.document? p.reference = none := stored?_none hstored
    cases needed with
    | false =>
      simp only [Bool.false_eq_true, if_false, pure_eq_ok] at h
      subst h
      exact ⟨by simp [OnlyNewProxies], by simp⟩
    | true =>
      simp only [if_true, bind_eq_ok, pure_eq_ok] at h
      obtain ⟨_, -, w, hw, rfl⟩ := h
      obtain ⟨d, hd, rfl⟩ := putProxy_ok hw
      refine ⟨fun w hw => ⟨p, d, List.mem_singleton.1 hw, hd, hnone⟩, fun _ => Or.inr ?_⟩
      exact ⟨d, by simp, (Proxy.lays hd).id⟩

/-- **Proxies are written for the ends that are not stored**, and for no others. -/
theorem endProxies_ok {one two : Proxy} {live : Bool} (h : a.endProxies one two live = .ok ws) :
    a.OnlyNewProxies ws ∧ a.StoredOrWritten ws one.reference ∧
      a.StoredOrWritten ws two.reference := by
  simp only [endProxies_eq, bind_eq_ok, pure_eq_ok] at h
  obtain ⟨ws₁, h₁, ws₂, h₂, rfl⟩ := h
  obtain ⟨hnew₁, hone⟩ := endProxy_ok h₁
  obtain ⟨hnew₂, htwo⟩ := endProxy_ok h₂
  have hone : a.StoredOrWritten (ws₁ ++ ws₂) one.reference :=
    (hone rfl).imp_right fun ⟨d, hd, hid⟩ => ⟨d, List.mem_append_left _ hd, hid⟩
  refine ⟨fun w hw => (List.mem_append.1 hw).elim (hnew₁ w) (hnew₂ w), hone, ?_⟩
  by_cases hguid : one.guid = two.guid
  · -- Both ends are the same record, and the first proxy serves both.
    have hsame : two.reference = one.reference := congrArg RecordRef.entity hguid.symm
    rw [hsame]
    exact hone
  · exact (htwo (by simpa using hguid)).imp_right fun ⟨d, hd, hid⟩ =>
      ⟨d, List.mem_append_right _ hd, hid⟩

/-! ## What does not fail for want of an end -/

section Avoids

theorem avoids_stored? (r : RecordRef) : Avoids Failure.Dangling (a.stored? r) := by
  unfold stored?
  split <;> simp [StoredEntity.avoids_ofDocument]

theorem avoids_entity (r : RecordRef) : Avoids Failure.Dangling (a.entity r) := by
  simp [entity, avoids_stored?]

/-- **A relationship is read without fail**, as far as its ends are concerned, in a state that has
the ends of all. -/
theorem avoids_relationship? (hends : a.context.source.HasEnds) (r : RecordRef) :
    Avoids Failure.Dangling (a.relationship? r) := by
  unfold relationship?
  split
  · exact avoids_ok
  next d hd =>
    simp only [avoids_bind, avoids_liftM_record, liftM_record_eq_ok, avoids_pure, implies_true,
      and_true]
    refine ⟨Relationship.avoids_ends d, ?_⟩
    rintro ⟨one, two⟩ h
    obtain ⟨⟨d₁, h₁⟩, d₂, h₂⟩ := hends _ d hd one two h
    simp only [h₁, h₂]
    simp [Relationship.avoids_ofDocument]

theorem avoids_relationship (hends : a.context.source.HasEnds) (r : RecordRef) :
    Avoids Failure.Dangling (a.relationship r) := by
  simp [relationship, avoids_relationship? hends]

theorem avoids_touching (r : RecordRef) : Avoids Failure.Dangling (a.touching r) := by
  simp [touching]

theorem avoids_putEntity (e : Entity) : Avoids Failure.Dangling (a.putEntity e) := by
  simp [putEntity, Entity.avoids_toDocument]

theorem avoids_putProxy (p : Proxy) : Avoids Failure.Dangling (a.putProxy p) := by
  simp [putProxy, Proxy.avoids_toDocument]

theorem avoids_putRelationship (rel : Relationship) :
    Avoids Failure.Dangling (a.putRelationship rel) := by
  simp [putRelationship, Relationship.avoids_toDocument]

theorem avoids_endProxies (one two : Proxy) (live : Bool) :
    Avoids Failure.Dangling (a.endProxies one two live) := by
  have hone (p : Proxy) (needed : Bool) : Avoids Failure.Dangling (a.endProxy live p needed) := by
    simp only [endProxy, avoids_bind]
    refine ⟨avoids_stored? _, fun stored _ => ?_⟩
    cases stored <;> dsimp only <;> split <;> simp [avoids_putProxy]
  simp [endProxies_eq, hone]

end Avoids

end Acting

/-! ## Changes -/

/-- **A change touches the header**, and leaves the version and the type to that. -/
theorem Change.touches_apply {a : Acting} {r : RecordRef} {h h' : Header} {ps ps' : Properties}
    {c : Change} (hc : c.apply a r h ps = .ok (h', ps')) :
    ∃ h₀ : Header, h₀.version = h.version ∧ h₀.typeRef = h.typeRef ∧ h' = a.touch h₀ := by
  cases c with
  | properties new =>
    simp only [Change.apply, bind_eq_ok, pure_eq_ok, Prod.mk.injEq] at hc
    obtain ⟨_, -, _, -, rfl, -⟩ := hc
    exact ⟨h, rfl, rfl, rfl⟩
  | status s =>
    simp only [Change.apply, bind_eq_ok, pure_eq_ok, Prod.mk.injEq] at hc
    obtain ⟨_, -, s, -, rfl, -⟩ := hc
    exact ⟨{ h with status := s }, rfl, rfl, rfl⟩
  | delete =>
    simp only [Change.apply, bind_eq_ok, pure_eq_ok, Prod.mk.injEq] at hc
    obtain ⟨_, -, rfl, -⟩ := hc
    exact ⟨{ h with statusOnDelete := some h.status, status := .deleted }, rfl, rfl, rfl⟩
  | restore =>
    simp only [Change.apply, bind_eq_ok, pure_eq_ok, Prod.mk.injEq] at hc
    obtain ⟨_, -, _, -, rfl, -⟩ := hc
    exact ⟨{ h with statusOnDelete := none, status := h.statusOnDelete.getD .active }, rfl, rfl,
      rfl⟩

/-- Every change makes one more version. -/
theorem Change.version_apply {a : Acting} {r : RecordRef} {h h' : Header} {ps ps' : Properties}
    {c : Change} (hc : c.apply a r h ps = .ok (h', ps')) : h'.version = h.version + 1 := by
  obtain ⟨h₀, hversion, -, rfl⟩ := Change.touches_apply hc
  rw [← hversion]
  rfl

end MetadataArchive
