import MetadataArchive.Proofs.Archive.Newest
import MetadataArchive.Proofs.Lifecycle.Reception

/-!
# Copies that arrive

Three kinds of copies are compared with what is stored by their versions: of entities, of
relationships, and of classifications of an entity. For each of them it is shown what is held of the
newest copy, and that each step holds on to it. A copy is read back before the next one is compared
with it, so it has to be readable; its values need not read back.
-/

set_option autoImplicit false

namespace MetadataArchive

variable {ts : TypeSystem} {guid home : String} {i : Invocation} {s : Store} {now : Instant}
variable {ev : StoreEvent Failure} {d : Document}

theorem Store.Reached.entity_stays (h : s.Reached) (hspares : ev.Spares ts (.entity guid) s)
    (hd : s.latest.document? (RecordRef.entity guid).docId = some d) (hentity : d.IsEntity) :
    (s.step ev).latest.document? (RecordRef.entity guid).docId = some d := by
  have hevents : s.Spares ts (.entity guid) [ev] := ⟨hspares, trivial⟩
  exact h.entity_of_spares hevents hd hentity

/-! ## Entities -/

/-- A copy of an entity from its home: of a known type, with names that it can be stored under, and
with values that can be read at all. -/
structure Entity.CopyOf (ts : TypeSystem) (guid home : String) (x : Entity) : Prop where
  guid_eq : x.guid = guid
  homed : x.header.collectionId = home
  known : ts.Knows (· = .entity) x.header.typeRef.name
  wellNamed : x.WellNamed
  readable : ∃ e, x.Rereads e

/-- A copy of an entity comes to a collection that is not its home. -/
structure Entity.Arrives (ts : TypeSystem) (guid home : String) (_ : Store) (i : Invocation)
    (x : Entity) : Prop extends x.CopyOf ts guid home where
  request : i.request = .storeEntityCopy x
  elsewhere : home ≠ i.collection.id

/-- What is held of an entity: the newest copy, or at most a proxy of that home. -/
def Entity.Held (ts : TypeSystem) (guid home : String) : Option Entity → Option Document → Prop
  | none, doc => ∀ d, doc = some d → d.IsEntity ∧
      ∃ p, StoredEntity.ofDocument d = .ok (.proxy p) ∧ p.header.collectionId = home
  | some x, doc => ∃ d, doc = some d ∧ x.toDocument ts = .ok d ∧ x.CopyOf ts guid home

section Entity

variable (hnamed : ts.Named) (hundotted : ts.Undotted) (hguid : guid ≠ "")
include hnamed hundotted hguid

/-- What is held can be read, and says whether a copy is late. -/
theorem Entity.Held.stored? {current : Option Entity} {x : Entity} (hx : x.guid = guid)
    (h : Entity.Held ts guid home current (s.latest.document? (RecordRef.entity guid).docId))
    (now : Instant) (i : Invocation) :
    ∃ stored, (s.acting ts now i).stored? x.reference = .ok stored ∧
      (∀ existing, stored = some existing → existing.header.collectionId = home) ∧
      (IsLate (fun x => x.header.version) current x ↔
        ∃ e, stored = some (.full e) ∧ x.header.version ≤ e.header.version) := by
  have hkey : x.reference = .entity guid := congrArg RecordRef.entity hx
  rw [hkey]
  cases current with
  | none =>
    have hnever {o : Option StoredEntity} (ho : ∀ e, o ≠ some (.full e)) :
        IsLate (fun x => x.header.version) none x ↔
          ∃ e, o = some (.full e) ∧ x.header.version ≤ e.header.version :=
      iff_of_false (by simp [IsLate]) fun ⟨e, he, _⟩ => ho e he
    cases hd : s.latest.document? (RecordRef.entity guid).docId with
    | none => exact ⟨none, Acting.stored?_of_none hd, by simp, hnever (by simp)⟩
    | some d =>
      obtain ⟨-, p, hread, hhome⟩ := h d hd
      refine ⟨_, Acting.stored?_of_ofDocument hd hread, ?_, hnever (by simp)⟩
      intro existing heq
      cases heq
      exact hhome
  | some c =>
    obtain ⟨d, hd, hdoc, hcopy⟩ := h
    obtain ⟨e, hrereads⟩ := hcopy.readable
    have hread : StoredEntity.ofDocument d = .ok (.full e) :=
      (Entity.ofDocument_rereads_iff (hcopy.guid_eq ▸ hguid) hcopy.wellNamed.toApart
        (hcopy.wellNamed.plain hnamed hundotted) hdoc).2 ⟨e, hrereads, rfl⟩
    obtain ⟨ps, cs, -, -, rfl⟩ := hrereads
    refine ⟨_, Acting.stored?_of_ofDocument hd hread, ?_, ?_⟩
    · intro existing heq
      cases heq
      exact hcopy.homed
    · simp [IsLate, Header.stored]

theorem Entity.copying : Copying ts (.entity guid) (Entity.Arrives ts guid home)
    (fun x => x.header.version) (Entity.Held ts guid home) where
  copy {s now op i current x} _ hheld _ hx := by
    obtain ⟨stored, hstored, hforeign, hlate⟩ :=
      Entity.Held.stored? hnamed hundotted hguid hx.guid_eq hheld now i
    have helsewhere : ∀ existing, stored = some existing →
        existing.header.collectionId ≠ i.collection.id := fun existing heq =>
      hforeign existing heq ▸ hx.elsewhere
    rw [hx.request, hlate]
    have hown : x.header.collectionId ≠ i.collection.id := hx.homed ▸ hx.elsewhere
    by_cases hold : ∃ e, stored = some (.full e) ∧ x.header.version ≤ e.header.version
    · exact ⟨[], Acting.storeEntityCopy_eq_ok.2 ⟨hx.known, hown, stored, hstored, helsewhere,
        Or.inl ⟨hold, rfl⟩⟩, fun _ => rfl, fun hnew => absurd hold hnew⟩
    · obtain ⟨t, ht, -⟩ := id hx.known
      have hput : ∃ d, x.toDocument ts = .ok d := Entity.exists_toDocument (by simp [ht])
      obtain ⟨d, hd⟩ := hput
      have hnewer : ∀ e, stored = some (.full e) → e.header.version < x.header.version :=
        fun e he => UInt64.not_le.1 fun hle => hold ⟨e, he, hle⟩
      refine ⟨[.put d], Acting.storeEntityCopy_eq_ok.2 ⟨hx.known, hown, stored, hstored, helsewhere,
        Or.inr ⟨hnewer, d, hd, rfl⟩⟩, fun hlate => absurd hlate hold, fun _ => ?_⟩
      have hid : d.id = (RecordRef.entity guid).docId := by
        rw [(Entity.lays hd).id, Entity.reference, hx.guid_eq]
      exact ⟨d, writeAll_put hid, hd, hx.toCopyOf⟩
  other {s ev current d} hreached hd hheld hspares := by
    left
    apply hreached.entity_stays hspares hd
    cases current with
    | none => exact (hheld d rfl).1
    | some c =>
      obtain ⟨_, heq, hdoc, -⟩ := hheld
      cases heq
      exact Entity.isEntity_toDocument hdoc

end Entity

/-! ## Relationships -/

/-- A copy of a relationship from its home, of a known type. -/
structure Relationship.CopyOf (ts : TypeSystem) (guid home : String) (x : Relationship) : Prop where
  guid_eq : x.guid = guid
  homed : x.header.collectionId = home
  known : ts.Knows (· = .relationship) x.header.typeRef.name

/-- A copy of a relationship comes to a collection that is not its home. What is stored of the
relationship can be read, and so can the ends that it comes with, or they are entities of known
types. -/
structure Relationship.Arrives (ts : TypeSystem) (guid home : String) (s : Store) (i : Invocation)
    (x : Relationship) : Prop extends x.CopyOf ts guid home where
  request : i.request = .storeRelationshipCopy x
  elsewhere : home ≠ i.collection.id
  read : ∃ stored, s.latest.relationship? ts (RecordRef.relationship guid).docId = .ok stored
  ends : ∀ p, p = x.endOne ∨ p = x.endTwo → ∃ stored,
    s.latest.stored? p.reference.docId = .ok stored ∧
      (stored = none → ts.Knows (· = .entity) p.header.typeRef.name)

/-- What is held of a relationship: the newest copy, or nothing. -/
def Relationship.Held (ts : TypeSystem) (guid home : String) :
    Option Relationship → Option Document → Prop
  | none, doc => doc = none
  | some x, doc => ∃ d, doc = some d ∧ x.toDocument ts = .ok d ∧ x.CopyOf ts guid home

section Relationship

variable (hguid : guid ≠ "")
include hguid

theorem Relationship.Held.relationship? {current : Option Relationship} {x : Relationship}
    (hx : Relationship.Arrives ts guid home s i x)
    (h : Relationship.Held ts guid home current
      (s.latest.document? (RecordRef.relationship guid).docId)) (now : Instant) :
    ∃ stored, (s.acting ts now i).relationship? x.reference = .ok stored ∧
      (∀ existing, stored = some existing → existing.header.collectionId = home) ∧
      (IsLate (fun x => x.header.version) current x ↔
        ∃ rel, stored = some rel ∧ x.header.version ≤ rel.header.version) := by
  have hkey : x.reference = .relationship guid := congrArg RecordRef.relationship hx.guid_eq
  obtain ⟨stored, hstored⟩ := hx.read
  have hstored : (s.acting ts now i).relationship? (.relationship guid) = .ok stored := hstored
  rw [hkey]
  refine ⟨stored, hstored, ?_⟩
  cases current with
  | none =>
    have hdoc : s.latest.document? (RecordRef.relationship guid).docId = none := h
    cases stored with
    | none => exact ⟨by simp, by simp [IsLate]⟩
    | some rel =>
      obtain ⟨d, -, -, hd, -⟩ := Acting.relationship?_some hstored
      cases hd.symm.trans hdoc
  | some c =>
    obtain ⟨d, hd, hdoc, hcopy⟩ := h
    cases stored with
    | none => cases (Acting.relationship?_none hstored).symm.trans hd
    | some rel =>
      -- It is read under the header that the copy was kept with.
      obtain ⟨d', _, _, hd', -, hread⟩ := Acting.relationship?_some hstored
      cases hd'.symm.trans hd
      obtain ⟨header, ps, p, q, hheader, -, -, -, rfl⟩ :=
        (Relationship.ofDocument_parts (hcopy.guid_eq ▸ hguid) hdoc).1 hread
      have hkept : Header.ofDocument d "" = .ok c.header.stored :=
        Header.ofDocument_of_laidOut (Relationship.lays hdoc).laidOut
      cases hheader.symm.trans hkept
      refine ⟨?_, by simp [IsLate, Header.stored]⟩
      intro existing heq
      cases heq
      exact hcopy.homed

theorem Relationship.copying : Copying ts (.relationship guid) (Relationship.Arrives ts guid home)
    (fun x => x.header.version) (Relationship.Held ts guid home) where
  copy {s now op i current x} _ hheld _ hx := by
    obtain ⟨stored, hstored, hforeign, hlate⟩ :=
      Relationship.Held.relationship? hguid hx hheld now
    have helsewhere : ∀ existing, stored = some existing →
        existing.header.collectionId ≠ i.collection.id := fun existing heq =>
      hforeign existing heq ▸ hx.elsewhere
    rw [hx.request, hlate]
    have hown : x.header.collectionId ≠ i.collection.id := hx.homed ▸ hx.elsewhere
    by_cases hold : ∃ rel, stored = some rel ∧ x.header.version ≤ rel.header.version
    · exact ⟨[], Acting.storeRelationshipCopy_eq_ok.2 ⟨hx.known, hown, stored, hstored, helsewhere,
        Or.inl ⟨hold, rfl⟩⟩, fun _ => rfl, fun hnew => absurd hold hnew⟩
    · obtain ⟨t, ht, -⟩ := id hx.known
      have hput : ∃ d, x.toDocument ts = .ok d := Relationship.exists_toDocument (by simp [ht])
      obtain ⟨d, hd⟩ := hput
      have hproxies : ∃ ws, (s.acting ts now i).endProxies x.endOne x.endTwo false = .ok ws :=
        Acting.exists_endProxies hx.ends
      obtain ⟨proxies, hproxies⟩ := hproxies
      have hnewer : ∀ rel, stored = some rel → rel.header.version < x.header.version :=
        fun rel hrel => UInt64.not_le.1 fun hle => hold ⟨rel, hrel, hle⟩
      refine ⟨proxies ++ [.put d], Acting.storeRelationshipCopy_eq_ok.2 ⟨hx.known, hown, stored,
        hstored, helsewhere, Or.inr ⟨hnewer, proxies, hproxies, d, hd, rfl⟩⟩,
        fun hlate => absurd hlate hold, fun _ => ⟨d, ?_, hd, hx.toCopyOf⟩⟩
      have hid : d.id = (RecordRef.relationship guid).docId := by
        rw [(Relationship.lays hd).id, Relationship.reference, hx.guid_eq]
      rw [writeAll_concat, ← hid]
      exact Write.on_self
  other {s ev current d} hreached hd _ hspares := by
    have hevents : s.Spares ts (.relationship guid) [ev] := ⟨hspares, trivial⟩
    have hstays := hreached.relationship_of_spares hevents
    exact hstays.imp_left fun hsame => hsame.trans hd

end Relationship

/-! ## Classifications -/

/-- An entity with one more classification. -/
def Entity.adding (e : Entity) (c : Classification) : Entity :=
  { e with classifications := e.classifications ++ [c] }

section Adding

variable {e : Entity} {c c' : Classification} {name : String}

theorem Entity.classification?_adding (hnone : e.classification? name = none) (hc : c.name = name) :
    (e.adding c).classification? name = some c := by
  unfold Entity.classification? at hnone ⊢
  rw [Entity.adding, List.find?_append, hnone]
  simp [hc]

theorem Entity.takingIn_of_none (hnone : e.classification? c.name = none) :
    { e with classifications := e.takingIn c } = e.adding c := by
  rw [Entity.takingIn, hnone]
  rfl

theorem Entity.takingIn_adding (hnone : e.classification? c'.name = none) (hc : c.name = c'.name) :
    { e.adding c with classifications := (e.adding c).takingIn c' } = e.adding c' := by
  have hreplaced : (e.adding c).replaceFirst c' = e.classifications ++ [c'] :=
    Entity.replace_append (Entity.classification?_eq_none hnone) hc
  rw [Entity.takingIn, Entity.classification?_adding hnone hc]
  simp only [hreplaced]
  rfl

theorem Entity.WellNamed.adding (he : e.WellNamed) (hnone : e.classification? c.name = none)
    (hname : '.' ∉ c.name.toList) (htype : '.' ∉ c.header.typeRef.name.toList) :
    (e.adding c).WellNamed := by
  have hadds : Swapped c.name none (some c) e.classifications (e.adding c).classifications :=
    Entity.swapped_concat hnone rfl
  refine ⟨⟨hadds.nodup he.distinct, hadds.forall_mem he.undotted ?_⟩, he.type,
    hadds.forall_mem he.classificationTypes ?_⟩
  · intro k hk
    cases hk
    exact hname
  · intro k hk
    cases hk
    exact htype

/-- Where an entity reads back, an entity with one more classification does but for that one. -/
theorem Entity.rereads_adding (hfits : e.Fits) (hback : e.ReadBack) (hc : c.Rereads c') :
    (e.adding c).Rereads (e.adding c') := by
  obtain ⟨ps, cs, hps, hcs, heq⟩ := Entity.rereads_self_iff.2 ⟨hfits, hback⟩
  obtain rfl : e.properties = ps := congrArg Entity.properties heq
  obtain rfl : e.classifications = cs := congrArg Entity.classifications heq
  refine ⟨e.properties, _, hps, List.rel_append hcs (.cons hc .nil), ?_⟩
  show e.adding c' = ⟨e.guid, e.header.stored, e.properties, e.classifications ++ [c']⟩
  rw [Header.stored_eq_self_iff.2 hfits.header]
  rfl

end Adding

/-- A copy of a classification of an entity, from the home of the classification: valid for the
entity, of a type with no full stop in its name, and with values that can be read at all. -/
structure Classification.CopyOf (ts : TypeSystem) (e : Entity) (name home : String)
    (c : Classification) : Prop where
  name_eq : c.name = name
  homed : c.header.collectionId = home
  valid : ts.isValidFor name e.header.typeRef.name = true
  undotted : '.' ∉ c.header.typeRef.name.toList
  readable : ∃ c', c.Rereads c'

/-- A copy of a classification comes to a collection that is not its home. -/
structure Classification.Arrives (ts : TypeSystem) (e : Entity) (name home : String) (_ : Store)
    (i : Invocation) (c : Classification) : Prop extends c.CopyOf ts e name home where
  request : i.request = .storeClassificationCopy e.guid c
  elsewhere : home ≠ i.collection.id

/-- What is held of a classification: the entity with the newest copy, or the entity. -/
def Classification.Held (ts : TypeSystem) (e : Entity) (name home : String) :
    Option Classification → Option Document → Prop
  | none, doc => ∃ d, doc = some d ∧ d.IsEntity ∧ StoredEntity.ofDocument d = .ok (.full e)
  | some c, doc => ∃ d, doc = some d ∧ (e.adding c).toDocument ts = .ok d ∧
      c.CopyOf ts e name home

section Classification

variable {e : Entity} {name : String} (hnamed : ts.Named) (hundotted : ts.Undotted)
variable (hguid : e.guid ≠ "") (he : e.WellNamed) (hfits : e.Fits) (hback : e.ReadBack)
variable (hnone : e.classification? name = none)
include hnamed hundotted he hnone

theorem Classification.CopyOf.wellNamed {c : Classification} (hc : c.CopyOf ts e name home) :
    (e.adding c).WellNamed := by
  have hname : '.' ∉ c.name.toList :=
    hc.name_eq ▸ TypeSystem.undotted_of_isValidFor hnamed hundotted hc.valid
  exact he.adding (hc.name_eq ▸ hnone) hname hc.undotted

include hguid hfits hback

/-- What is held is an entity that can be read. It says whether a copy is late, and with a copy that
is not it is the entity with this copy. -/
theorem Classification.Held.entity {current : Option Classification} {c : Classification}
    (hc : c.name = name) (h : Classification.Held ts e name home current
      (s.latest.document? (RecordRef.entity e.guid).docId)) (now : Instant) (i : Invocation) :
    ∃ e', (s.acting ts now i).entity (.entity e.guid) = .ok e' ∧ e'.header = e.header ∧
      (∀ k, e'.classification? name = some k → k.header.collectionId = home) ∧
      (IsLate (fun c => c.header.version) current c ↔
        ∃ k, e'.classification? name = some k ∧ c.header.version ≤ k.header.version) ∧
      { e' with classifications := e'.takingIn c } = e.adding c := by
  subst hc
  cases current with
  | none =>
    obtain ⟨d, hd, -, hread⟩ := h
    refine ⟨e, Acting.entity_of_stored? (Acting.stored?_of_ofDocument hd hread), rfl, ?_, ?_,
      Entity.takingIn_of_none hnone⟩
    · simp [hnone]
    · simp [hnone, IsLate]
  | some k =>
    obtain ⟨d, hd, hdoc, hcopy⟩ := h
    obtain ⟨k', hk'⟩ := hcopy.readable
    have hwell : (e.adding k).WellNamed := hcopy.wellNamed hnamed hundotted he hnone
    have hguid' : (e.adding k).guid ≠ "" := hguid
    have hread : StoredEntity.ofDocument d = .ok (.full (e.adding k')) :=
      (Entity.ofDocument_rereads_iff hguid' hwell.toApart (hwell.plain hnamed hundotted) hdoc).2
        ⟨_, Entity.rereads_adding hfits hback hk', rfl⟩
    obtain ⟨ps, -, hkept⟩ := hk'
    have hname : k'.name = c.name := by
      rw [hkept]
      exact hcopy.name_eq
    have hheader : k'.header = k.header.stored := by rw [hkept]
    have hfound := Entity.classification?_adding hnone hname
    refine ⟨_, Acting.entity_of_stored? (Acting.stored?_of_ofDocument hd hread), rfl, ?_, ?_,
      Entity.takingIn_adding hnone hname⟩
    · intro current heq
      cases hfound.symm.trans heq
      rw [hheader]
      exact hcopy.homed
    · rw [hfound]
      simp [IsLate, hheader, Header.stored]

theorem Classification.copying (hknown : ts.get? e.header.typeRef.name ≠ none) :
    Copying ts (.entity e.guid) (Classification.Arrives ts e name home)
      (fun c => c.header.version) (Classification.Held ts e name home) where
  copy {s now op i current c} _ hheld _ hc := by
    obtain ⟨e', hread, hheader, hforeign, hlate, hadding⟩ := Classification.Held.entity hnamed
      hundotted hguid he hfits hback hnone hc.name_eq hheld now i
    have hname := hc.name_eq
    subst hname
    have hvalid : ts.isValidFor c.name e'.header.typeRef.name = true := hheader ▸ hc.valid
    have hown : c.header.collectionId ≠ i.collection.id := hc.homed ▸ hc.elsewhere
    have helsewhere : ∀ k, e'.classification? c.name = some k →
        k.header.collectionId ≠ i.collection.id := fun k hk => hforeign k hk ▸ hc.elsewhere
    rw [hc.request, hlate]
    by_cases hold : ∃ k, e'.classification? c.name = some k ∧ c.header.version ≤ k.header.version
    · exact ⟨[], Acting.storeClassificationCopy_eq_ok.2 ⟨e', hread, hown, hvalid, helsewhere,
        Or.inl ⟨hold, rfl⟩⟩, fun _ => rfl, fun hnew => absurd hold hnew⟩
    · have hput : ∃ d, (e.adding c).toDocument ts = .ok d := Entity.exists_toDocument hknown
      obtain ⟨d, hd⟩ := hput
      have hnewer : ∀ k, e'.classification? c.name = some k →
          k.header.version < c.header.version :=
        fun k hk => UInt64.not_le.1 fun hle => hold ⟨k, hk, hle⟩
      refine ⟨[.put d], Acting.storeClassificationCopy_eq_ok.2 ⟨e', hread, hown, hvalid, helsewhere,
        Or.inr ⟨hnewer, d, hadding ▸ hd, rfl⟩⟩, fun hlate => absurd hlate hold, fun _ => ?_⟩
      have hid : d.id = (RecordRef.entity e.guid).docId := (Entity.lays hd).id
      exact ⟨d, writeAll_put hid, hd, hc.toCopyOf⟩
  other {s ev current d} hreached hd hheld hspares := by
    left
    apply hreached.entity_stays hspares hd
    cases current with
    | none =>
      obtain ⟨_, heq, hentity, -⟩ := hheld
      cases heq
      exact hentity
    | some c =>
      obtain ⟨_, heq, hdoc, -⟩ := hheld
      cases heq
      exact Entity.isEntity_toDocument hdoc

end Classification

end MetadataArchive
