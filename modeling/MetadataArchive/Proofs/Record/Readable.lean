import MetadataArchive.Proofs.Record.Reread
import MetadataArchive.Proofs.Record.Value

/-!
# Documents that can be read

The document of a record is read if all the stored texts are that its properties are read from
(`Entity.exists_ofDocument_iff`, `Proxy.exists_ofDocument_iff`,
`Relationship.exists_ofDocument_iff`). Everything else is read in any case, classifications of one
name included: of these the last one has been written over the others.
-/

set_option autoImplicit false

namespace MetadataArchive

variable {ts : TypeSystem} {d d' : Document} {space : PropertySpace} {P : PropertyValue → Prop}

/-! ## Values of records -/

def Properties.All (P : PropertyValue → Prop) (ps : Properties) : Prop :=
  ∀ name v, ps.get? name = some v → P v

theorem Properties.all_iff {ps : Properties} : ps.All P ↔ ∀ e ∈ ps.entries, P e.2 := by
  simp only [Properties.All, Prod.forall, NameMap.mem_entries]

instance [DecidablePred P] (ps : Properties) : Decidable (ps.All P) :=
  decidable_of_iff' _ Properties.all_iff

/-- The values of an entity and of its classifications have the property. -/
structure Entity.All (P : PropertyValue → Prop) (e : Entity) : Prop where
  properties : e.properties.All P
  classifications : ∀ c ∈ e.classifications, c.properties.All P

instance [DecidablePred P] (e : Entity) : Decidable (e.All P) :=
  decidable_of_iff (e.properties.All P ∧ ∀ c ∈ e.classifications, c.properties.All P)
    ⟨fun h => ⟨h.1, h.2⟩, fun h => ⟨h.properties, h.classifications⟩⟩

/-- The stored texts of a space are those of values that have the property. -/
def Document.Stores (P : PropertyValue → Prop) (d : Document) (space : PropertySpace) : Prop :=
  ∀ attr x, beginsWith space.serializedStem attr = true → d.get? attr = some x →
    ∃ v, P v ∧ x = v.toStored

/-- The values of a space are shallow, whatever else is sound about them. -/
def Document.ShallowIn (d : Document) (space : PropertySpace) : Prop :=
  ∀ (attr : String) (v : PropertyValue), beginsWith space.serializedStem attr = true → v.Sound →
    d.get? attr = some v.toStored → v.Shallow

/-- All values of an entity or a proxy are shallow, and those of its classifications are. -/
structure Document.Shallow (d : Document) : Prop where
  properties : d.ShallowIn .entity
  classifications : ∀ name ∈ d.classificationNames, d.ShallowIn (.classification name)

/-! ## Properties -/

namespace Properties

theorem stores_of_writeTo {ps : Properties} {typeName : String} (hps : ps.All P)
    (hget : ∃ d', ∀ k, beginsWith space.name k = true →
      d.get? k = (ps.writeTo ts space typeName d').get? k) : d.Stores P space := by
  obtain ⟨d', hget⟩ := hget
  intro attr x hattr hx
  rw [hget attr (beginsWith_of_append _ hattr)] at hx
  obtain ⟨name, v, hv, rfl, -⟩ := get?_writeTo_serialized hattr hx
  exact ⟨v, hps name v hv, rfl⟩

end Properties

namespace Document.Stores

theorem exists_ofDocument_iff (h : d.Stores PropertyValue.Sound space) :
    (∃ ps, Properties.ofDocument d space = .ok ps) ↔ d.ShallowIn space := by
  rw [Properties.exists_ofDocument_iff]
  constructor
  · intro hread attr v hattr hv hx
    exact hv.exists_ofStored_iff.1 (hread attr _ hattr hx)
  · intro hshallow attr x hattr hx
    obtain ⟨v, hv, rfl⟩ := h attr x hattr hx
    exact hv.exists_ofStored_iff.2 (hshallow attr v hattr hv hx)

theorem shallowIn (h : d.Stores (fun v => v.Sound ∧ v.Shallow) space) : d.ShallowIn space := by
  intro attr v hattr hv hx
  obtain ⟨w, ⟨hw, hshallow⟩, hsame⟩ := h attr _ hattr hx
  rw [← hv.exists_ofStored_iff, hsame]
  exact hw.exists_ofStored_iff.2 hshallow

end Document.Stores

/-! ## Records -/

theorem Classification.Laid.exists_ofDocument_iff {c : Classification} (h : c.Laid ts d)
    (hsound : c.properties.All PropertyValue.Sound) :
    (∃ c', Classification.ofDocument d c.name = .ok c') ↔ d.ShallowIn (.classification c.name) := by
  have horigin : d.getStr? (Attr.ofClassification c.name Attr.origin) = some c.origin.name := by
    rw [Document.getStr?, h.origin]
    rfl
  rw [← (Properties.stores_of_writeTo hsound h.properties).exists_ofDocument_iff]
  simp only [Classification.ofDocument, horigin, Origin.ofName_name, ok_bind,
    Header.ofDocument_of_laidOut h.header, bind_eq_ok]
  constructor
  · rintro ⟨_, ps, hps, -⟩
    exact ⟨ps, hps⟩
  · rintro ⟨ps, hps⟩
    exact ⟨_, ps, hps, rfl⟩

/-- Under each name that its document lists, an entity has a classification that is laid out
there. -/
theorem Entity.exists_laid {e : Entity} (hundotted : ∀ c ∈ e.classifications, '.' ∉ c.name.toList)
    (h : e.toDocument ts = .ok d) :
    ∀ name ∈ d.classificationNames, ∃ c ∈ e.classifications, c.name = name ∧ c.Laid ts d := by
  rw [Entity.classificationNames_toDocument h]
  obtain ⟨d', rfl, -⟩ := Entity.toDocument_ok h
  exact List.forall_mem_map.2 (Classification.exists_laid_foldl_writeTo ts hundotted)

/-- The document of a proxy lists no classifications. -/
theorem Proxy.classificationNames_toDocument {p : Proxy} (h : p.toDocument ts = .ok d) :
    d.classificationNames = [] := by
  simp only [Proxy.toDocument, bind_eq_ok, Except.ok.injEq] at h
  obtain ⟨d', hw, rfl⟩ := h
  have hspace : beginsWith PropertySpace.entity.name Attr.classifications = false := by decide
  have hnone : (p.uniqueProperties.writeTo ts .entity p.header.typeRef.name
      ((p.header.writeTo "" d').set Attr.isProxy (.bool true))).get? Attr.classifications =
        none := by
    rw [Properties.get?_writeTo_of_not_beginsWith hspace, Document.get?_set_of_ne (by decide),
      Header.get?_writeTo_of_not_mem (by decide),
      (TypeSystem.writeType_ok hw).2 _ (by decide) (by decide), Document.get?_ofId]
  rw [Document.classificationNames, Document.getStrings, hnone]
  rfl

/-! ## What is written -/

/-- The document of an entity stores the values of the entity and of its classifications. -/
theorem Entity.stores_toDocument {e : Entity} (hall : e.All P)
    (hundotted : ∀ c ∈ e.classifications, '.' ∉ c.name.toList) (h : e.toDocument ts = .ok d) :
    d.Stores P .entity ∧ ∀ name ∈ d.classificationNames, d.Stores P (.classification name) := by
  refine ⟨Properties.stores_of_writeTo hall.properties (Entity.get?_toDocument h),
    fun name hname => ?_⟩
  obtain ⟨c, hc, rfl, hlaid⟩ := Entity.exists_laid hundotted h name hname
  exact Properties.stores_of_writeTo (hall.classifications c hc) hlaid.properties

theorem Proxy.stores_toDocument {p : Proxy} (hall : p.uniqueProperties.All P)
    (h : p.toDocument ts = .ok d) : d.Stores P .entity := by
  obtain ⟨d', hd⟩ := Proxy.get?_toDocument h
  exact Properties.stores_of_writeTo hall ⟨d', fun k _ => by rw [hd]⟩

theorem Relationship.stores_toDocument {rel : Relationship} (hall : rel.properties.All P)
    (h : rel.toDocument ts = .ok d) : d.Stores P .relationship := by
  obtain ⟨d', hd⟩ := Relationship.get?_toDocument h
  exact Properties.stores_of_writeTo hall ⟨d', fun k _ => by rw [hd]⟩

/-! ## Reading what was written -/

/-- **The document of an entity is read** exactly if its values are shallow. -/
theorem Entity.exists_ofDocument_iff {e : Entity} (hguid : e.guid ≠ "")
    (hsound : e.All PropertyValue.Sound) (hundotted : ∀ c ∈ e.classifications, '.' ∉ c.name.toList)
    (h : e.toDocument ts = .ok d) :
    (∃ stored, StoredEntity.ofDocument d = .ok stored) ↔ d.Shallow := by
  have hheader := Header.ofDocument_of_laidOut (Entity.lays h).laidOut
  have hstores := (Entity.stores_toDocument hsound hundotted h).1
  have hclassification : ∀ name ∈ d.classificationNames,
      ((∃ c, Classification.ofDocument d name = .ok c) ↔
        d.ShallowIn (.classification name)) := fun name hname => by
    obtain ⟨c, hc, rfl, hlaid⟩ := Entity.exists_laid hundotted h name hname
    exact hlaid.exists_ofDocument_iff (hsound.classifications c hc)
  have hclassifications := exists_mapM_eq_ok_iff.trans (forall₂_congr hclassification)
  rw [Entity.classificationNames_toDocument h] at hclassifications
  constructor
  · rintro ⟨stored, hread⟩
    obtain ⟨header, ps, cs, -, hps, hcs, -⟩ := (Entity.ofDocument_parts hguid h).1 hread
    refine ⟨hstores.exists_ofDocument_iff.1 ⟨ps, hps⟩, ?_⟩
    rw [Entity.classificationNames_toDocument h]
    exact hclassifications.1 ⟨cs, hcs⟩
  · intro hshallow
    obtain ⟨ps, hps⟩ := hstores.exists_ofDocument_iff.2 hshallow.properties
    obtain ⟨cs, hcs⟩ := hclassifications.2
      (Entity.classificationNames_toDocument h ▸ hshallow.classifications)
    exact ⟨_, (Entity.ofDocument_parts hguid h).2 ⟨_, ps, cs, hheader, hps, hcs, rfl⟩⟩

/-- Where the document of an entity is read, each of its values is shallow. -/
theorem Entity.shallow_of_reads {e : Entity} {stored : StoredEntity} (hguid : e.guid ≠ "")
    (hplain : e.properties.Plain ts e.header.typeRef.name)
    (hsound : e.properties.All PropertyValue.Sound) (h : e.toDocument ts = .ok d)
    (hread : StoredEntity.ofDocument d = .ok stored) :
    e.properties.All PropertyValue.Shallow := by
  obtain ⟨-, ps, -, -, hps, -⟩ := (Entity.ofDocument_parts hguid h).1 hread
  have hreads : Properties.ofDocument d .entity = .ok ps ↔ e.properties.Rereads ps :=
    hplain.ofDocument_iff (Entity.get?_toDocument h)
  intro name v hv
  have hname := hreads.1 hps name
  rw [hv, Option.map_some, eq_comm, Option.map_eq_some_iff] at hname
  obtain ⟨w, -, hw⟩ := hname
  exact (hsound name v hv).exists_ofStored_iff.1 ⟨w, hw.symm⟩

/-- **The document of a proxy is read** exactly if its values are shallow. -/
theorem Proxy.exists_ofDocument_iff {p : Proxy} (hguid : p.guid ≠ "")
    (hsound : p.uniqueProperties.All PropertyValue.Sound) (h : p.toDocument ts = .ok d) :
    (∃ stored, StoredEntity.ofDocument d = .ok stored) ↔ d.Shallow := by
  have hlays := Proxy.lays h
  have hheader := Header.ofDocument_of_laidOut hlays.laidOut
  have hstores := Proxy.stores_toDocument hsound h
  have hproxy : ((d.get? Attr.isProxy).bind Value.asBool?).getD false = true := by
    rw [hlays.mark (Attr.isProxy, .bool true) (by simp)]
    rfl
  have href : RecordRef.ofDocId d.id = .ok p.reference := by
    rw [hlays.id]
    exact RecordRef.ofDocId_docId hguid
  have hshallow : d.Shallow ↔ d.ShallowIn .entity := by
    refine ⟨Document.Shallow.properties, fun h' => ⟨h', ?_⟩⟩
    rw [Proxy.classificationNames_toDocument h]
    simp
  rw [hshallow, ← hstores.exists_ofDocument_iff]
  simp only [StoredEntity.ofDocument, href, ok_bind, Proxy.reference, RecordRef.entity, ne_eq,
    not_true_eq_false, if_false, hheader, hproxy, if_true, bind_eq_ok]
  constructor
  · rintro ⟨_, ps, hps, -⟩
    exact ⟨ps, hps⟩
  · rintro ⟨ps, hps⟩
    exact ⟨_, ps, hps, rfl⟩

/-- **The document of a relationship is read** exactly if its values are shallow and the documents
of its ends are read. -/
theorem Relationship.exists_ofDocument_iff {rel : Relationship} {one two : Document}
    (hguid : rel.guid ≠ "") (hsound : rel.properties.All PropertyValue.Sound)
    (h : rel.toDocument ts = .ok d) :
    (∃ rel', Relationship.ofDocument ts d (some one) (some two) = .ok rel') ↔
      d.ShallowIn .relationship ∧ (∃ stored, StoredEntity.ofDocument one = .ok stored) ∧
        ∃ stored, StoredEntity.ofDocument two = .ok stored := by
  have hheader := Header.ofDocument_of_laidOut (Relationship.lays h).laidOut
  have hstores := Relationship.stores_toDocument hsound h
  have hend (d : Document) : (∃ p, Proxy.ofDocument ts d = .ok p) ↔
      ∃ stored, StoredEntity.ofDocument d = .ok stored := by
    simp only [Proxy.ofDocument, map_eq_ok]
    constructor
    · rintro ⟨_, stored, hstored, _⟩
      exact ⟨stored, hstored⟩
    · rintro ⟨stored, hstored⟩
      exact ⟨_, stored, hstored, rfl⟩
  rw [← hstores.exists_ofDocument_iff, ← hend one, ← hend two]
  simp only [Relationship.ofDocument_parts hguid h, Option.map_some, Option.some.injEq]
  constructor
  · rintro ⟨_, _, ps, p, q, -, hps, hp, hq, -⟩
    exact ⟨⟨ps, hps⟩, ⟨p, hp⟩, q, hq⟩
  · rintro ⟨⟨ps, hps⟩, ⟨p, hp⟩, q, hq⟩
    exact ⟨_, _, ps, p, q, hheader, hps, hp, hq, rfl⟩

/-! ## What is read -/

theorem Properties.all_of_ofDocument {ps : Properties}
    (h : Properties.ofDocument d space = .ok ps) : ps.All fun v => v.Sound ∧ v.Shallow := by
  intro name v hv
  obtain ⟨es, hes, heq⟩ := bind_eq_ok.1 h
  cases heq
  obtain ⟨⟨attr, x⟩, -, hread⟩ := exists_of_mem_filterMapM hes (NameMap.mem_ofList_of_get? hv)
  dsimp only at hread
  split at hread
  · cases hread
  · obtain ⟨w, hw, heq⟩ := bind_eq_ok.1 hread
    cases heq
    exact PropertyValue.sound_of_ofStored hw

theorem Entity.all_of_ofDocument {e : Entity} (h : StoredEntity.ofDocument d = .ok (.full e)) :
    e.All fun v => v.Sound ∧ v.Shallow := by
  simp only [StoredEntity.ofDocument, bind_eq_ok] at h
  obtain ⟨r, -, h⟩ := h
  split at h
  · cases h
  · simp only [bind_eq_ok] at h
    obtain ⟨_, -, ps, hps, h⟩ := h
    split at h
    · cases h
    · simp only [bind_eq_ok] at h
      obtain ⟨cs, hcs, h⟩ := h
      cases h
      refine ⟨Properties.all_of_ofDocument hps, fun c hc => ?_⟩
      obtain ⟨name, -, hread⟩ := exists_of_mapM hcs hc
      unfold Classification.ofDocument at hread
      split at hread
      all_goals
        simp only [bind_eq_ok] at hread
        obtain ⟨_, -, _, -, ps, hps, heq⟩ := hread
        cases heq
        exact Properties.all_of_ofDocument hps

theorem Relationship.all_of_ofDocument {rel : Relationship} {one two : Option Document}
    (h : Relationship.ofDocument ts d one two = .ok rel) :
    rel.properties.All fun v => v.Sound ∧ v.Shallow := by
  simp only [Relationship.ofDocument, bind_eq_ok] at h
  obtain ⟨r, hr, h⟩ := h
  split at h
  · cases h
  · split at h
    · cases h
    · cases h
    · simp only [bind_eq_ok] at h
      obtain ⟨_, -, ps, hps, _, -, _, -, h⟩ := h
      cases h
      exact Properties.all_of_ofDocument hps

end MetadataArchive
