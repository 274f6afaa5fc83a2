import MetadataArchive.Proofs.Record.RoundTrip

/-!
# What is read of a record that was stored

What is read of a record's document is another record. The stored text of a value is read, but a
double may come back as one of its neighbours, and a value that is nested too deep does not come
back at all; and a version that no signed integer holds comes back as zero. `Rereads` relates a
record to what is read of it. Where no name has a full stop this is all that a document loses
(`Entity.ofDocument_rereads_iff`), and nothing is lost exactly where versions fit and values read
back (`Entity.rereads_self_iff`).
-/

set_option autoImplicit false

namespace MetadataArchive

variable {ts : TypeSystem} {d : Document}

/-! ## Keys -/

theorem RecordRef.guid_ne_of_ofDocId {id : DocId} {r : RecordRef}
    (h : RecordRef.ofDocId id = .ok r) : r.guid ≠ "" := by
  have hne (c : Char) (rest : List Char) : String.ofList (c :: rest) ≠ "" := fun heq => by
    have hlist := congrArg String.toList heq
    simp at hlist
  unfold RecordRef.ofDocId at h
  split at h
  · cases h
    exact hne _ _
  · cases h
    exact hne _ _
  · cases h

/-- An entity that is read has a guid, the header of its document and the classifications that the
document lists. -/
theorem Entity.reads_of_ofDocument {e : Entity} (h : StoredEntity.ofDocument d = .ok (.full e)) :
    e.guid ≠ "" ∧ Header.ofDocument d "" = .ok e.header ∧
      d.classificationNames.mapM (Classification.ofDocument d) = .ok e.classifications := by
  simp only [StoredEntity.ofDocument, bind_eq_ok] at h
  obtain ⟨r, hr, h⟩ := h
  have hguid := RecordRef.guid_ne_of_ofDocId hr
  split at h
  · cases h
  · simp only [bind_eq_ok] at h
    obtain ⟨header, hheader, _, -, h⟩ := h
    split at h
    · cases h
    · simp only [bind_eq_ok] at h
      obtain ⟨cs, hcs, h⟩ := h
      cases h
      exact ⟨hguid, hheader, hcs⟩

/-- A relationship that is read has a guid, and both its ends are read from the documents found for
them. -/
theorem Relationship.reads_of_ofDocument {one two : Option Document} {rel : Relationship}
    (h : Relationship.ofDocument ts d one two = .ok rel) :
    rel.guid ≠ "" ∧ one.map (Proxy.ofDocument ts) = some (.ok rel.endOne) ∧
      two.map (Proxy.ofDocument ts) = some (.ok rel.endTwo) := by
  simp only [Relationship.ofDocument, bind_eq_ok] at h
  obtain ⟨r, hr, h⟩ := h
  have hguid := RecordRef.guid_ne_of_ofDocId hr
  split at h
  · cases h
  · split at h
    · cases h
    · cases h
    next one two =>
      simp only [bind_eq_ok] at h
      obtain ⟨header, -, ps, -, endOne, hone, endTwo, htwo, h⟩ := h
      cases h
      exact ⟨hguid, congrArg some hone, congrArg some htwo⟩

/-! ## Properties -/

namespace Properties

variable {ps ps' ps'' : Properties} {space : PropertySpace} {typeName : String}

/-- Under every name, the second has what is read of the stored text of the value that the first
has there. -/
def Rereads (ps ps' : Properties) : Prop :=
  ∀ name, (ps.get? name).map (fun v => PropertyValue.ofStored v.toStored) =
    (ps'.get? name).map .ok

theorem Rereads.eq (h : ps.Rereads ps') (h' : ps.Rereads ps'') : ps' = ps'' := by
  refine NameMap.ext_get? fun name => ?_
  have hname := (h name).symm.trans (h' name)
  cases hv : ps'.get? name <;> cases hw : ps''.get? name <;> simp_all

theorem rereads_self_iff : ps.Rereads ps ↔ ps.ReadBack := by
  refine forall_congr' fun name => ?_
  cases hv : ps.get? name with
  | none => simp
  | some v => simp

theorem rereads_iff_exists :
    ps.Rereads ps' ↔ ∃ back : PropertyValue → PropertyValue,
      (∀ name v, ps.get? name = some v → PropertyValue.ofStored v.toStored = .ok (back v)) ∧
        ps' = ps.map back := by
  constructor
  · intro h
    let back (v : PropertyValue) := (PropertyValue.ofStored v.toStored).toOption.getD v
    have hback : ∀ name v, ps.get? name = some v →
        PropertyValue.ofStored v.toStored = .ok (back v) ∧ ps'.get? name = some (back v) := by
      intro name v hv
      have hname := h name
      rw [hv, Option.map_some, eq_comm, Option.map_eq_some_iff] at hname
      obtain ⟨w, hw, hread⟩ := hname
      have hsame : back v = w := by simp only [back, ← hread]; rfl
      exact ⟨hsame ▸ hread.symm, hsame ▸ hw⟩
    refine ⟨back, fun name v hv => (hback name v hv).1, NameMap.ext_get? fun name => ?_⟩
    rw [NameMap.get?_map]
    cases hv : ps.get? name with
    | none => simpa [hv] using h name
    | some v => exact (hback name v hv).2
  · rintro ⟨back, hback, rfl⟩ name
    rw [NameMap.get?_map]
    cases hv : ps.get? name with
    | none => rfl
    | some v => exact congrArg some (hback name v hv)

theorem Plain.ofDocument_writeTo_iff (hplain : ps.Plain ts typeName) :
    Properties.ofDocument (ps.writeTo ts space typeName d) space = .ok ps' ↔ ps.Rereads ps' := by
  rw [rereads_iff_exists]
  constructor
  · intro hread
    -- Whatever text was stored of a property is among those that have been read.
    have hstored : ∀ name v, ps.get? name = some v →
        ∃ w, PropertyValue.ofStored v.toStored = .ok w := by
      intro name v hv
      obtain ⟨x, hx⟩ := Option.ne_none_iff_exists'.1
        (get?_writeTo_ne_none ts space typeName d hv)
      have hkey : beginsWith space.serializedStem
          (AttributeKey.forStorage ts space typeName name).serialized = true :=
        beginsWith_append _ _
      obtain ⟨name', v', hv', rfl, hname⟩ := get?_writeTo_serialized hkey hx
      have hsame := congrArg (AttributeKey.propertyOf? space) hname
      rw [AttributeKey.propertyOf?_serialized, AttributeKey.propertyOf?_serialized,
        AttributeKey.afterDot_qualified (hplain name v hv),
        AttributeKey.afterDot_qualified (hplain name' v' hv'), Option.some.injEq] at hsame
      subst hsame
      obtain rfl := Option.some.inj (hv.symm.trans hv')
      exact exists_ofDocument_iff.1 ⟨ps', hread⟩ _ _ hkey hx
    have hback : ∀ name v, ps.get? name = some v → PropertyValue.ofStored v.toStored =
        .ok ((PropertyValue.ofStored v.toStored).toOption.getD v) := by
      intro name v hv
      obtain ⟨w, hw⟩ := hstored name v hv
      rw [hw]
      rfl
    refine ⟨_, hback, ?_⟩
    rw [hplain.ofDocument_writeTo space d hback, Except.ok.injEq] at hread
    exact hread.symm
  · rintro ⟨back, hback, rfl⟩
    exact hplain.ofDocument_writeTo space d hback

/-- **What is read of properties** that are all found under their own names, wherever the document
holds what was written of them. -/
theorem Plain.ofDocument_iff (hplain : ps.Plain ts typeName)
    (hget : ∃ d', ∀ k, beginsWith space.name k = true →
      d.get? k = (ps.writeTo ts space typeName d').get? k) :
    Properties.ofDocument d space = .ok ps' ↔ ps.Rereads ps' := by
  obtain ⟨d', hget⟩ := hget
  rw [Properties.ofDocument_congr fun k hk => hget k (beginsWith_of_append _ hk),
    hplain.ofDocument_writeTo_iff]

end Properties

/-! ## Headers -/

namespace Header

variable {h : Header}

/-- The header that is read where a header was stored. -/
def stored (h : Header) : Header := { h with version := keptVersion h.version }

theorem stored_eq_self_iff : h.stored = h ↔ h.version.toNat < 2 ^ 63 := by
  rw [← Header.ofDocument_iff (h.laidOut_writeTo "" (.ofId "")),
    Header.ofDocument_of_laidOut (h.laidOut_writeTo "" (.ofId "")), Except.ok.injEq]
  rfl

/-- A version that was read fits a signed integer. -/
theorem toNat_version_lt {stem : String} (hread : Header.ofDocument d stem = .ok h) :
    h.version.toNat < 2 ^ 63 := by
  simp only [Header.ofDocument, bind_eq_ok, Except.ok.injEq] at hread
  obtain ⟨version, -, _, -, _, -, _, -, _, -, _, -, _, -, _, -, _, -, _, -, rfl⟩ := hread
  have hversion := version.toInt_lt
  simp only [UInt64.toNat_ofNat']
  omega

end Header

/-! ## Classifications -/

namespace Classification

variable {c c' c'' : Classification}

theorem header_of_ofDocument {name : String} (h : Classification.ofDocument d name = .ok c) :
    Header.ofDocument d (Attr.classificationStem name) = .ok c.header := by
  unfold Classification.ofDocument at h
  split at h
  all_goals
    simp only [bind_eq_ok] at h
    obtain ⟨_, -, header, hheader, _, -, h⟩ := h
    cases h
    exact hheader

def Rereads (c c' : Classification) : Prop :=
  ∃ ps, c.properties.Rereads ps ∧ c' = { c with header := c.header.stored, properties := ps }

theorem Rereads.eq (h : c.Rereads c') (h' : c.Rereads c'') : c' = c'' := by
  obtain ⟨ps, hps, rfl⟩ := h
  obtain ⟨ps', hps', rfl⟩ := h'
  rw [hps.eq hps']

theorem rereads_self_iff :
    c.Rereads c ↔ c.header.version.toNat < 2 ^ 63 ∧ c.properties.ReadBack := by
  rw [← Header.stored_eq_self_iff, ← Properties.rereads_self_iff]
  constructor
  · rintro ⟨ps, hps, heq⟩
    have hsame : c.properties = ps := congrArg Classification.properties heq
    exact ⟨(congrArg Classification.header heq).symm, hsame ▸ hps⟩
  · rintro ⟨hheader, hps⟩
    exact ⟨c.properties, hps, by rw [hheader]⟩

/-- What is read of those classifications that are chosen by their headers, but not by their
versions. -/
theorem filter_rereads {cs cs' : List Classification} {p : Header → Bool}
    (hp : ∀ h, p h.stored = p h) (h : List.Forall₂ Rereads cs cs') :
    List.Forall₂ Rereads (cs.filter fun c => p c.header) (cs'.filter fun c => p c.header) := by
  refine List.rel_filter ?_ h
  rintro c c' ⟨_, -, rfl⟩
  show p c.header = true ↔ p c.header.stored = true
  rw [hp]

theorem eq_of_rereads_iff {cs cs' : List Classification}
    (hfits : ∀ c ∈ cs, c.header.version.toNat < 2 ^ 63) (h : List.Forall₂ Rereads cs cs') :
    cs' = cs ↔ ∀ c ∈ cs, c.properties.ReadBack := by
  constructor
  · rintro rfl c hc
    exact (rereads_self_iff.1 (List.forall₂_same.1 h c hc)).2
  · intro hback
    have hself : List.Forall₂ Rereads cs cs :=
      List.forall₂_same.2 fun c hc => rereads_self_iff.2 ⟨hfits c hc, hback c hc⟩
    have hunique : Relator.RightUnique Rereads := fun _ _ _ => Rereads.eq
    exact hunique.forall₂ h hself

theorem ofDocument_rereads_iff (h : c.In ts d)
    (hplain : c.properties.Plain ts c.header.typeRef.name) :
    Classification.ofDocument d c.name = .ok c' ↔ c.Rereads c' := by
  have horigin : d.getStr? (Attr.ofClassification c.name Attr.origin) = some c.origin.name := by
    rw [Document.getStr?, h.origin]
    rfl
  simp only [Classification.ofDocument, horigin, Origin.ofName_name, ok_bind,
    Header.ofDocument_of_laidOut h.header, Document.getStr?_of_get? h.originGuid, bind_eq_ok,
    Except.ok.injEq, hplain.ofDocument_iff h.properties]
  exact exists_congr fun ps => and_congr_right fun _ => eq_comm

end Classification

/-! ## Entities -/

namespace Entity

variable {e e' e'' : Entity}

/-- The classifications can be told apart in the one document of the entity: their names are
distinct, and have no full stops. -/
structure Apart (e : Entity) : Prop where
  distinct : (e.classifications.map Classification.name).Nodup
  undotted : ∀ c ∈ e.classifications, '.' ∉ c.name.toList

/-- Neither the entity nor a classification of it has a property that is qualified by a name with a
full stop. -/
structure Plain (ts : TypeSystem) (e : Entity) : Prop where
  properties : e.properties.Plain ts e.header.typeRef.name
  classifications : ∀ c ∈ e.classifications, c.properties.Plain ts c.header.typeRef.name

/-- The versions of the entity and of its classifications fit a signed integer. -/
structure Fits (e : Entity) : Prop where
  header : e.header.version.toNat < 2 ^ 63
  classifications : ∀ c ∈ e.classifications, c.header.version.toNat < 2 ^ 63

/-- Whatever is read has versions that fit. -/
theorem fits_of_ofDocument (h : StoredEntity.ofDocument d = .ok (.full e)) : e.Fits := by
  obtain ⟨-, hheader, hcs⟩ := reads_of_ofDocument h
  refine ⟨Header.toNat_version_lt hheader, fun c hc => ?_⟩
  obtain ⟨name, -, hname⟩ := exists_of_mapM hcs hc
  exact Header.toNat_version_lt (Classification.header_of_ofDocument hname)

/-- The stored text of every value, of the entity and of its classifications, reads back. -/
structure ReadBack (e : Entity) : Prop where
  properties : e.properties.ReadBack
  classifications : ∀ c ∈ e.classifications, c.properties.ReadBack

def Rereads (e e' : Entity) : Prop :=
  ∃ ps cs, e.properties.Rereads ps ∧ List.Forall₂ Classification.Rereads e.classifications cs ∧
    e' = ⟨e.guid, e.header.stored, ps, cs⟩

theorem Rereads.eq (h : e.Rereads e') (h' : e.Rereads e'') : e' = e'' := by
  obtain ⟨ps, cs, hps, hcs, rfl⟩ := h
  obtain ⟨ps', cs', hps', hcs', rfl⟩ := h'
  have hunique : Relator.RightUnique Classification.Rereads :=
    fun _ _ _ => Classification.Rereads.eq
  rw [hps.eq hps', hunique.forall₂ hcs hcs']

/-- **What is read is the entity itself** exactly where versions fit and values read back. -/
theorem rereads_self_iff : e.Rereads e ↔ e.Fits ∧ e.ReadBack := by
  constructor
  · rintro ⟨ps, cs, hps, hcs, heq⟩
    have hsame : e.properties = ps := congrArg Entity.properties heq
    have hlist : e.classifications = cs := congrArg Entity.classifications heq
    rw [← hlist, List.forall₂_same] at hcs
    have hself := fun c hc => Classification.rereads_self_iff.1 (hcs c hc)
    refine ⟨⟨Header.stored_eq_self_iff.1 (congrArg Entity.header heq).symm, fun c hc =>
      (hself c hc).1⟩, Properties.rereads_self_iff.1 (hsame ▸ hps), fun c hc => (hself c hc).2⟩
  · rintro ⟨hfits, hback⟩
    refine ⟨e.properties, e.classifications, Properties.rereads_self_iff.2 hback.properties, ?_, ?_⟩
    · exact List.forall₂_same.2 fun c hc =>
        Classification.rereads_self_iff.2 ⟨hfits.classifications c hc, hback.classifications c hc⟩
    · rw [Header.stored_eq_self_iff.2 hfits.header]

/-- **What is read of an entity** is the entity with its versions and values read again, as long as
its names have no full stops. -/
theorem ofDocument_rereads_iff {stored : StoredEntity} (hguid : e.guid ≠ "") (hapart : e.Apart)
    (hplain : e.Plain ts) (h : e.toDocument ts = .ok d) :
    StoredEntity.ofDocument d = .ok stored ↔ ∃ e', e.Rereads e' ∧ stored = .full e' := by
  have hheader : Header.ofDocument d "" = .ok e.header.stored :=
    Header.ofDocument_of_laidOut (Entity.lays h).laidOut
  have hproperties {ps : Properties} : Properties.ofDocument d .entity = .ok ps ↔
      e.properties.Rereads ps := hplain.properties.ofDocument_iff (Entity.get?_toDocument h)
  have hin := Entity.in_toDocument h hapart.distinct hapart.undotted
  have hclassifications {cs : List Classification} :
      (e.classifications.map Classification.name).mapM (Classification.ofDocument d) = .ok cs ↔
        List.Forall₂ Classification.Rereads e.classifications cs := by
    have hread : ∀ c ∈ e.classifications, ∀ c', Classification.ofDocument d c.name = .ok c' ↔
        c.Rereads c' := fun c hc c' =>
      Classification.ofDocument_rereads_iff (hin c hc) (hplain.classifications c hc)
    rw [mapM_eq_ok_iff, List.forall₂_map_left_iff]
    constructor <;> intro hcs
    · exact ((List.forall₂_and_left _ _).2 ⟨hread, hcs⟩).imp fun c c' h => (h.1 c').1 h.2
    · exact ((List.forall₂_and_left _ _).2 ⟨hread, hcs⟩).imp fun c c' h => (h.1 c').2 h.2
  rw [Entity.ofDocument_parts hguid h]
  simp only [hheader, hproperties, hclassifications, Except.ok.injEq]
  constructor
  · rintro ⟨header, ps, cs, rfl, hps, hcs, rfl⟩
    exact ⟨_, ⟨ps, cs, hps, hcs, rfl⟩, rfl⟩
  · rintro ⟨_, ⟨ps, cs, hps, hcs, rfl⟩, rfl⟩
    exact ⟨e.header.stored, ps, cs, rfl, hps, hcs, rfl⟩

end Entity

/-! ## Relationships -/

namespace Relationship

variable {rel rel' rel'' : Relationship}

/-- The ends are read from documents of their own. -/
def Rereads (rel rel' : Relationship) : Prop :=
  ∃ ps, rel.properties.Rereads ps ∧
    rel' = { rel with header := rel.header.stored, properties := ps }

theorem Rereads.eq (h : rel.Rereads rel') (h' : rel.Rereads rel'') : rel' = rel'' := by
  obtain ⟨ps, hps, rfl⟩ := h
  obtain ⟨ps', hps', rfl⟩ := h'
  rw [hps.eq hps']

theorem rereads_self_iff :
    rel.Rereads rel ↔ rel.header.version.toNat < 2 ^ 63 ∧ rel.properties.ReadBack := by
  rw [← Header.stored_eq_self_iff, ← Properties.rereads_self_iff]
  constructor
  · rintro ⟨ps, hps, heq⟩
    have hsame : rel.properties = ps := congrArg Relationship.properties heq
    exact ⟨(congrArg Relationship.header heq).symm, hsame ▸ hps⟩
  · rintro ⟨hheader, hps⟩
    exact ⟨rel.properties, hps, by rw [hheader]⟩

/-- **What is read of a relationship** has the ends that are read from the documents found for
them. -/
theorem ofDocument_rereads_ends_iff {one two : Option Document} (hguid : rel.guid ≠ "")
    (hplain : rel.properties.Plain ts rel.header.typeRef.name) (h : rel.toDocument ts = .ok d) :
    Relationship.ofDocument ts d one two = .ok rel' ↔
      one.map (Proxy.ofDocument ts) = some (.ok rel'.endOne) ∧
        two.map (Proxy.ofDocument ts) = some (.ok rel'.endTwo) ∧
        { rel with endOne := rel'.endOne, endTwo := rel'.endTwo }.Rereads rel' := by
  have hheader : Header.ofDocument d "" = .ok rel.header.stored :=
    Header.ofDocument_of_laidOut (Relationship.lays h).laidOut
  obtain ⟨d', hd⟩ := Relationship.get?_toDocument h
  have hproperties {ps : Properties} : Properties.ofDocument d .relationship = .ok ps ↔
      rel.properties.Rereads ps := hplain.ofDocument_iff ⟨d', fun k _ => by rw [hd]⟩
  rw [Relationship.ofDocument_parts hguid h]
  simp only [hheader, hproperties, Except.ok.injEq]
  constructor
  · rintro ⟨header, ps, p, q, rfl, hps, hone, htwo, rfl⟩
    exact ⟨hone, htwo, ps, hps, rfl⟩
  · rintro ⟨hone, htwo, ps, hps, heq⟩
    exact ⟨rel.header.stored, ps, rel'.endOne, rel'.endTwo, rfl, hps, hone, htwo, heq⟩

/-- Where the ends are stored that the relationship was written with, it has these. -/
theorem ofDocument_rereads_iff {one two : Option Document} (hguid : rel.guid ≠ "")
    (hplain : rel.properties.Plain ts rel.header.typeRef.name) (h : rel.toDocument ts = .ok d)
    (hone : one.map (Proxy.ofDocument ts) = some (.ok rel.endOne))
    (htwo : two.map (Proxy.ofDocument ts) = some (.ok rel.endTwo)) :
    Relationship.ofDocument ts d one two = .ok rel' ↔ rel.Rereads rel' := by
  rw [ofDocument_rereads_ends_iff hguid hplain h, hone, htwo]
  simp only [Option.some.injEq, Except.ok.injEq]
  constructor
  · rintro ⟨hone, htwo, hrereads⟩
    rwa [← hone, ← htwo] at hrereads
  · rintro ⟨ps, hps, rfl⟩
    exact ⟨rfl, rfl, ps, hps, rfl⟩

end Relationship

end MetadataArchive
