import Mathlib
import MetadataArchive.Proofs.Record.Classification

/-!
# Records are read back

What is written of a record is read back from its document, part by part: the header and the
properties under the names of the record, the classifications in the order in which the document
lists them, the ends of a relationship from documents of their own. Nothing is lost but what its
parts lose, so a record is read back exactly where all its versions fit a signed integer and no type
that qualifies one of its properties has a full stop in its name (`stored_records_read_back`).
-/

set_option autoImplicit false

namespace MetadataArchive

variable {ts : TypeSystem} {d d' : Document} {k : String}

/-! ## Records that can be stored -/

/-- A proxy that can be stored and read: it has a guid and a known type, and its values have stored
texts that read back. -/
structure Proxy.Storable (ts : TypeSystem) (p : Proxy) : Prop where
  guid : p.guid ≠ ""
  known : ts.get? p.header.typeRef.name ≠ none
  properties : p.uniqueProperties.ReadBack

structure Entity.Storable (ts : TypeSystem) (e : Entity) : Prop where
  guid : e.guid ≠ ""
  known : ts.get? e.header.typeRef.name ≠ none
  properties : e.properties.ReadBack
  distinct : (e.classifications.map Classification.name).Nodup
  undotted : ∀ c ∈ e.classifications, '.' ∉ c.name.toList
  classifications : ∀ c ∈ e.classifications, c.properties.ReadBack

structure Relationship.Storable (ts : TypeSystem) (rel : Relationship) : Prop where
  guid : rel.guid ≠ ""
  known : ts.get? rel.header.typeRef.name ≠ none
  properties : rel.properties.ReadBack
  endOne : rel.endOne.Storable ts
  endTwo : rel.endTwo.Storable ts

/-- A header and properties that lose nothing: the version fits a signed integer, and no property is
qualified by a name with a full stop. -/
def Header.Keeps (ts : TypeSystem) (h : Header) (ps : Properties) : Prop :=
  h.version.toNat < 2 ^ 63 ∧ ps.Plain ts h.typeRef.name

def Proxy.Keeps (ts : TypeSystem) (p : Proxy) : Prop := p.header.Keeps ts p.uniqueProperties

def Entity.Keeps (ts : TypeSystem) (e : Entity) : Prop :=
  e.header.Keeps ts e.properties ∧ ∀ c ∈ e.classifications, c.header.Keeps ts c.properties

def Relationship.Keeps (ts : TypeSystem) (rel : Relationship) : Prop :=
  rel.header.Keeps ts rel.properties ∧ rel.endOne.Keeps ts ∧ rel.endTwo.Keeps ts

/-- Where neither the types nor the record's own type have a full stop in their names, no qualifier
has one. -/
theorem Properties.plain_of_undotted (hnamed : ts.Named) (hts : ts.Undotted) {typeName : String}
    (hname : '.' ∉ typeName.toList) (ps : Properties) : ps.Plain ts typeName := by
  intro name _ _
  unfold TypeSystem.qualifierOf
  cases ht : ts.declaringType? typeName name with
  | none => exact hname
  | some t => exact hts _ t (TypeSystem.declaringType?_ok hnamed ht).1

/-! ## Writing -/

theorem TypeSystem.exists_writeType {h : Header} (hknown : ts.get? h.typeRef.name ≠ none)
    (d : Document) : ∃ d', ts.writeType h d = .ok d' := by
  obtain ⟨t, ht⟩ := Option.ne_none_iff_exists'.1 hknown
  obtain ⟨rest, hrest⟩ := TypeSystem.exists_closure_eq ht
  simp [TypeSystem.writeType, TypeSystem.supertypeClosure, TypeSystem.require, ht, ok_bind, hrest]

/-- What has been written of an entity by the time that its classifications are. -/
theorem Entity.toDocument_ok {e : Entity} (h : e.toDocument ts = .ok d) :
    ∃ d', d = e.classifications.foldl (fun d c => c.writeTo ts d) d' ∧
      d'.get? Attr.classifications = some (.list (e.classifications.map fun c => .str c.name)) ∧
      ∀ k, beginsWith "classifications." k = true → d'.get? k = none := by
  simp only [Entity.toDocument, bind_eq_ok, Except.ok.injEq] at h
  obtain ⟨d₀, hw, rfl⟩ := h
  refine ⟨_, rfl, ?_, fun k hk => ?_⟩
  · cases e.latestClassificationChange with
    | none =>
      dsimp only
      rw [Document.get?_set, if_pos rfl]
      rfl
    | some t =>
      dsimp only
      rw [Document.get?_set_of_ne (by decide), Document.get?_set, if_pos rfl]
      rfl
  · -- Before the classifications nothing is written under names that begin like theirs.
    have hne {name : String} (hname : beginsWith "classifications." name = false) : k ≠ name :=
      fun heq => Bool.false_ne_true (hname.symm.trans (heq ▸ hk))
    have hheader : k ∉ Attr.header := fun hm => by
      have hnone : ∀ name ∈ Attr.header, beginsWith "classifications." name = false := by decide
      exact hne (hnone k hm) rfl
    have hspace : beginsWith PropertySpace.entity.name k = false :=
      beginsWith_eq_false hk (by decide) (by decide)
    have hproperties : (e.properties.writeTo ts .entity e.header.typeRef.name
        ((e.header.writeTo "" d₀).set Attr.isProxy (.bool false))).get? k = none := by
      rw [Properties.get?_writeTo_of_not_beginsWith hspace,
        Document.get?_set_of_ne (hne (by decide)), Header.get?_writeTo_of_not_mem hheader,
        (TypeSystem.writeType_ok hw).2 k (hne (by decide)) (hne (by decide)), Document.get?_ofId]
    cases e.latestClassificationChange with
    | none => exact (Document.get?_set_of_ne (hne (by decide))).trans hproperties
    | some t =>
      exact (Document.get?_set_of_ne (hne (by decide))).trans
        ((Document.get?_set_of_ne (hne (by decide))).trans hproperties)

/-- Under the names of their space the document of a proxy holds its properties alone. -/
theorem Proxy.get?_toDocument {p : Proxy} (h : p.toDocument ts = .ok d) :
    ∃ d', d = p.uniqueProperties.writeTo ts .entity p.header.typeRef.name d' := by
  simp only [Proxy.toDocument, bind_eq_ok, Except.ok.injEq] at h
  obtain ⟨d', -, rfl⟩ := h
  exact ⟨_, rfl⟩

theorem Relationship.get?_toDocument {rel : Relationship} (h : rel.toDocument ts = .ok d) :
    ∃ d', d = rel.properties.writeTo ts .relationship rel.header.typeRef.name d' := by
  simp only [Relationship.toDocument, bind_eq_ok, Except.ok.injEq] at h
  obtain ⟨d', -, rfl⟩ := h
  exact ⟨_, rfl⟩

/-! ## Reading -/

theorem RecordRef.ofDocId_docId {r : RecordRef} (hguid : r.guid ≠ "") :
    RecordRef.ofDocId r.docId = .ok r := by
  obtain ⟨kind, guid⟩ := r
  have hlist := RecordRef.docId_toList ⟨kind, guid⟩
  cases hg : guid.toList with
  | nil => exact absurd (String.toList_inj.1 (hg.trans rfl)) hguid
  | cons c rest =>
    have hofList : String.ofList (c :: rest) = guid := by rw [← hg, String.ofList_toList]
    have he : "e".toList = ['e'] := by decide
    have hr : "r".toList = ['r'] := by decide
    unfold RecordRef.ofDocId
    rw [hlist, hg]
    cases kind with
    | entity => simp [RecordKind.tag, he, RecordRef.entity, hofList]
    | relationship => simp [RecordKind.tag, hr, RecordRef.relationship, hofList]

theorem Document.Lays.laidOut {r : RecordRef} {h : Header} {marks : List (String × Value)}
    (hd : d.Lays r h marks) : h.LaidOut "" d := by
  intro f hf
  rw [String.empty_append]
  exact hd.header f hf

/-- What is read of an entity has the header that was written, but for a version that does not
fit. -/
theorem Document.Lays.header_of_ofDocument {r : RecordRef} {h : Header}
    {marks : List (String × Value)} {stored : StoredEntity} (hd : d.Lays r h marks)
    (hread : StoredEntity.ofDocument d = .ok stored) :
    stored.header = { h with version := keptVersion h.version } := by
  have hheader := Header.ofDocument_of_laidOut hd.laidOut
  simp only [StoredEntity.ofDocument, bind_eq_ok] at hread
  obtain ⟨r, -, hread⟩ := hread
  split at hread
  · cases hread
  · simp only [bind_eq_ok] at hread
    obtain ⟨header, hheader', ps, -, hread⟩ := hread
    have hsame : header = _ := Except.ok.inj (hheader'.symm.trans hheader)
    split at hread
    · cases hread
      exact hsame
    · simp only [bind_eq_ok] at hread
      obtain ⟨cs, -, hread⟩ := hread
      cases hread
      exact hsame

/-- A header and properties are read back exactly where they lose nothing. -/
theorem Header.keeps_iff {h : Header} {ps : Properties} (space : PropertySpace)
    (hheader : h.LaidOut "" d) (hback : ps.ReadBack)
    (hget : ∃ d', ∀ k, beginsWith space.name k = true →
      d.get? k = (ps.writeTo ts space h.typeRef.name d').get? k) :
    h.Keeps ts ps ↔
      Header.ofDocument d "" = .ok h ∧ Properties.ofDocument d space = .ok ps := by
  obtain ⟨d', hget⟩ := hget
  rw [Header.ofDocument_iff hheader, Properties.ofDocument_congr fun k hk =>
    hget k (beginsWith_of_append _ hk), Properties.ofDocument_writeTo_iff hback]
  rfl

/-- An entity's document lists its classifications by their names. -/
theorem Entity.classificationNames_toDocument {e : Entity} (h : e.toDocument ts = .ok d) :
    d.classificationNames = e.classifications.map Classification.name := by
  obtain ⟨d', rfl, hnames, -⟩ := Entity.toDocument_ok h
  refine Document.getStrings_of_get? ?_
  rw [Entity.get?_foldl_writeTo (by decide), hnames, List.map_map]
  rfl

/-- The document of an entity is read part by part. -/
theorem Entity.ofDocument_parts {e : Entity} {stored : StoredEntity} (hguid : e.guid ≠ "")
    (h : e.toDocument ts = .ok d) :
    StoredEntity.ofDocument d = .ok stored ↔
      ∃ header ps cs, Header.ofDocument d "" = .ok header ∧
        Properties.ofDocument d .entity = .ok ps ∧
        (e.classifications.map Classification.name).mapM (Classification.ofDocument d) = .ok cs ∧
        stored = .full ⟨e.guid, header, ps, cs⟩ := by
  have hlays := Entity.lays h
  have hlist := Entity.classificationNames_toDocument h
  have hproxy : ((d.get? Attr.isProxy).bind Value.asBool?).getD false = false := by
    rw [hlays.mark (Attr.isProxy, .bool false) (by simp)]
    rfl
  have href : RecordRef.ofDocId d.id = .ok e.reference := by
    rw [hlays.id]
    exact RecordRef.ofDocId_docId hguid
  simp only [StoredEntity.ofDocument, href, ok_bind, Entity.reference, RecordRef.entity, ne_eq,
    not_true_eq_false, if_false, hproxy, Bool.false_eq_true, bind_eq_ok, Except.ok.injEq, hlist]
  constructor
  · rintro ⟨header, hheader, ps, hps, cs, hcs, heq⟩
    exact ⟨header, ps, cs, hheader, hps, hcs, heq.symm⟩
  · rintro ⟨header, ps, cs, hheader, hps, hcs, heq⟩
    exact ⟨header, hheader, ps, hps, cs, hcs, heq.symm⟩

/-- Classifications whose names are distinct, and without full stops, are held as they were
written. -/
theorem Entity.in_toDocument {e : Entity} (h : e.toDocument ts = .ok d)
    (hdistinct : (e.classifications.map Classification.name).Nodup)
    (hundotted : ∀ c ∈ e.classifications, '.' ∉ c.name.toList) :
    ∀ c ∈ e.classifications, c.In ts d := by
  obtain ⟨d', rfl, -, hfree⟩ := Entity.toDocument_ok h
  exact Classification.in_foldl_writeTo ts hdistinct hundotted fun c _ =>
    hfree _ (Attr.beginsWith_ofClassification c.name Attr.originGuid)

/-- **An entity is read back** exactly where it keeps all. -/
theorem Entity.ofDocument_iff {e : Entity} (he : e.Storable ts) (h : e.toDocument ts = .ok d) :
    StoredEntity.ofDocument d = .ok (.full e) ↔ e.Keeps ts := by
  have hkeeps := Header.keeps_iff .entity (Entity.lays h).laidOut he.properties
    (Entity.get?_toDocument h)
  have hin := Entity.in_toDocument h he.distinct he.undotted
  have hclassifications :
      (e.classifications.map Classification.name).mapM (Classification.ofDocument d) =
        .ok e.classifications ↔ ∀ c ∈ e.classifications, c.header.Keeps ts c.properties := by
    rw [mapM_map_eq_ok]
    exact forall₂_congr fun c hc =>
      Classification.ofDocument_iff (hin c hc) (he.classifications c hc)
  unfold Entity.Keeps
  rw [Entity.ofDocument_parts he.guid h, hkeeps, ← hclassifications]
  simp only [StoredEntity.full.injEq]
  constructor
  · rintro ⟨header, ps, cs, hheader, hps, hcs, heq⟩
    have hsame : e.header = header ∧ e.properties = ps ∧ e.classifications = cs :=
      ⟨congrArg Entity.header heq, congrArg Entity.properties heq,
        congrArg Entity.classifications heq⟩
    rw [hsame.1, hsame.2.1]
    exact ⟨⟨hheader, hps⟩, hcs.trans (congrArg Except.ok hsame.2.2.symm)⟩
  · rintro ⟨⟨hheader, hps⟩, hcs⟩
    exact ⟨e.header, e.properties, e.classifications, hheader, hps, hcs, rfl⟩

/-- **A proxy is read back** exactly where it keeps all. -/
theorem Proxy.ofDocument_iff {p : Proxy} (hp : p.Storable ts) (h : p.toDocument ts = .ok d) :
    StoredEntity.ofDocument d = .ok (.proxy p) ↔ p.Keeps ts := by
  have hlays := Proxy.lays h
  obtain ⟨d', hd⟩ := Proxy.get?_toDocument h
  have hkeeps := Header.keeps_iff .entity hlays.laidOut hp.properties ⟨d', fun k _ => by rw [hd]⟩
  have hproxy : ((d.get? Attr.isProxy).bind Value.asBool?).getD false = true := by
    rw [hlays.mark (Attr.isProxy, .bool true) (by simp)]
    rfl
  have href : RecordRef.ofDocId d.id = .ok p.reference := by
    rw [hlays.id]
    exact RecordRef.ofDocId_docId hp.guid
  unfold Proxy.Keeps
  rw [hkeeps]
  simp only [StoredEntity.ofDocument, href, ok_bind, Proxy.reference, RecordRef.entity, ne_eq,
    not_true_eq_false, if_false, hproxy, if_true, bind_eq_ok, Except.ok.injEq,
    StoredEntity.proxy.injEq]
  constructor
  · rintro ⟨header, hheader, ps, hps, heq⟩
    rw [← heq]
    exact ⟨hheader, hps⟩
  · rintro ⟨hheader, hps⟩
    exact ⟨p.header, hheader, p.uniqueProperties, hps, rfl⟩

/-- At the end of a relationship, too. -/
theorem Proxy.ofDocument_end_iff {p : Proxy} (hp : p.Storable ts) (h : p.toDocument ts = .ok d) :
    Proxy.ofDocument ts d = .ok p ↔ p.Keeps ts := by
  rw [← Proxy.ofDocument_iff hp h, Proxy.ofDocument, map_eq_ok]
  constructor
  · rintro ⟨stored, hstored, heq⟩
    have hproxy := (StoredEntity.ofDocument_ok hstored).2.2
    rw [Document.isProxy, (Proxy.lays h).mark (Attr.isProxy, .bool true) (by simp)] at hproxy
    cases stored with
    | full e => cases hproxy
    | proxy p' =>
      cases heq
      exact hstored
  · exact fun hstored => ⟨_, hstored, rfl⟩

/-- The document of a relationship is read part by part, with the documents of its ends. -/
theorem Relationship.ofDocument_parts {rel rel' : Relationship} {one two : Option Document}
    (hguid : rel.guid ≠ "") (h : rel.toDocument ts = .ok d) :
    Relationship.ofDocument ts d one two = .ok rel' ↔
      ∃ header ps p q, Header.ofDocument d "" = .ok header ∧
        Properties.ofDocument d .relationship = .ok ps ∧
        one.map (Proxy.ofDocument ts) = some (.ok p) ∧
        two.map (Proxy.ofDocument ts) = some (.ok q) ∧ rel' = ⟨rel.guid, header, ps, p, q⟩ := by
  have href : RecordRef.ofDocId d.id = .ok rel.reference := by
    rw [(Relationship.lays h).id]
    exact RecordRef.ofDocId_docId hguid
  simp only [Relationship.ofDocument, href, ok_bind, Relationship.reference,
    RecordRef.relationship, ne_eq, not_true_eq_false, if_false]
  cases one with
  | none => simp
  | some one =>
    cases two with
    | none => simp
    | some two =>
      simp only [bind_eq_ok, Except.ok.injEq, Option.map_some, Option.some.injEq]
      constructor
      · rintro ⟨header, hheader, ps, hps, p, hp, q, hq, heq⟩
        exact ⟨header, ps, p, q, hheader, hps, hp, hq, heq.symm⟩
      · rintro ⟨header, ps, p, q, hheader, hps, hp, hq, heq⟩
        exact ⟨header, hheader, ps, hps, p, hp, q, hq, heq.symm⟩

/-- A relationship is read with the ends that are stored. -/
theorem Relationship.ofDocument_ends_iff {rel : Relationship} {one two : Option Document}
    {p q : Proxy} (hguid : rel.guid ≠ "") (hback : rel.properties.ReadBack)
    (h : rel.toDocument ts = .ok d) :
    Relationship.ofDocument ts d one two = .ok { rel with endOne := p, endTwo := q } ↔
      rel.header.Keeps ts rel.properties ∧ one.map (Proxy.ofDocument ts) = some (.ok p) ∧
        two.map (Proxy.ofDocument ts) = some (.ok q) := by
  obtain ⟨d', hd⟩ := Relationship.get?_toDocument h
  have hkeeps := Header.keeps_iff .relationship (Relationship.lays h).laidOut hback
    ⟨d', fun k _ => by rw [hd]⟩
  rw [hkeeps, Relationship.ofDocument_parts hguid h]
  simp only [Relationship.mk.injEq, true_and]
  constructor
  · rintro ⟨header, ps, p', q', hheader, hps, hp, hq, rfl, rfl, rfl, rfl⟩
    exact ⟨⟨hheader, hps⟩, hp, hq⟩
  · rintro ⟨⟨hheader, hps⟩, hp, hq⟩
    exact ⟨rel.header, rel.properties, p, q, hheader, hps, hp, hq, rfl, rfl, rfl, rfl⟩

/-- **A relationship is read back** from its document and those of its ends exactly where it keeps
all. -/
theorem Relationship.ofDocument_iff {rel : Relationship} {one two : Document}
    (hrel : rel.Storable ts) (h : rel.toDocument ts = .ok d)
    (hone : rel.endOne.toDocument ts = .ok one) (htwo : rel.endTwo.toDocument ts = .ok two) :
    Relationship.ofDocument ts d (some one) (some two) = .ok rel ↔ rel.Keeps ts := by
  unfold Relationship.Keeps
  rw [← Proxy.ofDocument_end_iff hrel.endOne hone, ← Proxy.ofDocument_end_iff hrel.endTwo htwo]
  have hread : Relationship.ofDocument ts d (some one) (some two) =
      .ok { rel with endOne := rel.endOne, endTwo := rel.endTwo } ↔ _ :=
    Relationship.ofDocument_ends_iff hrel.guid hrel.properties h
  simpa only [Option.map_some, Option.some.injEq] using hread

/-! ## Writing succeeds -/

theorem Entity.exists_toDocument {e : Entity} (he : ts.get? e.header.typeRef.name ≠ none) :
    ∃ d, e.toDocument ts = .ok d := by
  obtain ⟨d, hd⟩ := TypeSystem.exists_writeType he (.ofId e.reference.docId)
  simp [Entity.toDocument, hd, ok_bind]

theorem Proxy.exists_toDocument {p : Proxy} (hp : ts.get? p.header.typeRef.name ≠ none) :
    ∃ d, p.toDocument ts = .ok d := by
  obtain ⟨d, hd⟩ := TypeSystem.exists_writeType hp (.ofId p.reference.docId)
  simp [Proxy.toDocument, hd, ok_bind]

theorem Relationship.exists_toDocument {rel : Relationship}
    (hrel : ts.get? rel.header.typeRef.name ≠ none) : ∃ d, rel.toDocument ts = .ok d := by
  obtain ⟨d, hd⟩ := TypeSystem.exists_writeType hrel (.ofId rel.reference.docId)
  simp [Relationship.toDocument, hd, ok_bind]

/-! ## The round trip -/

/-- **Stored records are read back.** In a type system that was accepted, whatever can be stored has
a document, and what is read from it is the record, field for field and with its classifications in
order, exactly where the record keeps all: the versions of its header, of its classifications and of
its ends fit a signed integer, and none of its properties, whatever their names, is declared by a
type with a full stop in its name. Where no type has one, versions are all that is ever lost. -/
theorem stored_records_read_back {defs : List TypeDef} {ts : TypeSystem}
    (hts : TypeSystem.ofList defs = .ok ts) :
    (∀ e : Entity, e.Storable ts → ∃ d, e.toDocument ts = .ok d ∧
      (StoredEntity.ofDocument d = .ok (.full e) ↔ e.Keeps ts)) ∧
    (∀ p : Proxy, p.Storable ts → ∃ d, p.toDocument ts = .ok d ∧
      (StoredEntity.ofDocument d = .ok (.proxy p) ↔ p.Keeps ts)) ∧
    (∀ rel : Relationship, rel.Storable ts → ∃ d one two, rel.toDocument ts = .ok d ∧
      rel.endOne.toDocument ts = .ok one ∧ rel.endTwo.toDocument ts = .ok two ∧
      (Relationship.ofDocument ts d (some one) (some two) = .ok rel ↔ rel.Keeps ts)) ∧
    (ts.Undotted → ∀ (h : Header) (ps : Properties), '.' ∉ h.typeRef.name.toList →
      (h.Keeps ts ps ↔ h.version.toNat < 2 ^ 63)) := by
  refine ⟨fun e he => ?_, fun p hp => ?_, fun rel hrel => ?_, fun hundotted h ps hname => ?_⟩
  · obtain ⟨d, hd⟩ := Entity.exists_toDocument he.known
    exact ⟨d, hd, Entity.ofDocument_iff he hd⟩
  · obtain ⟨d, hd⟩ := Proxy.exists_toDocument hp.known
    exact ⟨d, hd, Proxy.ofDocument_iff hp hd⟩
  · obtain ⟨d, hd⟩ := Relationship.exists_toDocument hrel.known
    obtain ⟨one, hone⟩ := Proxy.exists_toDocument hrel.endOne.known
    obtain ⟨two, htwo⟩ := Proxy.exists_toDocument hrel.endTwo.known
    exact ⟨d, one, two, hd, hone, htwo, Relationship.ofDocument_iff hrel hd hone htwo⟩
  · have hplain := Properties.plain_of_undotted (TypeSystem.named_ofList hts) hundotted hname ps
    exact and_iff_left hplain

/-- An entity with a classification: it is read back with the seventh version of that, and not with
a version that no signed integer holds. -/
theorem stored_classification_reads_back :
    let thing : TypeDef := ⟨"t1", "Thing", .entity, none, [⟨"a.b", false⟩], []⟩
    let ts := (TypeSystem.ofList [thing]).toOption.getD .empty
    let header : Header := .create ⟨"t1", "Thing"⟩ "home" none "user" ⟨0, 0⟩
    let e (version : UInt64) : Entity := ⟨"e1", header, .ofList [("a.b", .string "x")],
      [⟨"Tag", { header with version }, .assigned, none, ∅⟩]⟩
    (∃ d, (e 7).toDocument ts = .ok d ∧ StoredEntity.ofDocument d = .ok (.full (e 7))) ∧
      ∃ d, (e 9223372036854775808).toDocument ts = .ok d ∧
        StoredEntity.ofDocument d ≠ .ok (.full (e 9223372036854775808)) := by
  intro thing ts header e
  have hts : TypeSystem.ofList [thing] = .ok ts := eq_ok_of_isSome (by decide +kernel) _
  have hback : Properties.ReadBack (.ofList [("a.b", .string "x")]) := by
    intro name v hget
    obtain ⟨rfl, rfl⟩ : name = "a.b" ∧ v = .string "x" := by
      simpa using NameMap.mem_ofList_of_get? hget
    cbv
  have hguid : "e1" ≠ "" := by decide
  have hknown : ts.get? "Thing" ≠ none := by decide +kernel
  have hstorable (version : UInt64) : (e version).Storable ts := by
    refine ⟨hguid, hknown, hback, by simp [e], ?_, ?_⟩ <;>
      simp only [e, List.mem_singleton, forall_eq]
    · decide
    · exact fun name v h => by cases h
  have hlaw := stored_records_read_back hts
  have hundotted : ts.Undotted := by
    intro n t ht
    have hall : ∀ t ∈ ts.types.values, '.' ∉ t.name.toList := by decide +kernel
    exact hall t (NameMap.mem_values.2 ⟨n, ht⟩)
  have hkeeps (version : UInt64) : (e version).Keeps ts ↔ version.toNat < 2 ^ 63 := by
    have hname : '.' ∉ header.typeRef.name.toList := by decide
    have hown : header.version.toNat < 2 ^ 63 := by decide
    unfold Entity.Keeps
    rw [hlaw.2.2.2 hundotted header _ hname]
    simp only [e, List.mem_singleton, forall_eq, hown, true_and]
    exact hlaw.2.2.2 hundotted _ _ hname
  obtain ⟨d, hd, hiff⟩ := hlaw.1 (e 7) (hstorable 7)
  obtain ⟨d', hd', hiff'⟩ := hlaw.1 _ (hstorable 9223372036854775808)
  refine ⟨⟨d, hd, hiff.2 ((hkeeps 7).2 (by decide))⟩, d', hd', fun h => ?_⟩
  exact absurd ((hkeeps _).1 (hiff'.1 h)) (by decide)

end MetadataArchive
