import MetadataArchive.Proofs.Fact.Document
import MetadataArchive.Proofs.Failure

/-!
# The layout of record documents

Every part of a record is written under names of its own, so what one part writes stays when the
others are written. Of an entity's document it is enough to know that it names no ends, of a
relationship's that it names the two ends it has, and of both that they hold the version.
-/

set_option autoImplicit false

namespace MetadataArchive

variable {ts : TypeSystem} {d d' : Document} {k : String}

/-! ## Parts -/

/-- The names of header fields. -/
def Attr.header : List String :=
  [Attr.typeId, Attr.typeName, Attr.version, Attr.status, Attr.statusOnDelete, Attr.createdBy,
    Attr.updatedBy, Attr.maintainedBy, Attr.createTime, Attr.updateTime, Attr.provenance,
    Attr.collectionId, Attr.collectionName, Attr.replicatedBy, Attr.license]

theorem Header.names_fields (h : Header) : h.fields.map Prod.fst = Attr.header := rfl

theorem Header.names_writeTo (h : Header) (stem : String) :
    (h.fields.map fun f => (stem ++ f.1, f.2)).map Prod.fst = Attr.header.map (stem ++ ·) := by
  rw [← h.names_fields, List.map_map, List.map_map]
  rfl

theorem Header.get?_writeTo_of_not_mem {h : Header} (hk : k ∉ Attr.header) :
    (h.writeTo "" d).get? k = d.get? k := by
  apply Document.get?_setAll_of_not_mem
  rw [Header.names_writeTo]
  simpa using hk

/-- A header is written whole: each field is found as it was set. -/
theorem Header.get?_writeTo {h : Header} {v : Value} (hv : (k, v) ∈ h.fields) :
    (h.writeTo "" d).get? k = v.stored? := by
  have hfields : (h.fields.map fun f => ("" ++ f.1, f.2)) = h.fields := by simp
  rw [Header.writeTo, hfields]
  refine Document.get?_setAll ?_ hv
  rw [Header.names_fields]
  decide

theorem Header.get?_writeTo_of_not_beginsWith {h : Header} {stem : String}
    (hk : beginsWith stem k = false) : (h.writeTo stem d).get? k = d.get? k := by
  apply Document.get?_setAll_of_not_mem
  rw [Header.names_writeTo]
  intro hm
  obtain ⟨field, _, rfl⟩ := List.mem_map.1 hm
  rw [beginsWith_append] at hk
  cases hk

@[simp] theorem Header.writeTo_id (h : Header) (stem : String) (d : Document) :
    (h.writeTo stem d).id = d.id := by
  simp [Header.writeTo]

theorem TypeSystem.writeType_ok {h : Header} (hw : ts.writeType h d = .ok d') :
    d'.id = d.id ∧ ∀ k, k ≠ Attr.typeSupers → k ≠ Attr.typeCategory → d'.get? k = d.get? k := by
  simp only [TypeSystem.writeType, bind_eq_ok] at hw
  obtain ⟨closure, -, hw⟩ := hw
  cases closure with
  | nil => cases hw
  | cons t rest =>
    cases hw
    exact ⟨by simp, fun k hs hc => Document.get?_setAll_of_not_mem (by simp [hs, hc])⟩

/-- Properties are written under names that begin with that of their space. -/
theorem Properties.beginsWith_of_mem_fields {ps : Properties} {space : PropertySpace}
    {typeName : String} {f : String × Value} (hf : f ∈ ps.fields ts space typeName) :
    beginsWith space.name f.1 = true := by
  obtain ⟨⟨name, v⟩, _, hmem⟩ := List.mem_flatMap.1 hf
  rcases List.mem_pair.1 hmem with rfl | rfl
  · exact beginsWith_of_append _ (beginsWith_append (space.name ++ "/") _)
  · exact beginsWith_of_append _ (beginsWith_append (space.name ++ ".value/") _)

theorem Properties.get?_writeTo_of_not_beginsWith {ps : Properties} {space : PropertySpace}
    {typeName : String} (hk : beginsWith space.name k = false) :
    (ps.writeTo ts space typeName d).get? k = d.get? k := by
  have hq : beginsWith space.queryableStem k = false :=
    Bool.eq_false_iff.2 fun h => Bool.eq_false_iff.1 hk (beginsWith_of_append _ h)
  have hs : beginsWith space.serializedStem k = false :=
    Bool.eq_false_iff.2 fun h => Bool.eq_false_iff.1 hk (beginsWith_of_append _ h)
  have hnew : k ∉ (ps.fields ts space typeName).map Prod.fst := fun hm => by
    obtain ⟨f, hf, rfl⟩ := List.mem_map.1 hm
    rw [Properties.beginsWith_of_mem_fields hf] at hk
    cases hk
  rw [Properties.writeTo, Document.get?_setAll_of_not_mem hnew, Document.get?_eraseStartingWith,
    Document.get?_eraseStartingWith, hq, hs]
  rfl

@[simp] theorem Properties.writeTo_id (ps : Properties) (ts : TypeSystem) (space : PropertySpace)
    (typeName : String) (d : Document) : (ps.writeTo ts space typeName d).id = d.id := by
  simp [Properties.writeTo]

/-- A classification is written under names that begin alike, whatever its own name. -/
theorem Classification.get?_writeTo_of_not_beginsWith {c : Classification}
    (hk : beginsWith "classifications." k = false) : (c.writeTo ts d).get? k = d.get? k := by
  have hstem : ∀ more, beginsWith ("classifications." ++ more) k = false := fun more =>
    Bool.eq_false_iff.2 fun h => Bool.eq_false_iff.1 hk (beginsWith_of_append _ h)
  have hheader : beginsWith (Attr.classificationStem c.name) k = false := by
    have := hstem (c.name ++ "/")
    rwa [← String.append_assoc] at this
  have hfield : ∀ field, k ≠ Attr.ofClassification c.name field := fun field heq => by
    rw [heq, Attr.ofClassification, beginsWith_append] at hheader
    cases hheader
  have hspace : beginsWith (PropertySpace.classification c.name).name k = false := by
    have := hstem (c.name ++ ".classificationProperties")
    rwa [← String.append_assoc] at this
  unfold Classification.writeTo
  rw [Properties.get?_writeTo_of_not_beginsWith hspace]
  cases c.originGuid with
  | none =>
    rw [Document.get?_set_of_ne (hfield _), Header.get?_writeTo_of_not_beginsWith hheader]
  | some guid =>
    rw [Document.get?_set_of_ne (hfield _), Document.get?_set_of_ne (hfield _),
      Header.get?_writeTo_of_not_beginsWith hheader]

@[simp] theorem Classification.writeTo_id (ts : TypeSystem) (c : Classification) (d : Document) :
    (c.writeTo ts d).id = d.id := by
  unfold Classification.writeTo
  cases c.originGuid <;> simp

theorem Entity.foldl_writeTo_id (cs : List Classification) (d : Document) :
    (cs.foldl (fun d c => c.writeTo ts d) d).id = d.id := by
  induction cs generalizing d with
  | nil => rfl
  | cons c cs ih => rw [List.foldl_cons, ih, Classification.writeTo_id]

theorem Entity.get?_foldl_writeTo {cs : List Classification}
    (hk : beginsWith "classifications." k = false) :
    (cs.foldl (fun d c => c.writeTo ts d) d).get? k = d.get? k := by
  induction cs generalizing d with
  | nil => rfl
  | cons c cs ih => rw [List.foldl_cons, ih, Classification.get?_writeTo_of_not_beginsWith hk]

/-! ## Whole documents -/

/-- Whether a name is one that the parts of a record leave alone: not of its type, nor of properties
or classifications. -/
def Attr.isPlain (k : String) : Bool :=
  k != Attr.typeSupers && k != Attr.typeCategory && k != Attr.latestClassificationChange &&
    !beginsWith "entityProperties" k && !beginsWith "relationshipProperties" k &&
    !beginsWith "classifications" k

/-- What a record's document holds under plain names: its header, a few marks, and nothing else. -/
structure Document.Lays (d : Document) (r : RecordRef) (h : Header)
    (marks : List (String × Value)) : Prop where
  id : d.id = r.docId
  header : ∀ f ∈ h.fields, d.get? f.1 = f.2.stored?
  mark : ∀ f ∈ marks, d.get? f.1 = f.2.stored?
  rest : ∀ k, Attr.isPlain k = true → k ∉ Attr.header → k ∉ marks.map Prod.fst → d.get? k = none

/-- A document is laid out by its header and marks where what is written besides leaves plain names
alone. -/
theorem Document.lays_of_get? {r : RecordRef} {h : Header} {marks : List (String × Value)}
    (hw : ts.writeType h (.ofId r.docId) = .ok d') (hid : d.id = d'.id)
    (hget : ∀ k, Attr.isPlain k = true → d.get? k = ((h.writeTo "" d').setAll marks).get? k)
    (hplain : ∀ k ∈ marks.map Prod.fst, Attr.isPlain k = true ∧ k ∉ Attr.header)
    (hnodup : (marks.map Prod.fst).Nodup) : d.Lays r h marks := by
  obtain ⟨hid', hkeep⟩ := TypeSystem.writeType_ok hw
  have hheader : ∀ k ∈ Attr.header, Attr.isPlain k = true := by decide
  refine ⟨hid.trans hid', fun f hf => ?_, fun f hf => ?_, fun k hk hnot hmark => ?_⟩
  · have hname : f.1 ∈ Attr.header := h.names_fields ▸ List.mem_map.2 ⟨f, hf, rfl⟩
    have hnot : f.1 ∉ marks.map Prod.fst := fun hm => (hplain _ hm).2 hname
    rw [hget _ (hheader _ hname), Document.get?_setAll_of_not_mem hnot]
    exact Header.get?_writeTo hf
  · rw [hget _ (hplain _ (List.mem_map.2 ⟨f, hf, rfl⟩)).1]
    exact Document.get?_setAll hnodup hf
  · rw [hget k hk, Document.get?_setAll_of_not_mem hmark, Header.get?_writeTo_of_not_mem hnot]
    simp only [Attr.isPlain, Bool.and_eq_true, bne_iff_ne] at hk
    rw [hkeep k hk.1.1.1.1.1 hk.1.1.1.1.2, Document.get?_ofId]

theorem Entity.lays {e : Entity} (h : e.toDocument ts = .ok d) :
    d.Lays e.reference e.header [(Attr.isProxy, .bool false)] := by
  simp only [Entity.toDocument, bind_eq_ok, Except.ok.injEq] at h
  obtain ⟨d', hw, rfl⟩ := h
  refine Document.lays_of_get? hw ?_ (fun k hk => ?_) (by decide) (by decide)
  · rw [Entity.foldl_writeTo_id]
    cases e.latestClassificationChange <;> simp
  · simp only [Attr.isPlain, Bool.and_eq_true, bne_iff_ne, Bool.not_eq_true'] at hk
    obtain ⟨⟨⟨⟨-, hchange⟩, hspace⟩, -⟩, hclass⟩ := hk
    have hspace : beginsWith PropertySpace.entity.name k = false := hspace
    have hdot : beginsWith "classifications." k = false :=
      Bool.eq_false_iff.2 fun h =>
        Bool.eq_false_iff.1 hclass (beginsWith_of_append "." h)
    have hlist : k ≠ Attr.classifications := fun heq => by
      rw [heq] at hclass
      exact absurd hclass (by decide)
    rw [Entity.get?_foldl_writeTo hdot]
    cases e.latestClassificationChange with
    | none =>
      rw [Document.get?_set_of_ne hlist, Properties.get?_writeTo_of_not_beginsWith hspace]
      rfl
    | some t =>
      rw [Document.get?_set_of_ne hchange, Document.get?_set_of_ne hlist,
        Properties.get?_writeTo_of_not_beginsWith hspace]
      rfl

theorem Proxy.lays {p : Proxy} (h : p.toDocument ts = .ok d) :
    d.Lays p.reference p.header [(Attr.isProxy, .bool true)] := by
  simp only [Proxy.toDocument, bind_eq_ok, Except.ok.injEq] at h
  obtain ⟨d', hw, rfl⟩ := h
  refine Document.lays_of_get? hw (by simp) (fun k hk => ?_) (by decide) (by decide)
  simp only [Attr.isPlain, Bool.and_eq_true, Bool.not_eq_true'] at hk
  have hspace : beginsWith PropertySpace.entity.name k = false := hk.1.1.2
  rw [Properties.get?_writeTo_of_not_beginsWith hspace]
  rfl

theorem Relationship.lays {r : Relationship} (h : r.toDocument ts = .ok d) :
    d.Lays r.reference r.header [(Attr.side .one, .ref r.endOne.reference.docId),
      (Attr.side .two, .ref r.endTwo.reference.docId)] := by
  simp only [Relationship.toDocument, bind_eq_ok, Except.ok.injEq] at h
  obtain ⟨d', hw, rfl⟩ := h
  refine Document.lays_of_get? hw (by simp) (fun k hk => ?_) (by simp; decide) (by simp; decide)
  simp only [Attr.isPlain, Bool.and_eq_true, Bool.not_eq_true'] at hk
  have hspace : beginsWith PropertySpace.relationship.name k = false := hk.1.2
  rw [Properties.get?_writeTo_of_not_beginsWith hspace]
  rfl

end MetadataArchive
