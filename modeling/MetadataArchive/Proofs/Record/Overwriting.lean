import MetadataArchive.Proofs.Record.RoundTrip

/-!
# A classification in the place of another

A classification may be written into a document that has one of the same name, with any header and
properties. Each field of the header is set or taken away, and all properties of the old one are
taken away first, so nothing of these is left. The guid that the old one was propagated from is the
exception: it is set where the new one has such a guid and else not touched, and is then read as
that of the new one.

Nothing else in the document changes. That takes no assumption about names: what is written begins
with one of three beginnings, and what is taken away begins with one of the two for properties.
-/

set_option autoImplicit false

namespace MetadataArchive

variable {ts : TypeSystem} {d : Document} {k : String}

/-- Properties change nothing but what is stored as the properties of their space. -/
theorem Properties.get?_writeTo_of_not_stems {ps : Properties} {space : PropertySpace}
    {typeName : String} (hquery : beginsWith space.queryableStem k = false)
    (hstored : beginsWith space.serializedStem k = false) :
    (ps.writeTo ts space typeName d).get? k = d.get? k := by
  have hnew : k ∉ (ps.fields ts space typeName).map Prod.fst := fun hm => by
    obtain ⟨f, hf, rfl⟩ := List.mem_map.1 hm
    obtain ⟨name, v, -, rfl | rfl⟩ := mem_fields.1 hf
    · exact Bool.false_ne_true (hquery.symm.trans (beginsWith_append _ _))
    · exact Bool.false_ne_true (hstored.symm.trans (beginsWith_append _ _))
  rw [Properties.writeTo, Document.get?_setAll_of_not_mem hnew, Document.get?_eraseStartingWith,
    Document.get?_eraseStartingWith, hquery, hstored]
  rfl

/-- The guid that a classification is propagated from, as a document has it. -/
def Document.originGuid? (d : Document) (name : String) : Option String :=
  d.getStr? (Attr.ofClassification name Attr.originGuid)

namespace Attr

/-- The attributes of a classification: those behind its slash, and its properties in both forms. -/
def OwnedBy (n k : String) : Prop :=
  beginsWith (classificationStem n) k = true ∨
    beginsWith (PropertySpace.classification n).queryableStem k = true ∨
    beginsWith (PropertySpace.classification n).serializedStem k = true

theorem ownedBy_ofClassification (n field : String) : OwnedBy n (ofClassification n field) :=
  Or.inl (beginsWith_append _ _)

end Attr

namespace Classification

variable {c : Classification}

/-! ## Writing -/

theorem get?_writeTo_of_not_ownedBy (hk : ¬ Attr.OwnedBy c.name k) :
    (c.writeTo ts d).get? k = d.get? k := by
  have hne (field : String) : k ≠ Attr.ofClassification c.name field := fun heq =>
    hk (heq ▸ Attr.ownedBy_ofClassification c.name field)
  simp only [Attr.OwnedBy, not_or, Bool.not_eq_true] at hk
  obtain ⟨hheader, hquery, hstored⟩ := hk
  unfold Classification.writeTo
  rw [Properties.get?_writeTo_of_not_stems hquery hstored]
  cases c.originGuid with
  | none =>
    rw [Document.get?_set_of_ne (hne _), Header.get?_writeTo_of_not_beginsWith hheader]
  | some guid =>
    rw [Document.get?_set_of_ne (hne _), Document.get?_set_of_ne (hne _),
      Header.get?_writeTo_of_not_beginsWith hheader]

/-- A guid that was there stays where the new classification has none. -/
theorem get?_originGuid_writeTo (hname : '.' ∉ c.name.toList) :
    (c.writeTo ts d).get? (Attr.ofClassification c.name Attr.originGuid) =
      (c.originGuid.map Value.str).or
        (d.get? (Attr.ofClassification c.name Attr.originGuid)) := by
  have hheader : Attr.ofClassification c.name Attr.originGuid ∉
      Attr.header.map (Attr.classificationStem c.name ++ ·) := fun hm => by
    obtain ⟨field, hf, heq⟩ := List.mem_map.1 hm
    exact absurd (Attr.ofClassification_inj.1 heq ▸ hf) (by decide)
  have horigin : Attr.ofClassification c.name Attr.originGuid ≠
      Attr.ofClassification c.name Attr.origin :=
    fun h => absurd (Attr.ofClassification_inj.1 h) (by decide)
  unfold Classification.writeTo
  rw [Properties.get?_writeTo_of_not_beginsWith (Attr.field_not_in_space hname hname (by decide))]
  cases c.originGuid with
  | none =>
    rw [Document.get?_set_of_ne horigin, Option.map_none, Option.none_or]
    exact Document.get?_setAll_of_not_mem (by rwa [Header.names_writeTo])
  | some guid =>
    rw [Document.get?_set, if_pos rfl]
    rfl

theorem originGuid?_writeTo (hname : '.' ∉ c.name.toList) :
    (c.writeTo ts d).originGuid? c.name = c.originGuid.or (d.originGuid? c.name) := by
  rw [Document.originGuid?, Document.getStr?, get?_originGuid_writeTo hname]
  cases c.originGuid <;> rfl

/-! ## Reading -/

theorem ofDocument_writeTo (hname : '.' ∉ c.name.toList)
    (hversion : c.header.version.toNat < 2 ^ 63) (hback : c.properties.ReadBack)
    (hplain : c.properties.Plain ts c.header.typeRef.name) :
    Classification.ofDocument (c.writeTo ts d) c.name =
      .ok { c with originGuid := c.originGuid.or (d.originGuid? c.name) } := by
  have hlaid : c.Laid ts (c.writeTo ts d) := laid_writeTo hname
  have hheader : Header.ofDocument (c.writeTo ts d) (Attr.classificationStem c.name) =
      .ok c.header := (Header.ofDocument_iff hlaid.header).2 hversion
  have horigin : (c.writeTo ts d).getStr? (Attr.ofClassification c.name Attr.origin) =
      some c.origin.name := by
    rw [Document.getStr?, hlaid.origin]
    rfl
  obtain ⟨d', hproperties⟩ := hlaid.properties
  have hread : Properties.ofDocument (c.writeTo ts d) (.classification c.name) =
      .ok c.properties := by
    rw [Properties.ofDocument_congr fun k hk => hproperties k (beginsWith_of_append _ hk)]
    exact (Properties.ofDocument_writeTo_iff hback).2 hplain
  have hguid : (c.writeTo ts d).originGuid? c.name = c.originGuid.or (d.originGuid? c.name) :=
    originGuid?_writeTo hname
  rw [← hguid]
  simp only [Classification.ofDocument, horigin, Origin.ofName_name, hheader, hread, ok_bind,
    Document.originGuid?]

end Classification

/-- **A classification takes the place of another**, and keeps what that was propagated from where
it has no such guid of its own. Of whatever was in the document, this is all that shows in what is
read; so a classification is read as it was written just if it has such a guid itself or none was
there. All that is not the classification's stays as it was. -/
theorem classification_takes_place {defs : List TypeDef} (hts : TypeSystem.ofList defs = .ok ts)
    (hundotted : ts.Undotted) (d : Document) (c : Classification) (hname : '.' ∉ c.name.toList)
    (htype : '.' ∉ c.header.typeRef.name.toList) (hversion : c.header.version.toNat < 2 ^ 63)
    (hback : c.properties.ReadBack) :
    Classification.ofDocument (c.writeTo ts d) c.name =
        .ok { c with originGuid := c.originGuid.or (d.originGuid? c.name) } ∧
      (Classification.ofDocument (c.writeTo ts d) c.name = .ok c ↔
        c.originGuid ≠ none ∨ d.originGuid? c.name = none) ∧
      (c.writeTo ts d).id = d.id ∧
      ∀ k, ¬ Attr.OwnedBy c.name k → (c.writeTo ts d).get? k = d.get? k := by
  have hread := Classification.ofDocument_writeTo (d := d) hname hversion hback
    (Properties.plain_of_undotted (TypeSystem.named_ofList hts) hundotted htype c.properties)
  refine ⟨hread, ?_, Classification.writeTo_id ts c d,
    fun k hk => Classification.get?_writeTo_of_not_ownedBy hk⟩
  have hsame (guid : Option String) : { c with originGuid := guid } = c ↔ guid = c.originGuid :=
    ⟨congrArg Classification.originGuid, fun h => by rw [h]⟩
  rw [hread, Except.ok.injEq, hsame]
  cases c.originGuid with
  | none => simp
  | some guid => simp

/-- A tag that was propagated is replaced by one that was assigned. The version, the origin and the
properties are those of the new one, and the guid that it is said to be propagated from is that of
the old one. -/
theorem classification_takes_place_but_for_guid :
    let tag : TypeDef := ⟨"g1", "Tag", .classification, none, [⟨"level", false⟩], []⟩
    let ts := (TypeSystem.ofList [tag]).toOption.getD .empty
    let header : Header := .create tag.typeRef "home" none "user" ⟨0, 0⟩
    let old : Classification :=
      ⟨"Tag", header, .propagated, some "e2", .ofList [("level", .string "x")]⟩
    let new : Classification := ⟨"Tag", { header with version := 2 }, .assigned, none, ∅⟩
    let d := old.writeTo ts (.ofId "e:e1")
    Classification.ofDocument (new.writeTo ts d) "Tag" = .ok { new with originGuid := some "e2" } ∧
      Classification.ofDocument (new.writeTo ts d) "Tag" ≠ .ok new := by
  intro tag ts header old new d
  have hts : TypeSystem.ofList [tag] = .ok ts := eq_ok_of_isSome (by decide +kernel) _
  have hundotted : ts.Undotted := TypeSystem.undotted_of_values (by decide +kernel)
  have hguid : d.originGuid? "Tag" = some "e2" := by decide +kernel
  obtain ⟨hread, hiff, -⟩ := classification_takes_place hts hundotted d new (by decide) (by decide)
    (by decide) fun _ _ h => by cases h
  refine ⟨hread.trans (by rw [hguid]; rfl), fun h => ?_⟩
  rcases hiff.1 h with h | h
  · exact h rfl
  · rw [hguid] at h
    cases h

end MetadataArchive
