import MetadataArchive.Proofs.Record.Reading
import MetadataArchive.Proofs.Schema.TypeSystem

/-!
# What a document says of its type

The category of a record is written by the name of its type, and is never read back: whoever reads
the record takes the name alone. So what a reader makes of a document is of the same category again
as long as the name is kept, and nothing in the document ties that category to the kind of record
that its key stands for.
-/

set_option autoImplicit false

namespace MetadataArchive

variable {ts : TypeSystem} {d d' : Document} {h : Header} {name : String}

/-- A type of the name is known, and its category is as it should be. -/
def TypeSystem.Knows (ts : TypeSystem) (fit : TypeCategory → Prop) (name : String) : Prop :=
  ∃ t, ts.get? name = some t ∧ fit t.category

/-- The document names a type that is known, and has the category of that type. -/
def Document.OfCategory (ts : TypeSystem) (d : Document) (category : TypeCategory) : Prop :=
  ∃ t, (d.getStr? Attr.typeName).bind ts.get? = some t ∧ t.category = category ∧
    d.get? Attr.typeCategory = some (.str category.name)

theorem TypeSystem.Knows.mono {fit fit' : TypeCategory → Prop} (h : ts.Knows fit name)
    (hfit : ∀ category, fit category → fit' category) : ts.Knows fit' name :=
  h.imp fun _ => And.imp_right (hfit _)

/-! ## Writing -/

theorem TypeSystem.writeType_category (hw : ts.writeType h d = .ok d') :
    ∃ t, ts.get? h.typeRef.name = some t ∧
      d'.get? Attr.typeCategory = some (.str t.category.name) := by
  simp only [writeType, supertypeClosure, require, bind_eq_ok] at hw
  obtain ⟨closure, ⟨t, ht, hclosure⟩, hw⟩ := hw
  split at ht
  next t' hknown =>
    cases ht
    cases hclosure
    obtain ⟨rest, hrest⟩ := exists_closure_eq hknown
    rw [hrest] at hw
    cases hw
    refine ⟨t, hknown, ?_⟩
    have hnodup : [Attr.typeSupers, Attr.typeCategory].Nodup := by decide
    refine Document.get?_setAll (v := .str t.category.name) ?_ (by simp)
    exact hnodup
  next => cases ht

/-- A record is of the category of its type where nothing is written over that. -/
theorem Document.Lays.ofCategory {r : RecordRef} {marks : List (String × Value)} {d₀ : Document}
    (hlays : d.Lays r h marks) (hw : ts.writeType h d₀ = .ok d')
    (hkeep : d.get? Attr.typeCategory = d'.get? Attr.typeCategory) :
    ∃ t, ts.get? h.typeRef.name = some t ∧ d.OfCategory ts t.category := by
  obtain ⟨t, ht, hcategory⟩ := TypeSystem.writeType_category hw
  have hname : d.get? Attr.typeName = some (.str h.typeRef.name) :=
    hlays.header (Attr.typeName, .str h.typeRef.name) (by simp [Header.fields])
  refine ⟨t, ht, t, ?_, rfl, hkeep.trans hcategory⟩
  rw [Document.getStr?, hname]
  exact ht

theorem Entity.ofCategory_toDocument {e : Entity} (h : e.toDocument ts = .ok d) :
    ∃ t, ts.get? e.header.typeRef.name = some t ∧ d.OfCategory ts t.category := by
  have hlays := Entity.lays h
  simp only [Entity.toDocument, bind_eq_ok, Except.ok.injEq] at h
  obtain ⟨d', hw, rfl⟩ := h
  refine hlays.ofCategory hw ?_
  have hlist : Attr.typeCategory ≠ Attr.classifications := by decide
  rw [Entity.get?_foldl_writeTo (by decide)]
  cases e.latestClassificationChange with
  | none =>
    rw [Document.get?_set_of_ne hlist, Properties.get?_writeTo_of_not_beginsWith (by decide),
      Document.get?_set_of_ne (by decide), Header.get?_writeTo_of_not_mem (by decide)]
  | some t =>
    rw [Document.get?_set_of_ne (by decide), Document.get?_set_of_ne hlist,
      Properties.get?_writeTo_of_not_beginsWith (by decide), Document.get?_set_of_ne (by decide),
      Header.get?_writeTo_of_not_mem (by decide)]

theorem Proxy.ofCategory_toDocument {p : Proxy} (h : p.toDocument ts = .ok d) :
    ∃ t, ts.get? p.header.typeRef.name = some t ∧ d.OfCategory ts t.category := by
  have hlays := Proxy.lays h
  simp only [Proxy.toDocument, bind_eq_ok, Except.ok.injEq] at h
  obtain ⟨d', hw, rfl⟩ := h
  refine hlays.ofCategory hw ?_
  rw [Properties.get?_writeTo_of_not_beginsWith (by decide), Document.get?_set_of_ne (by decide),
    Header.get?_writeTo_of_not_mem (by decide)]

theorem Relationship.ofCategory_toDocument {rel : Relationship} (h : rel.toDocument ts = .ok d) :
    ∃ t, ts.get? rel.header.typeRef.name = some t ∧ d.OfCategory ts t.category := by
  have hlays := Relationship.lays h
  simp only [Relationship.toDocument, bind_eq_ok, Except.ok.injEq] at h
  obtain ⟨d', hw, rfl⟩ := h
  refine hlays.ofCategory hw ?_
  rw [Properties.get?_writeTo_of_not_beginsWith (by decide), Document.get?_set_of_ne (by decide),
    Document.get?_set_of_ne (by decide), Header.get?_writeTo_of_not_mem (by decide)]

/-! ## Reading -/

theorem Header.typeName_of_ofDocument (hh : Header.ofDocument d "" = .ok h) :
    d.getStr? Attr.typeName = some h.typeRef.name := by
  simp only [Header.ofDocument, bind_eq_ok, Except.ok.injEq] at hh
  obtain ⟨_, -, _, -, _, -, _, -, typeName, htype, _, -, _, -, _, -, _, -, _, -, rfl⟩ := hh
  rw [String.empty_append] at htype
  cases hname : d.getStr? Attr.typeName with
  | none =>
    rw [hname] at htype
    cases htype
  | some name =>
    rw [hname] at htype
    cases htype
    rfl

theorem StoredEntity.typeName_of_ofDocument {stored : StoredEntity}
    (h : StoredEntity.ofDocument d = .ok stored) :
    d.getStr? Attr.typeName = some stored.header.typeRef.name := by
  simp only [StoredEntity.ofDocument, bind_eq_ok] at h
  obtain ⟨r, -, h⟩ := h
  split at h
  · cases h
  · simp only [bind_eq_ok] at h
    obtain ⟨header, hheader, ps, -, h⟩ := h
    split at h
    · cases h
      exact Header.typeName_of_ofDocument hheader
    · simp only [bind_eq_ok] at h
      obtain ⟨cs, -, h⟩ := h
      cases h
      exact Header.typeName_of_ofDocument hheader

theorem Relationship.typeName_of_ofDocument {one two : Option Document} {rel : Relationship}
    (h : Relationship.ofDocument ts d one two = .ok rel) :
    d.getStr? Attr.typeName = some rel.header.typeRef.name := by
  simp only [Relationship.ofDocument, bind_eq_ok] at h
  obtain ⟨r, -, h⟩ := h
  split at h
  · cases h
  · split at h
    · cases h
    · cases h
    · simp only [bind_eq_ok] at h
      obtain ⟨header, hheader, ps, -, endOne, -, endTwo, -, h⟩ := h
      cases h
      exact Header.typeName_of_ofDocument hheader

/-- A reader knows the type of a document by its name, and so its category. -/
theorem Document.OfCategory.knows {category : TypeCategory} (h : d.OfCategory ts category)
    (hname : d.getStr? Attr.typeName = some name) : ts.Knows (· = category) name := by
  obtain ⟨t, ht, hcategory, -⟩ := h
  rw [hname] at ht
  exact ⟨t, ht, hcategory⟩

end MetadataArchive
