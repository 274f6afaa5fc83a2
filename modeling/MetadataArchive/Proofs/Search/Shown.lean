import MetadataArchive.Proofs.Record.Layout
import MetadataArchive.Proofs.Search.Truth

/-!
# What queries find of a record

A query looks for a property under several attributes. `Document.Shows` says what it finds there:
one value, under one attribute at least, or none. The document of an entity shows the properties
that the entity's type has, provided that the type is among those the query reckons with. A property
that the type does not have is stored as well, but under a name that no query looks at.
-/

set_option autoImplicit false

namespace MetadataArchive

/-! ## Values under several attributes -/

/-- A document has a value under one of several attributes at least, and no other under any. -/
structure Document.Shows (d : Document) (attributes : List String) (value : Option Value) :
    Prop where
  only : ∀ {a x}, a ∈ attributes → d.get? a = some x → value = some x
  found : ∀ {x}, value = some x → ∃ a ∈ attributes, d.get? a = some x

namespace Document.Shows

variable {d : Document} {attributes : List String} {value : Option Value}

theorem findSome?_eq (h : d.Shows attributes value) : attributes.findSome? d.get? = value := by
  cases hfirst : attributes.findSome? d.get? with
  | some x =>
    obtain ⟨a, ha, hx⟩ := List.exists_of_findSome?_eq_some hfirst
    exact (h.only ha hx).symm
  | none =>
    cases value with
    | none => rfl
    | some x =>
      obtain ⟨a, ha, hx⟩ := h.found rfl
      rw [List.findSome?_eq_none_iff.1 hfirst a ha] at hx
      cases hx

/-- Looking under each attribute comes to the same as looking at the value. -/
theorem any_eq (h : d.Shows attributes value) (judge : Option Value → Verdict)
    (hnone : judge none = some false) :
    Verdict.any (attributes.map fun a => judge (d.get? a)) = judge value := by
  have halike : ∀ v ∈ attributes.map fun a => judge (d.get? a),
      v = some false ∨ v = judge value := by
    intro v hv
    obtain ⟨a, ha, rfl⟩ := List.mem_map.1 hv
    cases hx : d.get? a with
    | none => exact Or.inl hnone
    | some x => exact Or.inr (by rw [h.only ha hx])
  rw [Verdict.any_of_alike halike]
  split
  next => rfl
  next hnot =>
    -- Had the property a value, it would be met under one of the attributes.
    cases value with
    | none => exact hnone.symm
    | some x =>
      obtain ⟨a, ha, hx⟩ := h.found rfl
      exact absurd (List.mem_map.2 ⟨a, ha, by rw [hx]⟩) hnot

end Document.Shows

/-! ## The attributes of a property -/

namespace SearchScope

variable {ts : TypeSystem} {scope : SearchScope} {property a : String} {t : TypeDef}

/-- The attributes of a property are qualified by the types that declare it for a candidate; where
there are none, there is one without a qualifier. -/
theorem mem_attributes : a ∈ scope.attributes ts property ↔
    (∃ c ∈ scope.candidates, ∃ t, ts.declaringType? c property = some t ∧
      a = AttributeKey.queryable ⟨scope.space, property, some t.name⟩) ∨
    (a = AttributeKey.queryable ⟨scope.space, property, none⟩ ∧
      ∀ c ∈ scope.candidates, ts.declaringType? c property = none) := by
  have hresolve {key : AttributeKey} := @AttributeKey.mem_resolve ts scope.space property key
    scope.candidates
  rw [attributes, List.mem_map, keys]
  split
  next hnil =>
    have hnone : ∀ c ∈ scope.candidates, ts.declaringType? c property = none := by
      refine fun c hc => Option.eq_none_iff_forall_ne_some.2 fun t ht => ?_
      have hmem := hresolve.2 ⟨c, hc, t, ht, rfl⟩
      rw [hnil] at hmem
      cases hmem
    constructor
    · rintro ⟨key, hkey, rfl⟩
      exact Or.inr ⟨by rw [List.mem_singleton.1 hkey], hnone⟩
    · rintro (⟨c, hc, t, ht, -⟩ | ⟨rfl, -⟩)
      · rw [hnone c hc] at ht
        cases ht
      · exact ⟨_, List.mem_singleton_self _, rfl⟩
  next hkeys =>
    constructor
    · rintro ⟨key, hkey, rfl⟩
      obtain ⟨c, hc, t, ht, rfl⟩ := hresolve.1 hkey
      exact Or.inl ⟨c, hc, t, ht, rfl⟩
    · rintro (⟨c, hc, t, ht, rfl⟩ | ⟨-, hnone⟩)
      · exact ⟨_, hresolve.2 ⟨c, hc, t, ht, rfl⟩, rfl⟩
      · refine absurd (List.eq_nil_iff_forall_not_mem.2 fun key hkey => ?_) hkeys
        obtain ⟨c, hc, t, ht, -⟩ := hresolve.1 hkey
        rw [hnone c hc] at ht
        cases ht

/-- A property of records of a type is stored under one of the names that the scope looks at. -/
def reaches (ts : TypeSystem) (scope : SearchScope) (typeName property : String) : Bool :=
  scope.candidates.any fun c => (ts.declaringType? c property).any fun t =>
    (AttributeKey.forStorage ts scope.space typeName property).qualifier = some t.name

theorem reaches_iff {typeName : String} :
    scope.reaches ts typeName property = true ↔ ∃ c ∈ scope.candidates, ∃ t,
      ts.declaringType? c property = some t ∧
        (AttributeKey.forStorage ts scope.space typeName property).qualifier = some t.name := by
  simp [reaches, Option.any_eq_true]

/-- A property that is stored under the name of a type that declares it is declared by that type for
the record, too: where nothing declared it for the record, the record's own type stood there. -/
theorem declaringType?_of_qualifier {space : PropertySpace} {c typeName : String} (hts : ts.Named)
    (ht : ts.declaringType? c property = some t)
    (hq : (AttributeKey.forStorage ts space typeName property).qualifier = some t.name) :
    ts.declaringType? typeName property = some t := by
  obtain ⟨hknown, hdeclares⟩ := TypeSystem.declaringType?_ok hts ht
  cases hown : ts.declaringType? typeName property with
  | some u =>
    have hname : u.name = t.name := by simpa [AttributeKey.forStorage, hown] using hq
    have hu := (TypeSystem.declaringType?_ok hts hown).1
    rw [hname, hknown] at hu
    exact hu.symm
  | none =>
    have hself : typeName = t.name := by simpa [AttributeKey.forStorage, hown] using hq
    rw [← hself] at hknown
    rw [TypeSystem.declaringType?_self hknown hdeclares] at hown
    cases hown

theorem qualifier_of_declaringType? {space : PropertySpace} {typeName : String}
    (ht : ts.declaringType? typeName property = some t) :
    (AttributeKey.forStorage ts space typeName property).qualifier = some t.name := by
  simp [AttributeKey.forStorage, ht]

/-- The properties that records of a candidate type are found by are those that the type has. -/
theorem reaches_of_candidate {typeName : String} (hts : ts.Named)
    (hc : typeName ∈ scope.candidates) :
    scope.reaches ts typeName property = ts.isLegalProperty typeName property := by
  rw [Bool.eq_iff_iff, reaches_iff]
  constructor
  · rintro ⟨c, -, t, ht, hq⟩
    exact Option.isSome_iff_exists.2 ⟨t, declaringType?_of_qualifier hts ht hq⟩
  · intro hlegal
    obtain ⟨t, ht⟩ := Option.isSome_iff_exists.1 hlegal
    exact ⟨typeName, hc, t, ht, qualifier_of_declaringType? ht⟩

end SearchScope

/-! ## Records -/

/-- What is written of properties shows them, as far as the scope looks at their names. -/
theorem Properties.shows {ts : TypeSystem} {ps : Properties} {d d' : Document} {scope : SearchScope}
    {typeName property : String} (hts : ts.Named) (hdots : ts.Undotted)
    (hget : ∀ qualifier, d.get? (AttributeKey.queryable ⟨scope.space, property, qualifier⟩) =
      (ps.writeTo ts scope.space typeName d').get?
        (AttributeKey.queryable ⟨scope.space, property, qualifier⟩))
    (hp : '.' ∉ property.toList) :
    d.Shows (scope.attributes ts property)
      ((if scope.reaches ts typeName property then ps.get? property else none).map
        PropertyValue.flatten) := by
  refine ⟨fun {a x} ha hx => ?_, fun {x} hx => ?_⟩
  · -- Written was a type's name, a full stop and the name of the property.
    have hwritten {qualifier : Option String}
        (hx : d.get? (AttributeKey.queryable ⟨scope.space, property, qualifier⟩) = some x) :
        ∃ name w q, ps.get? name = some w ∧ w.flatten = x ∧
          (AttributeKey.forStorage ts scope.space typeName name).qualifier = some q ∧
            AttributeKey.localName ⟨scope.space, property, qualifier⟩ = q ++ "." ++ name := by
      rw [hget] at hx
      obtain ⟨name, w, hw, hflat, hlocal⟩ := Properties.get?_writeTo_eq_some (by rfl) hx
      exact ⟨name, w, _, hw, hflat, rfl, hlocal⟩
    rcases SearchScope.mem_attributes.1 ha with ⟨c, hc, t, ht, rfl⟩ | ⟨rfl, -⟩
    · obtain ⟨name, w, q, hw, hflat, hq, hlocal⟩ := hwritten hx
      obtain ⟨hknown, -⟩ := TypeSystem.declaringType?_ok hts ht
      simp only [AttributeKey.localName] at hlocal
      obtain ⟨rfl, rfl⟩ := AttributeKey.qualified_inj (hdots _ _ hknown) hp hlocal
      have hreaches : scope.reaches ts typeName property = true :=
        SearchScope.reaches_iff.2 ⟨c, hc, t, ht, hq⟩
      simp [hreaches, hw, hflat]
    · obtain ⟨name, w, q, -, -, -, hlocal⟩ := hwritten hx
      refine absurd ?_ hp
      have hdot : ".".toList = ['.'] := by decide
      simp only [AttributeKey.localName] at hlocal
      simp [hlocal, String.toList_append, hdot]
  · obtain ⟨v, hv, rfl⟩ := Option.map_eq_some_iff.1 hx
    split at hv
    next hreaches =>
      obtain ⟨c, hc, t, ht, hq⟩ := SearchScope.reaches_iff.1 hreaches
      have hundotted := hdots _ _ (TypeSystem.declaringType?_ok hts ht).1
      have hkey : AttributeKey.forStorage ts scope.space typeName property =
          ⟨scope.space, property, some t.name⟩ := by
        rw [← hq]
        rfl
      refine ⟨_, SearchScope.mem_attributes.2 (Or.inl ⟨c, hc, t, ht, rfl⟩), ?_⟩
      rw [hget, ← hkey]
      refine Properties.get?_writeTo_forStorage hv hp fun q hq => ?_
      rw [hkey, Option.some.injEq] at hq
      exact hq ▸ hundotted
    next => cases hv

theorem Entity.shows {ts : TypeSystem} {e : Entity} {d : Document} {scope : SearchScope}
    {property : String} (hts : ts.Named) (hdots : ts.Undotted) (h : e.toDocument ts = .ok d)
    (hspace : scope.space = .entity) (hc : e.header.typeRef.name ∈ scope.candidates)
    (hp : '.' ∉ property.toList) :
    d.Shows (scope.attributes ts property)
      ((e.view ts property).map PropertyValue.flatten) := by
  obtain ⟨d', hd'⟩ := Entity.get?_toDocument h
  have hget (qualifier : Option String) :
      d.get? (AttributeKey.queryable ⟨scope.space, property, qualifier⟩) =
        (e.properties.writeTo ts scope.space e.header.typeRef.name d').get?
          (AttributeKey.queryable ⟨scope.space, property, qualifier⟩) := by
    rw [hspace]
    exact hd' _ (beginsWith_of_append "/" (beginsWith_append _ _))
  have hshows := Properties.shows hts hdots hget hp
  rwa [SearchScope.reaches_of_candidate hts hc] at hshows

end MetadataArchive
