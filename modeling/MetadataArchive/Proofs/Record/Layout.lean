import Mathlib.Data.List.Induction
import MetadataArchive.Proofs.Record.Storage
import MetadataArchive.Proofs.Schema.TypeSystem

/-!
# Where a property is found

A property is written under a name that the type which declares it has a part in, and a query looks
under the names of all types that a record may be of. The two meet: among the names that are looked
at is the one that was written, and no other of them holds anything.

This is where names without a full stop matter. Behind the type's name stands a full stop, so a name
can be taken apart again where neither type nor property brings one of its own.
-/

set_option autoImplicit false

namespace MetadataArchive

variable {ts : TypeSystem} {d d' : Document} {k : String}

/-! ## What properties are made of -/

namespace PropertyValue

theorem elements_flatten (v : PropertyValue) : v.flatten.elements = v.leaves := by
  cases v with
  | primitive p => cases p <;> rfl
  | choice _ name _ => rfl
  | array _ => rfl
  | map _ => rfl
  | record _ _ => rfl

theorem stored?_flatten (v : PropertyValue) : v.flatten.stored? = some v.flatten := by
  cases v with
  | primitive p => cases p <;> rfl
  | choice _ name _ => rfl
  | array _ => rfl
  | map _ => rfl
  | record _ _ => rfl

theorem isNull_flatten (v : PropertyValue) : v.flatten.isNull = v.leaves.isEmpty := by
  cases v with
  | primitive p => cases p <;> rfl
  | choice _ name _ => rfl
  | array _ => rfl
  | map _ => rfl
  | record _ _ => rfl

mutual

/-- The leaves of a property have no parts. -/
theorem elements_of_mem_leaves {w : Value} :
    ∀ {v : PropertyValue}, w ∈ v.leaves → w.elements = [w]
  | .primitive p, h => by
    rw [leaves, List.mem_singleton] at h
    subst h
    cases p <;> rfl
  | .choice _ _ _, h => by
    rw [leaves, List.mem_singleton] at h
    subst h
    rfl
  | .array _, h => elements_of_mem_leavesOfItems (by rwa [leaves] at h)
  | .map _, h => elements_of_mem_leavesOfEntries (by rwa [leaves] at h)
  | .record _ _, h => elements_of_mem_leavesOfEntries (by rwa [leaves] at h)

theorem elements_of_mem_leavesOfItems {w : Value} :
    ∀ {items : List PropertyValue}, w ∈ leavesOfItems items → w.elements = [w]
  | [], h => by
    rw [leavesOfItems] at h
    cases h
  | _ :: _, h => by
    rw [leavesOfItems, List.mem_append] at h
    rcases h with h | h
    · exact elements_of_mem_leaves h
    · exact elements_of_mem_leavesOfItems h

theorem elements_of_mem_leavesOfEntries {w : Value} :
    ∀ {entries : List (String × PropertyValue)}, w ∈ leavesOfEntries entries → w.elements = [w]
  | [], h => by
    rw [leavesOfEntries] at h
    cases h
  | (_, _) :: _, h => by
    rw [leavesOfEntries, List.mem_append] at h
    rcases h with h | h
    · exact elements_of_mem_leaves h
    · exact elements_of_mem_leavesOfEntries h

end

end PropertyValue

/-! ## Names -/

namespace AttributeKey

variable {space : PropertySpace} {property other q q' : String} {key key' : AttributeKey}

theorem localName_of_queryable (hspace : key.space = key'.space)
    (h : key.queryable = key'.queryable) : key.localName = key'.localName := by
  simpa [queryable, hspace, ← String.toList_inj, String.toList_append] using h

/-- The two attributes of a property are told apart right behind the name of the space. -/
theorem queryable_ne_serialized (hspace : key.space = key'.space) :
    key.queryable ≠ key'.serialized := by
  intro h
  have hslash : "/".toList = ['/'] := by decide
  have hvalue : ".value/".toList = '.' :: "value/".toList := by decide
  have hlist := congrArg String.toList h
  simp [queryable, serialized, PropertySpace.queryableStem, PropertySpace.serializedStem, hspace,
    String.toList_append, hslash, hvalue] at hlist

/-- A name is taken apart at its first full stop. -/
theorem qualified_inj (hq : '.' ∉ q.toList) (hp : '.' ∉ property.toList)
    (h : q ++ "." ++ property = q' ++ "." ++ other) : q = q' ∧ property = other := by
  have hlist := congrArg String.toList h
  have hdot : ".".toList = ['.'] := by decide
  simp only [String.toList_append, hdot, List.append_assoc, List.singleton_append] at hlist
  obtain ⟨hqual, -, hprop⟩ := (List.append_cons_inj_of_notMem hq hp).1 hlist
  exact ⟨String.toList_inj.1 hqual, String.toList_inj.1 hprop⟩

theorem mem_addNew {keys : List AttributeKey} :
    key ∈ addNew keys key' ↔ key ∈ keys ∨ key = key' := by
  unfold addNew
  by_cases h : keys.contains key' = true
  · rw [if_pos h]
    refine ⟨Or.inl, fun h' => h'.elim id fun heq => ?_⟩
    rw [heq]
    simpa using h
  · rw [if_neg h]
    simp

theorem resolve_concat (candidates : List String) (c : String) :
    resolve ts space property (candidates ++ [c]) =
      match ts.declaringType? c property with
      | some t => addNew (resolve ts space property candidates) ⟨space, property, some t.name⟩
      | none => resolve ts space property candidates := by
  rw [resolve, List.foldl_append]
  rfl

/-- The keys of a property are those of the types that declare it for a candidate. -/
theorem mem_resolve {candidates : List String} :
    key ∈ resolve ts space property candidates ↔
      ∃ c ∈ candidates, ∃ t, ts.declaringType? c property = some t ∧
        key = ⟨space, property, some t.name⟩ := by
  induction candidates using List.reverseRecOn with
  | nil => simp [resolve]
  | append_singleton candidates c ih =>
    rw [resolve_concat]
    cases hc : ts.declaringType? c property with
    | none => simp [ih, or_and_right, exists_or, hc]
    | some t => simp [ih, mem_addNew, or_and_right, exists_or, hc]

end AttributeKey

/-! ## Properties -/

namespace Properties

variable {ps : Properties} {space : PropertySpace} {typeName property : String} {x : Value}
variable {v : PropertyValue} {key : AttributeKey}

theorem mem_fields {f : String × Value} :
    f ∈ ps.fields ts space typeName ↔
      ∃ name w, ps.get? name = some w ∧
        (f = ((AttributeKey.forStorage ts space typeName name).queryable, w.flatten) ∨
          f = ((AttributeKey.forStorage ts space typeName name).serialized, w.toStored)) := by
  simp only [fields, List.mem_flatMap, NameMap.toList, Prod.exists, NameMap.mem_entries,
    List.mem_pair]

/-- Under the queryable name of a property stands the flattened value of some property, stored under
that name. -/
theorem get?_writeTo_eq_some (hspace : key.space = space)
    (h : (ps.writeTo ts space typeName d).get? key.queryable = some x) :
    ∃ name w, ps.get? name = some w ∧ w.flatten = x ∧
      key.localName = (AttributeKey.forStorage ts space typeName name).localName := by
  have hstem : beginsWith space.queryableStem key.queryable = true := by
    rw [AttributeKey.queryable, hspace]
    exact beginsWith_append _ _
  rcases Document.get?_setAll_eq_some h with h | ⟨w, hw, hx⟩
  · rw [Document.get?_eraseStartingWith, Document.get?_eraseStartingWith, hstem] at h
    split at h <;> cases h
  · obtain ⟨name, w, hget, hf | hf⟩ := mem_fields.1 hw
    · rw [Prod.mk.injEq] at hf
      obtain ⟨hname, rfl⟩ := hf
      rw [PropertyValue.stored?_flatten, Option.some.injEq] at hx
      exact ⟨name, w, hget, hx, AttributeKey.localName_of_queryable hspace hname⟩
    · exact absurd (Prod.ext_iff.1 hf).1 (AttributeKey.queryable_ne_serialized hspace)

/-- A property is found under its own name. -/
theorem get?_writeTo_forStorage (hget : ps.get? property = some v)
    (hp : '.' ∉ property.toList)
    (hq : ∀ q, (AttributeKey.forStorage ts space typeName property).qualifier = some q →
      '.' ∉ q.toList) :
    (ps.writeTo ts space typeName d).get?
      (AttributeKey.forStorage ts space typeName property).queryable = some v.flatten := by
  rw [← PropertyValue.stored?_flatten]
  refine Document.get?_setAll_of_unique (mem_fields.2 ⟨property, v, hget, Or.inl rfl⟩) ?_
  intro w hw
  obtain ⟨name, u, hu, hf | hf⟩ := mem_fields.1 hw
  · rw [Prod.mk.injEq] at hf
    have hlocal := AttributeKey.localName_of_queryable (by rfl) hf.1
    obtain ⟨-, rfl⟩ := AttributeKey.qualified_inj (hq _ rfl) hp hlocal
    rw [hget, Option.some.injEq] at hu
    rw [hf.2, hu]
  · exact absurd (Prod.ext_iff.1 hf).1 (AttributeKey.queryable_ne_serialized rfl)

end Properties

/-! ## Entities -/

/-- Under the names of properties an entity's document holds its properties alone. -/
theorem Entity.get?_toDocument {e : Entity} (h : e.toDocument ts = .ok d) :
    ∃ d', ∀ k, beginsWith "entityProperties" k = true →
      d.get? k = (e.properties.writeTo ts .entity e.header.typeRef.name d').get? k := by
  simp only [Entity.toDocument, bind_eq_ok, Except.ok.injEq] at h
  obtain ⟨d', -, rfl⟩ := h
  refine ⟨(e.header.writeTo "" d').set Attr.isProxy (.bool false), fun k hk => ?_⟩
  have hne {name : String} (hname : beginsWith "entityProperties" name = false) : k ≠ name :=
    fun heq => Bool.false_ne_true (hname.symm.trans (heq ▸ hk))
  rw [Entity.get?_foldl_writeTo (beginsWith_eq_false hk (by decide) (by decide))]
  cases e.latestClassificationChange with
  | none => rw [Document.get?_set_of_ne (hne (by decide))]
  | some t =>
    rw [Document.get?_set_of_ne (hne (by decide)), Document.get?_set_of_ne (hne (by decide))]

end MetadataArchive
