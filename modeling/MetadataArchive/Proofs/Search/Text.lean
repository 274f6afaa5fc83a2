import MetadataArchive.Proofs.Search.Conditions

/-!
# What a text selects

A search for a text looks under the names of all properties that the candidate types have. The
document of a record has there what the record shows, and nothing else: a name is that of a property
and of a type that declares it for some candidate, and whatever a record stores under it, the record
has from that type. So the records that are selected are those that mention the text.
-/

set_option autoImplicit false

namespace MetadataArchive

variable {ts : TypeSystem} {scope : SearchScope} {src : Source} {limit : Option Nat}
variable {stored : DocId → Option StoredRecord} {P : StoredRecord → Prop} {n : Nat}
variable {pattern property a : String} {p : Pattern} {r : StoredRecord} {d : Document}

/-! ## The attributes of all properties -/

namespace TypeSystem

variable {c : String} {t : TypeDef}

/-- A property that is declared for a type is among the properties of the type. -/
theorem exists_propertiesOf (h : ts.declaringType? c property = some t) :
    ∃ p ∈ ts.propertiesOf c, p.name = property := by
  have hdeclares := List.find?_some h
  rw [TypeDef.declares, List.any_eq_true] at hdeclares
  obtain ⟨p, hp, hname⟩ := hdeclares
  exact ⟨p, List.mem_flatMap.2 ⟨t, List.mem_of_find?_eq_some h, hp⟩, by simpa using hname⟩

/-- Where no type declares a property with a full stop, no type has one. -/
theorem PlainProperties.undotted (hplain : ts.PlainProperties) (hts : ts.Named)
    (h : ts.declaringType? c property = some t) : '.' ∉ property.toList := by
  obtain ⟨hknown, hdeclares⟩ := declaringType?_ok hts h
  rw [TypeDef.declares, List.any_eq_true] at hdeclares
  obtain ⟨p, hp, hname⟩ := hdeclares
  rw [← beq_iff_eq.1 hname]
  exact hplain _ _ hknown p hp

end TypeSystem

namespace SearchScope

theorem mem_foldl_addNew {names found : List String} :
    a ∈ names.foldl (fun found a => if found.contains a then found else found ++ [a]) found ↔
      a ∈ found ∨ a ∈ names := by
  induction names generalizing found with
  | nil => simp
  | cons name names ih =>
    rw [List.foldl_cons, ih, List.mem_cons]
    split
    next hthere =>
      rw [List.contains_iff_mem] at hthere
      constructor
      · rintro (h | h)
        · exact Or.inl h
        · exact Or.inr (Or.inr h)
      · rintro (h | rfl | h)
        · exact Or.inl h
        · exact Or.inl hthere
        · exact Or.inr h
    next => rw [List.mem_append, List.mem_singleton, or_assoc]

/-- Known types have attributes: for each of their properties one, qualified by the type that
declares it. -/
theorem exists_allAttributes (hknown : ∀ c ∈ scope.candidates, ∃ t, ts.get? c = some t) :
    ∃ found, scope.allAttributes ts = .ok found ∧ ∀ a, a ∈ found ↔
      ∃ c ∈ scope.candidates, ∃ property t, ts.declaringType? c property = some t ∧
        a = AttributeKey.queryable ⟨scope.space, property, some t.name⟩ := by
  have hone (c a : String) : (a ∈ (ts.propertiesOf c).flatMap fun p =>
      (AttributeKey.resolve ts scope.space p.name [c]).map AttributeKey.queryable) ↔
      ∃ property t, ts.declaringType? c property = some t ∧
        a = AttributeKey.queryable ⟨scope.space, property, some t.name⟩ := by
    simp only [List.mem_flatMap, List.mem_map]
    constructor
    · rintro ⟨p, -, key, hkey, rfl⟩
      obtain ⟨c', hc', t, ht, rfl⟩ := AttributeKey.mem_resolve.1 hkey
      rw [List.mem_singleton.1 hc'] at ht
      exact ⟨p.name, t, ht, rfl⟩
    · rintro ⟨property, t, ht, rfl⟩
      obtain ⟨p, hp, rfl⟩ := TypeSystem.exists_propertiesOf ht
      exact ⟨p, hp, _, AttributeKey.mem_resolve.2 ⟨c, List.mem_singleton_self _, t, ht, rfl⟩, rfl⟩
  have hfold (cs : List String) (hcs : ∀ c ∈ cs, ∃ t, ts.get? c = some t) (before : List String) :
      ∃ found, cs.foldlM (fun found candidate => do
          let ps ← (ts.legalProperties candidate).mapError SearchError.record
          let names := ps.flatMap fun p : PropertyDef =>
            (AttributeKey.resolve ts scope.space p.name [candidate]).map AttributeKey.queryable
          return names.foldl (fun found a => if found.contains a then found else found ++ [a]) found)
          before = .ok found ∧ ∀ a, a ∈ found ↔ a ∈ before ∨
            ∃ c ∈ cs, ∃ property t, ts.declaringType? c property = some t ∧
              a = AttributeKey.queryable ⟨scope.space, property, some t.name⟩ := by
    induction cs generalizing before with
    | nil => exact ⟨before, rfl, by simp⟩
    | cons c cs ih =>
      obtain ⟨⟨t, ht⟩, hcs⟩ := List.forall_mem_cons.1 hcs
      have hlegal : ts.legalProperties c = .ok (ts.propertiesOf c) := by
        rw [TypeSystem.legalProperties, TypeSystem.require, ht]
        rfl
      rw [List.foldlM_cons, hlegal, mapError_ok, ok_bind]
      obtain ⟨found, hfound, hmem⟩ := ih hcs _
      refine ⟨found, hfound, fun a => ?_⟩
      rw [hmem, mem_foldl_addNew, hone, or_assoc, List.exists_mem_cons_iff]
  obtain ⟨found, hfound, hmem⟩ := hfold scope.candidates hknown []
  exact ⟨found, hfound, fun a => by simpa using hmem a⟩

end SearchScope

/-! ## Texts in documents -/

/-- What a document tells by the attributes of all properties is what its record mentions. -/
theorem StoredRecord.any_elements (hts : ts.Named) (hdots : ts.Undotted)
    (hplain : ts.PlainProperties) (hp : Pattern.readWhole? pattern = some p)
    (h : r.toDocument ts = .ok d) (hspace : scope.space = r.space)
    (hc : r.typeName ∈ scope.candidates) {attributes : List String}
    (hattributes : ∀ a, a ∈ attributes ↔
      ∃ c ∈ scope.candidates, ∃ property t, ts.declaringType? c property = some t ∧
        a = AttributeKey.queryable ⟨scope.space, property, some t.name⟩) :
    ((d.valuesUnder attributes).any fun v =>
      v.elements.any fun e => e.asStr?.any p.occursIn) = r.mentions ts pattern := by
  -- A value that is stored is matched by its leaves.
  have hleaves (v : PropertyValue) : (v.flatten.elements.any fun w =>
      w.elements.any fun e => e.asStr?.any p.occursIn) =
        v.leaves.any fun x => x.asStr?.any p.occursIn := by
    rw [PropertyValue.elements_flatten, Bool.eq_iff_iff, List.any_eq_true, List.any_eq_true]
    refine exists_congr fun w => and_congr_right fun hw => ?_
    rw [PropertyValue.elements_of_mem_leaves hw, List.any_cons, List.any_nil, Bool.or_false]
  have hshows {property : String} (hundotted : '.' ∉ property.toList) :
      d.Shows (scope.attributes ts property)
        ((r.view ts property).map PropertyValue.flatten) := shows hts hdots h hspace hc hundotted
  rw [Document.valuesUnder, List.any_flatMap, mentions, hp, Option.any_some, Bool.eq_iff_iff,
    List.any_eq_true, List.any_eq_true]
  constructor
  · rintro ⟨a, ha, hmatch⟩
    obtain ⟨c, hcand, property, t, ht, rfl⟩ := (hattributes a).1 ha
    have hmem : AttributeKey.queryable ⟨scope.space, property, some t.name⟩ ∈
        scope.attributes ts property :=
      SearchScope.mem_attributes.2 (Or.inl ⟨c, hcand, t, ht, rfl⟩)
    rw [Document.elements] at hmatch
    cases hx : d.get? (AttributeKey.queryable ⟨scope.space, property, some t.name⟩) with
    | none => simp [hx] at hmatch
    | some x =>
      have hview := (hshows (hplain.undotted hts ht)).only hmem hx
      obtain ⟨v, hv, rfl⟩ := Option.map_eq_some_iff.1 hview
      rw [hx, Option.map_some, Option.getD_some, hleaves] at hmatch
      rw [StoredRecord.view] at hv
      split at hv
      next hlegal =>
        exact ⟨(property, v), NameMap.mem_entries.2 hv, Bool.and_eq_true_iff.2 ⟨hlegal, hmatch⟩⟩
      next => cases hv
  · rintro ⟨⟨property, v⟩, hv, hmatch⟩
    rw [Bool.and_eq_true] at hmatch
    obtain ⟨hlegal, hmatch⟩ := hmatch
    obtain ⟨t, ht⟩ := Option.isSome_iff_exists.1 hlegal
    have hview : (r.view ts property).map PropertyValue.flatten = some v.flatten := by
      rw [StoredRecord.view, if_pos hlegal, NameMap.mem_entries.1 hv, Option.map_some]
    obtain ⟨a, ha, hx⟩ := (hshows (hplain.undotted hts ht)).found hview
    refine ⟨a, (hattributes a).2 ?_, ?_⟩
    · rcases SearchScope.mem_attributes.1 ha with ⟨c, hcand, t', ht', rfl⟩ | ⟨-, hnone⟩
      · exact ⟨c, hcand, property, t', ht', rfl⟩
      · rw [hnone _ hc] at ht
        cases ht
    · rw [Document.elements, hx, Option.map_some, Option.getD_some, hleaves]
      exact hmatch

/-! ## The clauses of a text -/

/-- **The clauses of a text select the records that mention it.** -/
theorem Selects.textClauses (h : src.Stores ts stored) (hts : ts.Named) (hdots : ts.Undotted)
    (hplain : ts.PlainProperties) (hl : limit ≠ some 0)
    (hP : ∀ r, P r → scope.space = r.space ∧ r.typeName ∈ scope.candidates)
    (hknown : ∀ c ∈ scope.candidates, ∃ t, ts.get? c = some t) {text : Option String}
    (hanchors : ∀ pattern, text = some pattern → Pattern.Anchors pattern) {clauses : List Clause}
    (hclauses : scope.textClauses ts (Var.numbered (n + 1)) text = .ok clauses) :
    Selects (StoredAs stored P) scope.record n (n + 1) (Clause.evalAll src limit clauses)
      fun r => text.all fun pattern => r.mentions ts pattern := by
  cases text with
  | none =>
    cases hclauses
    exact (Judges.evalAll_nil n).weaken (Nat.le_refl _) (Nat.le_succ n)
  | some pattern =>
    rw [SearchScope.textClauses, map_eq_ok] at hclauses
    obtain ⟨c, hc, rfl⟩ := hclauses
    unfold SearchScope.textClause at hc
    split at hc
    next hvalid =>
      obtain ⟨p, hp⟩ := Option.isSome_iff_exists.1 (hanchors pattern rfl hvalid)
      obtain ⟨attributes, hattributes, hmem⟩ := SearchScope.exists_allAttributes hknown
      rw [hattributes] at hc
      cases hc
      have hvar : (Test.like (Var.numbered (n + 1)) pattern).var = Var.numbered (n + 1) := rfl
      have hdocuments : Selects src.Holds scope.record n (n + 1)
          (Clause.eval src limit (bindAndTest scope.record attributes (Var.numbered (n + 1))
            (.like (Var.numbered (n + 1)) pattern)))
          fun d => (d.valuesUnder attributes).any fun v =>
            v.elements.any fun e => e.asStr?.any p.occursIn := by
        have hjudges : Judges src.Holds scope.record (fun _ => False) n (n + 1) _ _ :=
          Judges.bindAndTest hl attributes hvar (Nat.lt_succ_self n)
            fun {v e} hf => by simp [Test.holds, hp] at hf
        simp only [Test.any_like hp] at hjudges
        exact hjudges
      refine Selects.singleton hl (Selects.of_documents h hdocuments fun id r d _ hPr hdoc => ?_)
      exact StoredRecord.any_elements hts hdots hplain hp hdoc (hP r hPr).1 (hP r hPr).2 hmem
    next => cases hc

end MetadataArchive
