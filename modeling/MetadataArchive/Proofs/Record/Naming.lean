import MetadataArchive.Proofs.Record.RoundTrip

/-!
# Which property a stored name is the name of

A property is stored under the name of a type, a full stop and its own name, and what is read is what
stands behind the first full stop. The property's own name may have full stops in it, and is read
whole all the same. A type's may not: then what is read begins in the middle of it, and a name that
is put together from one type and property may be that of another type and property as well.

`stored_names_decode` says when it goes wrong, for a name, for two and for a whole record.
-/

set_option autoImplicit false

namespace MetadataArchive

variable {ts : TypeSystem} {space : PropertySpace} {typeName p p' q q' : String}

namespace AttributeKey

/-! ## One name -/

/-- **A name is read back** exactly where its qualifier has no full stop. -/
theorem propertyOf?_serialized_iff :
    propertyOf? space (forStorage ts space typeName p).serialized = some p ↔
      '.' ∉ (ts.qualifierOf typeName p).toList := by
  rw [propertyOf?_serialized, Option.some.injEq]
  refine ⟨fun hread hdot => ?_, afterDot_qualified⟩
  have hlonger := length_lt_afterDot (p := p) hdot
  rw [hread] at hlonger
  exact Nat.lt_irrefl _ hlonger

/-! ## Two names -/

/-- One name ends in the other: what the other's qualifier has over its own stands in front of the
other's property. -/
def Straddles (q p q' p' : String) : Prop := ∃ s, q' = q ++ "." ++ s ∧ p = s ++ "." ++ p'

theorem Straddles.dotted (h : Straddles q p q' p') : '.' ∈ q'.toList := by
  obtain ⟨s, rfl, -⟩ := h
  rw [toList_qualified]
  exact List.mem_append_right _ List.mem_cons_self

/-- Two qualified names are the same where both parts are, or where the one qualifier ends at a full
stop of the other. -/
theorem qualified_eq_iff : q ++ "." ++ p = q' ++ "." ++ p' ↔
    (q = q' ∧ p = p') ∨ Straddles q p q' p' ∨ Straddles q' p' q p := by
  have hsplit {q p q' p' : String} {behind : List Char} (hq : q'.toList = q.toList ++ behind)
      (hp : '.' :: p.toList = behind ++ '.' :: p'.toList) :
      (q = q' ∧ p = p') ∨ Straddles q p q' p' := by
    cases behind with
    | nil =>
      rw [List.append_nil] at hq
      exact .inl ⟨(String.toList_inj.1 hq).symm, String.toList_inj.1 (List.cons.inj hp).2⟩
    | cons c behind =>
      obtain ⟨rfl, hbehind⟩ := List.cons.inj hp
      refine .inr ⟨String.ofList behind, ?_, ?_⟩
      · rw [← String.toList_inj, toList_qualified, String.toList_ofList, hq]
      · rw [← String.toList_inj, toList_qualified, String.toList_ofList]
        exact hbehind
  constructor
  · intro h
    rw [← String.toList_inj, toList_qualified, toList_qualified, List.append_eq_append_iff] at h
    rcases h with ⟨behind, hq, hp⟩ | ⟨behind, hq, hp⟩
    · exact (hsplit hq hp).imp_right .inl
    · exact (hsplit hq hp).imp (And.imp Eq.symm Eq.symm) .inr
  · rintro (⟨rfl, rfl⟩ | ⟨s, rfl, rfl⟩ | ⟨s, rfl, rfl⟩) <;> simp only [String.append_assoc]

theorem queryable_eq_iff {k k' : AttributeKey} (hspace : k.space = k'.space) :
    k.queryable = k'.queryable ↔ k.localName = k'.localName :=
  ⟨localName_of_queryable hspace, fun h => by rw [queryable, queryable, hspace, h]⟩

theorem serialized_eq_iff {k k' : AttributeKey} (hspace : k.space = k'.space) :
    k.serialized = k'.serialized ↔ k.localName = k'.localName := by
  rw [serialized, serialized, hspace, ← String.toList_inj, String.toList_append,
    String.toList_append, List.append_cancel_left_eq, String.toList_inj]

/-- Two properties of a type have one name exactly where they are the same, or one name straddles
the other. -/
theorem localName_forStorage_eq_iff :
    (forStorage ts space typeName p).localName = (forStorage ts space typeName p').localName ↔
      p = p' ∨ Straddles (ts.qualifierOf typeName p) p (ts.qualifierOf typeName p') p' ∨
        Straddles (ts.qualifierOf typeName p') p' (ts.qualifierOf typeName p) p := by
  refine qualified_eq_iff.trans (or_congr_left ⟨And.right, ?_⟩)
  rintro rfl
  exact ⟨rfl, rfl⟩

end AttributeKey

/-! ## What is stored under a name -/

namespace Properties

variable {ps : Properties} {whole : String} {d : Document}

/-- The property of a record of a type that has a whole name, a type's and its own; of those that
share it the one that is written last. -/
def storedAs? (ts : TypeSystem) (typeName : String) (ps : Properties) (whole : String) :
    Option PropertyValue :=
  (ps.toList.reverse.find? fun e => ts.qualifierOf typeName e.1 ++ "." ++ e.1 == whole).map Prod.snd

theorem storedAs?_eq_none : ps.storedAs? ts typeName whole = none ↔
    ∀ name v, ps.get? name = some v → ts.qualifierOf typeName name ++ "." ++ name ≠ whole := by
  rw [storedAs?, Option.map_eq_none_iff, List.find?_eq_none]
  simp only [List.mem_reverse, NameMap.toList, Prod.forall, NameMap.mem_entries, beq_iff_eq]

/-- A whole name has a full stop in it. -/
theorem storedAs?_of_undotted (hwhole : '.' ∉ whole.toList) :
    ps.storedAs? ts typeName whole = none := by
  refine storedAs?_eq_none.2 fun name v _ heq => hwhole ?_
  rw [← heq, AttributeKey.toList_qualified]
  exact List.mem_append_right _ List.mem_cons_self

/-- Where a query looks for a name without a qualifier, it finds the property with that whole
name. -/
theorem get?_writeTo_unqualified (ts : TypeSystem) (space : PropertySpace) (typeName : String)
    (ps : Properties) (d : Document) (whole : String) :
    (ps.writeTo ts space typeName d).get? (AttributeKey.queryable ⟨space, whole, none⟩) =
      (ps.storedAs? ts typeName whole).map PropertyValue.flatten := by
  unfold writeTo fields storedAs?
  generalize hd₀ : (d.eraseStartingWith space.queryableStem).eraseStartingWith
    space.serializedStem = d₀
  have herased : d₀.get? (AttributeKey.queryable ⟨space, whole, none⟩) = none := by
    have hstem : beginsWith space.queryableStem
        (AttributeKey.queryable ⟨space, whole, none⟩) = true := beginsWith_append _ _
    rw [← hd₀, Document.get?_eraseStartingWith, Document.get?_eraseStartingWith, hstem]
    split <;> rfl
  induction ps.toList using List.reverseRecOn with
  | nil => exact herased
  | append_singleton es e ih =>
    have hwritten : AttributeKey.queryable ⟨space, whole, none⟩ =
        (AttributeKey.forStorage ts space typeName e.1).queryable ↔
          ts.qualifierOf typeName e.1 ++ "." ++ e.1 = whole :=
      (AttributeKey.queryable_eq_iff (by rfl)).trans eq_comm
    have hother : AttributeKey.queryable ⟨space, whole, none⟩ ≠
        (AttributeKey.forStorage ts space typeName e.1).serialized :=
      AttributeKey.queryable_ne_serialized rfl
    rw [List.flatMap_append, Document.setAll, List.foldl_append,
      List.flatMap_singleton, List.reverse_append, List.reverse_singleton, List.singleton_append,
      List.find?_cons]
    simp only [List.foldl_cons, List.foldl_nil]
    rw [Document.get?_set_of_ne hother, Document.get?_set]
    by_cases h : ts.qualifierOf typeName e.1 ++ "." ++ e.1 = whole
    · rw [if_pos (hwritten.2 h), beq_iff_eq.2 h, PropertyValue.stored?_flatten]
      rfl
    · rw [if_neg (mt hwritten.1 h), beq_false_of_ne h]
      exact ih

end Properties

/-! ## Where qualifiers come from -/

/-- A property is qualified by the record's own type, or by a type that was defined and declares
it. -/
theorem TypeSystem.qualifierOf_ofList {defs : List TypeDef} (hts : TypeSystem.ofList defs = .ok ts)
    (typeName p : String) : ts.qualifierOf typeName p = typeName ∨
      ∃ d ∈ defs, d.declares p = true ∧ ts.qualifierOf typeName p = d.name := by
  unfold TypeSystem.qualifierOf
  cases hd : ts.declaringType? typeName p with
  | none => exact .inl rfl
  | some d =>
    obtain ⟨hknown, hdeclares⟩ := declaringType?_ok (named_ofList hts) hd
    exact .inr ⟨d, (get?_ofList hts hknown).1, hdeclares, rfl⟩

open AttributeKey in
/-- **When stored names say what they are the names of.** In a type system that was accepted, and for
records of any type: a name is read back as its property exactly where its qualifier has no full
stop; two properties share an attribute, the queryable one as well as the stored text, exactly where
one name straddles the other; and the properties of a record are read back from it exactly where none
of their qualifiers has a full stop. A qualifier is the record's own type or one that declares the
property, so where no type has a full stop in its name nothing is renamed and nothing shared. -/
theorem stored_names_decode {defs : List TypeDef} (hts : TypeSystem.ofList defs = .ok ts)
    (space : PropertySpace) (typeName : String) :
    (∀ p, propertyOf? space (forStorage ts space typeName p).serialized = some p ↔
      '.' ∉ (ts.qualifierOf typeName p).toList) ∧
    (∀ p p', (forStorage ts space typeName p).serialized =
        (forStorage ts space typeName p').serialized ↔
      p = p' ∨ Straddles (ts.qualifierOf typeName p) p (ts.qualifierOf typeName p') p' ∨
        Straddles (ts.qualifierOf typeName p') p' (ts.qualifierOf typeName p) p) ∧
    (∀ p p', (forStorage ts space typeName p).queryable =
        (forStorage ts space typeName p').queryable ↔
      (forStorage ts space typeName p).serialized =
        (forStorage ts space typeName p').serialized) ∧
    (∀ (ps : Properties) (d : Document), ps.ReadBack →
      (Properties.ofDocument (ps.writeTo ts space typeName d) space = .ok ps ↔
        ∀ name v, ps.get? name = some v → '.' ∉ (ts.qualifierOf typeName name).toList)) ∧
    (∀ p, ts.qualifierOf typeName p = typeName ∨
      ∃ d ∈ defs, d.declares p = true ∧ ts.qualifierOf typeName p = d.name) ∧
    ('.' ∉ typeName.toList → (∀ d ∈ defs, '.' ∉ d.name.toList) → ∀ p,
      propertyOf? space (forStorage ts space typeName p).serialized = some p ∧
      ∀ p', (forStorage ts space typeName p).serialized =
        (forStorage ts space typeName p').serialized → p = p') := by
  have hqualifier := TypeSystem.qualifierOf_ofList hts typeName
  have hshared (p p' : String) : (forStorage ts space typeName p).serialized =
        (forStorage ts space typeName p').serialized ↔
      p = p' ∨ Straddles (ts.qualifierOf typeName p) p (ts.qualifierOf typeName p') p' ∨
        Straddles (ts.qualifierOf typeName p') p' (ts.qualifierOf typeName p) p :=
    (serialized_eq_iff (by rfl)).trans localName_forStorage_eq_iff
  refine ⟨fun p => propertyOf?_serialized_iff, hshared, fun p p' => ?_,
    fun ps d hback => Properties.ofDocument_writeTo_iff hback, hqualifier,
    fun htype hdefs p => ?_⟩
  · exact (queryable_eq_iff (by rfl)).trans (serialized_eq_iff (by rfl)).symm
  · have hundotted (p : String) : '.' ∉ (ts.qualifierOf typeName p).toList := by
      rcases hqualifier p with h | ⟨d, hd, -, h⟩ <;> rw [h]
      exacts [htype, hdefs d hd]
    refine ⟨propertyOf?_serialized_iff.2 (hundotted p), fun p' hsame => ?_⟩
    rcases (hshared p p').1 hsame with heq | hdotted | hdotted
    · exact heq
    · exact absurd hdotted.dotted (hundotted p')
    · exact absurd hdotted.dotted (hundotted p)

/-- A type `A.b` that inherits from a type `A`: a property `x` that it declares is read as `b.x`, has
the stored text of the property `b.x` that `A` declares, and is not read back. -/
theorem stored_name_straddles :
    let base : TypeDef := ⟨"t1", "A", .entity, none, [⟨"b.x", false⟩], []⟩
    let sub : TypeDef := ⟨"t2", "A.b", .entity, some "A", [⟨"x", false⟩], []⟩
    let ts := (TypeSystem.ofList [base, sub]).toOption.getD .empty
    let key (p : String) := AttributeKey.forStorage ts .entity "A.b" p
    let ps : Properties := .ofList [("x", .string "one")]
    AttributeKey.propertyOf? .entity (key "b.x").serialized = some "b.x" ∧
      AttributeKey.propertyOf? .entity (key "x").serialized ≠ some "x" ∧
      (key "b.x").serialized = (key "x").serialized ∧
      Properties.ofDocument (ps.writeTo ts .entity "A.b" (.ofId "e:1")) .entity ≠ .ok ps := by
  intro base sub ts key ps
  have hts : TypeSystem.ofList [base, sub] = .ok ts := eq_ok_of_isSome (by decide +kernel) _
  have hbase : ts.qualifierOf "A.b" "b.x" = "A" := by decide +kernel
  have hsub : ts.qualifierOf "A.b" "x" = "A.b" := by decide +kernel
  have hback : ps.ReadBack := by
    intro name v hget
    obtain ⟨rfl, rfl⟩ : name = "x" ∧ v = .string "one" := by
      simpa using NameMap.mem_ofList_of_get? hget
    cbv
  have hdot : '.' ∈ "A.b".toList := by decide
  obtain ⟨hname, hshared, -, hread, -⟩ := stored_names_decode hts .entity "A.b"
  refine ⟨(hname "b.x").2 ?_, fun h => (hname "x").1 h ?_, (hshared "b.x" "x").2 ?_, fun h => ?_⟩
  · rw [hbase]
    decide
  · rwa [hsub]
  · rw [hbase, hsub]
    exact .inr (.inl ⟨"b", by decide, by decide⟩)
  · refine (hread ps (.ofId "e:1") hback).1 h "x" (.string "one") (by rfl) ?_
    rwa [hsub]

end MetadataArchive
