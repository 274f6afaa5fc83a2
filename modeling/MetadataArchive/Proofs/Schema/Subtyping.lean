import MetadataArchive.Proofs.Schema.Lineage

/-!
# Subtypes

One type is a subtype of another if the other is in its line of ancestors. Since no type is its own
ancestor, this is a partial order on the names that are known, and since a type has one supertype at
most, the line of an ancestor is the end of the line of a type.

What a type inherits follows from that: the first of its line to declare a property is itself, where
it redeclares what an ancestor declares, or whichever was the first for its supertype.
-/

set_option autoImplicit false

namespace MetadataArchive

open Relation

namespace TypeSystem

variable {ts : TypeSystem} {n m l property classification : String} {d e p x : TypeDef}
  {defs : List TypeDef}

namespace Lineage

variable (h : ts.Lineage)

include h

/-! ## The order -/

/-- A type is a subtype of those that its supertypes lead to. -/
theorem isSubtypeOf_iff : ts.isSubtypeOf n m = true ↔
    ∃ d e, ts.get? n = some d ∧ ts.get? m = some e ∧ ReflTransGen ts.Extends d e := by
  unfold isSubtypeOf closureOf
  cases hd : ts.get? n with
  | none => simp
  | some d =>
    have hself : ts.get? d.name = some d := by rw [h.named n d hd, hd]
    simp only [List.any_eq_true, beq_iff_eq, h.mem_closure hself, Option.some.injEq]
    constructor
    · rintro ⟨e, hreach, rfl⟩
      have he : ts.get? e.name = some e :=
        get?_of_mem_chain h.named hself ((h.mem_closure hself).2 hreach)
      exact ⟨d, e, rfl, he, hreach⟩
    · rintro ⟨_, e, rfl, he, hreach⟩
      exact ⟨e, hreach, h.named m e he⟩

theorem isSubtypeOf_self : ts.isSubtypeOf n n = true ↔ (ts.get? n).isSome := by
  rw [h.isSubtypeOf_iff, Option.isSome_iff_exists]
  exact ⟨fun ⟨d, _, hd, _⟩ => ⟨d, hd⟩, fun ⟨d, hd⟩ => ⟨d, d, hd, hd, .refl⟩⟩

theorem isSubtypeOf_antisymm (hnm : ts.isSubtypeOf n m = true) (hmn : ts.isSubtypeOf m n = true) :
    n = m := by
  obtain ⟨d, e, hd, he, hreach⟩ := h.isSubtypeOf_iff.1 hnm
  obtain ⟨e', d', he', hd', hback⟩ := h.isSubtypeOf_iff.1 hmn
  obtain rfl : e = e' := Option.some.inj (he.symm.trans he')
  obtain rfl : d = d' := Option.some.inj (hd.symm.trans hd')
  rcases reflTransGen_iff_eq_or_transGen.1 hreach with rfl | hcycle
  · rw [← h.named n _ hd, ← h.named m _ he]
  · exact absurd (hcycle.trans_left hback) (h.acyclic n d hd)

theorem isSubtypeOf_trans (hnm : ts.isSubtypeOf n m = true) (hml : ts.isSubtypeOf m l = true) :
    ts.isSubtypeOf n l = true := by
  obtain ⟨d, e, hd, he, hreach⟩ := h.isSubtypeOf_iff.1 hnm
  obtain ⟨e', f, he', hf, hreach'⟩ := h.isSubtypeOf_iff.1 hml
  obtain rfl : e = e' := Option.some.inj (he.symm.trans he')
  exact h.isSubtypeOf_iff.2 ⟨d, f, hd, hf, hreach.trans hreach'⟩

/-- A type has the category of its ancestors. -/
theorem category_of_reaches (hd : ts.get? d.name = some d) (hreach : ReflTransGen ts.Extends d e) :
    e.category = d.category := by
  induction hreach using ReflTransGen.head_induction_on with
  | refl => rfl
  | head hstep _ ih =>
    rw [ih (get?_of_extends h.named hstep), h.category _ _ _ hd hstep]

theorem category_of_isSubtypeOf (hnm : ts.isSubtypeOf n m = true) :
    ∃ d e, ts.get? n = some d ∧ ts.get? m = some e ∧ d.category = e.category := by
  obtain ⟨d, e, hd, he, hreach⟩ := h.isSubtypeOf_iff.1 hnm
  have hself : ts.get? d.name = some d := by rw [h.named n d hd, hd]
  exact ⟨d, e, hd, he, (h.category_of_reaches hself hreach).symm⟩

/-- The subtypes of a known type are the types below it, in name order. -/
theorem subtypesOf_eq_ok (hd : ts.get? n = some d) :
    ∃ below, ts.subtypesOf n = .ok below ∧ (below.map TypeDef.name).Pairwise (· < ·) ∧
      ∀ e, e ∈ below ↔ ts.get? e.name = some e ∧ ts.isSubtypeOf e.name n = true := by
  have hvalue (e : TypeDef) : e ∈ ts.types.values ↔ ts.get? e.name = some e := by
    rw [NameMap.mem_values]
    refine ⟨fun ⟨k, hk⟩ => ?_, fun he => ⟨e.name, he⟩⟩
    rw [h.named k e hk]
    exact hk
  have hnames : ts.types.values.map TypeDef.name = ts.types.names := by
    rw [NameMap.values, NameMap.names, List.map_map]
    exact List.map_congr_left fun entry hentry => h.named _ _ (NameMap.mem_entries.1 hentry)
  refine ⟨ts.types.values.filter fun e => ts.isSubtypeOf e.name n, ?_, ?_, fun e => ?_⟩
  · simp only [subtypesOf, require, hd, ok_bind]
  · refine List.Pairwise.sublist (List.filter_sublist.map TypeDef.name) ?_
    rw [hnames]
    exact ts.types.names_ascending
  · rw [List.mem_filter, hvalue]

/-! ## Inheritance -/

/-- The line of a type is the type, and then the line of its supertype. -/
theorem closure_of_extends (hd : ts.get? d.name = some d) (hp : ts.Extends d p) :
    ts.closure d = d :: ts.closure p := by
  rw [← h.chain_eq_closure hd (Nat.le_succ _), chain_of_parent hp, closure]

/-- The line of an ancestor is the end of the line of a type. -/
theorem closure_suffix (hd : ts.get? d.name = some d) (hreach : ReflTransGen ts.Extends d e) :
    ts.closure e <:+ ts.closure d := by
  induction hreach using ReflTransGen.head_induction_on with
  | refl => exact List.suffix_rfl
  | head hstep _ ih =>
    rw [h.closure_of_extends hd hstep]
    exact (ih (get?_of_extends h.named hstep)).trans (List.suffix_cons _ _)

/-- What is declared for an ancestor is declared for the type, there or below. -/
theorem exists_find?_closure (hd : ts.get? d.name = some d) (he : ts.get? e.name = some e)
    (hreach : ReflTransGen ts.Extends d e)
    (hfind : (ts.closure e).find? (fun t => t.declares property) = some x) :
    ∃ y, (ts.closure d).find? (fun t => t.declares property) = some y ∧
      ReflTransGen ts.Extends y x := by
  have hup : ReflTransGen ts.Extends e x := (h.mem_closure he).1 (List.mem_of_find?_eq_some hfind)
  induction hreach using ReflTransGen.head_induction_on with
  | refl => exact ⟨x, hfind, .refl⟩
  | @head d p hstep hrest ih =>
    rw [h.closure_of_extends hd hstep]
    rw [List.find?_cons]
    split
    next => exact ⟨d, rfl, .head hstep (hrest.trans hup)⟩
    next => exact ih (get?_of_extends h.named hstep)

theorem declaringType?_of_isSubtypeOf (hnm : ts.isSubtypeOf n m = true)
    (hx : ts.declaringType? m property = some x) :
    ∃ y, ts.declaringType? n property = some y ∧ ts.isSubtypeOf n y.name = true ∧
      ts.isSubtypeOf y.name x.name = true := by
  obtain ⟨d, e, hd, he, hreach⟩ := h.isSubtypeOf_iff.1 hnm
  have hdself : ts.get? d.name = some d := by rw [h.named n d hd, hd]
  have heself : ts.get? e.name = some e := by rw [h.named m e he, he]
  simp only [declaringType?, closureOf, hd, he] at hx ⊢
  obtain ⟨y, hy, hyx⟩ := h.exists_find?_closure hdself heself hreach hx
  have hmem := List.mem_of_find?_eq_some hy
  have hyself : ts.get? y.name = some y := get?_of_mem_chain h.named hdself hmem
  have hxself : ts.get? x.name = some x :=
    get?_of_mem_chain h.named heself (List.mem_of_find?_eq_some hx)
  exact ⟨y, hy, h.isSubtypeOf_iff.2 ⟨d, y, hd, hyself, (h.mem_closure hdself).1 hmem⟩,
    h.isSubtypeOf_iff.2 ⟨y, x, hyself, hxself, hyx⟩⟩

theorem propertiesOf_suffix (hnm : ts.isSubtypeOf n m = true) :
    ts.propertiesOf m <:+ ts.propertiesOf n := by
  obtain ⟨d, e, hd, he, hreach⟩ := h.isSubtypeOf_iff.1 hnm
  have hself : ts.get? d.name = some d := by rw [h.named n d hd, hd]
  obtain ⟨front, hfront⟩ := h.closure_suffix hself hreach
  simp only [propertiesOf, closureOf, hd, he]
  exact ⟨front.flatMap TypeDef.properties, by rw [← List.flatMap_append, hfront]⟩

theorem isValidFor_of_isSubtypeOf (hnm : ts.isSubtypeOf n m = true)
    (hvalid : ts.isValidFor classification m = true) : ts.isValidFor classification n = true := by
  unfold isValidFor at hvalid ⊢
  split at hvalid
  next => cases hvalid
  next c hc =>
    simp only [Bool.and_eq_true, Bool.or_eq_true, List.any_eq_true] at hvalid ⊢
    refine ⟨hvalid.1, hvalid.2.imp_right ?_⟩
    rintro ⟨allowed, hallowed, hbelow⟩
    exact ⟨allowed, hallowed, h.isSubtypeOf_trans hnm hbelow⟩

end Lineage

/-- What is legal is what is among the properties of a type. -/
theorem isLegalProperty_iff :
    ts.isLegalProperty n property = true ↔ ∃ q ∈ ts.propertiesOf n, q.name = property := by
  rw [isLegalProperty, declaringType?, List.find?_isSome, propertiesOf]
  simp only [TypeDef.declares, List.any_eq_true, beq_iff_eq, List.mem_flatMap]
  constructor
  · rintro ⟨t, ht, q, hq, rfl⟩
    exact ⟨q, ⟨t, ht, hq⟩, rfl⟩
  · rintro ⟨q, ⟨t, ht, hq⟩, rfl⟩
    exact ⟨t, ht, q, hq, rfl⟩

theorem legalProperties_eq_ok (hd : ts.get? n = some d) :
    ts.legalProperties n = .ok (ts.propertiesOf n) := by
  simp only [legalProperties, require, hd, ok_bind]

/-- **What is asked of a type system agrees.** Of two known names the one is a subtype of the other
just if its supertypes lead there. This is a partial order, and it keeps to one category. The
subtypes of a type are those below it, in name order. To be below a type is to have all of its
properties, each declared where it was or further down, and every classification that it can
have. -/
theorem type_queries_agree (hts : ofList defs = .ok ts) :
    (∀ n m, ts.isSubtypeOf n m = true ↔ ∃ d ∈ defs, ∃ e ∈ defs, d.name = n ∧ e.name = m ∧
      ReflTransGen (TypeDef.Extends defs) d e) ∧
    (∀ d ∈ defs, ts.isSubtypeOf d.name d.name = true) ∧
    (∀ n m, ts.isSubtypeOf n m = true → ts.isSubtypeOf m n = true → n = m) ∧
    (∀ n m l, ts.isSubtypeOf n m = true → ts.isSubtypeOf m l = true →
      ts.isSubtypeOf n l = true) ∧
    (∀ d ∈ defs, ∀ e ∈ defs, ts.isSubtypeOf d.name e.name = true → d.category = e.category) ∧
    (∀ d ∈ defs, ∃ below, ts.subtypesOf d.name = .ok below ∧
      (below.map TypeDef.name).Pairwise (· < ·) ∧
      ∀ e, e ∈ below ↔ e ∈ defs ∧ ts.isSubtypeOf e.name d.name = true) ∧
    (∀ d ∈ defs, ∃ ps, ts.legalProperties d.name = .ok ps ∧
      ∀ property, ts.isLegalProperty d.name property = true ↔ ∃ q ∈ ps, q.name = property) ∧
    ∀ n m, ts.isSubtypeOf n m = true →
      (∃ own above, ts.legalProperties n = .ok own ∧ ts.legalProperties m = .ok above ∧
        above <:+ own) ∧
      (∀ property, ts.isLegalProperty m property = true → ts.isLegalProperty n property = true) ∧
      (∀ property x, ts.declaringType? m property = some x →
        ∃ y, ts.declaringType? n property = some y ∧ ts.isSubtypeOf n y.name = true ∧
          ts.isSubtypeOf y.name x.name = true) ∧
      ∀ classification, ts.isValidFor classification m = true →
        ts.isValidFor classification n = true := by
  have h : ts.Lineage := lineage_ofList hts
  have hgather := (ofList_eq_ok.1 hts).1
  have hknown {n : String} {d : TypeDef} : ts.get? n = some d ↔ d ∈ defs ∧ d.name = n :=
    get?_gathered hgather
  refine ⟨fun n m => ?_, fun d hd => h.isSubtypeOf_self.2 ?_, fun _ _ => h.isSubtypeOf_antisymm,
    fun _ _ _ => h.isSubtypeOf_trans, fun d hd e he hde => ?_, fun d hd => ?_, fun d hd => ?_,
    fun n m hnm => ⟨?_, fun property hlegal => ?_, fun _ _ => h.declaringType?_of_isSubtypeOf hnm,
      fun _ => h.isValidFor_of_isSubtypeOf hnm⟩⟩
  · rw [h.isSubtypeOf_iff, extends_gathered hgather]
    simp only [hknown]
    constructor
    · rintro ⟨d, e, ⟨hd, rfl⟩, ⟨he, rfl⟩, hreach⟩
      exact ⟨d, hd, e, he, rfl, rfl, hreach⟩
    · rintro ⟨d, hd, e, he, rfl, rfl, hreach⟩
      exact ⟨d, e, ⟨hd, rfl⟩, ⟨he, rfl⟩, hreach⟩
  · rw [hknown.2 ⟨hd, rfl⟩, Option.isSome_some]
  · obtain ⟨d', e', hd', he', hcategory⟩ := h.category_of_isSubtypeOf hde
    rw [hknown.2 ⟨hd, rfl⟩, Option.some.injEq] at hd'
    rw [hknown.2 ⟨he, rfl⟩, Option.some.injEq] at he'
    rw [hd', he', hcategory]
  · obtain ⟨below, hok, hascending, hmem⟩ := h.subtypesOf_eq_ok (hknown.2 ⟨hd, rfl⟩)
    refine ⟨below, hok, hascending, fun e => ?_⟩
    rw [hmem, hknown, and_iff_left rfl]
  · exact ⟨_, legalProperties_eq_ok (hknown.2 ⟨hd, rfl⟩), fun _ => isLegalProperty_iff⟩
  · obtain ⟨d, e, hd, he, -⟩ := h.isSubtypeOf_iff.1 hnm
    exact ⟨_, _, legalProperties_eq_ok hd, legalProperties_eq_ok he, h.propertiesOf_suffix hnm⟩
  · obtain ⟨x, hx⟩ := Option.isSome_iff_exists.1 hlegal
    obtain ⟨y, hy, -⟩ := h.declaringType?_of_isSubtypeOf hnm hx
    exact Option.isSome_iff_exists.2 ⟨y, hy⟩

/-- A table is an asset. It redeclares the name of an asset and has the owner of one, and what can
be said of assets can be said of it. -/
theorem type_queries_agree_on_tables :
    let asset : TypeDef := ⟨"g1", "Asset", .entity, none, [⟨"name", true⟩, ⟨"owner", false⟩], []⟩
    let table : TypeDef := ⟨"g2", "Table", .entity, some "Asset", [⟨"name", false⟩], []⟩
    let secret : TypeDef := ⟨"g3", "Secret", .classification, none, [], ["Asset"]⟩
    let ts := (ofList [table, asset, secret]).toOption.getD .empty
    ts.isSubtypeOf "Table" "Asset" = true ∧ ts.isSubtypeOf "Asset" "Table" = false ∧
      ts.subtypesOf "Asset" = .ok [asset, table] ∧
      ts.declaringType? "Asset" "name" = some asset ∧
      ts.declaringType? "Table" "name" = some table ∧
      ts.declaringType? "Table" "owner" = some asset ∧
      ts.isValidFor "Secret" "Table" = true := by
  intro asset table secret ts
  have hts : ofList [table, asset, secret] = .ok ts := eq_ok_of_isSome (by decide +kernel) _
  obtain ⟨hiff, -, hantisymm, -, -, -, -, hbelow⟩ := type_queries_agree hts
  have hsub : ts.isSubtypeOf "Table" "Asset" = true :=
    (hiff _ _).2 ⟨table, by simp, asset, by simp, rfl, rfl, .single ⟨by simp, rfl⟩⟩
  obtain ⟨-, -, -, hvalid⟩ := hbelow "Table" "Asset" hsub
  exact ⟨hsub, Bool.eq_false_iff.2 fun hback => absurd (hantisymm _ _ hsub hback) (by decide),
    by decide +kernel, by decide +kernel, by decide +kernel, by decide +kernel,
    hvalid "Secret" (by decide +kernel)⟩

end TypeSystem

end MetadataArchive
