import MetadataArchive.Proofs.Record.Naming
import MetadataArchive.Proofs.Search.Conditions
import MetadataArchive.Proofs.Search.Paging
import MetadataArchive.Proofs.Search.Start

/-!
# Properties that no candidate has

A comparison of a property that no candidate type declares is compiled all the same, with one
attribute: the name of the property behind that of the space, without a type. Stored names have a
type in front. So nothing is found under the attribute, and the property is missing in every record
-- unless what is asked for is itself a type's name, a full stop and the name of a property. Then the
attribute is that of the property, and the search looks at what is stored there.

`undeclared_properties` says of every comparison, and of the order of records, what comes of this.
-/

set_option autoImplicit false

namespace MetadataArchive

open Binding

variable {ts : TypeSystem} {src : Source} {stored : DocId → Option StoredRecord}
variable {limit : Option Nat} {scope : SearchScope} {space : PropertySpace} {property whole : String}
variable {id : DocId} {r : StoredRecord} {d : Document}

/-! ## What is stored under whole names -/

namespace StoredRecord

/-- The properties that a record has in a space, and the type that may qualify them. -/
def propertiesIn? (space : PropertySpace) (r : StoredRecord) : Option (String × Properties) :=
  match space with
  | .entity | .relationship => some (r.typeName, r.properties)
  | .classification n => (r.classification? n).map fun c => (c.header.typeRef.name, c.properties)

/-- What a record has in a space under whole names, those of a type and a property. -/
def storedAs (ts : TypeSystem) (space : PropertySpace) (r : StoredRecord) : View := fun whole =>
  (r.propertiesIn? space).bind fun ps => ps.2.storedAs? ts ps.1 whole

/-- A space is one for the properties of a record, or for those of its classifications. -/
def Fits (space : PropertySpace) (r : StoredRecord) : Prop :=
  match space with
  | .entity | .relationship => r.space = space
  | .classification _ => r.isFull = true

theorem storedAs_eq_none : r.storedAs ts space whole = none ↔
    ∀ typeName ps, r.propertiesIn? space = some (typeName, ps) →
      ∀ name v, ps.get? name = some v → ts.qualifierOf typeName name ++ "." ++ name ≠ whole := by
  unfold storedAs
  cases r.propertiesIn? space with
  | none => simp
  | some ps => simp [Properties.storedAs?_eq_none, Prod.ext_iff]

theorem storedAs_classification (ts : TypeSystem) (n : String) (r : StoredRecord) (whole : String) :
    r.storedAs ts (.classification n) whole = (r.classification? n).bind fun c =>
      c.properties.storedAs? ts c.header.typeRef.name whole := by
  rw [storedAs, propertiesIn?, Option.bind_map]
  rfl

theorem storedAs_of_undotted (hwhole : '.' ∉ whole.toList) : r.storedAs ts space whole = none := by
  unfold storedAs
  cases r.propertiesIn? space with
  | none => rfl
  | some ps => exact Properties.storedAs?_of_undotted hwhole

end StoredRecord

theorem Entity.get?_unqualified {e : Entity} {n : String} (h : e.toDocument ts = .ok d)
    (hn : '.' ∉ n.toList) (hnames : ∀ c ∈ e.classifications, '.' ∉ c.name.toList) (whole : String) :
    d.get? (AttributeKey.queryable ⟨.classification n, whole, none⟩) =
      ((StoredRecord.entity e).storedAs ts (.classification n) whole).map
        PropertyValue.flatten := by
  obtain ⟨d', rfl, -, hfree⟩ := Entity.toDocument_ok h
  have hspace : beginsWith (PropertySpace.classification n).name
      (AttributeKey.queryable ⟨.classification n, whole, none⟩) = true :=
    beginsWith_of_append "/" (beginsWith_append _ _)
  rw [StoredRecord.storedAs_classification]
  cases hc : (StoredRecord.entity e).classification? n with
  | none =>
    have hnone := List.find?_eq_none.1 hc
    rw [Classification.get?_foldl_writeTo_of_not_in fun c hmem hin => ?_]
    · exact hfree _ (beginsWith_of_append n (beginsWith_of_append _ hspace))
    · refine hnone c (List.mem_reverse.2 hmem) (beq_iff_eq.2 ?_)
      exact (Attr.eq_of_inClassification hn (hnames c hmem) (.inr hspace) hin).symm
  | some c =>
    obtain rfl : c.name = n := by simpa using List.find?_some hc
    obtain ⟨d₀, hlaid⟩ := (Classification.laid_foldl_writeTo ts hnames hc).properties
    rw [hlaid _ hspace, Properties.get?_writeTo_unqualified, Option.bind_some]

/-- **Under a name without a qualifier a document holds what the record has under that whole name**,
and nothing where there is no such property. -/
theorem StoredRecord.get?_unqualified (h : r.toDocument ts = .ok d) (hfits : r.Fits space)
    (hnames : ∀ n, space = .classification n →
      '.' ∉ n.toList ∧ ∀ c ∈ r.classifications, '.' ∉ c.name.toList) (whole : String) :
    d.get? (AttributeKey.queryable ⟨space, whole, none⟩) =
      (r.storedAs ts space whole).map PropertyValue.flatten := by
  have hown (hspace : r.space = space) :
      d.get? (AttributeKey.queryable ⟨space, whole, none⟩) =
        (r.properties.storedAs? ts r.typeName whole).map PropertyValue.flatten := by
    obtain ⟨d', hd⟩ := get?_properties h
    have hstem : beginsWith r.space.name (AttributeKey.queryable ⟨r.space, whole, none⟩) = true :=
      beginsWith_of_append "/" (beginsWith_append _ _)
    rw [← hspace, hd _ hstem, Properties.get?_writeTo_unqualified]
  cases space with
  | entity => exact hown hfits
  | relationship => exact hown hfits
  | classification n =>
    obtain ⟨hn, hnames⟩ := hnames n rfl
    obtain ⟨e, rfl⟩ := exists_entity hfits
    exact Entity.get?_unqualified h hn hnames whole

/-! ## What is asked for -/

/-- No type that a record may have has the property. -/
def SearchScope.Undeclared (ts : TypeSystem) (scope : SearchScope) (property : String) : Prop :=
  ∀ c ∈ scope.candidates, ts.isLegalProperty c property = false

theorem SearchScope.attributes_of_undeclared (h : scope.Undeclared ts property) :
    scope.attributes ts property = [AttributeKey.queryable ⟨scope.space, property, none⟩] := by
  have hresolve : AttributeKey.resolve ts scope.space property scope.candidates = [] := by
    refine List.eq_nil_iff_forall_not_mem.2 fun key hkey => ?_
    obtain ⟨c, hc, t, ht, -⟩ := AttributeKey.mem_resolve.1 hkey
    have hillegal := h c hc
    rw [TypeSystem.isLegalProperty, ht] at hillegal
    cases hillegal
  rw [attributes, keys, hresolve]
  rfl

/-- Queries for such a property find what records have under that whole name. -/
theorem Source.Stores.findsOne_undeclared (h : src.Stores ts stored)
    (hproperty : scope.Undeclared ts property) (hr : stored id = some r)
    (hfits : r.Fits scope.space)
    (hnames : ∀ n, scope.space = .classification n →
      '.' ∉ n.toList ∧ ∀ c ∈ r.classifications, '.' ∉ c.name.toList) :
    scope.FindsOne ts src property id (r.storedAs ts scope.space) := by
  obtain ⟨d, hdoc, hd⟩ := h.of_stored hr
  have hget := StoredRecord.get?_unqualified hdoc hfits hnames property
  refine ⟨d, hd, ?_⟩
  rw [SearchScope.attributes_of_undeclared hproperty]
  refine ⟨fun ha hx => ?_, fun hx => ⟨_, List.mem_singleton_self _, hget.trans hx⟩⟩
  rw [List.mem_singleton.1 ha, hget] at hx
  exact hx

/-! ## What is missing -/

/-- What a comparison says of a record that does not have the property: that it is another, and that
it is null. -/
def Comparator.ofMissing : Comparator → Bool
  | .neq | .isNull => true
  | .eq | .gt | .gte | .lt | .lte | .like | .notNull => false

/-- A comparison that takes part says of a missing property what its operator says. -/
theorem Comparison.verdict_of_missing {view : View} {c : Comparison} (hkept : c.isKept = true)
    (h : view c.property = none) : c.verdict view = some c.operator.ofMissing := by
  obtain ⟨property, operator, value⟩ := c
  have hleaves : view.leaves property = [] := by
    rw [View.leaves, h]
    rfl
  have hstumbles : stumbles view ⟨property, operator, value⟩ = false := by
    simp [stumbles, hleaves]
  rw [verdict, hstumbles, if_neg Bool.false_ne_true]
  -- What is compared with has a value at least, which a missing property does not have.
  have hall {v : PropertyValue} (hempty : v.leaves.isEmpty = false) :
      (v.leaves.all fun w => ([] : List Value).any fun x => x.same w) = false := by
    obtain ⟨w, ws, hw⟩ := List.exists_cons_of_ne_nil (List.isEmpty_eq_false_iff.1 hempty)
    simp [hw]
  cases operator with
  | isNull => simp [holds, hleaves, Comparator.ofMissing]
  | notNull => simp [holds, hleaves, Comparator.ofMissing]
  | eq =>
    cases value with
    | none => simp [isKept, dropReason?] at hkept
    | some v =>
      have hempty : v.leaves.isEmpty = false := by simpa [isKept, dropReason?] using hkept
      simp only [holds, hleaves, hall hempty, Comparator.ofMissing]
  | neq =>
    cases value with
    | none => simp [isKept, dropReason?] at hkept
    | some v =>
      have hempty : v.leaves.isEmpty = false := by simpa [isKept, dropReason?] using hkept
      simp only [holds, hleaves, hall hempty, Comparator.ofMissing, Bool.not_false]
  | like =>
    cases value with
    | none => rfl
    | some v =>
      simp only [holds, hleaves, Comparator.ofMissing]
      cases v.asStr?.bind Pattern.readWhole? <;> rfl
  | _ => cases value <;> simp [holds, hleaves, Comparator.ofMissing]

/-- What is compared with is ordered last, and among itself by key, where it is null. -/
theorem Sequencing.pairwise_arrange_of_null {order : Sequencing} {keys : List AttributeKey}
    {attributes : List String} {direction : Direction} {ids : List DocId}
    (hby : order.sortBy? keys = some (attributes, direction))
    (hnull : ∀ id ∈ ids, sortKey src attributes id = .null) :
    (order.arrange src keys ids).Pairwise (· < ·) := by
  have hpairwise : (order.arrange src keys ids).Pairwise (Precedes src (order.sortBy? keys)) := by
    refine pairwise_arrange fun attributes' direction' hby' id hid => ?_
    rw [hby, Option.some.injEq, Prod.mk.injEq] at hby'
    rw [← hby'.1, hnull id hid]
    rfl
  rw [hby] at hpairwise
  refine hpairwise.imp_of_mem fun {x y} hx _ hprecedes => ?_
  have hx := hnull x (mem_arrange.1 hx)
  cases hprecedes with
  | missing _ _ hlt => exact hlt
  | valued hvalue => simp [hx, Value.isNull] at hvalue
  | ordered hvalue => simp [hx, Value.isNull] at hvalue
  | tied hvalue => simp [hx, Value.isNull] at hvalue

/-! ## Searches -/

/-- Bindings of a record that is stored and has properties in the space that is searched. -/
def SearchScope.Binds (stored : DocId → Option StoredRecord) (scope : SearchScope) (taken : Nat)
    (bs : List Binding) : Prop :=
  ∀ b ∈ bs, b.Free taken ∧ ∃ id r, b.get? scope.record = some (.ref id) ∧ stored id = some r ∧
    r.Fits scope.space

section

variable (hstored : src.Stores ts stored)
variable (hnames : ∀ n, scope.space = .classification n → '.' ∉ n.toList ∧
  ∀ id r, stored id = some r → ∀ c ∈ r.classifications, '.' ∉ c.name.toList)

include hstored hnames

/-- A comparison of such a property is compiled, and decided by what records have under its whole
name. -/
theorem Comparison.compile_of_undeclared {c : Comparison} {p : Progress} {bs : List Binding}
    (hproperty : scope.Undeclared ts c.property) (hlimit : limit ≠ some 0)
    (hkept : c.isKept = true) (hbinds : scope.Binds stored p.taken bs) :
    ∃ clause taken, (c.compile ts scope).run p = (some clause, ⟨taken, p.dropped⟩) ∧
      ((∃ id ∈ named scope.record bs, ∃ r, stored id = some r ∧
          c.verdict (r.storedAs ts scope.space) = none) →
        ∃ pattern, c.pattern? = some pattern ∧
          Clause.eval src limit clause bs = .error (.invalidQuery (.badPattern pattern))) ∧
      ((∀ id ∈ named scope.record bs, ∀ r, stored id = some r →
          c.verdict (r.storedAs ts scope.space) ≠ none) →
        ∃ found, Clause.eval src limit clause bs = .ok found ∧
          ∀ id, id ∈ named scope.record found ↔ id ∈ named scope.record bs ∧
            ∃ r, stored id = some r ∧ c.verdict (r.storedAs ts scope.space) = some true) := by
  let about (id : DocId) (view : View) : Prop :=
    ∃ r, stored id = some r ∧ r.Fits scope.space ∧ r.storedAs ts scope.space = view
  have hfinds (id : DocId) (view : View) (h : about id view) :
      scope.FindsOne ts src c.property id view := by
    obtain ⟨r, hr, hfits, rfl⟩ := h
    exact hstored.findsOne_undeclared hproperty hr hfits fun n hn =>
      ⟨(hnames n hn).1, (hnames n hn).2 id r hr⟩
  obtain ⟨clause, taken, hrun, hjudges⟩ : Compile.Gives scope src limit about
      (fun e => ∃ pattern, c.pattern? = some pattern ∧ e = .invalidQuery (.badPattern pattern))
      p (c.compile ts scope) (c.verdict ·) :=
    Comparison.gives_compile hfinds (Option.isNone_iff_eq_none.1 hkept) hlimit
      fun pattern hpattern _ _ => ⟨pattern, hpattern, rfl⟩
  have hready : ∀ b ∈ bs, b.Ready about scope.record p.taken := fun b hb => by
    obtain ⟨hfree, id, r, hid, hr, hfits⟩ := hbinds b hb
    exact ⟨⟨_, id, hid, r, hr, hfits, rfl⟩, hfree⟩
  have hfits {id : DocId} (hid : id ∈ named scope.record bs) {r : StoredRecord}
      (hr : stored id = some r) : r.Fits scope.space := by
    obtain ⟨b, hb, hid⟩ := mem_named.1 hid
    obtain ⟨-, id', r', hid', hr', hfits⟩ := hbinds b hb
    obtain rfl : id' = id := by simpa [hid'] using hid
    rwa [Option.some.inj (hr.symm.trans hr')]
  obtain ⟨hfails, hfound⟩ := hjudges.named_cases hready
  refine ⟨clause, taken, hrun, fun ⟨id, hid, r, hr, hnone⟩ => ?_, fun hsome => ?_⟩
  · obtain ⟨e, he, pattern, hpattern, rfl⟩ :=
      hfails ⟨id, hid, _, ⟨r, hr, hfits hid hr, rfl⟩, hnone⟩
    exact ⟨pattern, hpattern, he⟩
  · obtain ⟨found, hfound, hmem⟩ := hfound fun id hid view ⟨r, hr, _, hview⟩ =>
      hview ▸ hsome id hid r hr
    refine ⟨found, hfound, fun id => (hmem id).trans (and_congr_right fun hid => ?_)⟩
    constructor
    · rintro ⟨_, ⟨r, hr, -, rfl⟩, htrue⟩
      exact ⟨r, hr, htrue⟩
    · rintro ⟨r, hr, htrue⟩
      exact ⟨_, ⟨r, hr, hfits hid hr, rfl⟩, htrue⟩

/-- An order by such a property goes by what records have under its whole name. -/
theorem sortKey_of_undeclared (hproperty : scope.Undeclared ts property) (hr : stored id = some r)
    (hfits : r.Fits scope.space) : sortKey src (scope.attributes ts property) id =
      sortValue (((r.storedAs ts scope.space property).map PropertyValue.flatten).getD .null) := by
  obtain ⟨d, hd, hshows⟩ := hstored.findsOne_undeclared hproperty hr hfits fun n hn =>
    ⟨(hnames n hn).1, (hnames n hn).2 id r hr⟩
  exact sortKey_of_shows hd hshows

end

/-- **What searches make of a property that no candidate has.** In any store of records, a comparison
of such a property that takes part has one clause and is not reported. The clause looks at what a
record has under the property as a whole name, and is evaluated accordingly: it fails where the
comparison stumbles over that, over a pattern that is not readable as a whole match, and finds
otherwise the records of which the comparison is true. A record that has nothing under the name is
found by a comparison for difference or for null, and by no other. An order by such a property goes
by what is under the name, null where nothing is; so records that have nothing under it are in the
order of their keys. A record has something under the name exactly where the name is that of a type
that qualifies one of its properties, a full stop and the property's name; so none has where the name
has no full stop. -/
theorem undeclared_properties (hstored : src.Stores ts stored)
    (hproperty : scope.Undeclared ts property)
    (hnames : ∀ n, scope.space = .classification n → '.' ∉ n.toList ∧
      ∀ id r, stored id = some r → ∀ c ∈ r.classifications, '.' ∉ c.name.toList)
    (hlimit : limit ≠ some 0) :
    (∀ (c : Comparison) (p : Progress) (bs : List Binding), c.property = property →
      c.isKept = true → scope.Binds stored p.taken bs →
      ∃ clause taken, (c.compile ts scope).run p = (some clause, ⟨taken, p.dropped⟩) ∧
        ((∃ id ∈ named scope.record bs, ∃ r, stored id = some r ∧
            c.verdict (r.storedAs ts scope.space) = none) →
          ∃ pattern, c.pattern? = some pattern ∧
            Clause.eval src limit clause bs = .error (.invalidQuery (.badPattern pattern))) ∧
        ((∀ id ∈ named scope.record bs, ∀ r, stored id = some r →
            c.verdict (r.storedAs ts scope.space) ≠ none) →
          ∃ found, Clause.eval src limit clause bs = .ok found ∧
            ∀ id, id ∈ named scope.record found ↔ id ∈ named scope.record bs ∧
              ∃ r, stored id = some r ∧
                c.verdict (r.storedAs ts scope.space) = some true)) ∧
    (∀ (c : Comparison) (r : StoredRecord), c.property = property → c.isKept = true →
      r.storedAs ts scope.space property = none →
        c.verdict (r.storedAs ts scope.space) = some c.operator.ofMissing) ∧
    (∀ (order : Sequencing) (ids : List DocId), order.property? = some property →
      (∀ id ∈ ids, ∃ r, stored id = some r ∧ r.Fits scope.space) →
      ∃ attributes direction, order.sortBy? (order.keys ts scope) = some (attributes, direction) ∧
        (∀ id ∈ ids, ∀ r, stored id = some r → sortKey src attributes id =
          sortValue (((r.storedAs ts scope.space property).map PropertyValue.flatten).getD .null)) ∧
        ((∀ id ∈ ids, ∀ r, stored id = some r → r.storedAs ts scope.space property = none) →
          (order.arrange src (order.keys ts scope) ids).Pairwise (· < ·))) ∧
    (∀ r : StoredRecord, r.storedAs ts scope.space property = none ↔
      ∀ typeName ps, r.propertiesIn? scope.space = some (typeName, ps) →
        ∀ name v, ps.get? name = some v →
          ts.qualifierOf typeName name ++ "." ++ name ≠ property) ∧
    ('.' ∉ property.toList → ∀ r : StoredRecord, r.storedAs ts scope.space property = none) := by
  refine ⟨fun c p bs hc hkept hbinds => ?_, fun c r hc hkept hnone => ?_,
    fun order ids horder hids => ?_, fun r => StoredRecord.storedAs_eq_none,
    fun hundotted r => StoredRecord.storedAs_of_undotted hundotted⟩
  · subst hc
    exact Comparison.compile_of_undeclared hstored hnames hproperty hlimit hkept hbinds
  · subst hc
    exact Comparison.verdict_of_missing hkept hnone
  · obtain ⟨direction, hby⟩ : ∃ direction, order.sortBy? (order.keys ts scope) =
        some (scope.attributes ts property, direction) := by
      cases order <;> cases horder <;> exact ⟨_, rfl⟩
    have hkey : ∀ id ∈ ids, ∀ r, stored id = some r → sortKey src (scope.attributes ts property) id =
        sortValue (((r.storedAs ts scope.space property).map PropertyValue.flatten).getD .null) := by
      intro id hid r hr
      obtain ⟨r', hr', hfits⟩ := hids id hid
      rw [Option.some.inj (hr'.symm.trans hr)] at hfits
      exact sortKey_of_undeclared hstored hnames hproperty hr hfits
    refine ⟨_, direction, hby, hkey, fun hnone =>
      Sequencing.pairwise_arrange_of_null hby fun id hid => ?_⟩
    obtain ⟨r, hr, -⟩ := hids id hid
    rw [hkey id hid r hr, hnone id hid r hr]
    rfl

/-- Of two assets the one with a name is found by it under `Asset.name`, which no type declares; and
both differ from `x` in their `title`, which neither has. -/
theorem undeclared_properties_of_assets :
    let asset : TypeDef := ⟨"t1", "Asset", .entity, none, [⟨"name", false⟩], []⟩
    let ts := (TypeSystem.ofList [asset]).toOption.getD .empty
    let header : Header := .create asset.typeRef "c" none "user" ⟨0, 0⟩
    let records : List StoredRecord :=
      [.entity ⟨"a", header, .ofList [("name", .string "x")], []⟩, .entity ⟨"b", header, ∅, []⟩]
    let src := Source.ofRecords ts records
    let scope : SearchScope := ⟨entityVar, .entity, ["Asset"]⟩
    let bs := (records.map fun r => r.reference.docId).map (single entityVar)
    let finds (property : String) (op : Comparator) (ids : List DocId) : Prop :=
      ∃ clause taken found,
        (Comparison.compile ts scope ⟨property, op, some (.string "x")⟩).run .start =
            (some clause, ⟨taken, []⟩) ∧
          Clause.eval src none clause bs = .ok found ∧ ∀ id, id ∈ named entityVar found ↔ id ∈ ids
    finds "title" .neq ["e:a", "e:b"] ∧ finds "Asset.name" .eq ["e:a"] := by
  intro asset ts header records src scope bs finds
  let stored := StoredRecord.putAll (fun _ => none) records
  have hkeys : (records.map fun r => r.reference.docId).Nodup := by decide +kernel
  have hiff {id : DocId} {r : StoredRecord} :
      stored id = some r ↔ r ∈ records ∧ r.reference.docId = id :=
    StoredRecord.putAll_none_eq_some hkeys
  have hstored : src.Stores ts stored := Source.stores_ofRecords hkeys (by decide +kernel)
  have hbinds : scope.Binds stored 0 bs := by
    intro b hb
    simp only [bs, List.mem_map] at hb
    obtain ⟨id, ⟨r, hr, rfl⟩, rfl⟩ := hb
    have hspace : ∀ r ∈ records, r.space = .entity := by decide
    exact ⟨free_single entityVar_ne_numbered _ 0, _, r, get?_single _ _, hiff.2 ⟨hr, rfl⟩,
      hspace r hr⟩
  have hlaw (property : String) (op : Comparator) (ids : List DocId)
      (hproperty : ∀ c ∈ ["Asset"], ts.isLegalProperty c property = false)
      (hkept : Comparison.isKept ⟨property, op, some (.string "x")⟩ = true) (hop : op ≠ .like)
      (hids : (records.filter fun r => Comparison.verdict (r.storedAs ts .entity)
        ⟨property, op, some (.string "x")⟩ = some true).map (fun r => r.reference.docId) = ids) :
      finds property op ids := by
    obtain ⟨clause, taken, hrun, -, hfound⟩ := (@undeclared_properties ts src stored none scope
      property hstored hproperty (fun n hn => by cases hn) (by decide)).1
        ⟨property, op, some (.string "x")⟩ .start bs rfl hkept hbinds
    obtain ⟨found, hfound, hmem⟩ := hfound fun id _ r _ hnone => by
      cases op <;> first | exact absurd rfl hop | simp [Comparison.verdict, Comparison.stumbles,
        Comparison.pattern?] at hnone
    refine ⟨clause, taken, found, hrun, hfound, fun id => (hmem id).trans ?_⟩
    rw [← hids, StoredRecord.mem_keys_filter hkeys, named_map_single]
    simp only [decide_eq_true_eq]
    refine and_iff_right_of_imp ?_
    rintro ⟨r, hr, -⟩
    exact List.mem_map.2 ⟨r, hiff.1 hr⟩
  exact ⟨hlaw _ _ _ (by decide +kernel) (by decide +kernel) (by decide) (by decide +kernel),
    hlaw _ _ _ (by decide +kernel) (by decide +kernel) (by decide) (by decide +kernel)⟩

end MetadataArchive
