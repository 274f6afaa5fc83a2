import MetadataArchive.Proofs.Record.Readable
import MetadataArchive.Proofs.Search.Wanted

/-!
# What conditions select

Records are stored with all that conditions look at: properties under the names of their types, and
for each classification its name in a list and its properties under names of its own. So the clauses
of conditions select the records that meet the conditions, whatever variables were taken before.

The clauses of a classification look at its properties only in records that carry it, and there the
classification that was written last shows its own.
-/

set_option autoImplicit false

namespace MetadataArchive

variable {ts : TypeSystem} {src : Source} {stored : DocId → Option StoredRecord}
variable {P : StoredRecord → Prop} {limit : Option Nat} {record : Var} {scope : SearchScope}
variable {id : DocId} {r : StoredRecord} {d : Document} {property : String}

/-! ## What documents show -/

namespace StoredRecord

/-- Under the names of properties the document of a record holds the record's properties alone. -/
theorem get?_properties (h : r.toDocument ts = .ok d) :
    ∃ d', ∀ k, beginsWith r.space.name k = true →
      d.get? k = (r.properties.writeTo ts r.space r.typeName d').get? k := by
  cases r with
  | entity e => exact Entity.get?_toDocument h
  | proxy p =>
    obtain ⟨d', rfl⟩ := Proxy.get?_toDocument h
    exact ⟨d', fun _ _ => rfl⟩
  | relationship r =>
    obtain ⟨d', rfl⟩ := Relationship.get?_toDocument h
    exact ⟨d', fun _ _ => rfl⟩

/-- The document of a record shows what the record does. -/
theorem shows (hts : ts.Named) (hdots : ts.Undotted) (h : r.toDocument ts = .ok d)
    (hspace : scope.space = r.space) (hc : r.typeName ∈ scope.candidates)
    (hp : '.' ∉ property.toList) :
    d.Shows (scope.attributes ts property) ((r.view ts property).map PropertyValue.flatten) := by
  obtain ⟨d', hd'⟩ := get?_properties h
  have hget (qualifier : Option String) :
      d.get? (AttributeKey.queryable ⟨scope.space, property, qualifier⟩) =
        (r.properties.writeTo ts scope.space r.typeName d').get?
          (AttributeKey.queryable ⟨scope.space, property, qualifier⟩) := by
    rw [hspace]
    exact hd' _ (beginsWith_of_append "/" (beginsWith_append _ _))
  have hshows := Properties.shows hts hdots hget hp
  rwa [SearchScope.reaches_of_candidate hts hc] at hshows

end StoredRecord

theorem Source.Stores.finds (h : src.Stores ts stored) (hts : ts.Named) (hdots : ts.Undotted)
    (hr : stored id = some r) (hspace : scope.space = r.space)
    (hc : r.typeName ∈ scope.candidates) : scope.Finds ts src id (r.view ts) := by
  obtain ⟨d, hd, hsrc⟩ := h.of_stored hr
  exact ⟨d, hsrc, fun property hp => StoredRecord.shows hts hdots hd hspace hc hp⟩

/-- A document lists the classifications of its entity. -/
theorem Entity.elements_classifications {e : Entity} (h : e.toDocument ts = .ok d) :
    d.elements Attr.classifications = e.classifications.map fun c => .str c.name := by
  obtain ⟨d', rfl, hlist, -⟩ := Entity.toDocument_ok h
  rw [Document.elements, Entity.get?_foldl_writeTo (by decide), hlist]
  rfl

/-- What the one candidate of a scope is found by, in a classification that says it is of a type. -/
theorem Classification.reaches_eq {c : Classification} {space : PropertySpace} (hts : ts.Named) :
    SearchScope.reaches ts ⟨record, space, [c.name]⟩ c.header.typeRef.name property =
      decide (ts.isLegalProperty c.name property ∧
        ts.declaringType? c.header.typeRef.name property = ts.declaringType? c.name property) := by
  rw [Bool.eq_iff_iff, SearchScope.reaches_iff, decide_eq_true_iff]
  constructor
  · rintro ⟨n, hn, t, ht, hq⟩
    rw [List.mem_singleton.1 hn] at ht
    rw [TypeSystem.isLegalProperty, ht, SearchScope.declaringType?_of_qualifier hts ht hq]
    exact ⟨rfl, rfl⟩
  · rintro ⟨hlegal, hsame⟩
    obtain ⟨t, ht⟩ := Option.isSome_iff_exists.1 hlegal
    exact ⟨c.name, List.mem_singleton_self _, t, ht,
      SearchScope.qualifier_of_declaringType? (hsame.trans ht)⟩

/-- The document of an entity shows the last of the classifications of a name. -/
theorem Entity.shows_classification {e : Entity} {c : Classification} (hts : ts.Named)
    (hdots : ts.Undotted) (hnames : ∀ c ∈ e.classifications, '.' ∉ c.name.toList)
    (h : e.toDocument ts = .ok d)
    (hc : (StoredRecord.entity e).classification? c.name = some c) (hp : '.' ∉ property.toList) :
    d.Shows (SearchScope.attributes ts ⟨record, .classification c.name, [c.name]⟩ property)
      ((c.view ts property).map PropertyValue.flatten) := by
  obtain ⟨d', rfl, -⟩ := Entity.toDocument_ok h
  obtain ⟨d₀, hlaid⟩ := (Classification.laid_foldl_writeTo ts hnames hc).properties
  have hshows := @Properties.shows ts c.properties _ d₀
    ⟨record, .classification c.name, [c.name]⟩ c.header.typeRef.name property hts hdots
    (fun q => hlaid _ (beginsWith_of_append "/" (beginsWith_append _ _))) hp
  rw [Classification.reaches_eq hts] at hshows
  simpa [Classification.view] using hshows

/-! ## Parts of a compilation -/

/-- A part of a compilation gives clauses that select records, whatever was compiled before. -/
def Compile.Yields {ι : Type} (src : Source) (limit : Option Nat) (record : Var)
    (about : DocId → ι → Prop) (part : Compile (List Clause)) (p : ι → Bool) : Prop :=
  ∀ progress : Progress, Selects about record progress.taken (part.run progress).2.taken
    (Clause.evalAll src limit (part.run progress).1) p

namespace Compile.Yields

theorem nothing {ι : Type} {about : DocId → ι → Prop} :
    Yields src limit record about (pure []) fun _ => true :=
  fun progress => Selects.evalAll_nil progress.taken

theorem append {first second : Compile (List Clause)} {p q : StoredRecord → Bool}
    (h : Yields src limit record (StoredAs stored P) first p)
    (h' : Yields src limit record (StoredAs stored P) second q) :
    Yields src limit record (StoredAs stored P) (do return (← first) ++ (← second))
      fun r => p r && q r :=
  fun progress => (h progress).append_stored (h' _) fun _ _ _ hP _ => hP

end Compile.Yields

/-- The clauses of a plain tree select what satisfies the tree. -/
theorem ConditionTree.Plain.yields {t : ConditionTree} {about : DocId → View → Prop}
    (h : t.Plain) (hfinds : ∀ id view, about id view → scope.Finds ts src id view)
    (hl : limit ≠ some 0) :
    Compile.Yields src limit scope.record about (t.compile ts scope) fun view => t.holds view := by
  intro progress
  obtain ⟨clauses, taken, hrun, hjudges⟩ :=
    t.judges_compile hfinds hl progress fun c hc => (h c hc).fits
  simp only [h.verdict] at hjudges
  rw [hrun]
  exact hjudges

/-- To ask for the name of a classification is to ask for the entities that carry it. -/
theorem Selects.carries (h : src.Stores ts stored) (hl : limit ≠ some 0)
    (hfull : ∀ r, P r → r.isFull = true) {n : Nat} (name : String) :
    Selects (StoredAs stored P) record n n
      (Clause.eval src limit (.attrEq record Attr.classifications (.str name)))
      fun r => (r.classification? name).isSome := by
  refine Selects.of_documents h (Selects.has hl _ _) fun id r d _ hPr hdoc => ?_
  cases r with
  | entity e =>
    have hsame (c : Classification) : (Value.str c.name).same (.str name) = (c.name == name) := by
      rw [Bool.eq_iff_iff, Value.same_str, Value.str.injEq, beq_iff_eq]
    simp only [Document.has, Entity.elements_classifications hdoc, List.any_map,
      Function.comp_def, hsame, StoredRecord.isSome_classification?,
      StoredRecord.classifications]
  | proxy p => cases hfull _ hPr
  | relationship r => cases hfull _ hPr

section

variable (h : src.Stores ts stored) (hts : ts.Named) (hdots : ts.Undotted) (hl : limit ≠ some 0)

include h hts hdots hl

/-! ## Properties -/

variable (hfull : ∀ r, P r → r.isFull = true)
variable (hnames : ∀ id e, stored id = some (.entity e) →
  ∀ c ∈ e.classifications, '.' ∉ c.name.toList)

include hfull hnames

/-- The clauses of a classification select the records that carry it with such properties. -/
theorem ClassificationCondition.yields {c : ClassificationCondition}
    (hc : ∀ t, c.properties = some t → t.Plain) :
    Compile.Yields src limit record (StoredAs stored P) (c.compile ts record)
      (c.holds ts) := by
  have hlisted (n : Nat) : Selects (StoredAs stored P) record n n
      (Clause.evalAll src limit [.attrEq record Attr.classifications (.str c.name)])
      fun r => (r.classification? c.name).isSome :=
    Selects.singleton hl (Selects.carries h hl hfull c.name)
  intro progress
  unfold ClassificationCondition.compile
  cases hproperties : c.properties with
  | none =>
    refine (hlisted progress.taken).congr fun id r hr => ?_
    simp [ClassificationCondition.holds, hproperties]
  | some tree =>
    -- What comes behind deals with the classification of records that carry it.
    have hfinds : ∀ id view, (∃ e carried, StoredAs stored P id (.entity e) ∧
        (StoredRecord.entity e).classification? c.name = some carried ∧ carried.view ts = view) →
        SearchScope.Finds ts ⟨record, .classification c.name, [c.name]⟩ src id view := by
      rintro id _ ⟨e, carried, ⟨hr, -⟩, hcarried, rfl⟩
      obtain ⟨d, hdoc, hd⟩ := h.of_stored hr
      have hname : carried.name = c.name := by simpa using List.find?_some hcarried
      rw [← hname] at hcarried ⊢
      exact ⟨d, hd, fun property hp =>
        Entity.shows_classification hts hdots (hnames id e hr) hdoc hcarried hp⟩
    have hholds (r : StoredRecord) : c.holds ts r = ((r.classification? c.name).isSome &&
        (r.classification? c.name).any fun carried => tree.holds (carried.view ts)) := by
      rw [ClassificationCondition.holds, hproperties]
      cases r.classification? c.name <;> rfl
    rw [funext hholds]
    refine Selects.evalAll_append (hlisted progress.taken)
      ((hc tree hproperties).yields hfinds hl progress) (fun id r hr hcarries => ?_)
      fun id r view hr hview => ?_
    · obtain ⟨carried, hcarried⟩ := Option.isSome_iff_exists.1 hcarries
      cases r with
      | entity e => exact ⟨_, e, carried, hr, hcarried, rfl⟩
      | proxy p => cases hfull _ hr.2
      | relationship r => cases hfull _ hr.2
    · obtain ⟨e, carried, ⟨hr', -⟩, hcarried, rfl⟩ := hview
      cases hr.1.symm.trans hr'
      rw [hcarried]
      rfl

/-- Of several classifications the clauses select together, one behind the other or side by side. -/
theorem ClassificationCondition.yields_mapM {cs : List ClassificationCondition}
    (hcs : ∀ c ∈ cs, ∀ t, c.properties = some t → t.Plain) (progress : Progress) :
    let run := (cs.mapM (ClassificationCondition.compile ts record)).run progress
    run.1.isEmpty = cs.isEmpty ∧
      Selects (StoredAs stored P) record progress.taken run.2.taken
        (Clause.evalAll src limit run.1.flatten) (fun r => cs.all fun c => c.holds ts r) ∧
      Selects (StoredAs stored P) record progress.taken run.2.taken
        (Clause.evalAny src limit (run.1.map Clause.conjunction))
        fun r => cs.any fun c => c.holds ts r := by
  induction cs generalizing progress with
  | nil => exact ⟨rfl, Selects.evalAll_nil _, Judges.evalAny_nil (Nat.le_refl _)⟩
  | cons c cs ih =>
    obtain ⟨hc, hcs⟩ := List.forall_mem_cons.1 hcs
    have hhere : Compile.Yields src limit record (StoredAs stored P) (c.compile ts record)
        (c.holds ts) := ClassificationCondition.yields h hts hdots hl hfull hnames hc
    obtain ⟨-, hall, hany⟩ := ih hcs ((c.compile ts record).run progress).2
    rw [List.mapM_cons]
    refine ⟨rfl, ?_, ?_⟩
    · exact (hhere progress).append_stored hall fun _ _ _ hP _ => hP
    · exact Judges.evalAny_cons (((hhere progress).conjunction hl).weaken (Nat.le_refl _) hall.le)
        (hany.weaken (hhere progress).le (Nat.le_refl _))

theorem ClassificationConditions.yields {cs : ClassificationConditions}
    (hcs : ∀ c ∈ cs.conditions, ∀ t, c.properties = some t → t.Plain) :
    Compile.Yields src limit record (StoredAs stored P) (cs.compile ts record)
      (cs.holds ts) := by
  intro progress
  obtain ⟨hempty, hall, hany⟩ := @ClassificationCondition.yields_mapM ts src stored P limit record
    h hts hdots hl hfull hnames cs.conditions hcs progress
  unfold ClassificationConditions.compile
  rw [Compile.run_bind]
  rw [hempty]
  unfold ClassificationConditions.holds
  cases hnone : cs.conditions.isEmpty with
  | true =>
    rw [List.isEmpty_iff.1 hnone]
    exact Selects.evalAll_nil _
  | false =>
    cases cs.criteria with
    | all =>
      refine Selects.congr hall fun id r _ => ?_
      simp [Criteria.holds]
    | any =>
      refine Selects.congr (Selects.singleton hl (hany.or hl)) fun id r _ => ?_
      simp [Criteria.holds]
    | none =>
      refine Selects.congr (Selects.singleton hl (hall.not hl)) fun id r _ => ?_
      simp [Criteria.holds]

end

end MetadataArchive
