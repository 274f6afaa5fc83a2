import MetadataArchive.Proofs.Search.Whole

/-!
# What a search tells of documents

A store may hold any documents, not only those that records were written to, and a search is
evaluated over all of them. This module says of a whole search what it tells of a document: what its
filters let through, and what its conditions say of the values that the document has under the
attributes they look at. Nothing is asked of the documents, so several attributes of a property may
hold different values, and values may be lists of lists.

A document has no verdict where a pattern meets a value and cannot be read as a whole match.
-/

set_option autoImplicit false

namespace MetadataArchive

variable {ts : TypeSystem} {src : Source} {limit : Option Nat} {record : Var}
variable {bad : StoreError → Prop}

/-! ## Parts of a compilation -/

namespace Compile.Tells

variable {ι : Type} {about : DocId → ι → Prop} {v w : ι → Verdict}

theorem nothing : Tells about record bad src limit (pure []) [] fun _ => some true := by
  intro p
  refine ⟨[], p.taken, ?_, Judges.evalAll_nil _⟩
  rw [run_pure]
  simp

theorem append {first second : Compile (List Clause)} {met met' : List Comparison}
    (hl : limit ≠ some 0) (h : Tells about record bad src limit first met v)
    (h' : Tells about record bad src limit second met' w) :
    Tells about record bad src limit (do return (← first) ++ (← second)) (met ++ met')
      fun i => (v i).and (w i) := by
  intro p
  obtain ⟨here, mid, hhere, hjudges⟩ := h p
  obtain ⟨there, taken, hthere, hjudges'⟩ :=
    h' ⟨mid, p.dropped ++ met.filterMap Comparison.diagnostic?⟩
  refine ⟨here ++ there, taken, ?_, hjudges.evalAll_append hl hjudges'⟩
  rw [List.filterMap_append, ← List.append_assoc]
  simp only [run_bind, run_pure, hhere, hthere]

end Compile.Tells

/-! ## Conditions -/

/-- A comparison that takes part fails in no way that is not reckoned with. -/
def Comparison.FailsBy (bad : StoreError → Prop) (c : Comparison) : Prop :=
  c.isKept = true → ∀ pattern, c.pattern? = some pattern → Pattern.isValid pattern = true →
    Pattern.readWhole? pattern = none → bad (.invalidQuery (.badPattern pattern))

/-- What a tree tells of what a document has under the attributes of its properties. -/
def ConditionTree.verdictIn (ts : TypeSystem) (scope : SearchScope) (d : Document)
    (t : ConditionTree) : Verdict :=
  t.tells fun c => c.verdictIn (scope.attributes ts c.property) d

theorem ConditionTree.tells_documents (scope : SearchScope) (hl : limit ≠ some 0)
    {t : ConditionTree} (h : ∀ c ∈ t.comparisons, c.FailsBy bad) :
    Compile.Tells src.Holds scope.record bad src limit (t.compile ts scope) t.comparisons
      fun d => t.verdictIn ts scope d := by
  have hrendered : ∀ c ∈ t.comparisons, c.Rendered ts scope src.Holds bad src limit
      fun d c => c.verdictIn (scope.attributes ts c.property) d :=
    fun c hc hreason p => Comparison.gives_in hl hreason
      (h c hc (by simp [Comparison.isKept, hreason]))
  exact tells_compile hl hrendered

/-! ## Classifications -/

namespace ClassificationCondition

def comparisons (c : ClassificationCondition) : List Comparison :=
  c.properties.elim [] ConditionTree.comparisons

/-- A document lists the classification, and its properties meet their conditions. -/
def verdictIn (ts : TypeSystem) (record : Var) (d : Document) (c : ClassificationCondition) :
    Verdict :=
  Verdict.and (some (d.has Attr.classifications (.str c.name)))
    (c.properties.elim (some true)
      (ConditionTree.verdictIn ts ⟨record, .classification c.name, [c.name]⟩ d))

variable (hl : limit ≠ some 0)

include hl

theorem tells_compile {c : ClassificationCondition} (h : ∀ x ∈ c.comparisons, x.FailsBy bad) :
    Compile.Tells src.Holds record bad src limit (c.compile ts record) c.comparisons
      fun d => c.verdictIn ts record d := by
  have hlisted : Compile.Tells src.Holds record bad src limit
      (pure [.attrEq record Attr.classifications (.str c.name)]) []
      fun d => some (d.has Attr.classifications (.str c.name)) := by
    intro p
    refine ⟨_, p.taken, ?_, (Selects.has hl _ _).judges.evalAll_singleton⟩
    rw [Compile.run_pure]
    simp
  unfold compile comparisons verdictIn
  unfold comparisons at h
  cases hproperties : c.properties with
  | none => exact hlisted.append hl .nothing
  | some tree =>
    rw [hproperties] at h
    exact hlisted.append hl
      (ConditionTree.tells_documents ⟨record, .classification c.name, [c.name]⟩ hl h)

/-- Several conditions tell of documents what they tell together, one behind the other or side by
side. -/
theorem tells_mapM {cs : List ClassificationCondition}
    (h : ∀ c ∈ cs, ∀ x ∈ c.comparisons, x.FailsBy bad) (p : Progress) :
    ∃ children taken, (cs.mapM (compile ts record)).run p =
        (children,
          ⟨taken, p.dropped ++ (cs.flatMap comparisons).filterMap Comparison.diagnostic?⟩) ∧
      children.isEmpty = cs.isEmpty ∧
      Judges src.Holds record bad p.taken taken (Clause.evalAll src limit children.flatten)
        (fun d => Verdict.all (cs.map (verdictIn ts record d))) ∧
      Judges src.Holds record bad p.taken taken
        (Clause.evalAny src limit (children.map Clause.conjunction))
        fun d => Verdict.any (cs.map (verdictIn ts record d)) := by
  induction cs generalizing p with
  | nil =>
    refine ⟨[], p.taken, ?_, rfl, Judges.evalAll_nil _, Judges.evalAny_nil (Nat.le_refl _)⟩
    rw [List.mapM_nil, Compile.run_pure]
    simp
  | cons c cs ih =>
    obtain ⟨hc, hcs⟩ := List.forall_mem_cons.1 h
    have hhead : Compile.Tells src.Holds record bad src limit (c.compile ts record) c.comparisons
        fun d => c.verdictIn ts record d := tells_compile hl hc
    obtain ⟨here, mid, hhere, hjudges⟩ := hhead p
    obtain ⟨there, taken, hthere, -, hall, hany⟩ :=
      ih hcs ⟨mid, p.dropped ++ c.comparisons.filterMap Comparison.diagnostic?⟩
    refine ⟨here :: there, taken, ?_, rfl, hjudges.evalAll_append hl hall, ?_⟩
    · rw [List.mapM_cons, List.flatMap_cons, List.filterMap_append, ← List.append_assoc]
      simp only [Compile.run_bind, Compile.run_pure, hhere, hthere]
    · exact ((hjudges.conjunction hl).weaken (Nat.le_refl _) hall.le).evalAny_cons
        (hany.weaken hjudges.le (Nat.le_refl _))

end ClassificationCondition

namespace ClassificationConditions

def comparisons (cs : ClassificationConditions) : List Comparison :=
  cs.conditions.flatMap ClassificationCondition.comparisons

/-- Where there are no conditions, any document will do. -/
def verdictIn (ts : TypeSystem) (record : Var) (d : Document) (cs : ClassificationConditions) :
    Verdict :=
  if cs.conditions.isEmpty then some true
  else cs.criteria.verdict (cs.conditions.map (ClassificationCondition.verdictIn ts record d))

theorem tells_compile (hl : limit ≠ some 0) {cs : ClassificationConditions}
    (h : ∀ x ∈ cs.comparisons, x.FailsBy bad) :
    Compile.Tells src.Holds record bad src limit (cs.compile ts record) cs.comparisons
      fun d => cs.verdictIn ts record d := by
  intro p
  obtain ⟨children, taken, hrun, hempty, hall, hany⟩ :=
    @ClassificationCondition.tells_mapM ts src limit record bad hl cs.conditions
      (fun c hc x hx => h x (List.mem_flatMap.2 ⟨c, hc, hx⟩)) p
  unfold compile verdictIn
  rw [Compile.run_bind, hrun]
  dsimp only
  rw [hempty]
  cases hnone : cs.conditions.isEmpty with
  | true =>
    rw [List.isEmpty_iff.1 hnone] at hall
    rw [List.isEmpty_iff.1 (hempty.trans hnone)] at hall
    exact ⟨_, _, rfl, hall⟩
  | false =>
    cases cs.criteria with
    | all => exact ⟨_, _, rfl, hall⟩
    | any => exact ⟨_, _, rfl, (hany.or hl).evalAll_singleton⟩
    | none => exact ⟨_, _, rfl, (hall.not hl).evalAll_singleton⟩

end ClassificationConditions

/-! ## Whole searches -/

/-- The types that the records of a search may be of. -/
def TypeFilter.candidates (ts : TypeSystem) (filter : Option TypeFilter)
    (category : TypeCategory) : List String :=
  match filter with
  | none | some (anyOf []) =>
      (ts.types.values.filter fun t => t.category = category).map TypeDef.name
  | some (subtypes name) =>
      (ts.types.values.filter fun t => ts.isSubtypeOf t.name name).map TypeDef.name
  | some (anyOf names) => names

namespace RecordSearch

/-- Where the properties of a search are looked for. -/
def scope (ts : TypeSystem) (search : RecordSearch) : SearchScope :=
  ⟨search.record, search.space, TypeFilter.candidates ts search.types search.category⟩

/-- The comparisons of a search, in the order in which they are met. -/
def comparisons (search : RecordSearch) : List Comparison :=
  search.properties.elim [] ConditionTree.comparisons ++
    search.classifications.elim [] ClassificationConditions.comparisons

/-- What a search reports of the comparisons that take no part. -/
def diagnostics (search : RecordSearch) : List Diagnostic :=
  search.comparisons.filterMap Comparison.diagnostic?

/-- A document tells that it is no proxy, or that it has the end that is asked for. -/
def asksForIn (search : RecordSearch) (d : Document) : Bool :=
  match search with
  | entities _ => d.has Attr.isProxy (.bool false)
  | relationships entity _ => entity.all fun ref =>
      [End.one, End.two].any fun e => d.has (Attr.side e) (.ref ref.docId)

/-- The filters of a search let a document through. -/
def admitsIn (ts : TypeSystem) (search : RecordSearch) (d : Document) : Bool :=
  TypeFilter.takesIn ts search.types d && search.asksForIn d && search.status.admitsIn d

/-- What the conditions of a search tell of a document. -/
def meetsIn (ts : TypeSystem) (search : RecordSearch) (d : Document) : Verdict :=
  Verdict.and
    (search.properties.elim (some true) (ConditionTree.verdictIn ts (search.scope ts) d))
    (search.classifications.elim (some true)
      (ClassificationConditions.verdictIn ts search.record d))

/-- **What a search tells of a document.** Its conditions are asked only what the category and the
filters let through. -/
def verdictIn (ts : TypeSystem) (search : RecordSearch) (d : Document) : Verdict :=
  Verdict.and (some (d.has Attr.typeCategory (.str search.category.name)))
    (Verdict.and (some (search.admitsIn ts d)) (search.meetsIn ts d))

variable {search : RecordSearch} {c : Compiled}

section

variable (hl : limit ≠ some 0)

include hl

end

end RecordSearch

end MetadataArchive
