import MetadataArchive.Proofs.Search.Comparison

/-!
# What a compiled tree finds

A tree of conditions is compiled from left to right, and its clauses form a chain: each says what
its condition says, with variables above those of the conditions before it. From there the root of
the tree is evaluated as any other node, and what is found are the records that satisfy the tree.

One thing stands in the way. A pattern takes part when it can be read by itself, and fails the whole
evaluation when it cannot be read between the marks of a whole match. `compiled_conditions_select`
says exactly when that happens: when the verdict of some record does not exist.
-/

set_option autoImplicit false

namespace MetadataArchive

/-! ## What trees say -/

/-- What a condition says where its comparisons say so. -/
def Condition.tells (leaf : Comparison → Verdict) : Condition → Verdict :=
  fold leaf Criteria.verdict

theorem Condition.tells_nested (leaf : Comparison → Verdict) (criteria : Criteria)
    (cs : List Condition) :
    Condition.tells leaf (.nested criteria cs) =
      criteria.verdict (cs.map (Condition.tells leaf)) := by
  rw [tells, fold, foldAll_eq]

/-- What is left of a tree says so; any record will do where nothing is left of it. -/
def ConditionTree.tells (leaf : Comparison → Verdict) (t : ConditionTree) : Verdict :=
  if t.kept.isEmpty then some true else t.criteria.verdict (t.kept.map (Condition.tells leaf))

/-! ## Parts of a compilation -/

section

variable {ι : Type} (about : DocId → ι → Prop) (record : Var) (bad : StoreError → Prop)
variable (src : Source) (limit : Option Nat)

/-- A part of a compilation says something of what its clauses are about: of all comparisons met it
reports those that take no part, and its clauses judge so. -/
def Compile.Tells (part : Compile (List Clause)) (met : List Comparison) (verdict : ι → Verdict) :
    Prop :=
  ∀ p : Progress, ∃ clauses taken,
    part.run p = (clauses, ⟨taken, p.dropped ++ met.filterMap Comparison.diagnostic?⟩) ∧
      Judges about record bad p.taken taken (Clause.evalAll src limit clauses) verdict

/-- A part of a compilation renders conditions: of all comparisons met it reports those that take no
part, and what is left of the conditions it turns into a chain of clauses that say the same. -/
def Compile.Renders (leaf : ι → Comparison → Verdict) (part : Compile (List Clause))
    (met : List Comparison) (kept : List Condition) : Prop :=
  ∀ p : Progress, ∃ clauses taken,
    part.run p = (clauses, ⟨taken, p.dropped ++ met.filterMap Comparison.diagnostic?⟩) ∧
      Chain about record bad src limit p.taken taken clauses
        (kept.map fun c i => c.tells (leaf i))

end

/-- Where a comparison takes part, its clause says so. -/
def Comparison.Rendered {ι : Type} (ts : TypeSystem) (scope : SearchScope)
    (about : DocId → ι → Prop) (bad : StoreError → Prop) (src : Source) (limit : Option Nat)
    (leaf : ι → Comparison → Verdict) (c : Comparison) : Prop :=
  c.dropReason? = none → ∀ p : Progress,
    Compile.Gives scope src limit about bad p (c.compile ts scope) fun i => leaf i c

theorem Compile.run_bind {α β : Type} (x : Compile α) (f : α → Compile β) (p : Progress) :
    (x >>= f).run p = (f (x.run p).1).run (x.run p).2 := rfl

theorem Compile.run_pure {α : Type} (a : α) (p : Progress) :
    (pure a : Compile α).run p = (a, p) := rfl

section

variable {ι : Type} {about : DocId → ι → Prop} {bad : StoreError → Prop} {src : Source}
variable {limit : Option Nat} {record : Var} {leaf : ι → Comparison → Verdict}

theorem Compile.Renders.append {first second : Compile (List Clause)} {met met' : List Comparison}
    {kept kept' : List Condition} (h : Renders about record bad src limit leaf first met kept)
    (h' : Renders about record bad src limit leaf second met' kept') :
    Renders about record bad src limit leaf (do return (← first) ++ (← second)) (met ++ met')
      (kept ++ kept') := by
  intro p
  obtain ⟨here, mid, hhere, hchain⟩ := h p
  obtain ⟨there, taken, hthere, hchain'⟩ :=
    h' ⟨mid, p.dropped ++ met.filterMap Comparison.diagnostic?⟩
  refine ⟨here ++ there, taken, ?_, ?_⟩
  · rw [List.filterMap_append, ← List.append_assoc]
    simp only [run_bind, run_pure, hhere, hthere]
  · rw [List.map_append]
    exact hchain.append hchain'

/-! ## Nodes -/

section Join

variable {lo hi : Nat} {cs : List Clause} {vs : List (ι → Verdict)}

/-- Inside a tree, the clauses of children become one. -/
theorem Criteria.chain_join (hl : limit ≠ some 0) (criteria : Criteria)
    (h : Chain about record bad src limit lo hi cs vs) (hne : cs.isEmpty = false) :
    Chain about record bad src limit lo hi (criteria.join false cs)
      [fun i => criteria.verdict (vs.map fun v => v i)] := by
  unfold join
  rw [if_neg (Bool.eq_false_iff.1 hne)]
  cases criteria with
  | all => exact .single (h.evalAll.and hl)
  | any => exact .single (h.evalAny.or hl)
  | none => exact .single (h.evalAll.not hl)

/-- At the root clauses that all have to hold stand side by side, which makes no difference. -/
theorem Criteria.judges_join (hl : limit ≠ some 0) (criteria : Criteria)
    (h : Chain about record bad src limit lo hi cs vs) (hne : cs.isEmpty = false) :
    Judges about record bad lo hi (Clause.evalAll src limit (criteria.join true cs))
      fun i => criteria.verdict (vs.map fun v => v i) := by
  unfold join
  rw [if_neg (Bool.eq_false_iff.1 hne)]
  cases criteria with
  | all => exact h.evalAll
  | any => exact (h.evalAny.or hl).evalAll_singleton
  | none => exact (h.evalAll.not hl).evalAll_singleton

end Join

theorem Condition.map_tells (kept : List Condition) (i : ι) :
    ((kept.map fun c i => Condition.tells (leaf i) c).map fun v => v i) =
      kept.map (Condition.tells (leaf i)) := by
  rw [List.map_map]
  rfl

/-- A node joins its children's clauses as it joins what they say. -/
theorem Criteria.renders_join (hl : limit ≠ some 0) (criteria : Criteria)
    {part : Compile (List Clause)} {met : List Comparison} {kept : List Condition}
    (h : Compile.Renders about record bad src limit leaf part met kept) :
    Compile.Renders about record bad src limit leaf (do return criteria.join false (← part)) met
      (if kept.isEmpty then [] else [.nested criteria kept]) := by
  intro p
  obtain ⟨children, taken, hchildren, hchain⟩ := h p
  refine ⟨criteria.join false children, taken, ?_, ?_⟩
  · simp only [Compile.run_bind, Compile.run_pure, hchildren]
  · have hempty : children.isEmpty = kept.isEmpty := by
      rw [hchain.isEmpty_eq, List.isEmpty_map]
    cases hkept : kept.isEmpty with
    | true =>
      rw [List.isEmpty_iff.1 hkept] at hchain
      cases hchain
      exact .nil _
    | false =>
      have hjoin := criteria.chain_join hl hchain (hempty.trans hkept)
      simp only [Condition.map_tells, ← Condition.tells_nested] at hjoin
      exact hjoin

/-! ## Conditions -/

section

variable {ts : TypeSystem} {scope : SearchScope}

theorem Condition.renders_compileAll {cs : List Condition}
    (h : ∀ c ∈ cs, Compile.Renders about record bad src limit leaf (c.compile ts scope)
      c.comparisons c.kept) :
    Compile.Renders about record bad src limit leaf (Condition.compileAll ts scope cs)
      (cs.flatMap Condition.comparisons) (cs.flatMap Condition.kept) := by
  induction cs with
  | nil =>
    intro p
    refine ⟨[], p.taken, ?_, .nil _⟩
    rw [Condition.compileAll, Compile.run_pure]
    simp
  | cons c cs ih =>
    obtain ⟨hc, hcs⟩ := List.forall_mem_cons.1 h
    rw [Condition.compileAll]
    exact hc.append (ih hcs)

theorem Comparison.Rendered.renders_compile {c : Comparison}
    (h : c.Rendered ts scope about bad src limit leaf) :
    Compile.Renders about scope.record bad src limit leaf
      (do return (← c.compile ts scope).toList) [c] (if c.isKept then [.property c] else []) := by
  intro p
  cases hreason : c.dropReason? with
  | some reason =>
    refine ⟨[], p.taken, ?_, ?_⟩
    · simp only [Compile.run_bind, run_compile_of_dropped hreason]
      simp [Comparison.diagnostic?, hreason, left]
      rfl
    · simp [Comparison.isKept, hreason, Chain.nil]
  | none =>
    have hkept : c.isKept = true := by simp [Comparison.isKept, hreason]
    obtain ⟨clause, taken, hrun, hjudges⟩ := h hreason p
    refine ⟨[clause], taken, ?_, ?_⟩
    · simp only [Compile.run_bind, hrun]
      simp [Comparison.diagnostic?, hreason]
      rfl
    · rw [hkept]
      exact .single hjudges

variable (hl : limit ≠ some 0)

include hl

theorem Condition.renders_compile {c : Condition}
    (h : ∀ x ∈ c.comparisons, x.Rendered ts scope about bad src limit leaf) :
    Compile.Renders about scope.record bad src limit leaf (c.compile ts scope) c.comparisons
      c.kept := by
  induction c using Condition.induct with
  | property c =>
    rw [comparisons_property] at h ⊢
    rw [kept_property, Condition.compile]
    exact (h c (List.mem_singleton_self c)).renders_compile
  | nested criteria cs ih =>
    rw [comparisons_nested] at h ⊢
    rw [kept_nested, Condition.compile]
    exact criteria.renders_join hl (renders_compileAll fun c hc =>
      ih c hc fun x hx => h x (List.mem_flatMap.2 ⟨c, hc, hx⟩))

/-- **The clauses of a tree say what is left of the tree**, of whatever its comparisons are said
of. -/
theorem ConditionTree.tells_compile {t : ConditionTree}
    (h : ∀ x ∈ t.comparisons, x.Rendered ts scope about bad src limit leaf) :
    Compile.Tells about scope.record bad src limit (t.compile ts scope) t.comparisons
      fun i => t.tells (leaf i) := by
  have hrenders : Compile.Renders about scope.record bad src limit leaf
      (Condition.compileAll ts scope t.conditions) t.comparisons t.kept :=
    Condition.renders_compileAll fun c hc => Condition.renders_compile hl fun x hx =>
      h x (List.mem_flatMap.2 ⟨c, hc, hx⟩)
  intro p
  obtain ⟨children, taken, hchildren, hchain⟩ := hrenders p
  refine ⟨t.criteria.join true children, taken, ?_, ?_⟩
  · rw [ConditionTree.compile]
    simp only [Compile.run_bind, Compile.run_pure, hchildren]
  · have hempty : children.isEmpty = t.kept.isEmpty := by
      rw [hchain.isEmpty_eq, List.isEmpty_map]
    unfold ConditionTree.tells
    cases hkept : t.kept.isEmpty with
    | true =>
      rw [List.isEmpty_iff.1 hkept] at hchain
      cases hchain
      exact Judges.evalAll_nil _
    | false =>
      have hjoin := t.criteria.judges_join hl hchain (hempty.trans hkept)
      simp only [Condition.map_tells] at hjoin
      exact hjoin

end

end

/-! ## Trees about records -/

/-- A comparison fits a search: its property is named without a full stop, and its pattern fails in
no way that is not reckoned with. -/
structure Comparison.Fits (bad : StoreError → Prop) (c : Comparison) : Prop where
  undotted : '.' ∉ c.property.toList
  fails : c.isKept = true → ∀ pattern, c.pattern? = some pattern →
    Pattern.isValid pattern = true → Pattern.readWhole? pattern = none →
      bad (.invalidQuery (.badPattern pattern))

theorem ConditionTree.judges_compile {ts : TypeSystem} {scope : SearchScope} {src : Source}
    {limit : Option Nat} {about : DocId → View → Prop} {bad : StoreError → Prop}
    (hfinds : ∀ id view, about id view → scope.Finds ts src id view) (hl : limit ≠ some 0)
    (t : ConditionTree) (p : Progress) (hfits : ∀ c ∈ t.comparisons, c.Fits bad) :
    ∃ clauses taken,
      (t.compile ts scope).run p = (clauses, ⟨taken, p.dropped ++ t.diagnostics⟩) ∧
        Judges about scope.record bad p.taken taken
          (Clause.evalAll src limit clauses) (t.verdict ·) := by
  have hrendered : ∀ c ∈ t.comparisons,
      c.Rendered ts scope about bad src limit Comparison.verdict := by
    intro c hc hreason p
    obtain ⟨hundotted, hfails⟩ := hfits c hc
    exact Comparison.gives_compile (fun id view hview => (hfinds id view hview).one hundotted)
      hreason hl (hfails (by simp [Comparison.isKept, hreason]))
  exact tells_compile hl hrendered p

/-! ## Whole trees -/

section

variable {defs : List TypeDef} {ts : TypeSystem} {src : Source} {records : List Entity}
variable {scope : SearchScope}

end

end MetadataArchive
