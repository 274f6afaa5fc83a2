import MetadataArchive.Proofs.Lifecycle.Category
import MetadataArchive.Proofs.Query.Binding

/-!
# What a search for relationships selects

A search finds its records by the category that their documents carry, and by nothing else: the key
is not looked at. So it selects relationships and nothing but relationships where the category of
every document agrees with its key.
-/

set_option autoImplicit false

namespace MetadataArchive

variable {ts : TypeSystem} {src : Source} {v : Var} {id : DocId}

theorem TypeCategory.name_injective {c c' : TypeCategory} (h : c.name = c'.name) : c = c' := by
  cases c <;> cases c' <;> first | rfl | exact absurd h (by decide)

theorem Value.same_str {w : Value} {s : String} : w.same (.str s) = true ↔ w = .str s := by
  cases w <;> simp [Value.same, Value.totalCompare, Value.rank]

/-! ## The first clause -/

/-- Whatever follows, the rows of a query have what its first clause asks for. -/
theorem Query.evaluate_first {q : Query} {attr s : String} {rest : List Clause} {rows : Rows}
    (hq : q.clauses = .attrEq v attr (.str s) :: rest) (h : q.evaluate src = .ok rows)
    (hid : id ∈ rows.refs v) :
    ∃ d ∈ src.documents, d.id = id ∧ .str s ∈ d.elements attr := by
  obtain ⟨found, hfound, b, hb, hbound⟩ := Query.evaluate_bound h hid
  rw [hq, Clause.evalAll_cons _ _ (by simp)] at hfound
  obtain ⟨first, hfirst, hrest⟩ := bind_eq_ok.1 hfound
  rw [Clause.attrEq, Clause.eval_pattern (Clause.time_of_eval hfirst), List.flatMap_singleton,
    Except.ok.injEq] at hfirst
  subst hfirst
  obtain ⟨b₁, hb₁, hext⟩ := Clause.evalAll_extends hrest b hb
  simp only [matchPattern, Term.candidates, NameMap.get?_empty, List.mem_flatMap] at hb₁
  obtain ⟨d, hd, hb₁⟩ := hb₁
  cases hstored : d.get? attr with
  | none => simp [hstored] at hb₁
  | some stored =>
    simp only [hstored, List.mem_map, List.mem_filterMap] at hb₁
    obtain ⟨b₂, ⟨w, hw, hunify⟩, rfl⟩ := hb₁
    have hsame : w = .str s := by
      by_contra hne
      simp [Term.unify, Value.same_str, hne] at hunify
    have hd' := hext v (.ref d.id) (NameMap.get?_insert_self b₂ v _)
    rw [hbound, Option.some.injEq, Value.ref.injEq] at hd'
    refine ⟨d, hd, hd'.symm, ?_⟩
    simpa [Document.elements, hstored] using hsame ▸ hw

theorem TypeSystem.typeClauses_first {filter : Option TypeFilter} {category : TypeCategory}
    {clauses : List Clause} {candidates : List String}
    (h : ts.typeClauses filter category v = .ok (clauses, candidates)) :
    ∃ rest, clauses = .attrEq v Attr.typeCategory (.str category.name) :: rest := by
  unfold typeClauses at h
  split at h
  · cases h
    exact ⟨_, rfl⟩
  · cases h
    exact ⟨_, rfl⟩
  · simp only [bind_eq_ok, Except.ok.injEq, Prod.mk.injEq] at h
    obtain ⟨_, -, _, -, rfl, -⟩ := h
    exact ⟨_, rfl⟩
  · simp only [bind_eq_ok, Except.ok.injEq, Prod.mk.injEq] at h
    obtain ⟨_, -, rfl, -⟩ := h
    exact ⟨_, rfl⟩

/-- An order adds clauses at the end. -/
theorem Query.clauses_sequence (q : Query) (record : Var) (order : Sequencing)
    (keys : List AttributeKey) :
    ∃ more, (q.sequence record order keys).clauses = q.clauses ++ more := by
  unfold Query.sequence
  split
  next attributes direction _ =>
    refine ⟨[.firstOf record attributes Sequencing.sortVar], ?_⟩
    simp only [Query.project]
    split <;> rfl
  · split <;> exact ⟨[], (List.append_nil _).symm⟩

namespace RelationshipSearch

variable {l : QueryLimits} {entity : Option RecordRef} {search : RelationshipSearch}
variable {plan : SearchPlan}

theorem plan_first (h : search.plan ts l entity = .ok plan) :
    ∃ rest, plan.query.clauses =
      .attrEq plan.record Attr.typeCategory (.str TypeCategory.relationship.name) :: rest := by
  obtain ⟨⟨types, candidates⟩, htypes, h⟩ := bind_eq_ok.1 h
  obtain ⟨first, rfl⟩ := TypeSystem.typeClauses_first htypes
  obtain ⟨text, -, h⟩ := bind_eq_ok.1 h
  cases h
  obtain ⟨more, hmore⟩ := Query.clauses_sequence _ relationshipVar search.sequencing _
  exact ⟨_, hmore⟩

/-- **A search for relationships selects relationships**, if all documents are under the right kind
of key. -/
theorem selects (hsrc : src.Coherent) (hfiled : Filed ts (· = .entity) src.document?)
    {ts' : TypeSystem} {rows : Rows} (hplan : search.plan ts' l entity = .ok plan)
    (hrows : plan.query.evaluate src = .ok rows) (hid : id ∈ rows.refs plan.record) :
    ∃ guid d, id = (RecordRef.relationship guid).docId ∧ src.document? id = some d ∧
      d.OfCategory ts .relationship ∧ ∃ ends, Relationship.ends d = .ok ends := by
  obtain ⟨rest, hfirst⟩ := plan_first hplan
  obtain ⟨d, hd, rfl, hcategory⟩ := Query.evaluate_first hfirst hrows hid
  have hget : src.document? d.id = some d := (hsrc.listed d).1 hd
  cases hfiled _ d hget with
  | entity _ hentity hfit =>
    -- An entity has its own category, and no other beside it.
    subst hfit
    obtain ⟨-, -, -, hown⟩ := hentity
    have hname : TypeCategory.relationship.name = TypeCategory.entity.name := by
      simpa [Document.elements, hown, Value.elements] using hcategory
    cases TypeCategory.name_injective hname
  | relationship hkey hrelationship hends =>
    exact ⟨_, d, hkey, hget, hrelationship, _, hends⟩

end RelationshipSearch

end MetadataArchive
