import MetadataArchive.Proofs.Query.Binding
import MetadataArchive.Proofs.Search.Category
import MetadataArchive.Proofs.Search.Compilation

/-!
# What the plan of a search is made of

Searches for entities and for relationships have plans of one shape: clauses that say which records
are wanted, and behind them an order and a page. `RecordSearch.compile` is the part that order and
page have nothing to do with, and `RecordSearch.plan_eq` puts a plan together from it.

The clauses mention the variable of the record and numbered ones, and no others, so that the
variable of an order is free when it comes to the order (`RecordSearch.sortVar_not_about`).
-/

set_option autoImplicit false

namespace MetadataArchive

/-! ## Both kinds of searches -/

/-- A search for entities, or for relationships: for those of one entity or for all. -/
inductive RecordSearch where
  | entities (s : EntitySearch)
  | relationships (entity : Option RecordRef) (s : RelationshipSearch)

/-- The clauses of a search, where they are to be met, and what was left out. -/
structure Compiled where
  scope : SearchScope
  clauses : List Clause
  dropped : List Diagnostic

namespace RecordSearch

def category : RecordSearch → TypeCategory
  | entities _ => .entity
  | relationships _ _ => .relationship

def space : RecordSearch → PropertySpace
  | entities _ => .entity
  | relationships _ _ => .relationship

def record : RecordSearch → Var
  | entities _ => entityVar
  | relationships _ _ => relationshipVar

def types : RecordSearch → Option TypeFilter
  | entities s => s.types
  | relationships _ s => s.types

def properties : RecordSearch → Option ConditionTree
  | entities s => s.properties
  | relationships _ s => s.properties

/-- Relationships carry no classifications. -/
def classifications : RecordSearch → Option ClassificationConditions
  | entities s => s.classifications
  | relationships _ _ => none

def status : RecordSearch → StatusFilter
  | entities s => s.status
  | relationships _ s => s.status

def text : RecordSearch → Option String
  | entities s => s.text
  | relationships _ s => s.text

def sequencing : RecordSearch → Sequencing
  | entities s => s.sequencing
  | relationships _ s => s.sequencing

def paging : RecordSearch → Paging
  | entities s => s.paging
  | relationships _ s => s.paging

/-- The search in another order, and for another page. -/
def arranged (order : Sequencing) (p : Paging) : RecordSearch → RecordSearch
  | entities s => entities { s with sequencing := order, paging := p }
  | relationships entity s => relationships entity { s with sequencing := order, paging := p }

/-- What is asked for that searches of the other kind do not ask for. -/
def own : RecordSearch → List Clause
  | entities _ => [.attrEq entityVar Attr.isProxy (.bool false)]
  | relationships entity _ => entity.toList.map (touches relationshipVar)

def conditions (ts : TypeSystem) (scope : SearchScope) (search : RecordSearch) :
    Compile (List Clause) := do
  let properties ← search.properties.elim (pure []) (ConditionTree.compile ts scope)
  let classifications ←
    search.classifications.elim (pure []) (ClassificationConditions.compile ts scope.record)
  return properties ++ classifications

def plan (ts : TypeSystem) (l : QueryLimits) : RecordSearch → Except SearchError SearchPlan
  | entities s => s.plan ts l
  | relationships entity s => s.plan ts l entity

/-- The clauses of a search, without order and page. -/
def compile (ts : TypeSystem) (search : RecordSearch) : Except SearchError Compiled := do
  let (types, candidates) ← ts.typeClauses search.types search.category search.record
  let scope : SearchScope := ⟨search.record, search.space, candidates⟩
  let (conditions, progress) := (search.conditions ts scope).run .start
  let text ← scope.textClauses ts progress.nextVar search.text
  .ok ⟨scope, types ++ search.own ++ search.status.clauses search.record ++ conditions ++ text,
    progress.dropped⟩

end RecordSearch

/-- The query of compiled clauses in an order. -/
def Compiled.query (ts : TypeSystem) (c : Compiled) (order : Sequencing) : Query :=
  ((Query.of c.scope.record).extend c.clauses).sequence c.scope.record order
    (order.keys ts c.scope)

/-- A page of what compiled clauses find. -/
def Compiled.plan (ts : TypeSystem) (l : QueryLimits) (order : Sequencing) (p : Paging)
    (c : Compiled) : SearchPlan :=
  ⟨(c.query ts order).paged p l, c.scope.record, c.dropped⟩

namespace RecordSearch

variable {ts : TypeSystem} {l : QueryLimits} {search : RecordSearch} {c : Compiled}
variable {order : Sequencing} {p : Paging} {x record : Var}

theorem conditions_entities (s : EntitySearch) (scope : SearchScope) :
    (entities s).conditions ts scope = s.conditions ts scope := by
  obtain ⟨types, properties, classifications, rest⟩ := s
  cases properties <;> cases classifications <;> rfl

theorem conditions_relationships (entity : Option RecordRef) (s : RelationshipSearch)
    (scope : SearchScope) :
    (relationships entity s).conditions ts scope =
      match s.properties with
      | none => pure []
      | some tree => tree.compile ts scope := by
  obtain ⟨types, properties, rest⟩ := s
  cases properties with
  | none => rfl
  | some tree =>
    refine funext fun p => ?_
    show ((tree.compile ts scope).run p).map (· ++ []) id = _
    simp only [List.append_nil]
    rfl

/-- **A plan is made of compiled clauses, an order and a page.** -/
theorem plan_eq (search : RecordSearch) :
    search.plan ts l = (search.compile ts).map (Compiled.plan ts l search.sequencing
      search.paging) := by
  cases search with
  | entities s =>
    simp only [plan, EntitySearch.plan, compile, types, category, record, space, text,
      conditions_entities]
    cases ts.typeClauses s.types .entity entityVar with
    | error e => rfl
    | ok found =>
      simp only [ok_bind]
      generalize StateT.run _ _ = compiled
      rcases compiled with ⟨cs, progress⟩
      dsimp only
      cases SearchScope.textClauses ts ⟨entityVar, .entity, found.2⟩ progress.nextVar s.text <;> rfl
  | relationships entity s =>
    simp only [plan, RelationshipSearch.plan, compile, types, category, record, space, text,
      conditions_relationships]
    cases ts.typeClauses s.types .relationship relationshipVar with
    | error e => rfl
    | ok found =>
      simp only [ok_bind]
      generalize StateT.run _ _ = compiled
      rcases compiled with ⟨cs, progress⟩
      dsimp only
      cases SearchScope.textClauses ts ⟨relationshipVar, .relationship, found.2⟩ progress.nextVar
        s.text <;> rfl

/-- Neither the order nor the page has a part in the clauses. -/
@[simp] theorem compile_arranged : (search.arranged order p).compile ts = search.compile ts := by
  cases search <;> rfl

theorem plan_arranged (h : search.compile ts = .ok c) :
    (search.arranged order p).plan ts l = .ok (c.plan ts l order p) := by
  rw [plan_eq, compile_arranged, h]
  cases search <;> rfl

end RecordSearch

/-! ## Variables -/

/-- A variable that clauses about a record may mention: its own, or a numbered one. -/
def Var.About (record x : Var) : Prop := x = record ∨ ∃ n, x = Var.numbered n

/-- Clauses mention the variable of a record and numbered ones, and no others. -/
def Clause.Plain (record : Var) (cs : List Clause) : Prop :=
  ∀ x ∈ Clause.varsAll cs, Var.About record x

namespace Clause

variable {record x : Var} {cs cs' : List Clause} {c : Clause}

theorem varsAll_singleton (c : Clause) : varsAll [c] = c.vars := List.append_nil _

theorem vars_disjunction (cs : List Clause) : (disjunction cs).vars = varsAll cs := by
  match cs with
  | [] => rfl
  | [c] => exact (varsAll_singleton c).symm
  | _ :: _ :: _ => rfl

theorem vars_conjunction (cs : List Clause) : (conjunction cs).vars = varsAll cs := by
  match cs with
  | [] => rfl
  | [c] => exact (varsAll_singleton c).symm
  | _ :: _ :: _ => rfl

theorem plain_nil : Plain record [] := fun _ hx => by cases hx

theorem plain_cons : Plain record (c :: cs) ↔ Plain record [c] ∧ Plain record cs := by
  simp only [Plain, varsAll, List.append_nil, List.forall_mem_append]

theorem Plain.append (h : Plain record cs) (h' : Plain record cs') : Plain record (cs ++ cs') := by
  induction cs with
  | nil => exact h'
  | cons c cs ih =>
    obtain ⟨hc, hcs⟩ := plain_cons.1 h
    exact plain_cons.2 ⟨hc, ih hcs⟩

theorem plain_map {α : Type} {f : α → Clause} (h : ∀ a, Plain record [f a]) (as : List α) :
    Plain record (as.map f) := by
  induction as with
  | nil => exact plain_nil
  | cons a as ih => exact plain_cons.2 ⟨h a, ih⟩

theorem Plain.and (h : Plain record cs) : Plain record [.and cs] := by
  rwa [Plain, varsAll_singleton, vars]

theorem Plain.or (h : Plain record cs) : Plain record [.or cs] := by
  rwa [Plain, varsAll_singleton, vars]

theorem Plain.not (h : Plain record cs) : Plain record [.not cs] := by
  rwa [Plain, varsAll_singleton, vars]

theorem Plain.disjunction (h : Plain record cs) : Plain record [.disjunction cs] := by
  rwa [Plain, varsAll_singleton, vars_disjunction]

theorem Plain.conjunction (h : Plain record cs) : Plain record [.conjunction cs] := by
  rwa [Plain, varsAll_singleton, vars_conjunction]

theorem plain_attrEq (a : String) (v : Value) : Plain record [.attrEq record a v] :=
  fun _ hx => Or.inl (List.mem_singleton.1 hx)

theorem plain_attrBind (a : String) (n : Nat) :
    Plain record [.attrBind record a (Var.numbered n)] := by
  intro x hx
  rcases List.mem_pair.1 hx with rfl | rfl
  · exact Or.inl rfl
  · exact Or.inr ⟨n, rfl⟩

theorem plain_firstOf (attributes : List String) (n : Nat) :
    Plain record [.firstOf record attributes (Var.numbered n)] := by
  intro x hx
  rcases List.mem_pair.1 hx with rfl | rfl
  · exact Or.inl rfl
  · exact Or.inr ⟨n, rfl⟩

theorem plain_test {t : Test} {n : Nat} (ht : t.var = Var.numbered n) :
    Plain record [.test t] :=
  fun _ hx => Or.inr ⟨n, (List.mem_singleton.1 hx).trans ht⟩

theorem plain_bindAndTest {t : Test} {n : Nat} (ht : t.var = Var.numbered n)
    (attributes : List String) :
    Plain record [bindAndTest record attributes (Var.numbered n) t] :=
  (plain_map (fun a => (plain_cons.2 ⟨plain_attrBind a n, plain_test ht⟩).and) _).disjunction

theorem plain_hasAll (attributes : List String) (values : List Value) :
    Plain record [hasAll record attributes values] :=
  (plain_map (fun a => (plain_map (fun v => plain_attrEq a v) _).conjunction) _).disjunction

theorem plain_firstPasses {t : Test} {n : Nat} (ht : t.var = Var.numbered n)
    (attributes : List String) :
    Plain record [firstPasses record attributes (Var.numbered n) t] :=
  (plain_cons.2 ⟨plain_firstOf attributes n, plain_test ht⟩).and

end Clause

open Clause

/-! ## Compiled conditions -/

section

variable {ts : TypeSystem} {scope : SearchScope}

theorem Comparison.plain_equality (property : String) (v : PropertyValue) (p : Progress) :
    Plain scope.record ((equality ts scope property v).run p).1.toList := by
  by_cases h : v.leaves = []
  · rw [run_equality_of_empty h]
    exact plain_nil
  · rw [run_equality h]
    exact plain_hasAll _ _

theorem Comparison.plain_range (property : String) (op : CompareOp) (v : PropertyValue)
    (p : Progress) : Plain scope.record ((range ts scope property op v).run p).1.toList := by
  cases h : v.isCollection with
  | true =>
    rw [run_range_of_collection op h]
    exact plain_nil
  | false =>
    rw [run_range op h]
    exact plain_bindAndTest rfl _

theorem Comparison.plain_like (property : String) (v : PropertyValue) (p : Progress) :
    Plain scope.record ((like ts scope property v).run p).1.toList := by
  cases hv : v.asStr? with
  | none =>
    rw [run_like_of_notText hv]
    exact plain_nil
  | some pattern =>
    cases h : Pattern.isValid pattern with
    | false =>
      rw [run_like_of_invalid hv h]
      exact plain_nil
    | true =>
      rw [run_like hv h]
      exact plain_bindAndTest rfl _

theorem Comparison.plain_compile (c : Comparison) (p : Progress) :
    Plain scope.record ((c.compile ts scope).run p).1.toList := by
  obtain ⟨property, operator, value⟩ := c
  have hnull (test : Var → Test) (hvar : ∀ x, (test x).var = x) :
      Plain scope.record ((nullTest ts scope property test).run p).1.toList :=
    plain_firstPasses (hvar _) _
  cases value with
  | none =>
    cases operator with
    | isNull => exact hnull .isNull fun _ => rfl
    | notNull => exact hnull .notNull fun _ => rfl
    | _ => exact plain_nil
  | some v =>
    cases operator with
    | isNull => exact hnull .isNull fun _ => rfl
    | notNull => exact hnull .notNull fun _ => rfl
    | eq => exact plain_equality property v p
    | neq =>
      have h : Plain scope.record ((equality ts scope property v).run p).1.toList :=
        plain_equality property v p
      rw [run_neq]
      cases heq : ((equality ts scope property v).run p).1 with
      | none => exact plain_nil
      | some eq => exact Plain.not (by rwa [heq] at h)
    | like => exact plain_like property v p
    | gt => exact plain_range property .gt v p
    | gte => exact plain_range property .gte v p
    | lt => exact plain_range property .lt v p
    | lte => exact plain_range property .lte v p

theorem Criteria.plain_join {record : Var} {cs : List Clause} (criteria : Criteria) (root : Bool)
    (h : Plain record cs) : Plain record (criteria.join root cs) := by
  unfold join
  split
  · exact plain_nil
  · cases criteria with
    | all =>
      cases root with
      | true => exact h
      | false => exact h.and
    | any => exact h.or
    | none => exact h.not

theorem Condition.plain_compileAll {cs : List Condition}
    (h : ∀ c ∈ cs, ∀ p, Plain scope.record ((c.compile ts scope).run p).1) (p : Progress) :
    Plain scope.record ((Condition.compileAll ts scope cs).run p).1 := by
  induction cs generalizing p with
  | nil => exact plain_nil
  | cons c cs ih =>
    obtain ⟨hc, hcs⟩ := List.forall_mem_cons.1 h
    exact (hc p).append (ih hcs _)

theorem Condition.plain_compile (c : Condition) (p : Progress) :
    Plain scope.record ((c.compile ts scope).run p).1 := by
  induction c using Condition.induct generalizing p with
  | property c => exact c.plain_compile p
  | nested criteria cs ih => exact criteria.plain_join false (plain_compileAll ih p)

theorem ConditionTree.plain_compile (t : ConditionTree) (p : Progress) :
    Plain scope.record ((t.compile ts scope).run p).1 :=
  t.criteria.plain_join true (Condition.plain_compileAll (fun c _ => c.plain_compile) p)

theorem ClassificationCondition.plain_compile {record : Var} (c : ClassificationCondition)
    (p : Progress) : Plain record ((c.compile ts record).run p).1 := by
  have hlisted : Plain record [.attrEq record Attr.classifications (.str c.name)] :=
    plain_attrEq _ _
  unfold ClassificationCondition.compile
  cases c.properties with
  | none => exact hlisted
  | some tree => exact plain_cons.2 ⟨hlisted, tree.plain_compile p⟩

theorem ClassificationConditions.plain_compile {record : Var} (cs : ClassificationConditions)
    (p : Progress) : Plain record ((cs.compile ts record).run p).1 := by
  have hchildren (conditions : List ClassificationCondition) (p : Progress) :
      ∀ child ∈ ((conditions.mapM (ClassificationCondition.compile ts record)).run p).1,
        Plain record child := by
    induction conditions generalizing p with
    | nil => exact fun _ h => by cases h
    | cons c conditions ih =>
      rw [List.mapM_cons]
      exact List.forall_mem_cons.2 ⟨c.plain_compile p, ih _⟩
  have hflatten {children : List (List Clause)} (h : ∀ child ∈ children, Plain record child) :
      Plain record children.flatten := by
    induction children with
    | nil => exact plain_nil
    | cons child children ih =>
      obtain ⟨hchild, hrest⟩ := List.forall_mem_cons.1 h
      exact hchild.append (ih hrest)
  have hconjunctions {children : List (List Clause)}
      (h : ∀ child ∈ children, Plain record child) :
      Plain record (children.map Clause.conjunction) := by
    induction children with
    | nil => exact plain_nil
    | cons child children ih =>
      obtain ⟨hchild, hrest⟩ := List.forall_mem_cons.1 h
      exact plain_cons.2 ⟨hchild.conjunction, ih hrest⟩
  have h := hchildren cs.conditions p
  rw [ClassificationConditions.compile, Compile.run_bind]
  split
  · exact plain_nil
  · cases cs.criteria with
    | all => exact hflatten h
    | any => exact (hconjunctions h).or
    | none => exact (hflatten h).not

end

/-! ## Compiled searches -/

section

variable {ts : TypeSystem} {record : Var}

theorem TypeSystem.plain_typeClauses {filter : Option TypeFilter} {category : TypeCategory}
    {clauses : List Clause} {candidates : List String}
    (h : ts.typeClauses filter category record = .ok (clauses, candidates)) :
    Plain record clauses := by
  unfold typeClauses at h
  split at h
  · cases h
    exact plain_attrEq _ _
  · cases h
    exact plain_attrEq _ _
  · simp only [bind_eq_ok, Except.ok.injEq, Prod.mk.injEq] at h
    obtain ⟨_, -, _, -, rfl, -⟩ := h
    exact plain_cons.2 ⟨plain_attrEq _ _, plain_attrEq _ _⟩
  · simp only [bind_eq_ok, Except.ok.injEq, Prod.mk.injEq] at h
    obtain ⟨_, -, rfl, -⟩ := h
    exact plain_cons.2 ⟨plain_attrEq _ _, (plain_map (fun _ => plain_attrEq _ _) _).disjunction⟩

theorem StatusFilter.plain_clauses (f : StatusFilter) : Plain record (f.clauses record) := by
  unfold clauses
  split
  · exact plain_nil
  · exact (plain_attrEq _ _).not
  · exact (plain_attrEq _ _).not
  · exact (plain_map (fun _ => plain_attrEq _ _) _).disjunction

theorem SearchScope.plain_textClauses {scope : SearchScope} {n : Nat} {text : Option String}
    {clauses : List Clause} (h : scope.textClauses ts (Var.numbered n) text = .ok clauses) :
    Plain scope.record clauses := by
  cases text with
  | none =>
    cases h
    exact plain_nil
  | some pattern =>
    rw [textClauses, map_eq_ok] at h
    obtain ⟨c, hc, rfl⟩ := h
    unfold textClause at hc
    split at hc
    · obtain ⟨attributes, -, rfl⟩ := map_eq_ok.1 hc
      exact plain_bindAndTest rfl _
    · cases hc

/-- The variable of an order is not numbered. -/
theorem Var.not_about_sort {record : Var} (h : Sequencing.sortVar ≠ record) :
    ¬ About record Sequencing.sortVar := by
  rintro (heq | ⟨n, heq⟩)
  · exact h heq
  · have hsort : Sequencing.sortVar = "?" ++ "sort" := by decide
    have hlist := congrArg String.toList (hsort.symm.trans (heq.trans (Var.numbered_eq n)))
    simp [String.toList_append] at hlist

namespace RecordSearch

variable {search : RecordSearch} {c : Compiled}

theorem plain_own (search : RecordSearch) : Plain search.record search.own := by
  cases search with
  | entities s => exact plain_attrEq _ _
  | relationships entity s =>
    exact plain_map (fun r => plain_cons.2 ⟨plain_attrEq _ _, plain_attrEq _ _⟩ |>.or) _

theorem plain_conditions {scope : SearchScope} (hrecord : scope.record = search.record)
    (p : Progress) : Plain search.record ((search.conditions ts scope).run p).1 := by
  rw [← hrecord, conditions, Compile.run_bind, Compile.run_bind]
  refine Plain.append ?_ ?_
  · cases search.properties with
    | none => exact plain_nil
    | some tree => exact tree.plain_compile p
  · cases search.classifications with
    | none => exact plain_nil
    | some cs => exact cs.plain_compile _

/-- **What a compiled search is**: it binds its record by the category, and mentions no variables
but that of the record and numbered ones. -/
theorem compile_ok (h : search.compile ts = .ok c) :
    c.scope.record = search.record ∧ Plain search.record c.clauses ∧
      ∃ rest, c.clauses =
        .attrEq search.record Attr.typeCategory (.str search.category.name) :: rest := by
  obtain ⟨⟨types, candidates⟩, htypes, h⟩ := bind_eq_ok.1 h
  obtain ⟨text, htext, h⟩ := bind_eq_ok.1 h
  cases h
  obtain ⟨rest, rfl⟩ := TypeSystem.typeClauses_first htypes
  refine ⟨rfl, ?_, _, rfl⟩
  exact ((((TypeSystem.plain_typeClauses htypes).append search.plain_own).append
    search.status.plain_clauses).append (plain_conditions rfl _)).append
      (SearchScope.plain_textClauses htext)

/-- The variable of an order is not among those of the search. -/
theorem sortVar_not_about (search : RecordSearch) : ¬ Var.About search.record Sequencing.sortVar := by
  refine Var.not_about_sort ?_
  cases search with
  | entities s => exact (by decide : Sequencing.sortVar ≠ entityVar)
  | relationships entity s => exact (by decide : Sequencing.sortVar ≠ relationshipVar)

end RecordSearch

end

end MetadataArchive
