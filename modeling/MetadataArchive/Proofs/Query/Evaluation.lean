import MetadataArchive.Proofs.Collection.NameMap
import MetadataArchive.Proofs.Failure
import MetadataArchive.Query.Evaluation

/-!
# Evaluation, clause by clause

One equation for each kind of clause, for an evaluation that has any time at all. Everything that is
said about a query is derived from these.
-/

set_option autoImplicit false

namespace MetadataArchive

variable {src : Source} {limit : Option Nat} {bs : List Binding} {b : Binding} {v : Value}

/-! ## Values -/

theorem Value.same_ref {id : DocId} : v.same (.ref id) = true ↔ v = .ref id := by
  cases v <;> simp [Value.same, Value.totalCompare, Value.rank]

/-! ## Patterns -/

/-- What a pattern is matched against in a document: the elements of an attribute. -/
def Document.elements (d : Document) (attr : String) : List Value :=
  ((d.get? attr).map Value.elements).getD []

/-- A pattern finds what an element of one of its documents makes of the binding. -/
theorem mem_matchPattern {entity value : Term} {attr : String} {b' : Binding} :
    b' ∈ matchPattern src entity attr value b ↔
      ∃ d ∈ (entity.candidates src b).2, ∃ e ∈ d.elements attr, ∃ b₁,
        value.unify b e = some b₁ ∧ bindEntity (entity.candidates src b).1 d.id b₁ = b' := by
  rw [matchPattern, List.mem_flatMap]
  refine exists_congr fun d => and_congr_right fun _ => ?_
  cases hv : d.get? attr with
  | none => simp [Document.elements, hv]
  | some stored =>
    simp only [Document.elements, hv, Option.map_some, Option.getD_some, List.mem_map,
      List.mem_filterMap]
    constructor
    · rintro ⟨b₁, ⟨e, he, hunify⟩, hb⟩
      exact ⟨e, he, b₁, hunify, hb⟩
    · rintro ⟨e, he, b₁, hunify, hb⟩
      exact ⟨b₁, ⟨e, he, hunify⟩, hb⟩

/-- A pattern about a document that is known already. -/
theorem matchPattern_of_bound {record : Var} {id : DocId} {d : Document}
    (hid : b.get? record = some (.ref id)) (hd : src.document? id = some d) (attr : String)
    (value : Term) :
    matchPattern src (.var record) attr value b =
      (d.elements attr).filterMap (value.unify b) := by
  have hkeep : bindEntity none d.id = fun b => b := rfl
  simp only [matchPattern, Document.elements, Term.candidates, hid, hd, Option.toList_some,
    List.flatMap_cons, List.flatMap_nil, List.append_nil]
  cases d.get? attr with
  | none => rfl
  | some v => simp [hkeep]

/-! ## Steps -/

section

variable {step : Binding → Except StoreError (List Binding)} {found : List Binding}

theorem extendEach_cons (b : Binding) (bs : List Binding) :
    extendEach step (b :: bs) = (do
      let here ← step b
      let there ← extendEach step bs
      .ok (here ++ there)) := rfl

theorem extendEach_error {e : StoreError} (h : extendEach step bs = .error e) :
    ∃ b ∈ bs, step b = .error e := by
  induction bs with
  | nil => cases h
  | cons b bs ih =>
    rw [extendEach_cons, bind_eq_error] at h
    rcases h with h | ⟨here, -, h⟩
    · exact ⟨b, List.mem_cons_self, h⟩
    · rw [bind_eq_error] at h
      rcases h with h | ⟨there, -, h⟩
      · obtain ⟨b', hb', he⟩ := ih h
        exact ⟨b', List.mem_cons_of_mem _ hb', he⟩
      · cases h

theorem extendEach_ok (h : extendEach step bs = .ok found) :
    (∀ b ∈ bs, ∃ here, step b = .ok here) ∧
      ∀ b', b' ∈ found ↔ ∃ b ∈ bs, ∃ here, step b = .ok here ∧ b' ∈ here := by
  induction bs generalizing found with
  | nil =>
    cases h
    simp
  | cons b bs ih =>
    simp only [extendEach_cons, bind_eq_ok, Except.ok.injEq] at h
    obtain ⟨here, hhere, there, hthere, rfl⟩ := h
    obtain ⟨hall, hmem⟩ := ih hthere
    refine ⟨List.forall_mem_cons.2 ⟨⟨here, hhere⟩, hall⟩, fun b' => ?_⟩
    simp [hmem, hhere]

theorem extendEach_pure (step : Binding → List Binding) (bs : List Binding) :
    extendEach (fun b => .ok (step b)) bs = .ok (bs.flatMap step) := by
  induction bs with
  | nil => rfl
  | cons b bs ih =>
    rw [extendEach_cons, ih]
    rfl

variable {test : Binding → Except StoreError Bool}

theorem keepEach_error {e : StoreError} (h : keepEach test bs = .error e) :
    ∃ b ∈ bs, test b = .error e := by
  obtain ⟨b, hb, he⟩ := extendEach_error h
  rw [bind_eq_error] at he
  rcases he with he | ⟨t, -, he⟩
  · exact ⟨b, hb, he⟩
  · cases t <;> cases he

theorem keepEach_ok (h : keepEach test bs = .ok found) :
    (∀ b ∈ bs, ∃ t, test b = .ok t) ∧ ∀ b, b ∈ found ↔ b ∈ bs ∧ test b = .ok true := by
  obtain ⟨hall, hmem⟩ := extendEach_ok h
  have htest : ∀ b ∈ bs, ∃ t, test b = .ok t := by
    intro b hb
    obtain ⟨here, hhere⟩ := hall b hb
    rw [bind_eq_ok] at hhere
    obtain ⟨t, ht, -⟩ := hhere
    exact ⟨t, ht⟩
  refine ⟨htest, fun b => (hmem b).trans ⟨?_, ?_⟩⟩
  · rintro ⟨b', hb', here, hhere, hb⟩
    rw [bind_eq_ok] at hhere
    obtain ⟨t, ht, hhere⟩ := hhere
    cases t with
    | false =>
      cases hhere
      cases hb
    | true =>
      cases hhere
      rw [List.mem_singleton] at hb
      subst hb
      exact ⟨hb', ht⟩
  · rintro ⟨hb, ht⟩
    exact ⟨b, hb, [b], by rw [ht]; rfl, List.mem_cons_self⟩

end

/-! ## Clauses -/

theorem checkTime_ok (hl : limit ≠ some 0) : checkTime limit = .ok () := if_neg hl

namespace Clause

/-- What each kind of clause makes of bindings where there is time. -/
theorem eval_of_time (hl : limit ≠ some 0) (c : Clause) :
    eval src limit c bs =
      match c with
      | .pattern entity attr value => .ok (bs.flatMap (matchPattern src entity attr value))
      | .firstOf entity attributes bind => extendEach (bindFirst src entity attributes bind) bs
      | .test t => keepEach t.eval bs
      | .and cs => evalAll src limit cs bs
      | .or cs => evalAny src limit cs bs
      | .not cs => keepEach (fun b => do return (← evalAll src limit cs [b]).isEmpty) bs
      | .oneOf v values => .ok (bs.flatMap (bindOneOf v values)) := by
  cases c <;> rw [eval, checkTime_ok hl] <;> rfl

theorem eval_pattern (hl : limit ≠ some 0) (entity : Term) (attr : String) (value : Term) :
    eval src limit (.pattern entity attr value) bs =
      .ok (bs.flatMap (matchPattern src entity attr value)) :=
  eval_of_time hl _

theorem eval_firstOf (hl : limit ≠ some 0) (entity : Var) (attributes : List String) (bind : Var) :
    eval src limit (.firstOf entity attributes bind) bs =
      extendEach (bindFirst src entity attributes bind) bs :=
  eval_of_time hl _

theorem eval_test (hl : limit ≠ some 0) (t : Test) :
    eval src limit (.test t) bs = keepEach t.eval bs :=
  eval_of_time hl _

theorem eval_and (hl : limit ≠ some 0) (cs : List Clause) :
    eval src limit (.and cs) bs = evalAll src limit cs bs :=
  eval_of_time hl _

theorem eval_or (hl : limit ≠ some 0) (cs : List Clause) :
    eval src limit (.or cs) bs = evalAny src limit cs bs :=
  eval_of_time hl _

theorem eval_not (hl : limit ≠ some 0) (cs : List Clause) :
    eval src limit (.not cs) bs =
      keepEach (fun b => do return (← evalAll src limit cs [b]).isEmpty) bs :=
  eval_of_time hl _

theorem evalAll_nil (bs : List Binding) : evalAll src limit [] bs = .ok bs := rfl

theorem evalAll_no_bindings (cs : List Clause) : evalAll src limit cs [] = .ok [] := by
  cases cs <;> simp [evalAll]

theorem evalAll_cons (c : Clause) (cs : List Clause) (hbs : bs ≠ []) :
    evalAll src limit (c :: cs) bs = (do evalAll src limit cs (← eval src limit c bs)) := by
  rw [evalAll, if_neg (by simpa using hbs)]

/-- A pattern in front of other clauses, also where no binding is left. -/
theorem evalAll_pattern (hl : limit ≠ some 0) (entity : Term) (attr : String) (value : Term)
    (cs : List Clause) (bs : List Binding) :
    evalAll src limit (.pattern entity attr value :: cs) bs =
      evalAll src limit cs (bs.flatMap (matchPattern src entity attr value)) := by
  by_cases hbs : bs = []
  · rw [hbs, evalAll_no_bindings, List.flatMap_nil, evalAll_no_bindings]
  · rw [evalAll_cons _ _ hbs, eval_pattern hl, ok_bind]

theorem evalAny_nil (bs : List Binding) : evalAny src limit [] bs = .ok [] := rfl

theorem evalAny_cons (c : Clause) (cs : List Clause) (bs : List Binding) :
    evalAny src limit (c :: cs) bs = (do
      let here ← eval src limit c bs
      let there ← evalAny src limit cs bs
      .ok (here ++ there)) :=
  rfl

mutual

/-- Where there is nothing to go on, there is nothing that could fail. -/
theorem eval_no_bindings (hl : limit ≠ some 0) : ∀ c : Clause, eval src limit c [] = .ok []
  | .pattern entity attr value => eval_pattern hl entity attr value
  | .firstOf entity attributes bind => eval_firstOf hl entity attributes bind
  | .test t => eval_test hl t
  | .and cs => (eval_and hl cs).trans (evalAll_no_bindings cs)
  | .or cs => (eval_or hl cs).trans (evalAny_no_bindings hl cs)
  | .not cs => eval_not hl cs
  | .oneOf v values => eval_of_time hl (.oneOf v values)

theorem evalAny_no_bindings (hl : limit ≠ some 0) :
    ∀ cs : List Clause, evalAny src limit cs [] = .ok []
  | [] => rfl
  | c :: cs => by
    rw [evalAny_cons, eval_no_bindings hl c, evalAny_no_bindings hl cs]
    rfl

end

theorem evalAll_singleton (hl : limit ≠ some 0) (c : Clause) :
    evalAll src limit [c] = eval src limit c := by
  funext bs
  by_cases hbs : bs = []
  · rw [hbs, evalAll_no_bindings, eval_no_bindings hl]
  · rw [evalAll_cons _ _ hbs]
    cases eval src limit c bs <;> rfl

theorem evalAll_test (hl : limit ≠ some 0) (t : Test) (bs : List Binding) :
    evalAll src limit [.test t] bs = keepEach t.eval bs := by
  rw [evalAll_singleton hl, eval_test hl]

end Clause

end MetadataArchive
