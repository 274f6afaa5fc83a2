import MetadataArchive.Proofs.Fact.Exact
import MetadataArchive.Proofs.Query.Binding
import MetadataArchive.Proofs.Store.Staging

/-!
# The order in which a source lists its documents

Two sources that have the same documents may list them in different orders. What a clause finds then
comes in different orders as well, and not more: at each step the same bindings are there
(`Binding.Alike`), and either both evaluations fail or neither does (`Clause.eval_alike`). Rows are
taken once and put in order, so nothing is left of it in an answer (`Query.evaluate_congr`), if
equal rows are the same row; for that the documents and the query are without doubles.
-/

set_option autoImplicit false

namespace MetadataArchive

/-- No attribute of a document has a double in it. -/
def Document.Exact (d : Document) : Prop := ∀ attr v, d.get? attr = some v → v.isExact = true

/-- All that is bound is without doubles. -/
def Binding.Exact (b : Binding) : Prop := ∀ x v, b.get? x = some v → v.isExact = true

/-- Two sources with the same documents, all without doubles. -/
structure Source.Twins (src src' : Source) : Prop where
  coherent : src.Coherent
  coherent' : src'.Coherent
  shows : src.document? = src'.document?
  exact : ∀ id d, src.document? id = some d → d.Exact

/-- The same bindings, however often and in whatever order, all without doubles. -/
structure Binding.Alike (bs bs' : List Binding) : Prop where
  mem : ∀ b, b ∈ bs ↔ b ∈ bs'
  exact : ∀ b ∈ bs, b.Exact

/-- Both evaluations fail, or both find the same bindings. -/
inductive AlikeResults :
    Except StoreError (List Binding) → Except StoreError (List Binding) → Prop
  | ok {bs bs' : List Binding} (h : Binding.Alike bs bs') : AlikeResults (.ok bs) (.ok bs')
  | error (e e' : StoreError) : AlikeResults (.error e) (.error e')

variable {src src' : Source} {limit : Option Nat} {b b' : Binding} {bs bs' : List Binding}
variable {r r' : Except StoreError (List Binding)} {v : Value} {x : Var}

theorem Source.Twins.symm (h : src.Twins src') : src'.Twins src :=
  ⟨h.coherent', h.coherent, h.shows.symm, fun id d hd => h.exact id d (by rw [h.shows, hd])⟩

theorem Source.Twins.mem_documents (h : src.Twins src') (d : Document) :
    d ∈ src.documents ↔ d ∈ src'.documents := by
  rw [h.coherent.listed, h.coherent'.listed, h.shows]

namespace Binding

theorem Exact.empty : Exact ∅ := fun _ _ h => by cases h

theorem Exact.insert (h : b.Exact) (hv : v.isExact = true) : Binding.Exact (b.insert x v) := by
  intro y w hw
  rw [NameMap.get?_insert] at hw
  split at hw
  · exact Option.some.inj hw ▸ hv
  · exact h y w hw

namespace Alike

theorem symm (h : Alike bs bs') : Alike bs' bs :=
  ⟨fun b => (h.mem b).symm, fun b hb => h.exact b ((h.mem b).2 hb)⟩

theorem self (h : ∀ b ∈ bs, b.Exact) : Alike bs bs := ⟨fun _ => .rfl, h⟩

theorem eq_nil_iff (h : Alike bs bs') : bs = [] ↔ bs' = [] := by
  simp only [List.eq_nil_iff_forall_not_mem, h.mem]

theorem append {cs cs' : List Binding} (h : Alike bs bs') (h' : Alike cs cs') :
    Alike (bs ++ cs) (bs' ++ cs') :=
  ⟨fun b => by simp only [List.mem_append, h.mem, h'.mem],
    List.forall_mem_append.2 ⟨h.exact, h'.exact⟩⟩

end Alike

end Binding

open Binding

/-! ## Steps -/

namespace AlikeResults

theorem symm (h : AlikeResults r r') : AlikeResults r' r := by
  cases h with
  | ok h => exact .ok h.symm
  | error e e' => exact .error e' e

theorem bind {f f' : List Binding → Except StoreError (List Binding)} (h : AlikeResults r r')
    (hf : ∀ bs bs', Alike bs bs' → AlikeResults (f bs) (f' bs')) :
    AlikeResults (r >>= f) (r' >>= f') := by
  cases h with
  | ok h => exact hf _ _ h
  | error e e' => exact .error e e'

variable {step step' : Binding → Except StoreError (List Binding)}

/-- An evaluation does not fail where the other finds something. -/
theorem extendEach_ok_of_ok (hstep : ∀ b, b.Exact → AlikeResults (step b) (step' b))
    (h : Alike bs bs') {found : List Binding} (hr : extendEach step bs = .ok found) :
    ∃ found', extendEach step' bs' = .ok found' := by
  cases hr' : extendEach step' bs' with
  | ok found' => exact ⟨found', rfl⟩
  | error e =>
    obtain ⟨b, hb, he⟩ := extendEach_error hr'
    have hb' : b ∈ bs := (h.mem b).2 hb
    obtain ⟨here, hhere⟩ := (extendEach_ok hr).1 b hb'
    have halike := hstep b (h.exact b hb')
    rw [hhere, he] at halike
    cases halike

/-- Steps that are alike go together. -/
theorem extendEach (hstep : ∀ b, b.Exact → AlikeResults (step b) (step' b)) (h : Alike bs bs') :
    AlikeResults (MetadataArchive.extendEach step bs) (MetadataArchive.extendEach step' bs') := by
  have hstep' (b : Binding) (hb : b.Exact) : AlikeResults (step' b) (step b) := (hstep b hb).symm
  cases hr : MetadataArchive.extendEach step bs with
  | error e =>
    cases hr' : MetadataArchive.extendEach step' bs' with
    | error e' => exact .error e e'
    | ok found' =>
      obtain ⟨found, hfound⟩ := extendEach_ok_of_ok hstep' h.symm hr'
      rw [hr] at hfound
      cases hfound
  | ok found =>
    obtain ⟨found', hr'⟩ := extendEach_ok_of_ok hstep h hr
    rw [hr']
    have hhere {b : Binding} {here here' : List Binding} (hb : b ∈ bs) (hs : step b = .ok here)
        (hs' : step' b = .ok here') : Alike here here' := by
      have halike := hstep b (h.exact b hb)
      rw [hs, hs'] at halike
      cases halike with
      | ok halike => exact halike
    refine .ok ⟨fun b => ?_, fun b hb => ?_⟩
    · rw [(extendEach_ok hr).2, (extendEach_ok hr').2]
      constructor
      · rintro ⟨b₀, hb₀, here, hs, hb⟩
        have hb₀' : b₀ ∈ bs' := (h.mem b₀).1 hb₀
        obtain ⟨here', hs'⟩ := (extendEach_ok hr').1 b₀ hb₀'
        exact ⟨b₀, hb₀', here', hs', ((hhere hb₀ hs hs').mem b).1 hb⟩
      · rintro ⟨b₀, hb₀', here', hs', hb⟩
        have hb₀ : b₀ ∈ bs := (h.mem b₀).2 hb₀'
        obtain ⟨here, hs⟩ := (extendEach_ok hr).1 b₀ hb₀
        exact ⟨b₀, hb₀, here, hs, ((hhere hb₀ hs hs').mem b).2 hb⟩
    · obtain ⟨b₀, hb₀, here, hs, hb⟩ := ((extendEach_ok hr).2 b).1 hb
      obtain ⟨here', hs'⟩ := (extendEach_ok hr').1 b₀ ((h.mem b₀).1 hb₀)
      exact (hhere hb₀ hs hs').exact b hb

theorem flatMap {step step' : Binding → List Binding}
    (hstep : ∀ b, b.Exact → Alike (step b) (step' b)) (h : Alike bs bs') :
    AlikeResults (.ok (bs.flatMap step)) (.ok (bs'.flatMap step')) := by
  rw [← extendEach_pure, ← extendEach_pure]
  exact extendEach (fun b hb => .ok (hstep b hb)) h

/-- Tests that fail together, and else come to the same, keep the same. -/
theorem keepEach {test test' : Binding → Except StoreError Bool}
    (htest : ∀ b, b.Exact → (∃ t, test b = .ok t ∧ test' b = .ok t) ∨
      ∃ e e', test b = .error e ∧ test' b = .error e') (h : Alike bs bs') :
    AlikeResults (MetadataArchive.keepEach test bs) (MetadataArchive.keepEach test' bs') := by
  refine extendEach (fun b hb => ?_) h
  rcases htest b hb with ⟨t, ht, ht'⟩ | ⟨e, e', he, he'⟩
  · rw [ht, ht']
    cases t with
    | true => exact .ok (.self (List.forall_mem_singleton.2 hb))
    | false => exact .ok (.self (by simp))
  · rw [he, he']
    exact .error e e'

end AlikeResults

theorem Document.Exact.elements {d : Document} (h : d.Exact) {attr : String} {e : Value}
    (he : e ∈ d.elements attr) : e.isExact = true := by
  unfold Document.elements at he
  cases hv : d.get? attr with
  | none => simp [hv] at he
  | some v =>
    rw [hv] at he
    exact Value.isExact_of_mem_elements (h attr v hv) e he

/-- A pattern is about one document that is looked up, about none, or about all. -/
theorem Term.candidates_cases (term : Term) (b : Binding) :
    (∃ id, ∀ src, term.candidates src b = (none, (src.document? id).toList)) ∨
      (∀ src, term.candidates src b = (none, [])) ∨
      ∃ x, ∀ src, term.candidates src b = (some x, src.documents) := by
  cases term with
  | const c =>
    cases c with
    | ref id => exact Or.inl ⟨id, fun _ => rfl⟩
    | _ => exact Or.inr (Or.inl fun _ => rfl)
  | var x =>
    simp only [candidates]
    cases b.get? x with
    | none => exact Or.inr (Or.inr ⟨x, fun _ => rfl⟩)
    | some w =>
      cases w with
      | ref id => exact Or.inl ⟨id, fun _ => rfl⟩
      | _ => exact Or.inr (Or.inl fun _ => rfl)

theorem Source.Twins.candidates (h : src.Twins src') (term : Term) (b : Binding) :
    (term.candidates src b).1 = (term.candidates src' b).1 ∧
      (∀ d, d ∈ (term.candidates src b).2 ↔ d ∈ (term.candidates src' b).2) ∧
      ∀ d ∈ (term.candidates src b).2, d.Exact := by
  rcases term.candidates_cases b with ⟨id, hid⟩ | hnone | ⟨x, hall⟩
  · rw [hid, hid, h.shows]
    exact ⟨rfl, fun _ => .rfl, fun d hd => h.symm.exact id d (Option.mem_toList.1 hd)⟩
  · rw [hnone, hnone]
    exact ⟨rfl, fun _ => .rfl, by simp⟩
  · rw [hall, hall]
    exact ⟨rfl, h.mem_documents, fun d hd => h.exact d.id d ((h.coherent.listed d).1 hd)⟩

theorem Binding.Exact.bindEntity (h : b.Exact) (entity : Option Var) (id : DocId) :
    (MetadataArchive.bindEntity entity id b).Exact := by
  cases entity with
  | none => exact h
  | some x => exact h.insert rfl

theorem Binding.Exact.unify (h : b.Exact) {term : Term} (hv : v.isExact = true)
    (hb' : term.unify b v = some b') : b'.Exact := by
  rcases Term.unify_cases hb' with rfl | ⟨x, -, -, rfl⟩
  · exact h
  · exact h.insert hv

theorem alike_matchPattern (h : src.Twins src') (entity : Term) (attr : String) (value : Term)
    (hb : b.Exact) :
    Alike (matchPattern src entity attr value b) (matchPattern src' entity attr value b) := by
  obtain ⟨hvar, hdocs, hexact⟩ := h.candidates entity b
  refine ⟨fun b' => ?_, fun b' hb' => ?_⟩
  · rw [mem_matchPattern, mem_matchPattern, hvar]
    exact exists_congr fun d => and_congr_left fun _ => hdocs d
  · obtain ⟨d, hd, e, he, b₁, hunify, rfl⟩ := mem_matchPattern.1 hb'
    exact (hb.unify ((hexact d hd).elements he) hunify).bindEntity _ _

theorem isExact_firstValue (h : src.Twins src') (id : DocId) (attributes : List String) :
    (firstValue src id attributes).isExact = true := by
  unfold firstValue
  split
  · rfl
  next d hd =>
    cases hfind : attributes.findSome? d.get? with
    | none => rfl
    | some v =>
      obtain ⟨attr, -, hv⟩ := List.exists_of_findSome?_eq_some hfind
      exact h.exact id d hd attr v hv

theorem alike_bindFirst (h : src.Twins src') (entity : Var) (attributes : List String) (bind : Var)
    (hb : b.Exact) :
    AlikeResults (bindFirst src entity attributes bind b)
      (bindFirst src' entity attributes bind b) := by
  have hsame (id : DocId) : firstValue src' id attributes = firstValue src id attributes := by
    rw [firstValue, firstValue, h.shows]
  unfold bindFirst
  simp only [hsame]
  split
  · exact .error _ _
  next id _ =>
    split
    · exact .ok (.self (List.forall_mem_singleton.2 (hb.insert (isExact_firstValue h id attributes))))
    · split
      · exact .ok (.self (List.forall_mem_singleton.2 hb))
      · exact .ok (.self (by simp))
  · exact .ok (.self (by simp))

theorem alike_bindOneOf (x : Var) {values : List Value}
    (hvalues : ∀ v ∈ values, v.isExact = true) (hb : b.Exact) :
    Alike (bindOneOf x values b) (bindOneOf x values b) := by
  refine .self fun b' hb' => ?_
  unfold bindOneOf at hb'
  split at hb'
  · split at hb'
    · exact List.mem_singleton.1 hb' ▸ hb
    · cases hb'
  · obtain ⟨v, hv, rfl⟩ := List.mem_map.1 hb'
    exact hb.insert (hvalues v hv)

/-! ## Clauses -/

def Term.constants : Term → List Value
  | .var _ => []
  | .const v => [v]

def Test.constants : Test → List Value
  | .compare _ _ v => [v]
  | _ => []

mutual

/-- The values that a clause mentions. -/
def Clause.constants : Clause → List Value
  | .pattern entity _ value => entity.constants ++ value.constants
  | .firstOf _ _ _ => []
  | .test t => t.constants
  | .and cs | .or cs | .not cs => Clause.constantsAll cs
  | .oneOf _ values => values

def Clause.constantsAll : List Clause → List Value
  | [] => []
  | c :: cs => c.constants ++ Clause.constantsAll cs

end

theorem Test.eval_cases (t : Test) (b : Binding) :
    (∃ holds, t.eval b = .ok holds ∧ t.eval b = .ok holds) ∨
      ∃ e e', t.eval b = .error e ∧ t.eval b = .error e' := by
  cases h : t.eval b with
  | ok holds => exact Or.inl ⟨holds, rfl, rfl⟩
  | error e => exact Or.inr ⟨e, e, rfl, rfl⟩

mutual

/-- **Clauses find the same bindings from the same documents.** -/
theorem Clause.eval_alike (h : src.Twins src') (hl : limit ≠ some 0) :
    ∀ (c : Clause) (bs bs' : List Binding), (∀ v ∈ c.constants, v.isExact = true) →
      Alike bs bs' → AlikeResults (Clause.eval src limit c bs) (Clause.eval src' limit c bs')
  | .pattern entity attr value, bs, bs', _, hbs => by
    rw [Clause.eval_pattern hl, Clause.eval_pattern hl]
    exact .flatMap (fun b hb => alike_matchPattern h entity attr value hb) hbs
  | .firstOf entity attributes bind, bs, bs', _, hbs => by
    rw [Clause.eval_firstOf hl, Clause.eval_firstOf hl]
    exact .extendEach (fun b hb => alike_bindFirst h entity attributes bind hb) hbs
  | .test t, bs, bs', _, hbs => by
    rw [Clause.eval_test hl, Clause.eval_test hl]
    exact .keepEach (fun b _ => t.eval_cases b) hbs
  | .and cs, bs, bs', hcs, hbs => by
    rw [Clause.eval_and hl, Clause.eval_and hl]
    exact Clause.evalAll_alike h hl cs bs bs' hcs hbs
  | .or cs, bs, bs', hcs, hbs => by
    rw [Clause.eval_or hl, Clause.eval_or hl]
    exact Clause.evalAny_alike h hl cs bs bs' hcs hbs
  | .not cs, bs, bs', hcs, hbs => by
    rw [Clause.eval_not hl, Clause.eval_not hl]
    refine .keepEach (fun b hb => ?_) hbs
    have halike : AlikeResults (Clause.evalAll src limit cs [b]) (Clause.evalAll src' limit cs [b]) :=
      Clause.evalAll_alike h hl cs [b] [b] hcs (.self (List.forall_mem_singleton.2 hb))
    generalize Clause.evalAll src limit cs [b] = r at halike
    generalize Clause.evalAll src' limit cs [b] = r' at halike
    cases halike with
    | error e e' => exact Or.inr ⟨e, e', rfl, rfl⟩
    | @ok found found' hfound =>
      have hempty : found.isEmpty = found'.isEmpty :=
        Bool.eq_iff_iff.2 (by simpa using hfound.eq_nil_iff)
      exact Or.inl ⟨found.isEmpty, rfl, congrArg Except.ok hempty.symm⟩
  | .oneOf x values, bs, bs', hvalues, hbs => by
    rw [Clause.eval_of_time hl, Clause.eval_of_time hl]
    exact .flatMap (fun b hb => alike_bindOneOf x hvalues hb) hbs

theorem Clause.evalAll_alike (h : src.Twins src') (hl : limit ≠ some 0) :
    ∀ (cs : List Clause) (bs bs' : List Binding), (∀ v ∈ Clause.constantsAll cs, v.isExact = true) →
      Alike bs bs' → AlikeResults (Clause.evalAll src limit cs bs) (Clause.evalAll src' limit cs bs')
  | [], bs, bs', _, hbs => .ok hbs
  | c :: cs, bs, bs', hcs, hbs => by
    rw [Clause.constantsAll, List.forall_mem_append] at hcs
    by_cases hnil : bs = []
    · rw [hbs.eq_nil_iff.1 hnil, hnil, Clause.evalAll_no_bindings, Clause.evalAll_no_bindings]
      exact .ok (.self (by simp))
    · rw [Clause.evalAll_cons c cs hnil, Clause.evalAll_cons c cs (hbs.eq_nil_iff.not.1 hnil)]
      exact (Clause.eval_alike h hl c bs bs' hcs.1 hbs).bind fun found found' hfound =>
        Clause.evalAll_alike h hl cs found found' hcs.2 hfound

theorem Clause.evalAny_alike (h : src.Twins src') (hl : limit ≠ some 0) :
    ∀ (cs : List Clause) (bs bs' : List Binding), (∀ v ∈ Clause.constantsAll cs, v.isExact = true) →
      Alike bs bs' → AlikeResults (Clause.evalAny src limit cs bs) (Clause.evalAny src' limit cs bs')
  | [], bs, bs', _, _ => .ok (.self (by simp))
  | c :: cs, bs, bs', hcs, hbs => by
    rw [Clause.constantsAll, List.forall_mem_append] at hcs
    rw [Clause.evalAny_cons, Clause.evalAny_cons]
    exact (Clause.eval_alike h hl c bs bs' hcs.1 hbs).bind fun here here' hhere =>
      (Clause.evalAny_alike h hl cs bs bs' hcs.2 hbs).bind fun there there' hthere =>
        .ok (hhere.append hthere)

end

/-! ## Rows -/

theorem Binding.Exact.row (h : b.Exact) {find : List Var} {row : List Value}
    (hrow : b.row find = .ok row) : Value.allExact row = true := by
  refine Value.allExact_iff.2 fun v hv => ?_
  obtain ⟨x, -, hx⟩ := exists_of_mapM hrow hv
  split at hx
  next w hw =>
    cases hx
    exact h x v hw
  · cases hx

theorem Query.orderedRows_congr (q : Query) (h : Alike bs bs') {rows : List (List Value)}
    (hrows : q.orderedRows bs = .ok rows) : q.orderedRows bs' = .ok rows := by
  rw [orderedRows] at hrows ⊢
  obtain ⟨made, hmade, hrows⟩ := bind_eq_ok.1 hrows
  obtain ⟨made', hmade'⟩ : ∃ made', bs'.mapM (Binding.row q.find) = .ok made' := by
    rw [exists_mapM_eq_ok_iff]
    intro b hb
    obtain ⟨row, -, hrow⟩ := exists_of_mem_mapM hmade ((h.mem b).2 hb)
    exact ⟨row, hrow⟩
  have hmem (row : List Value) : row ∈ made ↔ row ∈ made' := by
    constructor
    · intro hrow
      obtain ⟨b, hb, hbrow⟩ := exists_of_mapM hmade hrow
      obtain ⟨row', hrow', hbrow'⟩ := exists_of_mem_mapM hmade' ((h.mem b).1 hb)
      obtain rfl := Except.ok.inj (hbrow.symm.trans hbrow')
      exact hrow'
    · intro hrow
      obtain ⟨b, hb, hbrow⟩ := exists_of_mapM hmade' hrow
      obtain ⟨row', hrow', hbrow'⟩ := exists_of_mem_mapM hmade ((h.mem b).2 hb)
      obtain rfl := Except.ok.inj (hbrow.symm.trans hbrow')
      exact hrow'
  have hexact : ∀ row ∈ made, Value.allExact row = true := by
    intro row hrow
    obtain ⟨b, hb, hbrow⟩ := exists_of_mapM hmade hrow
    exact (h.exact b hb).row hbrow
  rw [hmade', ok_bind, ← distinct_rows_congr hexact hmem]
  exact hrows

theorem Query.evaluate_of_twins {q : Query} (h : src.Twins src') (hl : q.timeout ≠ some 0)
    (hq : ∀ v ∈ Clause.constantsAll q.clauses, v.isExact = true) {rows : Rows}
    (hrows : q.evaluate src = .ok rows) : q.evaluate src' = .ok rows := by
  rw [evaluate] at hrows ⊢
  obtain ⟨found, hfound, hrows⟩ := bind_eq_ok.1 hrows
  obtain ⟨ordered, hordered, hrows⟩ := bind_eq_ok.1 hrows
  have halike := Clause.evalAll_alike h hl q.clauses [∅] [∅] hq
    (.self (List.forall_mem_singleton.2 Exact.empty))
  rw [hfound] at halike
  generalize Clause.evalAll src' q.timeout q.clauses [∅] = r' at halike
  cases halike with
  | ok hfound' =>
    rw [ok_bind, q.orderedRows_congr hfound' hordered, ok_bind]
    exact hrows

/-- **An answer does not depend on the order in which documents are listed.** -/
theorem Query.evaluate_congr {q : Query} (h : src.Twins src') (hl : q.timeout ≠ some 0)
    (hq : ∀ v ∈ Clause.constantsAll q.clauses, v.isExact = true) (rows : Rows) :
    q.evaluate src = .ok rows ↔ q.evaluate src' = .ok rows :=
  ⟨evaluate_of_twins h hl hq, evaluate_of_twins h.symm hl hq⟩

end MetadataArchive
