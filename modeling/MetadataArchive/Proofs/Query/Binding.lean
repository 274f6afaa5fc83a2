import MetadataArchive.Proofs.Collection.Ordered
import MetadataArchive.Proofs.Query.Evaluation

/-!
# Bindings only grow

All that a clause ever does to a binding is to bind variables of its own that are free. So a
relation that holds between a binding and what binding such a variable makes of it holds between
what comes out of a clause and something that went in (`Clause.eval_from`).

Two relations are needed. A variable that is bound is never bound anew (`Clause.evalAll_extends`), so
what the first clause of a query says of a variable holds of every row (`Query.evaluate_bound`), and
the clauses behind it need not be looked at. And a variable that a clause does not mention stays as
it was (`Clause.evalAll_outside`).
-/

set_option autoImplicit false

namespace MetadataArchive

variable {src : Source} {limit : Option Nat} {b b' b'' : Binding} {bs bs' found : List Binding}

/-! ## What clauses mention -/

def Term.vars : Term → List Var
  | .var x => [x]
  | .const _ => []

mutual

/-- The variables that a clause mentions. -/
def Clause.vars : Clause → List Var
  | .pattern entity _ value => entity.vars ++ value.vars
  | .firstOf entity _ bind => [entity, bind]
  | .test t => [t.var]
  | .and cs | .or cs | .not cs => Clause.varsAll cs
  | .oneOf x _ => [x]

def Clause.varsAll : List Clause → List Var
  | [] => []
  | c :: cs => c.vars ++ Clause.varsAll cs

end

/-! ## Relations that are kept -/

/-- A binding has all that another has, and maybe more. -/
def Binding.Extends (b' b : Binding) : Prop := ∀ x v, b.get? x = some v → b'.get? x = some v

namespace Binding

variable {R : Binding → Binding → Prop} {xs ys : List Var} {x : Var}

/-- A relation goes through where some variables are bound that were free. -/
structure Kept (R : Binding → Binding → Prop) (xs : List Var) : Prop where
  refl : ∀ b, R b b
  trans : ∀ {b b' b''}, R b'' b' → R b' b → R b'' b
  bind : ∀ {b x}, x ∈ xs → b.get? x = none → ∀ v, R (b.insert x v) b

theorem Kept.mono (h : Kept R xs) (hys : ∀ y ∈ ys, y ∈ xs) : Kept R ys :=
  ⟨h.refl, h.trans, fun hy => h.bind (hys _ hy)⟩

theorem Extends.trans (h : b''.Extends b') (h' : b'.Extends b) : b''.Extends b :=
  fun x v hv => h x v (h' x v hv)

theorem kept_extends (xs : List Var) : Kept Extends xs where
  refl _ _ _ h := h
  trans := Extends.trans
  bind {b x} _ hx v y w hw := by
    have hne : y ≠ x := fun heq => by
      rw [heq, hx] at hw
      cases hw
    rw [NameMap.get?_insert_of_ne b v hne, hw]

theorem kept_outside (hx : x ∉ xs) : Kept (fun b' b => b'.get? x = b.get? x) xs where
  refl _ := rfl
  trans h h' := h.trans h'
  bind hy _ v := NameMap.get?_insert_of_ne _ v fun heq => hx (heq ▸ hy)

/-- Each of the bindings stands so to one of those that there were. -/
def AllFrom (R : Binding → Binding → Prop) (found bs : List Binding) : Prop :=
  ∀ b' ∈ found, ∃ b ∈ bs, R b' b

namespace AllFrom

theorem refl (h : Kept R xs) (bs : List Binding) : AllFrom R bs bs := fun b hb => ⟨b, hb, h.refl b⟩

theorem nil (bs : List Binding) : AllFrom R [] bs := fun _ hb => by cases hb

theorem trans (hR : Kept R xs) (h : AllFrom R found bs') (h' : AllFrom R bs' bs) :
    AllFrom R found bs := by
  intro b'' hb''
  obtain ⟨b', hb', hr⟩ := h b'' hb''
  obtain ⟨b, hb, hr'⟩ := h' b' hb'
  exact ⟨b, hb, hR.trans hr hr'⟩

theorem append (h : AllFrom R found bs) (h' : AllFrom R bs' bs) : AllFrom R (found ++ bs') bs :=
  List.forall_mem_append.2 ⟨h, h'⟩

theorem flatMap {step : Binding → List Binding} (h : ∀ b, ∀ b' ∈ step b, R b' b) :
    AllFrom R (bs.flatMap step) bs := by
  intro b' hb'
  obtain ⟨b, hb, hb'⟩ := List.mem_flatMap.1 hb'
  exact ⟨b, hb, h b b' hb'⟩

theorem extendEach {step : Binding → Except StoreError (List Binding)}
    (h : ∀ b here, step b = .ok here → ∀ b' ∈ here, R b' b)
    (hf : MetadataArchive.extendEach step bs = .ok found) : AllFrom R found bs := by
  intro b' hb'
  obtain ⟨b, hb, here, hhere, hb'⟩ := ((extendEach_ok hf).2 b').1 hb'
  exact ⟨b, hb, h b here hhere b' hb'⟩

theorem keepEach (hR : Kept R xs) {test : Binding → Except StoreError Bool}
    (hf : MetadataArchive.keepEach test bs = .ok found) : AllFrom R found bs :=
  fun b hb => ⟨b, (((keepEach_ok hf).2 b).1 hb).1, hR.refl b⟩

end AllFrom

end Binding

open Binding

/-! ## Steps -/

section

variable {R : Binding → Binding → Prop} {xs : List Var}

/-- Unification binds a variable that was free, or nothing. -/
theorem Term.unify_cases {t : Term} {v : Value} (h : t.unify b v = some b') :
    b' = b ∨ ∃ x, t = .var x ∧ b.get? x = none ∧ b' = b.insert x v := by
  unfold Term.unify at h
  split at h
  · split at h <;> cases h
    exact Or.inl rfl
  next x =>
    split at h
    · split at h <;> cases h
      exact Or.inl rfl
    next hx =>
      cases h
      exact Or.inr ⟨x, rfl, hx, rfl⟩

/-- A pattern binds the document that it is about, if that was free before. -/
theorem Term.candidates_var {t : Term} {x : Var} {docs : List Document}
    (h : t.candidates src b = (some x, docs)) :
    t = .var x ∧ b.get? x = none ∧ docs = src.documents := by
  unfold Term.candidates at h
  split at h
  · cases h
  · cases h
  · split at h
    · cases h
    · cases h
    next hx =>
      cases h
      exact ⟨rfl, hx, rfl⟩

theorem insert_insert {α : Type} (m : NameMap α) (x : String) (v w : α) :
    (m.insert x v).insert x w = m.insert x w := by
  refine NameMap.ext_get? fun y => ?_
  simp only [NameMap.get?_insert]
  split <;> rfl

theorem from_matchPattern {entity value : Term} {attr : String}
    (hR : Kept R (entity.vars ++ value.vars))
    (h : b' ∈ matchPattern src entity attr value b) : R b' b := by
  rcases hc : entity.candidates src b with ⟨x, docs⟩
  simp only [matchPattern, hc, List.mem_flatMap] at h
  obtain ⟨doc, -, h⟩ := h
  split at h
  · cases h
  · obtain ⟨b₁, hb₁, rfl⟩ := List.mem_map.1 h
    obtain ⟨v, -, hunify⟩ := List.mem_filterMap.1 hb₁
    have hvalue {y : Var} (hy : value = .var y) : y ∈ entity.vars ++ value.vars := by
      simp [hy, Term.vars]
    have hstep : R b₁ b := by
      rcases Term.unify_cases hunify with rfl | ⟨y, hy, hfree, rfl⟩
      · exact hR.refl _
      · exact hR.bind (hvalue hy) hfree v
    cases x with
    | none => exact hstep
    | some x =>
      obtain ⟨rfl, hx, -⟩ := Term.candidates_var hc
      have hmem : x ∈ (Term.var x).vars ++ value.vars := by simp [Term.vars]
      rcases Term.unify_cases hunify with rfl | ⟨y, hy, hfree, rfl⟩
      · exact hR.bind hmem hx _
      · by_cases hxy : x = y
        · -- The variable in both places is bound once, to the document.
          subst hxy
          rw [bindEntity, insert_insert]
          exact hR.bind hmem hx _
        · refine hR.trans (hR.bind hmem ?_ _) hstep
          rw [NameMap.get?_insert_of_ne _ _ hxy, hx]

theorem from_bindFirst {entity bind : Var} {attributes : List String} (hR : Kept R [entity, bind])
    (h : bindFirst src entity attributes bind b = .ok found) : ∀ b' ∈ found, R b' b := by
  unfold bindFirst at h
  split at h
  · cases h
  · dsimp only at h
    split at h
    next hx =>
      cases h
      simpa using hR.bind (by simp) hx _
    · cases h
      split
      · simpa using hR.refl b
      · simp
  · cases h
    simp

theorem from_bindOneOf {x : Var} {values : List Value} (hR : Kept R [x])
    (h : b' ∈ bindOneOf x values b) : R b' b := by
  unfold bindOneOf at h
  split at h
  · split at h
    · exact List.mem_singleton.1 h ▸ hR.refl b
    · cases h
  next hx =>
    obtain ⟨v, -, rfl⟩ := List.mem_map.1 h
    exact hR.bind (by simp) hx v

end

/-! ## Clauses -/

theorem Clause.time_of_eval {c : Clause} (h : Clause.eval src limit c bs = .ok found) :
    limit ≠ some 0 := by
  rintro rfl
  cases c <;> rw [Clause.eval] at h <;> cases h

section

variable {R : Binding → Binding → Prop}

mutual

/-- **Clauses bind variables that are free, and no others than their own.** -/
theorem Clause.eval_from :
    ∀ {c : Clause} {bs found : List Binding}, Kept R c.vars →
      Clause.eval src limit c bs = .ok found → AllFrom R found bs := by
  intro c bs found hR h
  rw [Clause.eval_of_time (Clause.time_of_eval h)] at h
  cases c with
  | pattern entity attr value =>
    cases h
    exact .flatMap fun b b' hb' => from_matchPattern hR hb'
  | firstOf entity attributes bind =>
    exact .extendEach (fun b here hhere => from_bindFirst hR hhere) h
  | test t => exact .keepEach hR h
  | and cs => exact Clause.evalAll_from hR h
  | or cs => exact Clause.evalAny_from hR h
  | not cs => exact .keepEach hR h
  | oneOf x values =>
    cases h
    exact .flatMap fun b b' hb' => from_bindOneOf hR hb'

theorem Clause.evalAll_from :
    ∀ {cs : List Clause} {bs found : List Binding}, Kept R (Clause.varsAll cs) →
      Clause.evalAll src limit cs bs = .ok found → AllFrom R found bs
  | [], bs, found, hR, h => by
    cases h
    exact .refl hR bs
  | c :: cs, bs, found, hR, h => by
    rw [Clause.varsAll] at hR
    rw [Clause.evalAll] at h
    split at h
    · cases h
      exact .refl hR bs
    · obtain ⟨bs', hc, hcs⟩ := bind_eq_ok.1 h
      exact .trans hR (Clause.evalAll_from (hR.mono fun _ => List.mem_append_right _) hcs)
        (Clause.eval_from (hR.mono fun _ => List.mem_append_left _) hc)

theorem Clause.evalAny_from :
    ∀ {cs : List Clause} {bs found : List Binding}, Kept R (Clause.varsAll cs) →
      Clause.evalAny src limit cs bs = .ok found → AllFrom R found bs
  | [], bs, found, hR, h => by
    cases h
    exact .nil bs
  | c :: cs, bs, found, hR, h => by
    rw [Clause.varsAll] at hR
    rw [Clause.evalAny_cons] at h
    obtain ⟨here, hhere, h⟩ := bind_eq_ok.1 h
    obtain ⟨there, hthere, h⟩ := bind_eq_ok.1 h
    cases h
    exact (Clause.eval_from (hR.mono fun _ => List.mem_append_left _) hhere).append
      (Clause.evalAny_from (hR.mono fun _ => List.mem_append_right _) hthere)

end

end

/-- **What is bound stays bound.** -/
theorem Clause.evalAll_extends {cs : List Clause} (h : Clause.evalAll src limit cs bs = .ok found) :
    ∀ b' ∈ found, ∃ b ∈ bs, b'.Extends b :=
  Clause.evalAll_from (kept_extends _) h

/-- What is not mentioned stays as it was. -/
theorem Clause.evalAll_outside {cs : List Clause} {x : Var} (hx : x ∉ Clause.varsAll cs)
    (h : Clause.evalAll src limit cs bs = .ok found) :
    ∀ b' ∈ found, ∃ b ∈ bs, b'.get? x = b.get? x :=
  Clause.evalAll_from (kept_outside hx) h

/-! ## Rows -/

/-- A document in a row was bound. -/
theorem Query.evaluate_bound {q : Query} {rows : Rows} {v : Var} {id : DocId}
    (h : q.evaluate src = .ok rows) (hid : id ∈ rows.refs v) :
    ∃ found, Clause.evalAll src q.timeout q.clauses [∅] = .ok found ∧
      ∃ b ∈ found, b.get? v = some (.ref id) := by
  simp only [Query.evaluate, Query.orderedRows, bind_eq_ok, Except.ok.injEq] at h
  obtain ⟨found, hfound, ordered, ⟨made, hmade, columns, -, rfl⟩, rfl⟩ := h
  refine ⟨found, hfound, ?_⟩
  obtain ⟨value, hvalue, href⟩ := List.mem_filterMap.1 hid
  have hvalue' : value = .ref id := by cases value <;> simp_all [Value.asRef?]
  subst hvalue'
  simp only [Rows.column] at hvalue
  split at hvalue
  next i hi =>
    obtain ⟨hlt, hfind, -⟩ := List.idxOf?_eq_some_iff.1 hi
    obtain ⟨row, hrow, hcell⟩ := List.mem_filterMap.1 hvalue
    -- Neither the order of the rows nor the page makes up a row.
    have hrow : row ∈ made := by
      have hpaged : row ∈ Ordered.sortStable (fun a b => compareByColumns columns a b == .lt)
          (Ordered.distinct compareRows made) := by
        unfold Query.page at hrow
        split at hrow
        · exact List.mem_of_mem_drop hrow
        · exact List.mem_of_mem_drop (List.mem_of_mem_take hrow)
      exact Ordered.of_mem_distinct (Ordered.mem_sortStable.1 hpaged)
    obtain ⟨j, hj⟩ := List.mem_iff_getElem?.1 hrow
    obtain ⟨b, hb, hmade⟩ := getElem?_of_mapM hmade hj
    obtain ⟨x, hx, hbound⟩ := getElem?_of_mapM hmade hcell
    rw [List.getElem?_eq_getElem hlt, hfind] at hx
    cases hx
    refine ⟨b, List.mem_of_getElem? hb, ?_⟩
    split at hbound
    next w hw =>
      cases hbound
      exact hw
    · cases hbound
  · cases hvalue

end MetadataArchive
