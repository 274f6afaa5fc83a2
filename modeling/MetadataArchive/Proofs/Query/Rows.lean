import MetadataArchive.Proofs.Fact.Order
import MetadataArchive.Proofs.Query.Binding

/-!
# The documents that a query names

A search asks for documents, and all else in its rows follows from the document. There is then one
row for each document that the clauses bind, however often they bind it, and the rows are in the
order of the documents' keys until they are sorted by anything else (`Query.evaluate_named`).
-/

set_option autoImplicit false

namespace MetadataArchive

variable {src : Source} {limit : Option Nat} {v : Var} {id : DocId} {b : Binding}
variable {bs found : List Binding}

/-! ## Documents that are bound -/

namespace Binding

/-- The documents that a variable is bound to. -/
def named (v : Var) (bs : List Binding) : List DocId :=
  bs.filterMap fun b => (b.get? v).bind Value.asRef?

/-- A variable is bound to some document in each of the bindings. -/
def AllNamed (v : Var) (bs : List Binding) : Prop := ∀ b ∈ bs, ∃ id, b.get? v = some (.ref id)

theorem mem_named : id ∈ named v bs ↔ ∃ b ∈ bs, b.get? v = some (.ref id) := by
  have hvalue (w : Value) : w.asRef? = some id ↔ w = .ref id := by
    cases w <;> simp [Value.asRef?]
  simp only [named, List.mem_filterMap, Option.bind_eq_some_iff, hvalue]
  refine exists_congr fun b => and_congr_right fun _ => ?_
  constructor
  · rintro ⟨w, hw, rfl⟩
    exact hw
  · intro h
    exact ⟨_, h, rfl⟩

theorem named_cons (h : b.get? v = some (.ref id)) :
    named v (b :: bs) = id :: named v bs := by
  simp [named, h, Value.asRef?]

/-- Where a row follows from the document of its binding, rows follow from documents. -/
theorem mapM_row {find : List Var} {f : DocId → List Value} (hnamed : AllNamed v bs)
    (hrow : ∀ b ∈ bs, ∀ id, b.get? v = some (.ref id) → b.row find = .ok (f id)) :
    bs.mapM (row find) = .ok ((named v bs).map f) := by
  induction bs with
  | nil => rfl
  | cons b bs ih =>
    obtain ⟨⟨id, hid⟩, hbs⟩ := List.forall_mem_cons.1 hnamed
    obtain ⟨hb, hrows⟩ := List.forall_mem_cons.1 hrow
    rw [List.mapM_cons, hb id hid, ih hbs hrows, named_cons hid]
    rfl

end Binding

open Binding

/-! ## Rows -/

/-- The part of a list that a query asks for. -/
def Query.cut {α : Type} (q : Query) (xs : List α) : List α :=
  match q.limit with
  | none => xs.drop q.offset
  | some n => (xs.drop q.offset).take n

theorem Query.page_map {α : Type} (q : Query) (f : α → List Value) (xs : List α) :
    q.page (xs.map f) = (q.cut xs).map f := by
  unfold page cut
  cases q.limit with
  | none => exact List.map_drop.symm
  | some n =>
    show ((xs.map f).drop q.offset).take n = _
    rw [← List.map_drop, ← List.map_take]

theorem Rows.refs_map {find : List Var} {f : DocId → List Value} {i : Nat}
    (hi : find.idxOf? v = some i) (hf : ∀ x, (f x)[i]? = some (.ref x)) (ids : List DocId) :
    Rows.refs ⟨find, ids.map f⟩ v = ids := by
  simp only [refs, column, hi, List.filterMap_map, Function.comp_def, hf]
  rw [List.filterMap_eq_map', List.filterMap_map, Function.comp_def]
  exact List.filterMap_some

/-- **A query names each document once**, in the order of its sort columns, and of equals the one
with the lesser key first. -/
theorem Query.evaluate_named {q : Query} (i : Nat) (f : DocId → List Value)
    (columns : List (Nat × Direction)) (less : DocId → DocId → Bool)
    (hbs : Clause.evalAll src q.timeout q.clauses [∅] = .ok bs) (hnamed : AllNamed v bs)
    (hrow : ∀ b ∈ bs, ∀ id, b.get? v = some (.ref id) → b.row q.find = .ok (f id))
    (hf : ∀ x y, compareRows (f x) (f y) = compare x y)
    (hcolumns : q.sortColumns = .ok columns)
    (hless : ∀ x y, (compareByColumns columns (f x) (f y) == .lt) = less x y)
    (hi : q.find.idxOf? v = some i) (href : ∀ x, (f x)[i]? = some (.ref x)) :
    ∃ rows, q.evaluate src = .ok rows ∧
      rows.refs v = q.cut (Ordered.sortStable less (Ordered.distinct compare (named v bs))) := by
  have hordered : q.orderedRows bs = .ok
      ((Ordered.sortStable less (Ordered.distinct compare (named v bs))).map f) := by
    rw [orderedRows, mapM_row hnamed hrow, ok_bind, hcolumns, ok_bind, Ordered.distinct_map f hf,
      Ordered.sortStable_map f hless]
  refine ⟨⟨q.find, q.page ((Ordered.sortStable less
    (Ordered.distinct compare (named v bs))).map f)⟩, ?_, ?_⟩
  · rw [Query.evaluate, hbs, ok_bind, hordered, ok_bind]
  · rw [page_map, Rows.refs_map hi href]

/-! ## Clauses in a row -/

/-- Clauses behind others look at what these have found. -/
theorem Clause.evalAll_append (cs cs' : List Clause) (bs : List Binding) :
    evalAll src limit (cs ++ cs') bs = (do evalAll src limit cs' (← evalAll src limit cs bs)) := by
  induction cs generalizing bs with
  | nil => rw [List.nil_append, evalAll_nil, ok_bind]
  | cons c cs ih =>
    by_cases hbs : bs = []
    · subst hbs
      rw [evalAll_no_bindings, evalAll_no_bindings, ok_bind, evalAll_no_bindings]
    · rw [List.cons_append, evalAll_cons _ _ hbs, evalAll_cons _ _ hbs]
      cases eval src limit c bs with
      | error e => rfl
      | ok bs' => exact ih bs'

end MetadataArchive
