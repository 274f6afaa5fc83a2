import Mathlib.Data.Set.List
import MetadataArchive.Proofs.Collection.Ordered
import MetadataArchive.Proofs.Query.Evaluation
import MetadataArchive.Proofs.Store.Staging
import MetadataArchive.Search.Graph

/-!
# What a step of a walk is answered

The query of a step joins a list of documents with the ends of all relationships. Where ends are
single references its rows are the relationships that have one of these documents at an end, both
ways round, and nothing else (`Walk.mem_hop`): an end that leads to no document counts like any
other, and a document with only one end is no relationship.
-/

set_option autoImplicit false

namespace MetadataArchive

variable {src : Source} {limit : Option Nat}

/-- A document joins two others where it has the one at an end and the other at the other end. -/
def Document.Joins (d : Document) (x y : DocId) : Prop :=
  d.get? (Attr.side .one) = some (.ref x) ∧ d.get? (Attr.side .two) = some (.ref y) ∨
    d.get? (Attr.side .two) = some (.ref x) ∧ d.get? (Attr.side .one) = some (.ref y)

/-- Two documents are joined by the document of a key. -/
def Source.Joined (src : Source) (r x y : DocId) : Prop :=
  ∃ d, src.document? r = some d ∧ d.Joins x y

/-- Ends, where there are any, are single references. -/
def Source.SingleEnds (src : Source) : Prop :=
  ∀ id d side v, src.document? id = some d → d.get? (Attr.side side) = some v → ∃ x, v = .ref x

theorem Document.Joins.symm {d : Document} {x y : DocId} (h : d.Joins x y) : d.Joins y x :=
  (Or.symm h).imp And.symm And.symm

theorem Source.Joined.symm {r x y : DocId} (h : src.Joined r x y) : src.Joined r y x :=
  h.imp fun _ hd => hd.imp_right Document.Joins.symm

namespace Walk

theorem relationshipVar_ne_nearVar : relationshipVar ≠ nearVar := by decide

theorem nearVar_ne_farVar : nearVar ≠ farVar := by decide

theorem relationshipVar_ne_farVar : relationshipVar ≠ farVar := by decide

/-- The binding of one of the documents that a step starts from. -/
def startBinding (near : DocId) : Binding := (∅ : Binding).insert nearVar (.ref near)

/-- The binding of a relationship with the end that the step comes from. -/
def nearBinding (r near : DocId) : Binding := (startBinding near).insert relationshipVar (.ref r)

/-- The binding of a relationship with both its ends. -/
def edgeBinding (e : Edge) : Binding :=
  (nearBinding e.relationship e.near).insert farVar (.ref e.far)

/-- The row of a relationship. -/
def edgeRow (e : Edge) : List Value := [.ref e.relationship, .ref e.near, .ref e.far]

@[simp] theorem edge?_edgeRow (e : Edge) : edge? (edgeRow e) = some e := rfl

theorem row_edgeBinding (e : Edge) :
    Binding.row [relationshipVar, nearVar, farVar] (edgeBinding e) = .ok (edgeRow e) := by
  simp [Binding.row, edgeBinding, nearBinding, startBinding, edgeRow, NameMap.get?_insert,
    relationshipVar_ne_nearVar.symm, nearVar_ne_farVar, relationshipVar_ne_farVar, ok_bind,
    List.mapM_cons, pure, Except.pure]

theorem mapM_row_edgeBinding (es : List Edge) :
    (es.map edgeBinding).mapM (Binding.row [relationshipVar, nearVar, farVar]) =
      .ok (es.map edgeRow) := by
  induction es with
  | nil => rfl
  | cons e es ih =>
    rw [List.map_cons, List.mapM_cons, row_edgeBinding, ih]
    rfl

theorem edgeBinding_injective : Function.Injective edgeBinding := by
  intro e e' h
  have hrow := row_edgeBinding e
  rw [h, row_edgeBinding, Except.ok.injEq] at hrow
  simpa using congrArg edge? hrow.symm

theorem mem_matchPattern_near (hends : src.SingleEnds) (hsrc : src.Coherent) {side : End}
    {near : DocId} {b : Binding} :
    b ∈ matchPattern src (.var relationshipVar) (Attr.side side) (.var nearVar)
        (startBinding near) ↔
      ∃ r d, src.document? r = some d ∧ d.get? (Attr.side side) = some (.ref near) ∧
        b = nearBinding r near := by
  have hfree : (startBinding near).get? relationshipVar = none := by
    rw [startBinding, NameMap.get?_insert_of_ne _ _ relationshipVar_ne_nearVar,
      NameMap.get?_empty]
  have hnear : (startBinding near).get? nearVar = some (.ref near) :=
    NameMap.get?_insert_self _ _ _
  simp only [matchPattern, Term.candidates, hfree, List.mem_flatMap]
  constructor
  · rintro ⟨d, hd, hb⟩
    have hshown := (hsrc.listed d).1 hd
    cases hv : d.get? (Attr.side side) with
    | none => simp [hv] at hb
    | some v =>
      obtain ⟨x, rfl⟩ := hends d.id d side v hshown hv
      by_cases hx : x = near
      · subst hx
        refine ⟨d.id, d, hshown, hv, ?_⟩
        simpa [hv, Value.elements, Term.unify, hnear, Value.same_ref, bindEntity,
          nearBinding] using hb
      · simp [hv, Value.elements, Term.unify, hnear, Value.same_ref, hx] at hb
  · rintro ⟨r, d, hd, hv, rfl⟩
    obtain rfl := hsrc.keyed r d hd
    refine ⟨d, (hsrc.listed d).2 hd, ?_⟩
    simp [hv, Value.elements, Term.unify, hnear, Value.same_ref, bindEntity, nearBinding]

theorem mem_matchPattern_far (hends : src.SingleEnds) {side : End} {r near : DocId}
    {d : Document} (hd : src.document? r = some d) {b : Binding} :
    b ∈ matchPattern src (.var relationshipVar) (Attr.side side) (.var farVar)
        (nearBinding r near) ↔
      ∃ far, d.get? (Attr.side side) = some (.ref far) ∧ b = edgeBinding ⟨r, near, far⟩ := by
  have hfree : (nearBinding r near).get? farVar = none := by
    rw [nearBinding, NameMap.get?_insert_of_ne _ _ relationshipVar_ne_farVar.symm, startBinding,
      NameMap.get?_insert_of_ne _ _ nearVar_ne_farVar.symm, NameMap.get?_empty]
  have hr : (nearBinding r near).get? relationshipVar = some (.ref r) :=
    NameMap.get?_insert_self _ _ _
  rw [matchPattern_of_bound hr hd, Document.elements]
  cases hv : d.get? (Attr.side side) with
  | none => simp
  | some v =>
    obtain ⟨x, rfl⟩ := hends r d side v hd hv
    simp [Value.elements, Term.unify, hfree, edgeBinding, eq_comm]

/-- Bindings that are those of relationships come from a list of relationships. -/
theorem exists_edges {bs : List Binding} {wanted : Edge → Prop}
    (h : ∀ b, b ∈ bs ↔ ∃ e, wanted e ∧ edgeBinding e = b) :
    ∃ es : List Edge, es.map edgeBinding = bs ∧ ∀ e, e ∈ es ↔ wanted e := by
  obtain ⟨es, hes⟩ : bs ∈ Set.range (List.map edgeBinding) := by
    rw [Set.range_list_map]
    intro b hb
    obtain ⟨e, -, he⟩ := (h b).1 hb
    exact ⟨e, he⟩
  refine ⟨es, hes, fun e => ?_⟩
  rw [← List.mem_map_of_injective edgeBinding_injective, hes, h]
  constructor
  · rintro ⟨e', he', heq⟩
    rwa [← edgeBinding_injective heq]
  · exact fun he => ⟨e, he, rfl⟩

/-- The clauses of a step in one direction. -/
def hopClauses (frontier : List DocId) (near far : End) : List Clause :=
  [.oneOf nearVar (frontier.map .ref), .attrBind relationshipVar (Attr.side near) nearVar,
    .attrBind relationshipVar (Attr.side far) farVar]

/-- A step in one direction binds the relationships that have one of the documents at the near
end. -/
theorem evalAll_hopClauses (hl : limit ≠ some 0) (hends : src.SingleEnds) (hsrc : src.Coherent)
    (frontier : List DocId) (near far : End) :
    ∃ es : List Edge,
      Clause.evalAll src limit (hopClauses frontier near far) [∅] = .ok (es.map edgeBinding) ∧
        ∀ e, e ∈ es ↔ e.near ∈ frontier ∧ ∃ d, src.document? e.relationship = some d ∧
          d.get? (Attr.side near) = some (.ref e.near) ∧
          d.get? (Attr.side far) = some (.ref e.far) := by
  rw [hopClauses, Clause.evalAll_cons _ _ (by simp), Clause.eval_of_time hl, ok_bind,
    Clause.attrBind, Clause.evalAll_pattern hl, Clause.attrBind, Clause.evalAll_pattern hl,
    Clause.evalAll_nil]
  have hstart : bindOneOf nearVar (frontier.map .ref) ∅ = frontier.map startBinding := by
    simp [bindOneOf, startBinding]
  refine (exists_edges fun b => ?_).imp fun es h => ⟨congrArg Except.ok h.1.symm, h.2⟩
  simp only [List.flatMap_singleton, hstart, List.mem_flatMap, List.mem_map]
  constructor
  · rintro ⟨b, ⟨_, ⟨x, hx, rfl⟩, hb⟩, hfar⟩
    obtain ⟨r, d, hd, hnear, rfl⟩ := (mem_matchPattern_near hends hsrc).1 hb
    obtain ⟨y, hy, rfl⟩ := (mem_matchPattern_far hends hd).1 hfar
    exact ⟨⟨r, x, y⟩, ⟨hx, d, hd, hnear, hy⟩, rfl⟩
  · rintro ⟨e, ⟨he, d, hd, hnear, hfar⟩, rfl⟩
    exact ⟨_, ⟨_, ⟨e.near, he, rfl⟩,
      (mem_matchPattern_near hends hsrc).2 ⟨e.relationship, d, hd, hnear, rfl⟩⟩,
      (mem_matchPattern_far hends hd).2 ⟨e.far, hfar, rfl⟩⟩

/-- Rows of relationships are equal only where the relationships are, and their ends. -/
theorem eq_of_compareRows {es : List Edge} :
    ∀ row ∈ es.map edgeRow, ∀ row' ∈ es.map edgeRow, compareRows row row' = .eq → row = row' := by
  intro row hrow row' hrow' h
  obtain ⟨⟨r, near, far⟩, -, rfl⟩ := List.mem_map.1 hrow
  obtain ⟨⟨r', near', far'⟩, -, rfl⟩ := List.mem_map.1 hrow'
  simpa [edgeRow, compareRows, Ordered.lexicographic, Value.totalCompare, Ordering.then_eq_eq,
    Std.compare_eq_iff_eq] using h

/-- **What a step is answered**: the relationships that have one of the documents at an end, from
each such end. -/
theorem mem_hop {l : QueryLimits} (hl : l.timeoutMs ≠ 0) (hends : src.SingleEnds)
    (hsrc : src.Coherent) (frontier : List DocId) :
    ∃ rows, (hopQuery l frontier).evaluate src = .ok rows ∧
      ∀ e, e ∈ rows.rows.filterMap edge? ↔
        e.near ∈ frontier ∧ src.Joined e.relationship e.near e.far := by
  have htime : some l.timeout ≠ some 0 := by
    rw [QueryLimits.timeout, Ne, Option.some.injEq]
    omega
  have hquery : hopQuery l frontier =
      ⟨[relationshipVar, nearVar, farVar],
        [.or [.and (hopClauses frontier .one .two), .and (hopClauses frontier .two .one)]],
        [], 0, none, some l.timeout⟩ := by
    simp [hopQuery, hopClauses, Query.project, Query.of, Query.extend,
      relationshipVar_ne_nearVar.symm, nearVar_ne_farVar.symm, relationshipVar_ne_farVar.symm]
  obtain ⟨there, hthere, hmem⟩ := evalAll_hopClauses htime hends hsrc frontier .one .two
  obtain ⟨back, hback, hmem'⟩ := evalAll_hopClauses htime hends hsrc frontier .two .one
  have heval : Clause.evalAll src (some l.timeout)
      [.or [.and (hopClauses frontier .one .two), .and (hopClauses frontier .two .one)]] [∅] =
        .ok ((there ++ back).map edgeBinding) := by
    simp only [Clause.evalAll_cons _ _ (List.cons_ne_nil _ _), Clause.eval_or htime,
      Clause.evalAny_cons, Clause.eval_and htime, hthere, hback, Clause.evalAny_nil,
      List.append_nil, ok_bind, Clause.evalAll_nil, List.map_append]
  have hrows : (hopQuery l frontier).evaluate src = .ok ⟨[relationshipVar, nearVar, farVar],
      Ordered.sortStable (fun a b => compareByColumns [] a b == .lt)
        (Ordered.distinct compareRows ((there ++ back).map edgeRow))⟩ := by
    simp only [hquery, Query.evaluate, heval, ok_bind, Query.orderedRows, mapM_row_edgeBinding,
      Query.sortColumns, List.mapM_nil, pure_bind, Query.page, List.drop_zero]
  refine ⟨_, hrows, fun e => ?_⟩
  simp only [List.mem_filterMap, Ordered.mem_sortStable, Ordered.mem_distinct eq_of_compareRows,
    List.mem_map, List.mem_append]
  constructor
  · rintro ⟨_, ⟨e', he', rfl⟩, h⟩
    cases h
    rcases he' with he' | he'
    · obtain ⟨hnear, d, hd, hjoins⟩ := (hmem _).1 he'
      exact ⟨hnear, d, hd, Or.inl hjoins⟩
    · obtain ⟨hnear, d, hd, hjoins⟩ := (hmem' _).1 he'
      exact ⟨hnear, d, hd, Or.inr hjoins⟩
  · rintro ⟨hnear, d, hd, hjoins⟩
    refine ⟨_, ⟨e, ?_, rfl⟩, edge?_edgeRow e⟩
    rcases hjoins with hjoins | hjoins
    · exact Or.inl ((hmem e).2 ⟨hnear, d, hd, hjoins⟩)
    · exact Or.inr ((hmem' e).2 ⟨hnear, d, hd, hjoins⟩)

end Walk

end MetadataArchive
