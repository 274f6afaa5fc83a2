import MetadataArchive.Proofs.Search.Conditions
import MetadataArchive.Proofs.Search.Paging
import MetadataArchive.Proofs.Search.Start
import MetadataArchive.Search.Graph

/-!
# Which of some documents a graph search wants

What a walk has met, and what it has reached, is asked for once more with the filters of the search.
Such a query starts from documents that are known and selects among them, so it finds just those
whose records pass (`GraphSearch.ask_among`): of the relationships those of the wanted types and
statuses, of the entities those that carry a wanted classification besides. There is nothing to ask
where no document is known, and then a filter is not looked at either, whatever types it names.
-/

set_option autoImplicit false

namespace MetadataArchive

open Binding

variable {ts : TypeSystem} {src : Source} {stored : DocId → Option StoredRecord} {s : Store}
variable {snap : Snapshot} {l : QueryLimits} {limit : Option Nat} {g : GraphSearch} {w : Walk}
variable {ids : List DocId} {id : DocId} {category : TypeCategory} {record : Var} {hi : Nat}
variable {rest : List Clause} {p : StoredRecord → Bool}

/-! ## What is wanted -/

namespace GraphSearch

/-- Whether a search counts a relationship. -/
def wantsRelationship (ts : TypeSystem) (g : GraphSearch) (r : StoredRecord) : Bool :=
  r.isOf ts .relationship &&
    (TypeFilter.takes ts g.relationshipTypes r.header.typeRef && g.status.admits r.header.status)

/-- An entity carries a classification that is asked for, if any is. -/
def asksFor (g : GraphSearch) (r : StoredRecord) : Bool :=
  g.classifications.isEmpty || g.classifications.any fun name => (r.classification? name).isSome

/-- Whether a search is for an entity. It never is for a proxy. -/
def wantsEntity (ts : TypeSystem) (g : GraphSearch) (r : StoredRecord) : Bool :=
  r.isOf ts .entity && (TypeFilter.takes ts g.entityTypes r.header.typeRef && r.isFull &&
    g.status.admits r.header.status && g.asksFor r)

/-- What is shown of the entities that were found: a page, or all of them. -/
def page (l : QueryLimits) (g : GraphSearch) (paged : Bool) (all : List DocId) : List DocId :=
  if paged then (all.drop g.paging.offset).take (l.pageSize g.paging) else all

end GraphSearch

/-! ## Queries about documents that are known -/

/-- Of documents that are known a query binds those of a category whose records pass. -/
theorem Clause.evalAll_among (h : src.Stores ts stored) (hl : limit ≠ some 0)
    (hrecord : ∀ n, record ≠ Var.numbered n)
    (hrest : Selects (StoredAs stored fun r => r.isOf ts category = true) record 0 hi
      (Clause.evalAll src limit rest) p) (ids : List DocId) :
    ∃ (kept : List DocId) (found : List Binding),
      Clause.evalAll src limit rest (kept.map (single record)) = .ok found ∧
      Clause.evalAll src limit (.oneOf record (ids.map .ref) ::
        .attrEq record Attr.typeCategory (.str category.name) :: rest) [∅] = .ok found ∧
      AllNamed record found ∧ ∀ id, id ∈ named record found ↔
        id ∈ ids ∧ ∃ r, stored id = some r ∧ (r.isOf ts category && p r) = true := by
  obtain ⟨kept, hkept, hmem⟩ := @Clause.eval_attrEq_single src limit record hl Attr.typeCategory
    (.str category.name) ids
  have hmem (id : DocId) : id ∈ kept ↔ id ∈ ids ∧ ∃ r, stored id = some r ∧
      r.isOf ts category = true := (hmem id).trans (and_congr_right fun _ => h.category_iff)
  obtain ⟨found, hfound, hall, hnamed⟩ :=
    hrest.of_single hrecord fun id hid => ((hmem id).1 hid).2
  refine ⟨kept, found, hfound, ?_, hall, fun id => ?_⟩
  · have hsplit : (.oneOf record (ids.map .ref) ::
        .attrEq record Attr.typeCategory (.str category.name) :: rest) =
        [.oneOf record (ids.map .ref)] ++
          ([.attrEq record Attr.typeCategory (.str category.name)] ++ rest) := rfl
    rw [hsplit, Clause.evalAll_append, Clause.evalAll_singleton hl, Clause.eval_oneOf_empty hl,
      ok_bind, Clause.evalAll_append, Clause.evalAll_singleton hl, hkept, ok_bind, hfound]
  · rw [hnamed, hmem]
    simp only [Bool.and_eq_true]
    constructor
    · rintro ⟨⟨hid, -⟩, r, hr⟩
      exact ⟨hid, r, hr⟩
    · rintro ⟨hid, r, hr, hcategory, hp⟩
      exact ⟨⟨hid, r, hr, hcategory⟩, r, hr, hcategory, hp⟩

namespace GraphSearch

/-- **A query about documents that are known** is answered with those of a category whose records
pass, each of them once. -/
theorem ask_among (h : src.Stores ts stored) (hsnap : s.Shows snap src) (hl : limit ≠ some 0)
    (hrecord : ∀ n, record ≠ Var.numbered n) (hsort : Sequencing.sortVar ≠ record)
    (hplain : Clause.Plain record rest)
    (hrest : Selects (StoredAs stored fun r => r.isOf ts category = true) record 0 hi
      (Clause.evalAll src limit rest) p)
    (ids : List DocId) (order : Sequencing) (keys : List AttributeKey) (offset : Nat)
    (size : Option Nat) :
    let q := ((among record ids (.attrEq record Attr.typeCategory (.str category.name) ::
      rest)).sequence record order keys).bounded offset size limit
    ∃ all : List DocId, ask s snap q record = .ok (q.cut all) ∧ all.Nodup ∧
      ∀ id, id ∈ all ↔
        id ∈ ids ∧ ∃ r, stored id = some r ∧ (r.isOf ts category && p r) = true := by
  intro q
  obtain ⟨kept, found, hfound, hwhole, hall, hnamed⟩ :=
    Clause.evalAll_among h hl hrecord hrest ids
  have hfree : ∀ b ∈ found, b.get? Sequencing.sortVar = none := by
    intro b hb
    obtain ⟨b₀, hb₀, hsame⟩ := Clause.evalAll_outside
      (fun hmem => Var.not_about_sort hsort (hplain _ hmem)) hfound b hb
    obtain ⟨id, -, rfl⟩ := List.mem_map.1 hb₀
    rw [hsame, get?_single_of_ne hsort]
  obtain ⟨rows, hrows, hrefs⟩ := Query.evaluate_sequence hl hwhole hall hfree
    hsort.symm order keys offset size
  have hanswer : q.evaluate src = .ok rows := hrows
  refine ⟨order.arrange src keys (named record found), ?_, Sequencing.nodup_arrange, fun id => ?_⟩
  · rw [ask, hsnap.query, hanswer]
    exact congrArg Except.ok hrefs
  · rw [Sequencing.mem_arrange, hnamed]

/-! ## Relationships -/

/-- Nothing is asked, and no filter is looked at, where a walk has met nothing. -/
theorem passingEdges_nil (hw : w.edges.isEmpty = true) :
    g.passingEdges ts l s snap w = .ok [] := by
  rw [passingEdges, if_pos hw]

theorem passingEdges_error {e : SearchError} (hw : w.edges.isEmpty = false)
    (h : ts.typeClauses g.relationshipTypes .relationship relationshipVar = .error e) :
    g.passingEdges ts l s snap w = .error e := by
  rw [passingEdges, if_neg (by simp [hw]), h]
  rfl

/-- Where relationships are kept under their keys, one is read for each key that is there. -/
theorem map_relationship_filterMap (hkeyed : ∀ id e, w.edges.get? id = some e → e.relationship = id)
    (hids : ∀ id ∈ ids, (w.edges.get? id).isSome = true) :
    (ids.filterMap w.edges.get?).map Edge.relationship = ids := by
  induction ids with
  | nil => rfl
  | cons id ids ih =>
    obtain ⟨hid, hids⟩ := List.forall_mem_cons.1 hids
    obtain ⟨e, he⟩ := Option.isSome_iff_exists.1 hid
    rw [List.filterMap_cons_some he, List.map_cons, hkeyed id e he, ih hids]

section

variable (h : src.Stores ts stored) (hsnap : s.Shows snap src) (hts : ts.Named)
variable (hguids : ts.Distinct) (hl : l.timeoutMs ≠ 0)

include h hsnap hts hguids hl

/-- **Of the relationships that were met those pass that the search counts**, each of them once. -/
theorem passingEdges_ok (hkeyed : ∀ id e, w.edges.get? id = some e → e.relationship = id)
    (hfound : w.edges.isEmpty = true ∨
      ∃ found, ts.typeClauses g.relationshipTypes .relationship relationshipVar = .ok found) :
    ∃ edges, g.passingEdges ts l s snap w = .ok edges ∧ (edges.map Edge.relationship).Nodup ∧
      ∀ e, e ∈ edges ↔ w.edges.get? e.relationship = some e ∧
        ∃ r, stored e.relationship = some r ∧ g.wantsRelationship ts r = true := by
  cases hw : w.edges.isEmpty with
  | true =>
    have hnone (id : DocId) : w.edges.get? id = none := by
      rw [NameMap.get?, List.isEmpty_iff.1 hw]
      rfl
    exact ⟨[], passingEdges_nil hw, List.nodup_nil, fun e => by simp [hnone]⟩
  | false =>
    have hlimit : some l.timeout ≠ some 0 := by simpa [QueryLimits.timeout] using hl
    obtain ⟨⟨clauses, candidates⟩, hfound⟩ := hfound.resolve_left (by simp [hw])
    have hplain := (TypeSystem.plain_typeClauses hfound).append
      (@StatusFilter.plain_clauses relationshipVar g.status)
    obtain ⟨rest, rfl, htakes⟩ := @Selects.typeClauses ts src stored
      (fun r => r.isOf ts .relationship = true) (some l.timeout) relationshipVar 0
      h hts hguids hlimit _ _ _ _ hfound
    obtain ⟨ids, hask, hnodup, hmem⟩ := ask_among h hsnap hlimit relationshipVar_ne_numbered
      (by decide) (Clause.plain_cons.1 hplain).2
      (htakes.append_stored (Selects.statusClauses h hlimit g.status) fun _ _ _ hr _ => hr)
      w.edges.names .any [] 0 none
    refine ⟨ids.filterMap w.edges.get?, ?_, ?_, fun e => ?_⟩
    · rw [passingEdges, if_neg (by simp [hw]), hfound, ok_bind]
      exact (congrArg (· >>= fun ids => Except.ok (ids.filterMap w.edges.get?)) hask :)
    · rw [map_relationship_filterMap hkeyed]
      · exact hnodup
      · exact fun id hid => NameMap.mem_names.1 ((hmem id).1 hid).1
    · rw [List.mem_filterMap]
      constructor
      · rintro ⟨id, hid, he⟩
        obtain rfl := hkeyed id e he
        exact ⟨he, ((hmem _).1 hid).2⟩
      · rintro ⟨he, hwanted⟩
        exact ⟨_, (hmem _).2 ⟨NameMap.mem_names.2 (by simp [he]), hwanted⟩, he⟩

end

/-! ## Entities -/

theorem passingEntities_nil (paged : Bool) :
    g.passingEntities ts l s snap [] paged = .ok [] := rfl

theorem passingEntities_error {e : SearchError} (hids : ids ≠ [])
    (h : ts.typeClauses g.entityTypes .entity entityVar = .error e) (paged : Bool) :
    g.passingEntities ts l s snap ids paged = .error e := by
  rw [passingEntities, if_neg (by simpa using hids), h]
  rfl

/-- The clauses that ask for classifications. -/
def classified (g : GraphSearch) : List Clause :=
  if g.classifications.isEmpty then []
  else [.or (g.classifications.map fun name =>
    .attrEq entityVar Attr.classifications (.str name))]

theorem plain_classified (g : GraphSearch) : Clause.Plain entityVar g.classified := by
  unfold classified
  split
  · exact Clause.plain_nil
  · exact (Clause.plain_map (fun _ => Clause.plain_attrEq _ _) _).or

section

variable (h : src.Stores ts stored) (hsnap : s.Shows snap src) (hts : ts.Named)
variable (hguids : ts.Distinct) (hl : l.timeoutMs ≠ 0)

include h

theorem selects_classified (hl : limit ≠ some 0) (n : Nat) :
    Selects (StoredAs stored fun r => r.isFull = true) entityVar n n
      (Clause.evalAll src limit g.classified) g.asksFor := by
  unfold classified asksFor
  cases hempty : g.classifications.isEmpty with
  | true => exact Selects.evalAll_nil n
  | false =>
    refine Selects.singleton hl (Selects.or hl (Selects.evalAny_map (fun name => ?_)
      (Nat.le_refl n) g.classifications))
    exact Selects.carries h hl (fun _ hr => hr) name

include hsnap hts hguids hl

/-- **Of the entities that are known those pass that the search is for**, each of them once. -/
theorem passingEntities_ok (hfound : ids = [] ∨
      ∃ found, ts.typeClauses g.entityTypes .entity entityVar = .ok found) (paged : Bool) :
    ∃ all, g.passingEntities ts l s snap ids paged = .ok (g.page l paged all) ∧ all.Nodup ∧
      ∀ id, id ∈ all ↔ id ∈ ids ∧ ∃ r, stored id = some r ∧ g.wantsEntity ts r = true := by
  by_cases hids : ids = []
  · subst hids
    exact ⟨[], by cases paged <;> simp [passingEntities_nil, page], List.nodup_nil, by simp⟩
  obtain ⟨⟨clauses, candidates⟩, hfound⟩ := hfound.resolve_left hids
  have hlimit : some l.timeout ≠ some 0 := by simpa [QueryLimits.timeout] using hl
  have hplain := (((TypeSystem.plain_typeClauses hfound).append
    (Clause.plain_attrEq Attr.isProxy (.bool false))).append g.status.plain_clauses).append
      g.plain_classified
  obtain ⟨rest, rfl, htakes⟩ := @Selects.typeClauses ts src stored
    (fun r => r.isOf ts .entity = true) (some l.timeout) entityVar 0 h hts hguids hlimit _ _ _ _
    hfound
  have hfilter := (htakes.append_stored (Selects.singleton hlimit (Selects.isProxy h hlimit))
    fun _ _ _ hr _ => hr).append_stored (Selects.statusClauses h hlimit g.status)
      fun _ _ _ hr _ => hr
  -- Only entities of their own are left when it comes to classifications.
  have hselects := hfilter.append_stored (g.selects_classified h hlimit 0) (by
    intro id r _ _ hp
    simp only [Bool.and_eq_true] at hp
    exact hp.1.2)
  have hasked := fun order keys => ask_among h hsnap hlimit entityVar_ne_numbered (by decide)
    (Clause.plain_cons.1 hplain).2 hselects ids order keys
  cases paged with
  | true =>
    obtain ⟨all, hask, hnodup, hmem⟩ := hasked g.sequencing
      (g.sequencing.keys ts ⟨entityVar, .entity, candidates⟩) g.paging.offset
      (some (l.pageSize g.paging))
    refine ⟨all, ?_, hnodup, hmem⟩
    rw [passingEntities, if_neg (by simpa using hids), hfound]
    exact hask
  | false =>
    obtain ⟨all, hask, hnodup, hmem⟩ := hasked .any [] 0 none
    refine ⟨all, ?_, hnodup, hmem⟩
    rw [passingEntities, if_neg (by simpa using hids), hfound]
    exact hask

end

end GraphSearch

end MetadataArchive
