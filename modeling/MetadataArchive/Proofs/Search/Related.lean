import MetadataArchive.Proofs.Search.Neighborhood

/-!
# Related entities

A search for related entities walks without looking at any filter, asks for the wanted ones of the
relationships that it met, and then for the wanted ones of the entities at their ends. The three
queries are put together so that nothing is lost between them: a filter keeps no entity from being
reached, an entity that was reached over one relationship may be led to by another, and the entity
that the walk starts from is not answered when a cycle comes back to it.

`GraphSearch.related_exact` says which entities are found, by distances in the graph of all stored
relationships, and that a search which goes further finds all of them again.
-/

set_option autoImplicit false

namespace MetadataArchive

variable {ts : TypeSystem} {src : Source} {stored : DocId → Option StoredRecord}
variable {snap : Snapshot} {l : QueryLimits} {g : GraphSearch} {w : Walk} {x : DocId}

namespace GraphSearch

/-! ## What is related -/

/-- An entity is related to the one that a search starts from: it is within so many steps of it,
filters apart, a wanted relationship has it at an end and one of its ends within fewer steps, and it
is itself wanted. -/
structure Relates (ts : TypeSystem) (stored : DocId → Option StoredRecord) (g : GraphSearch)
    (depth : Nat) (x : DocId) : Prop where
  within : ∃ m, 1 ≤ m ∧ m ≤ depth ∧ Distance (Connects stored) g.rootId x m
  crossed : ∃ id rel m, stored id = some (.relationship rel) ∧
    g.wantsRelationship ts (.relationship rel) = true ∧
    (rel.endOne.reference.docId = x ∨ rel.endTwo.reference.docId = x) ∧ m < depth ∧
      (Distance (Connects stored) g.rootId rel.endOne.reference.docId m ∨
        Distance (Connects stored) g.rootId rel.endTwo.reference.docId m)
  wanted : ∃ e, stored x = some (.entity e) ∧ g.wantsEntity ts (.entity e) = true

/-- What is related within some steps is so within more. -/
theorem Relates.mono {n m : Nat} (h : g.Relates ts stored n x) (hle : n ≤ m) :
    g.Relates ts stored m x where
  within := by
    obtain ⟨k, hpos, hk, hdist⟩ := h.within
    exact ⟨k, hpos, hk.trans hle, hdist⟩
  crossed := by
    obtain ⟨id, rel, k, hrel, hwants, hend, hk, hdist⟩ := h.crossed
    exact ⟨id, rel, k, hrel, hwants, hend, hk.trans_le hle, hdist⟩
  wanted := h.wanted

/-- The start is at no distance from itself, so nothing relates it to itself. -/
theorem Relates.ne_root {n : Nat} (h : g.Relates ts stored n x) : x ≠ g.rootId := by
  rintro rfl
  obtain ⟨m, hpos, -, hdist⟩ := h.within
  exact absurd (hdist.unique (Distance.zero_iff.2 rfl)) (Nat.one_le_iff_ne_zero.1 hpos)

/-- A relationship leads to what it has at an end. -/
theorem leadsTo_iff : g.LeadsTo ts stored l x ↔
    ∃ id rel m, stored id = some (.relationship rel) ∧
      g.wantsRelationship ts (.relationship rel) = true ∧
      (rel.endOne.reference.docId = x ∨ rel.endTwo.reference.docId = x) ∧
      m < l.depth g.maxDepth ∧
        (Distance (Connects stored) g.rootId rel.endOne.reference.docId m ∨
          Distance (Connects stored) g.rootId rel.endTwo.reference.docId m) := by
  constructor
  · rintro ⟨id, r, y, m, hr, hwants, ⟨rel, hrel, hends⟩, hm, hdist⟩
    obtain rfl := Option.some.inj (hr.symm.trans hrel)
    refine ⟨id, rel, m, hrel, hwants, hends.imp And.left And.left, hm, ?_⟩
    rcases hends with ⟨rfl, rfl⟩ | ⟨rfl, rfl⟩
    exacts [hdist, hdist.symm]
  · rintro ⟨id, rel, m, hrel, hwants, rfl | rfl, hm, hdist⟩
    · exact ⟨id, _, _, m, hrel, hwants, .of_ends hrel, hm, hdist⟩
    · exact ⟨id, _, _, m, hrel, hwants, (Connects.of_ends hrel).symm, hm, hdist.symm⟩

/-- A search wants entities, and no other records. -/
theorem exists_entity_of_wants {r : StoredRecord} (h : g.wantsEntity ts r = true) :
    ∃ e, r = .entity e := by
  simp only [wantsEntity, Bool.and_eq_true] at h
  exact StoredRecord.exists_entity h.2.1.1.2

theorem Finds.mem_related_iff {edges : List Edge} {entities related : List DocId}
    (h : Finds ts stored l g w edges entities related) :
    x ∈ related ↔ g.Relates ts stored (l.depth g.maxDepth) x := by
  rw [h.mem_related, h.wanted, h.walk.reached, leadsTo_iff]
  constructor
  · rintro ⟨⟨hwithin, r, hr, hwants⟩, hcrossed⟩
    obtain ⟨e, rfl⟩ := exists_entity_of_wants hwants
    exact ⟨hwithin, hcrossed, e, hr, hwants⟩
  · rintro ⟨hwithin, hcrossed, e, he, hwants⟩
    exact ⟨⟨hwithin, _, he, hwants⟩, hcrossed⟩

/-- All that is related fits in the page that a search asks for. -/
def FitsPage (ts : TypeSystem) (stored : DocId → Option StoredRecord) (l : QueryLimits)
    (g : GraphSearch) : Prop :=
  ∀ xs : List DocId, xs.Nodup → (∀ x ∈ xs, g.Relates ts stored (l.depth g.maxDepth) x) →
    xs.length ≤ l.pageSize g.paging

theorem FitsPage.page {all : List DocId} (h : g.FitsPage ts stored l)
    (hoffset : g.paging.offset = 0) (honce : all.Nodup)
    (hall : ∀ x ∈ all, g.Relates ts stored (l.depth g.maxDepth) x) : g.page l true all = all := by
  rw [GraphSearch.page, if_pos rfl, hoffset, List.drop_zero]
  exact List.take_of_length_le (h all honce hall)

/-! ## What is answered -/

section

variable {ν : Type} {capacity : Nat} {events : List (StoreEvent ν)}
variable (hsnap : ((Store.empty capacity).run events).Shows snap src) (h : src.Stores ts stored)
variable (hl : l.timeoutMs ≠ 0) (hts : ts.Named) (hguids : ts.Distinct)
variable (hrelationships : ∀ name ∈ TypeFilter.names g.relationshipTypes,
  (ts.get? name).isSome = true)
variable (hentities : ∀ name ∈ TypeFilter.names g.entityTypes, (ts.get? name).isSome = true)

include hsnap h hl hts hguids hrelationships hentities

/-- **A search is answered with a page of what is related**, unless it is refused. Where anything is
related, all types that it names are of the right category. -/
theorem related_cases :
    (∃ e, g.related ts l ((Store.empty capacity).run events) snap = .error e ∧
      g.Refused ts stored e) ∨
    ∃ all, g.related ts l ((Store.empty capacity).run events) snap = .ok (g.page l true all) ∧
      all.Nodup ∧ (∀ x, x ∈ all ↔ g.Relates ts stored (l.depth g.maxDepth) x) ∧
      (all ≠ [] → (∀ name ∈ TypeFilter.names g.relationshipTypes, ∀ t, ts.get? name = some t →
          t.category = .relationship) ∧
        ∀ name ∈ TypeFilter.names g.entityTypes, ∀ t, ts.get? name = some t →
          t.category = .entity) := by
  rcases counted_cases hsnap h hl hts hguids hrelationships with
    ⟨e, he, -, hrelated⟩ | ⟨w, edges, hw, hmet, hedges_once, hcounted, -, hrelated⟩
  · exact Or.inl ⟨e, hrelated, he⟩
  rw [hrelated]
  rcases passingEntities_refused hentities (led w edges) with hwanted | ⟨hled, e, he, hrefused⟩
  case inr => exact Or.inl ⟨e, hrefused _ _ hled, he⟩
  obtain ⟨all, hpage, honce, hmem⟩ := passingEntities_ok h hsnap hts hguids hl hwanted true
  let entities := w.reached.filter fun x => (stored x).any (g.wantsEntity ts)
  have hentity (x : DocId) : x ∈ entities ↔ x ∈ w.reached ∧
      ∃ r, stored x = some r ∧ g.wantsEntity ts r = true := by
    rw [List.mem_filter, Option.any_eq_true]
  have hfinds : Finds ts stored l g w edges entities all :=
    ⟨hw, hcounted, hedges_once, hentity, hw.distinct.filter _,
      fun x => by rw [hmem, mem_led], honce⟩
  refine Or.inr ⟨all, hpage, honce, fun x => hfinds.mem_related_iff, fun hsome => ?_⟩
  -- An answer needs both filters, so neither was refused.
  obtain ⟨x, hx⟩ := List.exists_mem_of_ne_nil _ hsome
  have hxled := ((hmem x).1 hx).1
  obtain ⟨-, e, he, -⟩ := mem_led.1 hxled
  have hnonempty : w.edges.isEmpty ≠ true := fun hempty => by
    have hnone := ((hcounted e).1 he).1
    rw [NameMap.get?, List.isEmpty_iff.1 hempty] at hnone
    cases hnone
  obtain ⟨found, hfound⟩ := hmet.resolve_left hnonempty
  obtain ⟨found', hfound'⟩ := hwanted.resolve_left (List.ne_nil_of_mem hxled)
  exact ⟨fun name hname t ht => TypeSystem.typeClauses_category hfound hname ht,
    fun name hname t ht => TypeSystem.typeClauses_category hfound' hname ht⟩

end

section

variable {ν : Type} {capacity : Nat} {events : List (StoreEvent ν)} {defs : List TypeDef}

/-- **Which entities a search for related entities finds.** In any store, for any snapshot that shows
the documents of records of known types: a search that starts from an entity which is there, names
known types and has all that is related on its first page is refused for a type of the other
category, and for nothing else; otherwise it finds just the entities that are related within the
steps that it may take, each of them once and never the one that it starts from. And whatever it
finds is found by a search that may take as many steps or more. -/
theorem related_exact (hts : TypeSystem.ofList defs = .ok ts)
    (hsnap : ((Store.empty capacity).run events).Shows snap src) (hstored : src.Stores ts stored)
    (hroot : (stored g.rootId).isSome = true)
    (hrelationships : ∀ name ∈ TypeFilter.names g.relationshipTypes, (ts.get? name).isSome = true)
    (hentities : ∀ name ∈ TypeFilter.names g.entityTypes, (ts.get? name).isSome = true)
    (hoffset : g.paging.offset = 0) (htime : l.timeoutMs ≠ 0) (hfits : g.FitsPage ts stored l) :
    ((∃ name t, ts.get? name = some t ∧
        (name ∈ TypeFilter.names g.relationshipTypes ∧ t.category ≠ .relationship ∧
            g.related ts l ((Store.empty capacity).run events) snap =
              .error (.wrongCategory name TypeCategory.relationship.name) ∨
          name ∈ TypeFilter.names g.entityTypes ∧ t.category ≠ .entity ∧
            g.related ts l ((Store.empty capacity).run events) snap =
              .error (.wrongCategory name TypeCategory.entity.name))) ∨
      ∃ found, g.related ts l ((Store.empty capacity).run events) snap = .ok found ∧
        found.Nodup ∧ g.rootId ∉ found ∧
        ∀ x, x ∈ found ↔ g.Relates ts stored (l.depth g.maxDepth) x) ∧
    ∀ (depth : Option Nat) (l' : QueryLimits), l'.timeoutMs ≠ 0 →
      l.depth g.maxDepth ≤ l'.depth depth →
      ({ g with maxDepth := depth } : GraphSearch).FitsPage ts stored l' → ∀ x found,
        g.related ts l ((Store.empty capacity).run events) snap = .ok found → x ∈ found →
        ∃ found', ({ g with maxDepth := depth } : GraphSearch).related ts l'
          ((Store.empty capacity).run events) snap = .ok found' ∧ x ∈ found' := by
  have hnamed := TypeSystem.named_ofList hts
  have hdistinct := TypeSystem.distinct_ofList hts
  refine ⟨?_, fun depth l' htime' hdepth hfits' x found hfound hx => ?_⟩
  · rcases related_cases hsnap hstored htime hnamed hdistinct hrelationships hentities with
      ⟨e, he, hrefused⟩ | ⟨all, hall, honce, hmem, -⟩
    · refine Or.inl ?_
      cases hrefused with
      | root hnone => simp [hnone] at hroot
      | relationships hname ht hother => exact ⟨_, _, ht, .inl ⟨hname, hother, he⟩⟩
      | entities hname ht hother => exact ⟨_, _, ht, .inr ⟨hname, hother, he⟩⟩
    · rw [hfits.page hoffset honce fun x hx => (hmem x).1 hx] at hall
      exact Or.inr ⟨all, hall, honce, fun h => ((hmem _).1 h).ne_root rfl, hmem⟩
  · rcases related_cases hsnap hstored htime hnamed hdistinct hrelationships hentities with
      ⟨e, he, -⟩ | ⟨all, hall, honce, hmem, hcategories⟩
    · cases hfound.symm.trans he
    rw [hfits.page hoffset honce fun x hx => (hmem x).1 hx, hfound, Except.ok.injEq] at hall
    subst hall
    obtain ⟨hcategory, hcategory'⟩ := hcategories (List.ne_nil_of_mem hx)
    rcases related_cases (g := { g with maxDepth := depth }) hsnap hstored htime' hnamed hdistinct
      hrelationships hentities with ⟨e, -, hrefused⟩ | ⟨all, hall, honce', hmem', -⟩
    · cases hrefused with
      | root hnone =>
        rw [show stored g.rootId = none from hnone] at hroot
        cases hroot
      | relationships hname ht hother => exact absurd (hcategory _ hname _ ht) hother
      | entities hname ht hother => exact absurd (hcategory' _ hname _ ht) hother
    · rw [hfits'.page hoffset honce' fun x hx => (hmem' x).1 hx] at hall
      have hrelates := ((hmem x).1 hx).mono hdepth
      exact ⟨all, hall, (hmem' x).2 ⟨hrelates.within, hrelates.crossed, hrelates.wanted⟩⟩

/-- The tables that use of the first leads to: within one step the second, within two the third as
well, which is then led to by what the second uses. -/
theorem related_to_first_table :
    let g (depth : Nat) : GraphSearch :=
      { GraphSearch.of "a" with
        relationshipTypes := some (.anyOf ["Uses"]), maxDepth := some depth }
    (g 1).related Triangle.types .default Triangle.store Triangle.snapshot = .ok ["e:b"] ∧
      (g 2).related Triangle.types .default Triangle.store Triangle.snapshot =
        .ok ["e:b", "e:c"] ∧
      (g 2).Relates Triangle.types Triangle.kept 2 "e:c" ∧
      ¬ (g 1).Relates Triangle.types Triangle.kept 1 "e:c" := by
  intro g
  obtain ⟨src, hshows, hstored⟩ := Triangle.shows
  have hone : (g 1).related Triangle.types .default Triangle.store Triangle.snapshot =
      .ok ["e:b"] := eq_ok_of_toOption (by decide +kernel)
  have htwo : (g 2).related Triangle.types .default Triangle.store Triangle.snapshot =
      .ok ["e:b", "e:c"] := eq_ok_of_toOption (by decide +kernel)
  have hkeys : (Triangle.records.map fun r => r.reference.docId).Nodup := by decide +kernel
  -- There are six records, so no thousand of them are related.
  have hfits (depth : Nat) : (g depth).FitsPage Triangle.types Triangle.kept .default := by
    intro xs honce hrelates
    have hsub : xs ⊆ Triangle.records.map fun r => r.reference.docId := fun x hx => by
      obtain ⟨e, he, -⟩ := (hrelates x hx).wanted
      obtain ⟨hmem, rfl⟩ := (StoredRecord.putAll_none_eq_some hkeys).1 he
      exact List.mem_map_of_mem hmem
    have hlength := (honce.subperm hsub).length_le
    have hsix : (Triangle.records.map fun r => r.reference.docId).length ≤ 1000 := by
      decide +kernel
    exact hlength.trans hsix
  have huses : ∀ name ∈ TypeFilter.names (some (.anyOf ["Uses"])),
      (Triangle.types.get? name).isSome = true := by decide +kernel
  have hany : ∀ name ∈ TypeFilter.names none, (Triangle.types.get? name).isSome = true := by decide
  have hmem (depth : Nat) {found : List DocId}
      (hfound : (g depth).related Triangle.types .default Triangle.store Triangle.snapshot =
        .ok found) (x : DocId) :
      x ∈ found ↔ (g depth).Relates Triangle.types Triangle.kept
        (QueryLimits.default.depth (g depth).maxDepth) x := by
    rcases (related_exact (g := g depth) (l := .default) Triangle.types_eq hshows hstored rfl huses
      hany rfl (by decide) (hfits depth)).1 with
      ⟨_, _, _, ⟨_, _, he⟩ | ⟨_, _, he⟩⟩ | ⟨found', hfound', -, -, hmem⟩
    · cases hfound.symm.trans he
    · cases hfound.symm.trans he
    · rw [Except.ok.inj (hfound.symm.trans hfound')]
      exact hmem x
  exact ⟨hone, htwo, (hmem 2 htwo "e:c").1 (by decide),
    fun hrelates => absurd ((hmem 1 hone "e:c").2 hrelates) (by decide)⟩

end

end GraphSearch

end MetadataArchive
