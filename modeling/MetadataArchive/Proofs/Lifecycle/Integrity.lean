import MetadataArchive.Lifecycle.Catalog
import MetadataArchive.Proofs.Collection.Ordered
import MetadataArchive.Proofs.Lifecycle.Copy
import MetadataArchive.Proofs.Lifecycle.Home
import MetadataArchive.Proofs.Query.Evaluation
import MetadataArchive.Proofs.Store.Staging

/-!
# Relationships always lead somewhere

`Linked` is the invariant: there are entities, which name no ends, and relationships, which name two
entities that are stored. Four kinds of writes keep it: any write of an entity or its proxy, the
write of a relationship whose ends are stored, the eviction of a relationship, and the eviction of
an entity that no relationship touches any more. Every request comes down to these, in this order:
proxies before their relationship, relationships before their entity.

The relationships that touch a record are found by a query over the state of the transaction. The
query finds neither fewer nor more documents than those that have the record at one of their two
ends (`Acting.mem_touching`): missing one would leave an end that leads nowhere.
-/

set_option autoImplicit false

namespace MetadataArchive

/-! ## Which relationships touch a record -/

/-- A document has a record at an end, alone or in a list. -/
def Document.Touches (d : Document) (r : RecordRef) : Prop :=
  ∃ side v, d.get? (Attr.side side) = some v ∧ Value.ref r.docId ∈ v.elements

namespace Acting

variable {r : RecordRef} {src : Source}

/-- The documents with a record at one end, each as often as it has it there. -/
def atEnd (src : Source) (r : RecordRef) (side : End) : List Document :=
  src.documents.flatMap fun d =>
    (((d.get? (Attr.side side)).toList.flatMap Value.elements).filter
      fun v => v.same (.ref r.docId)).map fun _ => d

theorem mem_atEnd {side : End} {d : Document} :
    d ∈ atEnd src r side ↔
      d ∈ src.documents ∧
        ∃ v, d.get? (Attr.side side) = some v ∧ Value.ref r.docId ∈ v.elements := by
  simp only [atEnd, List.mem_flatMap, List.mem_map, List.mem_filter, Value.same_ref,
    Option.mem_toList]
  constructor
  · rintro ⟨d, hd, e, ⟨⟨v, hv, he⟩, rfl⟩, rfl⟩
    exact ⟨hd, v, hv, he⟩
  · rintro ⟨hd, v, hv, he⟩
    exact ⟨d, hd, _, ⟨⟨v, hv, he⟩, rfl⟩, rfl⟩

/-- The binding of a document to the variable of relationships. -/
def bound (d : Document) : Binding := (∅ : Binding).insert relationshipVar (.ref d.id)

theorem matchPattern_side (side : End) :
    matchPattern src (.var relationshipVar) (Attr.side side) (.const (.ref r.docId)) ∅ =
      (atEnd src r side).map bound := by
  simp only [matchPattern, Term.candidates, NameMap.get?_empty, atEnd, List.map_flatMap,
    List.map_map]
  refine List.flatMap_congr fun d _ => ?_
  cases d.get? (Attr.side side) with
  | none => simp
  | some v =>
    simp only [Option.toList_some, List.flatMap_cons, List.flatMap_nil, List.append_nil]
    induction v.elements with
    | nil => rfl
    | cons e es ih =>
      by_cases he : e.same (.ref r.docId) = true <;>
        simp_all [Term.unify, bindEntity, bound]

theorem evalAll_touches :
    Clause.evalAll src none [touches relationshipVar r] [∅] =
      .ok ((atEnd src r .one ++ atEnd src r .two).map bound) := by
  have hpattern (side : End) :
      Clause.eval src none (.attrEq relationshipVar (Attr.side side) (.ref r.docId)) [∅] =
        .ok ((atEnd src r side).map bound) := by
    rw [Clause.attrEq, Clause.eval_pattern (by simp), List.flatMap_singleton, matchPattern_side]
  rw [Clause.evalAll_cons _ _ (by simp), touches, Clause.eval_or (by simp)]
  simp only [List.map_cons, List.map_nil, Clause.evalAny_cons, Clause.evalAny_nil, hpattern,
    ok_bind, Clause.evalAll_nil, List.append_nil, List.map_append]

theorem row_bound (d : Document) :
    Binding.row [relationshipVar] (bound d) = .ok [.ref d.id] := by
  simp [Binding.row, bound]

theorem mapM_row_bound (ds : List Document) :
    (ds.map bound).mapM (Binding.row [relationshipVar]) = .ok (ds.map fun d => [.ref d.id]) := by
  induction ds with
  | nil => rfl
  | cons d ds ih =>
    rw [List.map_cons, List.mapM_cons, row_bound, ih]
    rfl

/-- Rows of one reference each are equal only where they are the same. -/
theorem compareRows_refs {ds : List Document} :
    ∀ x ∈ ds.map fun d => [Value.ref d.id], ∀ z ∈ ds.map fun d => [Value.ref d.id],
      compareRows x z = .eq → x = z := by
  intro x hx z hz heq
  obtain ⟨d, -, rfl⟩ := List.mem_map.1 hx
  obtain ⟨d', -, rfl⟩ := List.mem_map.1 hz
  have hid : d.id = d'.id := by
    simpa [compareRows, Ordered.lexicographic, Value.totalCompare, Ordering.then_eq_eq,
      Std.compare_eq_iff_eq] using heq
  rw [hid]

/-- **The relationships of a record** are the documents that have it at an end. -/
theorem mem_touching {a : Acting} {ids : List DocId} (h : a.touching r = .ok ids) {id : DocId} :
    id ∈ ids ↔ ∃ d ∈ a.context.source.documents, d.id = id ∧ d.Touches r := by
  simp only [touching, bind_eq_ok, liftM_store_eq_ok, pure_eq_ok] at h
  obtain ⟨rows, hrows, rfl⟩ := h
  simp only [Query.evaluate, Query.extend, Query.of, List.nil_append, evalAll_touches,
    ok_bind, Query.orderedRows, mapM_row_bound, Query.sortColumns, List.mapM_nil,
    pure_bind, Except.ok.injEq] at hrows
  subst hrows
  have hidx : [relationshipVar].idxOf? relationshipVar = some 0 := by decide
  simp only [Rows.refs, Rows.column, hidx, Query.page, List.drop_zero, List.mem_filterMap,
    Ordered.mem_sortStable, Ordered.mem_distinct compareRows_refs, List.mem_map, List.mem_append,
    mem_atEnd]
  constructor
  · rintro ⟨v, ⟨row, ⟨d, hd, rfl⟩, hv⟩, hid⟩
    cases hv
    cases hid
    rcases hd with ⟨hd, v, hv⟩ | ⟨hd, v, hv⟩
    · exact ⟨d, hd, rfl, .one, v, hv⟩
    · exact ⟨d, hd, rfl, .two, v, hv⟩
  · rintro ⟨d, hd, rfl, side, v, hv⟩
    refine ⟨_, ⟨_, ⟨d, ?_, rfl⟩, rfl⟩, rfl⟩
    cases side with
    | one => exact Or.inl ⟨hd, v, hv⟩
    | two => exact Or.inr ⟨hd, v, hv⟩

end Acting

/-! ## The invariant -/

/-- The document of an entity or of its proxy: it names no ends. -/
def Document.IsEntity (d : Document) : Prop :=
  (∃ guid, d.id = (RecordRef.entity guid).docId) ∧ ∀ side, d.get? (Attr.side side) = none

/-- The document of a relationship between two entities. -/
structure Document.Links (d : Document) (one two : String) : Prop where
  id : ∃ guid, d.id = (RecordRef.relationship guid).docId
  one : d.get? (Attr.side .one) = some (.ref (RecordRef.entity one).docId)
  two : d.get? (Attr.side .two) = some (.ref (RecordRef.entity two).docId)

theorem Document.Links.getRef?_one {d : Document} {one two : String} (h : d.Links one two) :
    d.getRef? (Attr.side .one) = some (RecordRef.entity one).docId := by
  rw [Document.getRef?, h.one]
  rfl

theorem Document.Links.getRef?_two {d : Document} {one two : String} (h : d.Links one two) :
    d.getRef? (Attr.side .two) = some (RecordRef.entity two).docId := by
  rw [Document.getRef?, h.two]
  rfl

/-- Every document is that of an entity, or of a relationship between entities that are stored. -/
def Linked (docs : DocId → Option Document) : Prop :=
  ∀ id d, docs id = some d → d.IsEntity ∨
    ∃ one two, d.Links one two ∧ docs (RecordRef.entity one).docId ≠ none ∧
      docs (RecordRef.entity two).docId ≠ none

theorem RecordRef.relationship_ne_entity (guid guid' : String) :
    (RecordRef.relationship guid).docId ≠ (RecordRef.entity guid').docId := fun h => by
  cases RecordRef.docId_injective h

section Linked

variable {docs : DocId → Option Document} {d : Document} {id : DocId} {ws : List Write}

theorem on_put_ne_none (h : docs id ≠ none) : (Write.put d).on docs id ≠ none := by
  unfold Write.on
  split
  · simp [Write.doc?]
  · exact h

theorem linked_none : Linked fun _ => none := fun _ _ h => by cases h

theorem Linked.putEntity (h : Linked docs) (hd : d.IsEntity) : Linked ((Write.put d).on docs) := by
  intro id d' hd'
  unfold Write.on at hd'
  split at hd'
  · cases hd'
    exact Or.inl hd
  · refine (h id d' hd').imp_right ?_
    rintro ⟨one, two, hlinks, hone, htwo⟩
    exact ⟨one, two, hlinks, on_put_ne_none hone, on_put_ne_none htwo⟩

theorem Linked.putRelationship {one two : String} (h : Linked docs) (hd : d.Links one two)
    (hone : docs (RecordRef.entity one).docId ≠ none)
    (htwo : docs (RecordRef.entity two).docId ≠ none) : Linked ((Write.put d).on docs) := by
  intro id d' hd'
  unfold Write.on at hd'
  split at hd'
  · cases hd'
    exact Or.inr ⟨one, two, hd, on_put_ne_none hone, on_put_ne_none htwo⟩
  · refine (h id d' hd').imp_right ?_
    rintro ⟨one, two, hlinks, hone, htwo⟩
    exact ⟨one, two, hlinks, on_put_ne_none hone, on_put_ne_none htwo⟩

theorem Linked.evictRelationship (h : Linked docs) (guid : String) :
    Linked ((Write.evict (RecordRef.relationship guid).docId).on docs) := by
  intro id d hd
  unfold Write.on at hd
  split at hd
  · cases hd
  · refine (h id d hd).imp_right ?_
    rintro ⟨one, two, hlinks, hone, htwo⟩
    refine ⟨one, two, hlinks, ?_, ?_⟩
    · rwa [Write.on_of_ne (RecordRef.relationship_ne_entity guid one).symm]
    · rwa [Write.on_of_ne (RecordRef.relationship_ne_entity guid two).symm]

theorem Document.Links.touches_one {one two : String} (h : d.Links one two) :
    d.Touches (.entity one) :=
  ⟨.one, _, h.one, by simp [Value.elements]⟩

theorem Document.Links.touches_two {one two : String} (h : d.Links one two) :
    d.Touches (.entity two) :=
  ⟨.two, _, h.two, by simp [Value.elements]⟩

/-- An entity is evicted safely once no relationship has it at an end. -/
theorem Linked.evictEntity (h : Linked docs) {guid : String}
    (hfree : ∀ id d, docs id = some d → ¬ d.Touches (.entity guid)) :
    Linked ((Write.evict (RecordRef.entity guid).docId).on docs) := by
  intro id d hd
  unfold Write.on at hd
  split at hd
  · cases hd
  · refine (h id d hd).imp_right ?_
    rintro ⟨one, two, hlinks, hone, htwo⟩
    have hother : ∀ guid', d.Touches (.entity guid') →
        (RecordRef.entity guid').docId ≠ (RecordRef.entity guid).docId := by
      intro guid' htouches heq
      have hguid : RecordRef.entity guid' = RecordRef.entity guid := RecordRef.docId_injective heq
      exact hfree id d hd (hguid ▸ htouches)
    refine ⟨one, two, hlinks, ?_, ?_⟩
    · rwa [Write.on_of_ne (hother one hlinks.touches_one)]
    · rwa [Write.on_of_ne (hother two hlinks.touches_two)]

theorem Linked.evictRelationships (h : Linked docs) {ids : List DocId}
    (hids : ∀ id ∈ ids, ∃ guid, id = (RecordRef.relationship guid).docId) :
    Linked (writeAll docs (ids.map .evict)) := by
  induction ids generalizing docs with
  | nil => exact h
  | cons id ids ih =>
    obtain ⟨guid, rfl⟩ := hids id (by simp)
    exact ih (h.evictRelationship guid) fun id' hid => hids id' (List.mem_cons_of_mem _ hid)

/-- Under the key of an entity there is an entity. -/
theorem Linked.isEntity (h : Linked docs) {guid : String} (hd : docs id = some d)
    (hid : d.id = (RecordRef.entity guid).docId) : d.IsEntity := by
  refine (h id d hd).resolve_right ?_
  rintro ⟨_, _, hlinks, -, -⟩
  obtain ⟨guid', hid'⟩ := hlinks.id
  exact RecordRef.relationship_ne_entity guid' guid (hid'.symm.trans hid)

/-- Under the key of a relationship there is a relationship. -/
theorem Linked.links (h : Linked docs) {guid : String} (hd : docs id = some d)
    (hid : d.id = (RecordRef.relationship guid).docId) :
    ∃ one two, d.Links one two ∧ docs (RecordRef.entity one).docId ≠ none ∧
      docs (RecordRef.entity two).docId ≠ none := by
  refine (h id d hd).resolve_left ?_
  rintro ⟨⟨guid', hid'⟩, -⟩
  exact RecordRef.relationship_ne_entity guid guid' (hid.symm.trans hid')

/-- An entity names no ends, so what touches a record is a relationship. -/
theorem Linked.id_of_touches (h : Linked docs) {r : RecordRef} (hd : docs id = some d)
    (htouches : d.Touches r) : ∃ guid, d.id = (RecordRef.relationship guid).docId := by
  obtain ⟨side, v, hv, -⟩ := htouches
  rcases h id d hd with hentity | ⟨_, _, hlinks, -, -⟩
  · rw [hentity.2 side] at hv
    cases hv
  · exact hlinks.id

theorem Linked.hasEnds {src : Source} (h : Linked src.document?) : src.HasEnds := by
  intro id d hd one two hends
  obtain ⟨hone, htwo⟩ := Relationship.ends_ok hends
  rcases h id d hd with hentity | ⟨one', two', hlinks, hone', htwo'⟩
  · rw [hentity.2 .one] at hone
    cases hone
  · rw [hlinks.one] at hone
    rw [hlinks.two] at htwo
    cases hone
    cases htwo
    exact ⟨Option.ne_none_iff_exists'.1 hone', Option.ne_none_iff_exists'.1 htwo'⟩

end Linked

/-! ## Documents of records -/

section Layout

variable {ts : TypeSystem} {d : Document}

theorem Entity.isEntity_toDocument {e : Entity} (h : e.toDocument ts = .ok d) : d.IsEntity := by
  refine ⟨⟨e.guid, (Entity.lays h).id⟩, fun side => (Entity.lays h).rest _ ?_ ?_ ?_⟩ <;>
    cases side <;> decide

theorem Proxy.isEntity_toDocument {p : Proxy} (h : p.toDocument ts = .ok d) : d.IsEntity := by
  refine ⟨⟨p.guid, (Proxy.lays h).id⟩, fun side => (Proxy.lays h).rest _ ?_ ?_ ?_⟩ <;>
    cases side <;> decide

theorem Relationship.links_toDocument {rel : Relationship} (h : rel.toDocument ts = .ok d) :
    d.Links rel.endOne.guid rel.endTwo.guid where
  id := ⟨rel.guid, (Relationship.lays h).id⟩
  one := (Relationship.lays h).mark (Attr.side .one, .ref rel.endOne.reference.docId) (by simp)
  two := (Relationship.lays h).mark (Attr.side .two, .ref rel.endTwo.reference.docId) (by simp)

end Layout

/-! ## Requests -/

namespace Acting

variable {a : Acting} {ws : List Write}

theorem linked_rewrites {guid : String} {next : UInt64 → UInt64}
    (h : Linked a.context.source.document?) (hw : a.Rewrites guid next ws) :
    Linked (writeAll a.context.source.document? ws) := by
  obtain ⟨e, e', d, -, -, -, hd, rfl⟩ := hw
  exact h.putEntity (Entity.isEntity_toDocument hd)

theorem linked_newProxies {docs : DocId → Option Document} (h : Linked docs)
    (hws : a.OnlyNewProxies ws) : Linked (writeAll docs ws) := by
  induction ws generalizing docs with
  | nil => exact h
  | cons w ws ih =>
    obtain ⟨p, d, rfl, hd, -⟩ := hws w (by simp)
    exact ih (h.putEntity (Proxy.isEntity_toDocument hd))
      fun w hw => hws w (List.mem_cons_of_mem _ hw)

/-- Proxies take nothing away. -/
theorem newProxies_ne_none {docs : DocId → Option Document} {id : DocId} (h : docs id ≠ none)
    (hws : a.OnlyNewProxies ws) : writeAll docs ws id ≠ none := by
  induction ws generalizing docs with
  | nil => exact h
  | cons w ws ih =>
    obtain ⟨p, d, rfl, -, -⟩ := hws w (by simp)
    exact ih (on_put_ne_none h) fun w hw => hws w (List.mem_cons_of_mem _ hw)

theorem stored_after_writes {r : RecordRef} (hws : a.OnlyNewProxies ws)
    (hr : a.StoredOrWritten ws r) : writeAll a.context.source.document? ws r.docId ≠ none := by
  rcases hr with hr | ⟨d, hd, hid⟩
  · exact newProxies_ne_none hr hws
  · -- Right after its own write it is there, and the writes that follow take nothing away.
    obtain ⟨before, after, rfl⟩ := List.append_of_mem hd
    have hnow : (Write.put d).on (writeAll a.context.source.document? before) r.docId ≠ none := by
      rw [← hid]
      simp [Write.on, Write.id, Write.doc?]
    rw [writeAll_append]
    show writeAll ((Write.put d).on (writeAll _ before)) after r.docId ≠ none
    exact newProxies_ne_none hnow fun w hw => hws w (by simp [hw])

theorem linked_connects {rel : Relationship} (h : Linked a.context.source.document?)
    (hw : a.Connects rel ws) : Linked (writeAll a.context.source.document? ws) := by
  obtain ⟨proxies, d, live, hproxies, hd, rfl⟩ := hw
  obtain ⟨hnew, hone, htwo⟩ := endProxies_ok hproxies
  rw [writeAll_concat]
  exact (linked_newProxies h hnew).putRelationship (Relationship.links_toDocument hd)
    (stored_after_writes hnew hone) (stored_after_writes hnew htwo)

/-- An entity goes after all its relationships have gone. -/
theorem linked_evictEntity {guid : String} {ids : List DocId}
    (hsource : a.context.source.Coherent) (h : Linked a.context.source.document?)
    (hids : a.touching (.entity guid) = .ok ids) :
    Linked (writeAll a.context.source.document?
      (ids.map .evict ++ [.evict (RecordRef.entity guid).docId])) := by
  rw [writeAll_concat]
  refine (h.evictRelationships fun id hid => ?_).evictEntity fun id d hd htouches => ?_
  · obtain ⟨d, hd, rfl, htouches⟩ := (mem_touching hids).1 hid
    exact h.id_of_touches ((hsource.listed d).1 hd) htouches
  · rw [writeAll_evict] at hd
    split at hd
    · cases hd
    next hnot =>
      have hkey : d.id = id := hsource.keyed id d hd
      have hmem : d ∈ a.context.source.documents := (hsource.listed d).2 (by rw [hkey]; exact hd)
      exact hnot ((mem_touching hids).2 ⟨d, hmem, hkey, htouches⟩)

theorem linked_changeRelationship {guid : String} {change : Change}
    (hsource : a.context.source.Coherent) (h : Linked a.context.source.document?)
    (hw : a.changeRelationship guid change = .ok ws) :
    Linked (writeAll a.context.source.document? ws) := by
  obtain ⟨rel, rel', d, hrel, -, hone, htwo, -, hd, rfl⟩ := changeRelationship_ok hw
  obtain ⟨d₀, one, two, -, -, hread⟩ := relationship?_some hrel
  obtain ⟨-, -, ⟨d₁, hd₁, hid₁⟩, d₂, hd₂, hid₂⟩ := Relationship.ofDocument_ok hread
  have hlinks := Relationship.links_toDocument hd
  rw [hone, htwo] at hlinks
  -- The ends were read from their documents, so both are stored.
  refine h.putRelationship hlinks ?_ ?_
  · show a.context.source.document? rel.endOne.reference.docId ≠ none
    rw [hid₁, hsource.keyed one d₁ hd₁, hd₁]
    simp
  · show a.context.source.document? rel.endTwo.reference.docId ≠ none
    rw [hid₂, hsource.keyed two d₂ hd₂, hd₂]
    simp

end Acting

/-- **Every request keeps relationships linked.** -/
theorem Request.linked_carryOut {a : Acting} {req : Request} {ws : List Write}
    (hsource : a.context.source.Coherent) (h : Linked a.context.source.document?)
    (hw : req.carryOut a = .ok ws) : Linked (writeAll a.context.source.document? ws) := by
  cases req with
  | createEntity guid typeName ps cs status =>
    obtain ⟨-, e, d, -, -, hd, rfl⟩ := Acting.createEntity_ok hw
    exact h.putEntity (Entity.isEntity_toDocument hd)
  | createStub proxy =>
    rcases Acting.createStub_ok hw with rfl | ⟨-, d, hd, rfl⟩
    · exact h
    · exact h.putEntity (Proxy.isEntity_toDocument hd)
  | changeEntity guid change => exact Acting.linked_rewrites h (Acting.changeEntity_ok hw).rewrites
  | purgeEntity guid force =>
    obtain ⟨ids, hids, rfl⟩ := Acting.purgeEntity_ok hw
    exact Acting.linked_evictEntity hsource h hids
  | classify guid name ps mode => exact Acting.linked_rewrites h (Acting.classify_ok hw).rewrites
  | declassify guid name => exact Acting.linked_rewrites h (Acting.declassify_ok hw).rewrites
  | createRelationship guid typeName ps status endOne endTwo =>
    obtain ⟨-, rel, -, hconnects⟩ := Acting.createRelationship_ok hw
    exact Acting.linked_connects h hconnects
  | changeRelationship guid change => exact Acting.linked_changeRelationship hsource h hw
  | purgeRelationship guid force =>
    rw [Acting.purgeRelationship_ok hw]
    exact h.evictRelationship guid
  | storeEntityCopy entity =>
    obtain ⟨_, -, ⟨rfl, -⟩ | ⟨d, hd, rfl, -⟩⟩ := Acting.storeEntityCopy_ok hw
    · exact h
    · exact h.putEntity (Entity.isEntity_toDocument hd)
  | purgeEntityCopy guid home =>
    rcases Acting.purgeEntityCopy_ok hw with rfl | ⟨hids, rfl⟩ | ⟨e, d, -, hd, rfl⟩
    · exact h
    · exact Acting.linked_evictEntity hsource h hids
    · exact h.putEntity (Proxy.isEntity_toDocument hd)
  | storeRelationshipCopy relationship =>
    obtain ⟨_, -, ⟨rfl, -⟩ | ⟨hconnects, -⟩⟩ := Acting.storeRelationshipCopy_ok hw
    · exact h
    · exact Acting.linked_connects h hconnects
  | storeHomeRelationship relationship =>
    exact Acting.linked_connects h (Acting.storeHomeRelationship_ok hw)
  | purgeRelationshipCopy guid home =>
    rcases Acting.purgeRelationshipCopy_ok hw with rfl | rfl
    · exact h
    · exact h.evictRelationship guid
  | storeClassificationCopy guid classification =>
    rcases Acting.storeClassificationCopy_ok hw with rfl | hrewrites
    · exact h
    · exact Acting.linked_rewrites h hrewrites
  | purgeClassificationCopy guid name home =>
    rcases Acting.purgeClassificationCopy_ok hw with rfl | hrewrites
    · exact h
    · exact Acting.linked_rewrites h hrewrites

/-- No request fails for want of an end where relationships are linked. -/
theorem Request.avoids_carryOut {a : Acting} (req : Request)
    (h : Linked a.context.source.document?) : Avoids Failure.Dangling (req.carryOut a) := by
  have hends := h.hasEnds
  cases req with
  | createEntity => exact Acting.avoids_createEntity _ _ _ _ _
  | createStub => exact Acting.avoids_createStub _
  | changeEntity => exact Acting.avoids_changeEntity _ _
  | purgeEntity => exact Acting.avoids_purgeEntity _ _
  | classify => exact Acting.avoids_classify _ _ _ _
  | declassify => exact Acting.avoids_declassify _ _
  | createRelationship => exact Acting.avoids_createRelationship _ _ _ _ _ _
  | changeRelationship => exact Acting.avoids_changeRelationship hends _ _
  | purgeRelationship => exact Acting.avoids_purgeRelationship hends _ _
  | storeEntityCopy => exact Acting.avoids_storeEntityCopy _
  | purgeEntityCopy => exact Acting.avoids_purgeEntityCopy _ _
  | storeRelationshipCopy => exact Acting.avoids_storeRelationshipCopy hends _
  | storeHomeRelationship => exact Acting.avoids_storeHomeRelationship _
  | purgeRelationshipCopy => exact Acting.avoids_purgeRelationshipCopy hends _ _
  | storeClassificationCopy => exact Acting.avoids_storeClassificationCopy _ _
  | purgeClassificationCopy => exact Acting.avoids_purgeClassificationCopy _ _ _

end MetadataArchive
