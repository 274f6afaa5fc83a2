import MetadataArchive.Proofs.Search.Among
import MetadataArchive.Proofs.Search.Reachability

/-!
# Neighborhoods

Two queries start from the walk around an entity. One answers the wanted entities that wanted
relationships lead to; the other answers the wanted entities, whatever led to them, and the wanted
relationships between what it answers. So the first may answer fewer entities than the second, and
it does not where the search counts all relationships (`GraphSearch.related_within_neighborhood`).

A walk meets the relationships of all that it goes on from, and it does not go on from what is as far
away as it may get. So a relationship between two entities that are both that far away is missing
from a neighborhood, and no other is (`GraphSearch.relationships_within`).
-/

set_option autoImplicit false

namespace MetadataArchive

variable {ts : TypeSystem} {src : Source} {stored : DocId → Option StoredRecord} {s : Store}
variable {snap : Snapshot} {l : QueryLimits} {g : GraphSearch} {w : Walk} {id x y : DocId}

/-! ## The graph of stored relationships -/

/-- A relationship that is stored connects what it has at one end with what it has at the other. -/
def Connects (stored : DocId → Option StoredRecord) (id x y : DocId) : Prop :=
  ∃ rel, stored id = some (.relationship rel) ∧
    (rel.endOne.reference.docId = x ∧ rel.endTwo.reference.docId = y ∨
      rel.endTwo.reference.docId = x ∧ rel.endOne.reference.docId = y)

namespace Connects

theorem of_ends {rel : Relationship} (h : stored id = some (.relationship rel)) :
    Connects stored id rel.endOne.reference.docId rel.endTwo.reference.docId :=
  ⟨rel, h, .inl ⟨rfl, rfl⟩⟩

theorem symm (h : Connects stored id x y) : Connects stored id y x :=
  h.imp fun _ hrel => hrel.imp_right fun hends => hends.symm.imp And.symm And.symm

/-- A relationship has two ends and no more. -/
theorem ends {x' y' : DocId} (h : Connects stored id x y) (h' : Connects stored id x' y') :
    x' = x ∧ y' = y ∨ x' = y ∧ y' = x := by
  obtain ⟨rel, hrel, hends⟩ := h
  obtain ⟨rel', hrel', hends'⟩ := h'
  cases hrel.symm.trans hrel'
  rcases hends with ⟨rfl, rfl⟩ | ⟨rfl, rfl⟩ <;> rcases hends' with ⟨rfl, rfl⟩ | ⟨rfl, rfl⟩ <;> simp

end Connects

namespace Source.Stores

/-- The documents of relationships join what the relationships connect; no others join anything. -/
theorem joined_eq (h : src.Stores ts stored) : src.Joined = Connects stored := by
  funext id x y
  have hjoins {r : StoredRecord} {d : Document} (hd : r.toDocument ts = .ok d) :
      d.Joins x y ↔ ∃ rel, r = .relationship rel ∧
        (rel.endOne.reference.docId = x ∧ rel.endTwo.reference.docId = y ∨
          rel.endTwo.reference.docId = x ∧ rel.endOne.reference.docId = y) := by
    cases r <;> simp [Document.Joins, StoredRecord.get?_side hd, StoredRecord.side?]
  refine propext ⟨?_, ?_⟩
  · rintro ⟨d, hd, hxy⟩
    obtain ⟨r, hr, hdoc⟩ := h.of_document hd
    obtain ⟨rel, rfl, hends⟩ := (hjoins hdoc).1 hxy
    exact ⟨rel, hr, hends⟩
  · rintro ⟨rel, hrel, hends⟩
    obtain ⟨d, hdoc, hd⟩ := h.of_stored hrel
    exact ⟨d, hd, (hjoins hdoc).2 ⟨rel, rfl, hends⟩⟩

theorem singleEnds (h : src.Stores ts stored) : src.SingleEnds := by
  intro id d e v hd hv
  obtain ⟨r, -, hdoc⟩ := h.of_document hd
  rw [StoredRecord.get?_side hdoc] at hv
  obtain ⟨ref, -, rfl⟩ := Option.map_eq_some_iff.1 hv
  exact ⟨_, rfl⟩

end Source.Stores

namespace GraphSearch

/-! ## Answers -/

/-- What a search is refused for: an entity to start from that is not there, or a type of the other
category. -/
inductive Refused (ts : TypeSystem) (stored : DocId → Option StoredRecord) (g : GraphSearch) :
    SearchError → Prop
  | root (hroot : stored g.rootId = none) : Refused ts stored g (.unknownRoot g.rootId)
  | relationships {name : String} {t : TypeDef}
      (hname : name ∈ TypeFilter.names g.relationshipTypes) (ht : ts.get? name = some t)
      (hother : t.category ≠ .relationship) :
      Refused ts stored g (.wrongCategory name TypeCategory.relationship.name)
  | entities {name : String} {t : TypeDef} (hname : name ∈ TypeFilter.names g.entityTypes)
      (ht : ts.get? name = some t) (hother : t.category ≠ .entity) :
      Refused ts stored g (.wrongCategory name TypeCategory.entity.name)

/-- A relationship that a search counts, and that its walk meets, has the document at an end. -/
def LeadsTo (ts : TypeSystem) (stored : DocId → Option StoredRecord) (l : QueryLimits)
    (g : GraphSearch) (x : DocId) : Prop :=
  ∃ id r y m, stored id = some r ∧ g.wantsRelationship ts r = true ∧ Connects stored id x y ∧
    m < l.depth g.maxDepth ∧
      (Distance (Connects stored) g.rootId x m ∨ Distance (Connects stored) g.rootId y m)

/-- The relationships that a neighborhood keeps: those between its own. -/
def inside (g : GraphSearch) (edges : List Edge) (entities : List DocId) : List DocId :=
  (edges.filter fun e => (g.rootId :: entities).contains e.near &&
    (g.rootId :: entities).contains e.far).map Edge.relationship

/-- What a walk has reached of the ends of some relationships. -/
def led (w : Walk) (edges : List Edge) : List DocId :=
  w.reached.filter fun id => (edges.flatMap fun e => [e.near, e.far]).contains id

theorem mem_led {edges : List Edge} :
    x ∈ led w edges ↔ x ∈ w.reached ∧ ∃ e ∈ edges, x = e.near ∨ x = e.far := by
  rw [led, List.mem_filter, List.contains_iff_mem, List.mem_flatMap]
  simp only [List.mem_pair]

/-- What is found on the way to the two answers. -/
structure Finds (ts : TypeSystem) (stored : DocId → Option StoredRecord) (l : QueryLimits)
    (g : GraphSearch) (w : Walk) (edges : List Edge) (entities related : List DocId) : Prop where
  walk : w.Finds (Connects stored) g.rootId (l.depth g.maxDepth)
  counted : ∀ e, e ∈ edges ↔ w.edges.get? e.relationship = some e ∧
    ∃ r, stored e.relationship = some r ∧ g.wantsRelationship ts r = true
  counted_once : (edges.map Edge.relationship).Nodup
  wanted : ∀ x, x ∈ entities ↔ x ∈ w.reached ∧
    ∃ r, stored x = some r ∧ g.wantsEntity ts r = true
  wanted_once : entities.Nodup
  led : ∀ x, x ∈ related ↔ (x ∈ w.reached ∧ ∃ e ∈ edges, x = e.near ∨ x = e.far) ∧
    ∃ r, stored x = some r ∧ g.wantsEntity ts r = true
  led_once : related.Nodup

namespace Finds

variable {edges : List Edge} {entities related : List DocId}

/-- What a neighborhood has of entities is no further away than the search goes. -/
theorem distance (h : Finds ts stored l g w edges entities related)
    (hx : x ∈ g.rootId :: entities) :
    ∃ m ≤ l.depth g.maxDepth, Distance (Connects stored) g.rootId x m := by
  rcases List.mem_cons.1 hx with rfl | hx
  · exact ⟨0, Nat.zero_le _, Distance.zero_iff.2 rfl⟩
  · obtain ⟨m, -, hm, hdist⟩ := (h.walk.reached x).1 ((h.wanted x).1 hx).1
    exact ⟨m, hm, hdist⟩

/-- A relationship that was met is one of the wanted ones if the search counts it. -/
theorem mem_edges (h : Finds ts stored l g w edges entities related) {r : StoredRecord}
    (hr : stored id = some r) (hwants : g.wantsRelationship ts r = true)
    (hmet : w.edges.contains id = true) :
    ∃ e ∈ edges, e.relationship = id ∧ Connects stored id e.near e.far := by
  obtain ⟨e, he⟩ := Option.isSome_iff_exists.1 hmet
  obtain ⟨rfl, hends⟩ := h.walk.ends id e he
  exact ⟨e, (h.counted e).2 ⟨he, r, hr, hwants⟩, rfl, hends⟩

/-- **The relationships of a neighborhood** are those that the search counts with both ends in the
neighborhood, less those of which both ends are as far away as the search goes. -/
theorem mem_inside (h : Finds ts stored l g w edges entities related) :
    id ∈ g.inside edges entities ↔ ∃ rel, stored id = some (.relationship rel) ∧
      g.wantsRelationship ts (.relationship rel) = true ∧
      rel.endOne.reference.docId ∈ g.rootId :: entities ∧
      rel.endTwo.reference.docId ∈ g.rootId :: entities ∧
      ¬ (Distance (Connects stored) g.rootId rel.endOne.reference.docId (l.depth g.maxDepth) ∧
        Distance (Connects stored) g.rootId rel.endTwo.reference.docId (l.depth g.maxDepth)) := by
  simp only [inside, List.mem_map, List.mem_filter, Bool.and_eq_true, List.contains_iff_mem]
  constructor
  · rintro ⟨e, ⟨he, hnear, hfar⟩, rfl⟩
    obtain ⟨hget, r, hr, hwants⟩ := (h.counted e).1 he
    obtain ⟨-, hends⟩ := h.walk.ends _ e hget
    obtain ⟨x, y, m, hxy, hdist, hm⟩ :=
      (h.walk.met e.relationship).1 (by simp [NameMap.contains, hget])
    obtain ⟨rel, hrel, -⟩ := id hends
    cases hr.symm.trans hrel
    refine ⟨rel, hrel, hwants, ?_, ?_, ?_⟩
    · rcases hends.ends (.of_ends hrel) with ⟨hone, -⟩ | ⟨hone, -⟩ <;> rwa [hone]
    · rcases hends.ends (.of_ends hrel) with ⟨-, htwo⟩ | ⟨-, htwo⟩ <;> rwa [htwo]
    · -- It was met at an end that is nearer.
      rintro ⟨hone, htwo⟩
      rcases (Connects.of_ends hrel).ends hxy with ⟨rfl, -⟩ | ⟨rfl, -⟩
      · exact absurd (hdist.unique hone) hm.ne
      · exact absurd (hdist.unique htwo) hm.ne
  · rintro ⟨rel, hrel, hwants, hone, htwo, hnear⟩
    obtain ⟨m, hm, hm'⟩ := h.distance hone
    obtain ⟨n, hn, hn'⟩ := h.distance htwo
    have hmet : w.edges.contains id = true := by
      rw [h.walk.met]
      rcases Nat.lt_or_eq_of_le hm with hlt | rfl
      · exact ⟨_, _, m, .of_ends hrel, hm', hlt⟩
      · rcases Nat.lt_or_eq_of_le hn with hlt | rfl
        · exact ⟨_, _, n, (Connects.of_ends hrel).symm, hn', hlt⟩
        · exact absurd ⟨hm', hn'⟩ hnear
    obtain ⟨e, he, rfl, hends⟩ := h.mem_edges hrel hwants hmet
    refine ⟨e, ⟨he, ?_⟩, rfl⟩
    rcases (Connects.of_ends hrel).ends hends with ⟨hnear, hfar⟩ | ⟨hnear, hfar⟩
    · rw [hnear, hfar]
      exact ⟨hone, htwo⟩
    · rw [hnear, hfar]
      exact ⟨htwo, hone⟩

theorem inside_once (h : Finds ts stored l g w edges entities related) :
    (g.inside edges entities).Nodup :=
  h.counted_once.sublist (List.filter_sublist.map _)

/-- **The related entities** are those of the neighborhood that a wanted relationship leads to. -/
theorem mem_related (h : Finds ts stored l g w edges entities related) :
    x ∈ related ↔ x ∈ entities ∧ g.LeadsTo ts stored l x := by
  have hled (hx : x ∈ w.reached) : (∃ e ∈ edges, x = e.near ∨ x = e.far) ↔
      g.LeadsTo ts stored l x := by
    constructor
    · rintro ⟨e, he, hend⟩
      obtain ⟨hget, r, hr, hwants⟩ := (h.counted e).1 he
      obtain ⟨-, hends⟩ := h.walk.ends _ e hget
      obtain ⟨x', y', m, hxy, hdist, hm⟩ :=
        (h.walk.met e.relationship).1 (by simp [NameMap.contains, hget])
      rcases hend with rfl | rfl
      · refine ⟨_, r, e.far, m, hr, hwants, hends, hm, ?_⟩
        rcases hends.ends hxy with ⟨rfl, -⟩ | ⟨rfl, -⟩
        · exact .inl hdist
        · exact .inr hdist
      · refine ⟨_, r, e.near, m, hr, hwants, hends.symm, hm, ?_⟩
        rcases hends.ends hxy with ⟨rfl, -⟩ | ⟨rfl, -⟩
        · exact .inr hdist
        · exact .inl hdist
    · rintro ⟨id, r, y, m, hr, hwants, hxy, hm, hdist⟩
      have hmet : w.edges.contains id = true := by
        rw [h.walk.met]
        rcases hdist with hdist | hdist
        · exact ⟨x, y, m, hxy, hdist, hm⟩
        · exact ⟨y, x, m, hxy.symm, hdist, hm⟩
      obtain ⟨e, he, rfl, hends⟩ := h.mem_edges hr hwants hmet
      refine ⟨e, he, ?_⟩
      rcases hends.ends hxy with ⟨rfl, -⟩ | ⟨rfl, -⟩
      · exact .inl rfl
      · exact .inr rfl
  rw [h.led, h.wanted]
  constructor
  · rintro ⟨⟨hx, he⟩, hr⟩
    exact ⟨⟨hx, hr⟩, (hled hx).1 he⟩
  · rintro ⟨⟨hx, hr⟩, hleads⟩
    exact ⟨⟨hx, (hled hx).2 hleads⟩, hr⟩

end Finds

/-! ## Whole answers -/

/-- Where relationships were met, the filter of their types is all that stands in the way. -/
theorem passingEdges_refused (hknown : ∀ name ∈ TypeFilter.names g.relationshipTypes,
    (ts.get? name).isSome = true) (w : Walk) :
    (w.edges.isEmpty = true ∨
      ∃ found, ts.typeClauses g.relationshipTypes .relationship relationshipVar = .ok found) ∨
    ∃ e, g.Refused ts stored e ∧ g.passingEdges ts l s snap w = .error e := by
  cases hw : w.edges.isEmpty with
  | true => exact .inl (.inl rfl)
  | false =>
    cases h : ts.typeClauses g.relationshipTypes .relationship relationshipVar with
    | ok found => exact .inl (.inr ⟨found, rfl⟩)
    | error e =>
      obtain ⟨name, hname, t, ht, hother, rfl⟩ := TypeSystem.typeClauses_error hknown h
      exact .inr ⟨_, .relationships hname ht hother, passingEdges_error hw h⟩

/-- Where entities are known, the filter of their types is all that stands in the way. -/
theorem passingEntities_refused
    (hknown : ∀ name ∈ TypeFilter.names g.entityTypes, (ts.get? name).isSome = true)
    (ids : List DocId) :
    (ids = [] ∨ ∃ found, ts.typeClauses g.entityTypes .entity entityVar = .ok found) ∨
    ids ≠ [] ∧ ∃ e, g.Refused ts stored e ∧ ∀ ids paged, ids ≠ [] →
      g.passingEntities ts l s snap ids paged = .error e := by
  by_cases hids : ids = []
  · exact .inl (.inl hids)
  cases h : ts.typeClauses g.entityTypes .entity entityVar with
  | ok found => exact .inl (.inr ⟨found, rfl⟩)
  | error e =>
    obtain ⟨name, hname, t, ht, hother, rfl⟩ := TypeSystem.typeClauses_error hknown h
    exact .inr ⟨hids, _, .entities hname ht hother,
      fun ids paged hids => passingEntities_error hids h paged⟩

section

variable {ν : Type} {capacity : Nat} {events : List (StoreEvent ν)}
variable (hsnap : ((Store.empty capacity).run events).Shows snap src) (h : src.Stores ts stored)
variable (hl : l.timeoutMs ≠ 0)

include hsnap h hl

/-- A search walks through the graph of stored relationships, if what it starts from is there. -/
theorem traverse_cases (g : GraphSearch) :
    (stored g.rootId = none ∧
      g.traverse l ((Store.empty capacity).run events) snap = .error (.unknownRoot g.rootId)) ∨
    ∃ w, g.traverse l ((Store.empty capacity).run events) snap = .ok w ∧
      w.Finds (Connects stored) g.rootId (l.depth g.maxDepth) := by
  cases hroot : stored g.rootId with
  | none =>
    refine Or.inl ⟨rfl, ?_⟩
    rw [traverse, Store.traverse, Store.walk, hsnap.get, h.document, hroot]
    rfl
  | some r =>
    obtain ⟨d, -, hd⟩ := h.of_stored hroot
    obtain ⟨w, hw, hfinds, -⟩ := Store.traverse_exact capacity events l snap g.rootId
      (l.depth g.maxDepth) hl ⟨d, by rw [hsnap.get, hd]⟩ fun id d side v hd hv => by
        rw [hsnap.get, Except.ok.injEq] at hd
        exact h.singleEnds id d side v hd hv
    rw [hsnap.joined_iff, h.joined_eq] at hfinds
    exact Or.inr ⟨w, hw, hfinds⟩

variable (hts : ts.Named) (hguids : ts.Distinct)
variable (hrelationships : ∀ name ∈ TypeFilter.names g.relationshipTypes,
  (ts.get? name).isSome = true)
variable (hentities : ∀ name ∈ TypeFilter.names g.entityTypes, (ts.get? name).isSome = true)

include hts hguids hrelationships

/-- **Both queries start alike**: they walk, and ask which of the relationships that were met the
search counts. -/
theorem counted_cases :
    (∃ e, g.Refused ts stored e ∧
      g.neighborhood ts l ((Store.empty capacity).run events) snap = .error e ∧
      g.related ts l ((Store.empty capacity).run events) snap = .error e) ∨
    ∃ w edges, w.Finds (Connects stored) g.rootId (l.depth g.maxDepth) ∧
      (w.edges.isEmpty = true ∨
        ∃ found, ts.typeClauses g.relationshipTypes .relationship relationshipVar = .ok found) ∧
      (edges.map Edge.relationship).Nodup ∧
      (∀ e, e ∈ edges ↔ w.edges.get? e.relationship = some e ∧
        ∃ r, stored e.relationship = some r ∧ g.wantsRelationship ts r = true) ∧
      g.neighborhood ts l ((Store.empty capacity).run events) snap =
        (g.passingEntities ts l ((Store.empty capacity).run events) snap w.reached false).map
          (fun entities => (entities, g.inside edges entities)) ∧
      g.related ts l ((Store.empty capacity).run events) snap =
        g.passingEntities ts l ((Store.empty capacity).run events) snap (led w edges) true := by
  generalize hs : (Store.empty capacity).run events = s at *
  rcases hs ▸ traverse_cases (hs ▸ hsnap) h hl g with ⟨hroot, hwalk⟩ | ⟨w, hwalk, hw⟩
  · refine Or.inl ⟨_, .root hroot, ?_, ?_⟩
    · rw [neighborhood, hwalk]
      rfl
    · rw [GraphSearch.related, hwalk]
      rfl
  rcases passingEdges_refused hrelationships w with hcounted | ⟨e, he, hrefused⟩
  case inr =>
    refine Or.inl ⟨e, he, ?_, ?_⟩
    · rw [neighborhood, hwalk, ok_bind, hrefused]
      rfl
    · rw [GraphSearch.related, hwalk, ok_bind, hrefused]
      rfl
  obtain ⟨edges, hedges, hedges_once, hmem⟩ := passingEdges_ok h hsnap hts hguids hl
    (fun id e he => (hw.ends id e he).1) hcounted
  refine Or.inr ⟨w, edges, hw, hcounted, hedges_once, hmem, ?_, ?_⟩
  · rw [neighborhood, hwalk, ok_bind, hedges, ok_bind]
    cases g.passingEntities ts l s snap w.reached false <;> rfl
  · rw [GraphSearch.related, hwalk, ok_bind, hedges, ok_bind]
    rfl

include hentities

/-- **Both queries are answered from one walk**, unless a neighborhood is refused; then there are no
related entities either. -/
theorem answers :
    (∃ e, g.neighborhood ts l ((Store.empty capacity).run events) snap = .error e ∧
      g.Refused ts stored e ∧
      (g.related ts l ((Store.empty capacity).run events) snap = .error e ∨
        g.related ts l ((Store.empty capacity).run events) snap = .ok [])) ∨
    ∃ w edges entities related, g.Finds ts stored l w edges entities related ∧
      g.neighborhood ts l ((Store.empty capacity).run events) snap =
        .ok (entities, g.inside edges entities) ∧
      g.related ts l ((Store.empty capacity).run events) snap = .ok (g.page l true related) := by
  rcases counted_cases hsnap h hl hts hguids hrelationships with
    ⟨e, he, hneighborhood, hrelated⟩ |
      ⟨w, edges, hw, -, hedges_once, hcounted, hneighborhood, hrelated⟩
  · exact Or.inl ⟨e, hneighborhood, he, Or.inl hrelated⟩
  rw [hneighborhood, hrelated]
  rcases passingEntities_refused hentities w.reached with hwanted | ⟨hreached, e, he, hrefused⟩
  case inr =>
    refine Or.inl ⟨e, by rw [hrefused _ _ hreached]; rfl, he, ?_⟩
    by_cases hnone : led w edges = []
    · exact Or.inr (by rw [hnone, passingEntities_nil])
    · exact Or.inl (hrefused _ _ hnone)
  have hwanted' : led w edges = [] ∨
      ∃ found, ts.typeClauses g.entityTypes .entity entityVar = .ok found :=
    hwanted.imp_left fun hnone => by rw [led, hnone, List.filter_nil]
  obtain ⟨entities, hall, hentities_once, hmem⟩ :=
    passingEntities_ok h hsnap hts hguids hl hwanted false
  obtain ⟨related, hpage, hrelated_once, hmem'⟩ :=
    passingEntities_ok h hsnap hts hguids hl hwanted' true
  refine Or.inr ⟨w, edges, entities, related,
    ⟨hw, hcounted, hedges_once, hmem, hentities_once, fun x => ?_, hrelated_once⟩,
    by rw [hall]; rfl, hpage⟩
  rw [hmem', mem_led]

end

end GraphSearch

/-! ## Three tables

Each two of them are related: the first uses the second and owns the third, which the second uses. -/

namespace Triangle

def asset : TypeDef := ⟨"t1", "Asset", .entity, none, [], []⟩

def uses : TypeDef := ⟨"t2", "Uses", .relationship, none, [], []⟩

def owns : TypeDef := ⟨"t3", "Owns", .relationship, none, [], []⟩

def types : TypeSystem := (TypeSystem.ofList [asset, uses, owns]).toOption.getD .empty

def header (t : TypeDef) : Header := Header.create t.typeRef "c" none "user" ⟨0, 0⟩

def table (guid : String) : Entity := ⟨guid, header asset, .ofList [], []⟩

def relationship (guid : String) (t : TypeDef) (one two : String) : Relationship :=
  ⟨guid, header t, .ofList [], (table one).toProxy types, (table two).toProxy types⟩

def records : List StoredRecord :=
  [.entity (table "a"), .entity (table "b"), .entity (table "c"),
    .relationship (relationship "ab" uses "a" "b"), .relationship (relationship "ac" owns "a" "c"),
    .relationship (relationship "bc" uses "b" "c")]

def docs : List Document := (records.mapM (StoredRecord.toDocument types)).toOption.getD []

def events : List (StoreEvent Unit) :=
  [.submit [] ⟨0, 0⟩ ((docs.map .put).map .write), .openSnapshot ⟨0, 0⟩ none]

def store : Store := (Store.empty 1).run events

def snapshot : Snapshot := ⟨1, 1, ⟨0, 0⟩⟩

def kept : DocId → Option StoredRecord := StoredRecord.putAll (fun _ => none) records

theorem types_eq : TypeSystem.ofList [asset, uses, owns] = .ok types :=
  eq_ok_of_isSome (by decide +kernel) _

theorem shows : ∃ src, store.Shows snapshot src ∧ src.Stores types kept := by
  have hdocs : records.mapM (StoredRecord.toDocument types) = .ok docs :=
    eq_ok_of_isSome (by decide +kernel) _
  have hknown : ∀ r ∈ records, (types.get? r.typeName).isSome = true := by decide +kernel
  obtain ⟨src, hshows, hstored⟩ := Store.shows_records 1 ([] : List (TxFunction Unit)) ⟨0, 0⟩
    ⟨0, 0⟩ (fun r hr => Option.isSome_iff_exists.1 (hknown r hr)) hdocs
  have heq : snapshot = ((((Store.empty 1).submit ([] : List (TxFunction Unit)) ⟨0, 0⟩
    ((docs.map .put).map .write)).2.2).openSnapshot ⟨0, 0⟩ none).1 := by decide +kernel
  exact ⟨src, heq ▸ hshows, hstored⟩

end Triangle

/-! ## Both queries -/

namespace GraphSearch

section

variable {ν : Type} {capacity : Nat} {events : List (StoreEvent ν)} {defs : List TypeDef}

/-- **The related entities are those of the neighborhood that a wanted relationship leads to.** In
any store, for any snapshot that shows the documents of records of known types: a search that names
known types is refused by the query for a neighborhood for an entity that is not there or a type of
the other category, and for nothing else, and then the query for related entities answers none.
Otherwise both are answered. A neighborhood has the wanted entities that the search gets to, each of
them once. The related entities are a page of those among them that are an end of a relationship
that the search counts and its walk meets; so the two have the same entities exactly where all that
the neighborhood has are, and this is so where the search counts every relationship. -/
theorem related_within_neighborhood (hts : TypeSystem.ofList defs = .ok ts)
    (hsnap : ((Store.empty capacity).run events).Shows snap src) (hstored : src.Stores ts stored)
    (hrelationships : ∀ name ∈ TypeFilter.names g.relationshipTypes, (ts.get? name).isSome = true)
    (hentities : ∀ name ∈ TypeFilter.names g.entityTypes, (ts.get? name).isSome = true)
    (htime : l.timeoutMs ≠ 0) :
    (∃ e, g.neighborhood ts l ((Store.empty capacity).run events) snap = .error e ∧
      g.Refused ts stored e ∧
      (g.related ts l ((Store.empty capacity).run events) snap = .error e ∨
        g.related ts l ((Store.empty capacity).run events) snap = .ok [])) ∨
    ∃ entities relationships all : List DocId,
      g.neighborhood ts l ((Store.empty capacity).run events) snap =
        .ok (entities, relationships) ∧
      g.related ts l ((Store.empty capacity).run events) snap =
        .ok ((all.drop g.paging.offset).take (l.pageSize g.paging)) ∧
      entities.Nodup ∧ all.Nodup ∧
      (∀ x, x ∈ entities ↔ (∃ m, 1 ≤ m ∧ m ≤ l.depth g.maxDepth ∧
          Distance (Connects stored) g.rootId x m) ∧
        ∃ r, stored x = some r ∧ g.wantsEntity ts r = true) ∧
      (∀ x, x ∈ all ↔ x ∈ entities ∧ g.LeadsTo ts stored l x) ∧
      ((∀ id rel, stored id = some (.relationship rel) →
          g.wantsRelationship ts (.relationship rel) = true) → ∀ x, x ∈ all ↔ x ∈ entities) := by
  rcases answers hsnap hstored htime (TypeSystem.named_ofList hts) (TypeSystem.distinct_ofList hts)
    hrelationships hentities with hrefused | ⟨w, edges, entities, related, h, hneighborhood, hrelated⟩
  · exact Or.inl hrefused
  refine Or.inr ⟨entities, _, related, hneighborhood, hrelated, h.wanted_once, h.led_once,
    fun x => by rw [h.wanted, h.walk.reached], fun x => h.mem_related, fun hcounts x => ?_⟩
  rw [h.mem_related, and_iff_left_iff_imp]
  intro hx
  -- The last relationship on the way to an entity has been met.
  obtain ⟨m, hpos, hm, hdist⟩ := (h.walk.reached x).1 ((h.wanted x).1 hx).1
  obtain ⟨n, rfl⟩ := Nat.exists_eq_succ_of_ne_zero (Nat.one_le_iff_ne_zero.1 hpos)
  obtain ⟨⟨id, y, hy, hconnects⟩, -⟩ := Distance.succ_iff.1 hdist
  obtain ⟨rel, hrel, hends⟩ := hconnects
  exact ⟨id, _, y, n, hrel, hcounts id rel hrel, Connects.symm ⟨rel, hrel, hends⟩, hm, Or.inr hy⟩

/-- Where relationships of one type are asked for, the neighborhood of the first table has the second
as well, which none of them leads to. -/
theorem related_within_neighborhood_of_owner :
    let g : GraphSearch := { GraphSearch.of "a" with relationshipTypes := some (.anyOf ["Owns"]) }
    g.neighborhood Triangle.types .default Triangle.store Triangle.snapshot =
        .ok (["e:b", "e:c"], ["r:ac"]) ∧
      g.related Triangle.types .default Triangle.store Triangle.snapshot = .ok ["e:c"] ∧
      g.LeadsTo Triangle.types Triangle.kept .default "e:c" ∧
      ¬ g.LeadsTo Triangle.types Triangle.kept .default "e:b" := by
  intro g
  obtain ⟨src, hshows, hstored⟩ := Triangle.shows
  have hneighborhood : g.neighborhood Triangle.types .default Triangle.store Triangle.snapshot =
      .ok (["e:b", "e:c"], ["r:ac"]) := eq_ok_of_toOption (by decide +kernel)
  have hrelated : g.related Triangle.types .default Triangle.store Triangle.snapshot =
      .ok ["e:c"] := eq_ok_of_toOption (by decide +kernel)
  refine ⟨hneighborhood, hrelated, ?_⟩
  rcases related_within_neighborhood (l := .default) (g := g) Triangle.types_eq hshows hstored
    (by decide +kernel) (by decide +kernel) (by decide) with
    ⟨e, he, -⟩ | ⟨entities, relationships, all, hentities, hall, -, -, -, hmem, -⟩
  · cases hneighborhood.symm.trans he
  obtain ⟨rfl, rfl⟩ := Prod.mk.inj (Except.ok.inj (hentities.symm.trans hneighborhood))
  -- A page of a thousand is not full, so it is the whole list.
  have htake : all.take 1000 = ["e:c"] := Except.ok.inj (hall.symm.trans hrelated)
  have hwhole : all = ["e:c"] := by
    have hlength := congrArg List.length htake
    rw [List.length_take, List.length_singleton] at hlength
    rwa [List.take_of_length_le (by omega)] at htake
  subst hwhole
  exact ⟨((hmem "e:c").1 (by decide)).2, fun h => absurd ((hmem "e:b").2 ⟨by decide, h⟩) (by decide)⟩

/-- **A neighborhood has the wanted relationships between what it has of entities**, the start
included, each of them once, less those of which both ends are as far away as the search goes: these
are not met by the walk. As before, nothing is asked of the store but that it has the documents of
records of known types, and nothing of the search but that the types that it names are known. -/
theorem relationships_within (hts : TypeSystem.ofList defs = .ok ts)
    (hsnap : ((Store.empty capacity).run events).Shows snap src) (hstored : src.Stores ts stored)
    (hrelationships : ∀ name ∈ TypeFilter.names g.relationshipTypes, (ts.get? name).isSome = true)
    (hentities : ∀ name ∈ TypeFilter.names g.entityTypes, (ts.get? name).isSome = true)
    (htime : l.timeoutMs ≠ 0) :
    (∃ e, g.neighborhood ts l ((Store.empty capacity).run events) snap = .error e ∧
      g.Refused ts stored e) ∨
    ∃ entities relationships,
      g.neighborhood ts l ((Store.empty capacity).run events) snap =
        .ok (entities, relationships) ∧
      relationships.Nodup ∧
      ∀ id, id ∈ relationships ↔ ∃ rel, stored id = some (.relationship rel) ∧
        g.wantsRelationship ts (.relationship rel) = true ∧
        rel.endOne.reference.docId ∈ g.rootId :: entities ∧
        rel.endTwo.reference.docId ∈ g.rootId :: entities ∧
        ¬ (Distance (Connects stored) g.rootId rel.endOne.reference.docId (l.depth g.maxDepth) ∧
          Distance (Connects stored) g.rootId rel.endTwo.reference.docId
            (l.depth g.maxDepth)) := by
  rcases answers hsnap hstored htime (TypeSystem.named_ofList hts) (TypeSystem.distinct_ofList hts)
    hrelationships hentities with ⟨e, he, hrefused, -⟩ | ⟨w, edges, entities, related, h, hanswer, -⟩
  · exact Or.inl ⟨e, he, hrefused⟩
  · exact Or.inr ⟨entities, _, hanswer, h.inside_once, fun id => h.mem_inside⟩

/-- One step from the first table are the two others, and what relates these to each other is
missing. -/
theorem relationships_within_one_step :
    let g : GraphSearch := { GraphSearch.of "a" with maxDepth := some 1 }
    g.neighborhood Triangle.types .default Triangle.store Triangle.snapshot =
        .ok (["e:b", "e:c"], ["r:ab", "r:ac"]) ∧
      Distance (Connects Triangle.kept) "e:a" "e:b" 1 ∧
      Distance (Connects Triangle.kept) "e:a" "e:c" 1 := by
  intro g
  obtain ⟨src, hshows, hstored⟩ := Triangle.shows
  have hneighborhood : g.neighborhood Triangle.types .default Triangle.store Triangle.snapshot =
      .ok (["e:b", "e:c"], ["r:ab", "r:ac"]) := eq_ok_of_toOption (by decide +kernel)
  refine ⟨hneighborhood, ?_⟩
  rcases relationships_within (l := .default) (g := g) Triangle.types_eq hshows hstored
    (by decide) (by decide) (by decide) with
    ⟨e, he, -⟩ | ⟨entities, relationships, hanswer, -, hmem⟩
  · cases hneighborhood.symm.trans he
  obtain ⟨rfl, rfl⟩ := Prod.mk.inj (Except.ok.inj (hanswer.symm.trans hneighborhood))
  have hkept : Triangle.kept "r:bc" =
      some (.relationship (Triangle.relationship "bc" Triangle.uses "b" "c")) := rfl
  have hmissing := mt (hmem "r:bc").2 (by decide)
  by_contra hfar
  exact hmissing ⟨_, hkept, by decide +kernel, by decide +kernel, by decide +kernel, hfar⟩

end

end GraphSearch

end MetadataArchive
