import MetadataArchive.Proofs.Query.Evaluation
import MetadataArchive.Proofs.Record.Category
import MetadataArchive.Proofs.Record.RoundTrip
import MetadataArchive.Proofs.Store.Latest

/-!
# Stores of records

A store that was written from records holds the documents of entities, of proxies and of
relationships. This module says what such documents tell of a record to whoever asks for it by
attributes: its category, its type with all ancestors, its status, whether it is a proxy, and its
ends.
-/

set_option autoImplicit false

namespace MetadataArchive

/-- A record that has a document of its own. -/
inductive StoredRecord where
  | entity (e : Entity)
  | proxy (p : Proxy)
  | relationship (r : Relationship)

namespace StoredRecord

def reference : StoredRecord → RecordRef
  | entity e => e.reference
  | proxy p => p.reference
  | relationship r => r.reference

def header : StoredRecord → Header
  | entity e => e.header
  | proxy p => p.header
  | relationship r => r.header

/-- The category of the types that such records are of. -/
def category : StoredRecord → TypeCategory
  | entity _ | proxy _ => .entity
  | relationship _ => .relationship

def toDocument (ts : TypeSystem) : StoredRecord → Except RecordError Document
  | entity e => e.toDocument ts
  | proxy p => p.toDocument ts
  | relationship r => r.toDocument ts

/-- An entity of its own, no proxy. -/
def isFull : StoredRecord → Bool
  | entity _ => true
  | _ => false

theorem exists_entity {r : StoredRecord} (h : r.isFull = true) : ∃ e, r = entity e := by
  cases r with
  | entity e => exact ⟨e, rfl⟩
  | proxy p => cases h
  | relationship r => cases h

/-- What a relationship has at an end. -/
def side? (e : End) : StoredRecord → Option RecordRef
  | relationship r => some (match e with | .one => r.endOne.reference | .two => r.endTwo.reference)
  | _ => none

/-- A record is an end of the relationship. -/
def touches (ref : RecordRef) : StoredRecord → Bool
  | relationship r => r.endOne.reference = ref || r.endTwo.reference = ref
  | _ => false

def typeName (r : StoredRecord) : String := r.header.typeRef.name

/-- The type of a record is known. Nobody asks whether it is of the right category, or has the guid
that the record says, before the record is written. -/
def Known (ts : TypeSystem) (r : StoredRecord) : Prop := ∃ t, ts.get? r.typeName = some t

/-- The type of a record is known, of the right category, and has the guid that the record says. -/
def Typed (ts : TypeSystem) (r : StoredRecord) : Prop :=
  ∃ t, ts.get? r.typeName = some t ∧ t.guid = r.header.typeRef.guid ∧ t.category = r.category

/-- The type of a record is of the category. -/
def isOf (ts : TypeSystem) (category : TypeCategory) (r : StoredRecord) : Bool :=
  (ts.get? r.typeName).any fun t => t.category = category

variable {ts : TypeSystem} {r : StoredRecord} {d : Document} {k : String}

theorem Typed.known (h : r.Typed ts) : r.Known ts := h.imp fun _ ht => ht.1

theorem Known.exists_toDocument (h : r.Known ts) : ∃ d, r.toDocument ts = .ok d := by
  obtain ⟨t, ht⟩ := h
  have hknown : ts.get? r.header.typeRef.name ≠ none := Option.ne_none_iff_exists'.2 ⟨t, ht⟩
  cases r with
  | entity e => exact e.exists_toDocument hknown
  | proxy p => exact p.exists_toDocument hknown
  | relationship r => exact r.exists_toDocument hknown

/-! ## What documents tell -/

/-- What is written of the type of a record stays as it is. -/
theorem get?_type (h : r.toDocument ts = .ok d) :
    ∃ d' d₀, ts.writeType r.header d₀ = .ok d' ∧
      ∀ k ∈ [Attr.typeSupers, Attr.typeCategory], d.get? k = d'.get? k := by
  have hlist : ∀ k ∈ [Attr.typeSupers, Attr.typeCategory], k ≠ Attr.classifications := by decide
  have hchange : ∀ k ∈ [Attr.typeSupers, Attr.typeCategory],
      k ≠ Attr.latestClassificationChange := by decide
  have hproxy : ∀ k ∈ [Attr.typeSupers, Attr.typeCategory], k ≠ Attr.isProxy := by decide
  have hside : ∀ k ∈ [Attr.typeSupers, Attr.typeCategory],
      k ≠ Attr.side .one ∧ k ≠ Attr.side .two := by decide
  have hheader : ∀ k ∈ [Attr.typeSupers, Attr.typeCategory], k ∉ Attr.header := by decide
  have hspace : ∀ k ∈ [Attr.typeSupers, Attr.typeCategory],
      beginsWith PropertySpace.entity.name k = false ∧
        beginsWith PropertySpace.relationship.name k = false ∧
          beginsWith "classifications." k = false := by decide
  cases r with
  | entity e =>
    simp only [toDocument, Entity.toDocument, bind_eq_ok, Except.ok.injEq] at h
    obtain ⟨d', hw, rfl⟩ := h
    refine ⟨d', _, hw, fun k hk => ?_⟩
    rw [Entity.get?_foldl_writeTo (hspace k hk).2.2]
    cases e.latestClassificationChange with
    | none =>
      rw [Document.get?_set_of_ne (hlist k hk),
        Properties.get?_writeTo_of_not_beginsWith (hspace k hk).1,
        Document.get?_set_of_ne (hproxy k hk), Header.get?_writeTo_of_not_mem (hheader k hk)]
    | some t =>
      rw [Document.get?_set_of_ne (hchange k hk), Document.get?_set_of_ne (hlist k hk),
        Properties.get?_writeTo_of_not_beginsWith (hspace k hk).1,
        Document.get?_set_of_ne (hproxy k hk), Header.get?_writeTo_of_not_mem (hheader k hk)]
  | proxy p =>
    simp only [toDocument, Proxy.toDocument, bind_eq_ok, Except.ok.injEq] at h
    obtain ⟨d', hw, rfl⟩ := h
    refine ⟨d', _, hw, fun k hk => ?_⟩
    rw [Properties.get?_writeTo_of_not_beginsWith (hspace k hk).1,
      Document.get?_set_of_ne (hproxy k hk), Header.get?_writeTo_of_not_mem (hheader k hk)]
  | relationship r =>
    simp only [toDocument, Relationship.toDocument, bind_eq_ok, Except.ok.injEq] at h
    obtain ⟨d', hw, rfl⟩ := h
    refine ⟨d', _, hw, fun k hk => ?_⟩
    rw [Properties.get?_writeTo_of_not_beginsWith (hspace k hk).2.1,
      Document.get?_set_of_ne (hside k hk).2, Document.get?_set_of_ne (hside k hk).1,
      Header.get?_writeTo_of_not_mem (hheader k hk)]

theorem lays (h : r.toDocument ts = .ok d) :
    ∃ marks, d.Lays r.reference r.header marks := by
  cases r with
  | entity e => exact ⟨_, Entity.lays h⟩
  | proxy p => exact ⟨_, Proxy.lays h⟩
  | relationship r => exact ⟨_, Relationship.lays h⟩

theorem id_toDocument (h : r.toDocument ts = .ok d) : d.id = r.reference.docId := by
  obtain ⟨marks, hlays⟩ := lays h
  exact hlays.id

theorem elements_typeId (h : r.toDocument ts = .ok d) :
    d.elements Attr.typeId = [.str r.header.typeRef.guid] := by
  obtain ⟨marks, hlays⟩ := lays h
  rw [Document.elements, hlays.header (Attr.typeId, _) List.mem_cons_self]
  rfl

theorem elements_status (h : r.toDocument ts = .ok d) :
    d.elements Attr.status = [.str r.header.status.name] := by
  obtain ⟨marks, hlays⟩ := lays h
  rw [Document.elements, hlays.header (Attr.status, .str r.header.status.name)
    (by simp [Header.fields])]
  rfl

/-- The type of a record is found by its category, and by the guids of itself and its ancestors. -/
theorem elements_type (h : r.toDocument ts = .ok d) {t : TypeDef}
    (ht : ts.get? r.typeName = some t) :
    d.elements Attr.typeCategory = [.str t.category.name] ∧
      d.elements Attr.typeSupers = (ts.closure t).map fun e => .str e.guid := by
  obtain ⟨d', d₀, hw, hkeep⟩ := get?_type h
  obtain ⟨rest, hrest⟩ := TypeSystem.exists_closure_eq ht
  have hrequire : ts.require r.header.typeRef.name = .ok t := by
    rw [TypeSystem.require, show ts.get? r.header.typeRef.name = some t from ht]
  have hfields : d' = d₀.setAll [(Attr.typeSupers, .list ((ts.closure t).map fun e => .str e.guid)),
      (Attr.typeCategory, .str t.category.name)] := by
    rw [TypeSystem.writeType, TypeSystem.supertypeClosure, hrequire, ok_bind, ok_bind, hrest] at hw
    rw [hrest]
    exact (Except.ok.inj hw).symm
  have hnodup : [Attr.typeSupers, Attr.typeCategory].Nodup := by decide
  have hget {k : String} {v : Value} (hmem : (k, v) ∈ [(Attr.typeSupers,
      Value.list ((ts.closure t).map fun e => .str e.guid)),
      (Attr.typeCategory, .str t.category.name)]) : d'.get? k = v.stored? := by
    rw [hfields]
    exact Document.get?_setAll hnodup hmem
  constructor
  · rw [Document.elements, hkeep _ (by simp), @hget _ (.str t.category.name) (by simp)]
    rfl
  · rw [Document.elements, hkeep _ (by simp), hget List.mem_cons_self]
    rfl

theorem elements_isProxy (h : r.toDocument ts = .ok d) :
    ((d.elements Attr.isProxy).any fun x => x.same (.bool false)) = r.isFull := by
  cases r with
  | entity e =>
    rw [Document.elements, (Entity.lays h).mark (Attr.isProxy, .bool false) (by simp)]
    rfl
  | proxy p =>
    rw [Document.elements, (Proxy.lays h).mark (Attr.isProxy, .bool true) (by simp)]
    rfl
  | relationship r =>
    rw [Document.elements, (Relationship.lays h).rest Attr.isProxy (by decide) (by decide)
      (by simp; decide)]
    rfl

/-- A relationship refers to its ends, and no other record to anything by these names. -/
theorem get?_side (h : r.toDocument ts = .ok d) (e : End) :
    d.get? (Attr.side e) = (r.side? e).map fun ref => .ref ref.docId := by
  have hside : Attr.isPlain (Attr.side e) = true ∧ Attr.side e ∉ Attr.header := by
    cases e <;> decide
  have hproxy : Attr.side e ≠ Attr.isProxy := by cases e <;> decide
  cases r with
  | entity e => exact (Entity.lays h).rest _ hside.1 hside.2 (by simpa using hproxy)
  | proxy p => exact (Proxy.lays h).rest _ hside.1 hside.2 (by simpa using hproxy)
  | relationship r =>
    cases e with
    | one => exact (Relationship.lays h).mark (Attr.side .one, _) List.mem_cons_self
    | two => exact (Relationship.lays h).mark (Attr.side .two, .ref r.endTwo.reference.docId) (by simp)

theorem elements_side (h : r.toDocument ts = .ok d) (e : End) (ref : RecordRef) :
    ((d.elements (Attr.side e)).any fun x => x.same (.ref ref.docId)) =
      decide (r.side? e = some ref) := by
  rw [Document.elements, get?_side h]
  cases r.side? e with
  | none => rfl
  | some ref' =>
    rw [Bool.eq_iff_iff, decide_eq_true_iff, Option.some.injEq]
    simp only [Option.map_some, Option.getD_some, Value.elements, List.any_cons, List.any_nil,
      Bool.or_false, Value.same_ref, Value.ref.injEq]
    exact ⟨fun heq => RecordRef.docId_injective heq, congrArg _⟩

end StoredRecord

/-! ## Stores -/

/-- A source holds the documents of records under the keys of the records, and nothing else. -/
structure Source.Stores (ts : TypeSystem) (src : Source) (stored : DocId → Option StoredRecord) :
    Prop where
  document : ∀ id, src.document? id = (stored id).bind fun r => (r.toDocument ts).toOption
  known : ∀ id r, stored id = some r → r.Known ts

namespace Source.Stores

variable {ts : TypeSystem} {src : Source} {stored : DocId → Option StoredRecord} {id : DocId}
variable {r : StoredRecord} {d : Document}

theorem of_stored (h : src.Stores ts stored) (hr : stored id = some r) :
    ∃ d, r.toDocument ts = .ok d ∧ src.document? id = some d := by
  obtain ⟨d, hd⟩ := (h.known id r hr).exists_toDocument
  exact ⟨d, hd, by rw [h.document, hr, Option.bind_some, hd]; rfl⟩

theorem of_document (h : src.Stores ts stored) (hd : src.document? id = some d) :
    ∃ r, stored id = some r ∧ r.toDocument ts = .ok d := by
  rw [h.document] at hd
  obtain ⟨r, hr, hd⟩ := Option.bind_eq_some_iff.1 hd
  exact ⟨r, hr, eq_ok_of_toOption hd⟩

end Source.Stores

/-- The records by key, after others were put. -/
def StoredRecord.putAll (stored : DocId → Option StoredRecord) (records : List StoredRecord) :
    DocId → Option StoredRecord :=
  records.foldl (fun stored r id => if id = r.reference.docId then some r else stored id) stored

/-- Records with keys of their own are all stored, and others only where none of them is. -/
theorem StoredRecord.putAll_eq_some {stored : DocId → Option StoredRecord} {id : DocId}
    {r : StoredRecord} {records : List StoredRecord}
    (hkeys : (records.map fun r => r.reference.docId).Nodup) :
    putAll stored records id = some r ↔ (r ∈ records ∧ r.reference.docId = id) ∨
      ((∀ r ∈ records, r.reference.docId ≠ id) ∧ stored id = some r) := by
  induction records generalizing stored with
  | nil => simp [putAll]
  | cons r' records ih =>
    obtain ⟨hnew, hkeys⟩ := List.nodup_cons.1 hkeys
    have hput : putAll stored (r' :: records) id = putAll
        (fun id => if id = r'.reference.docId then some r' else stored id) records id := rfl
    rw [hput, ih hkeys]
    by_cases hid : r'.reference.docId = id
    · have hnone : ∀ r ∈ records, r.reference.docId ≠ id := fun r hr heq =>
        hnew (List.mem_map.2 ⟨r, hr, heq.trans hid.symm⟩)
      constructor
      · rintro (⟨hr, hkey⟩ | ⟨-, hr⟩)
        · exact Or.inl ⟨List.mem_cons_of_mem _ hr, hkey⟩
        · rw [if_pos hid.symm, Option.some.injEq] at hr
          exact Or.inl ⟨hr ▸ List.mem_cons_self, hr ▸ hid⟩
      · rintro (⟨hr, hkey⟩ | ⟨hr, -⟩)
        · rcases List.mem_cons.1 hr with rfl | hr
          · exact Or.inr ⟨hnone, if_pos hid.symm⟩
          · exact absurd hkey (hnone r hr)
        · exact absurd hid (hr r' List.mem_cons_self)
    · rw [if_neg (Ne.symm hid), List.forall_mem_cons, List.mem_cons]
      constructor
      · rintro (⟨hr, hkey⟩ | ⟨hnone, hr⟩)
        · exact Or.inl ⟨Or.inr hr, hkey⟩
        · exact Or.inr ⟨⟨hid, hnone⟩, hr⟩
      · rintro (⟨rfl | hr, hkey⟩ | ⟨⟨-, hnone⟩, hr⟩)
        · exact absurd hkey hid
        · exact Or.inl ⟨hr, hkey⟩
        · exact Or.inr ⟨hnone, hr⟩

theorem StoredRecord.putAll_none_eq_some {id : DocId} {r : StoredRecord}
    {records : List StoredRecord} (hkeys : (records.map fun r => r.reference.docId).Nodup) :
    putAll (fun _ => none) records id = some r ↔ r ∈ records ∧ r.reference.docId = id := by
  rw [putAll_eq_some hkeys]
  simp

/-- What is stored of some records, and is such a one. -/
theorem StoredRecord.mem_keys_filter {id : DocId} {records : List StoredRecord}
    (hkeys : (records.map fun r => r.reference.docId).Nodup) (p : StoredRecord → Bool) :
    id ∈ (records.filter p).map (fun r => r.reference.docId) ↔
      ∃ r, putAll (fun _ => none) records id = some r ∧ p r = true := by
  simp only [putAll_none_eq_some hkeys, List.mem_map, List.mem_filter]
  constructor
  · rintro ⟨r, ⟨hr, hp⟩, hid⟩
    exact ⟨r, ⟨hr, hid⟩, hp⟩
  · rintro ⟨r, ⟨hr, hid⟩, hp⟩
    exact ⟨r, ⟨hr, hp⟩, hid⟩

/-- The documents of records, in the order of the records. -/
def Source.ofRecords (ts : TypeSystem) (records : List StoredRecord) : Source where
  document? id := (StoredRecord.putAll (fun _ => none) records id).bind fun r =>
    (r.toDocument ts).toOption
  documents := records.filterMap fun r => (r.toDocument ts).toOption

theorem Source.stores_ofRecords {ts : TypeSystem} {records : List StoredRecord}
    (hkeys : (records.map fun r => r.reference.docId).Nodup)
    (hknown : ∀ r ∈ records, (ts.get? r.typeName).isSome = true) :
    (Source.ofRecords ts records).Stores ts (StoredRecord.putAll (fun _ => none) records) :=
  ⟨fun _ => rfl, fun _ r hr => Option.isSome_iff_exists.1
    (hknown r ((StoredRecord.putAll_none_eq_some hkeys).1 hr).1)⟩

/-- **To write the documents of records is to store the records.** -/
theorem Source.Stores.writeAll {ts : TypeSystem} {src src' : Source}
    {stored : DocId → Option StoredRecord} {records : List StoredRecord} {docs : List Document}
    (h : src.Stores ts stored) (hknown : ∀ r ∈ records, r.Known ts)
    (hdocs : records.mapM (StoredRecord.toDocument ts) = .ok docs)
    (hsrc : src'.document? = MetadataArchive.writeAll src.document? (docs.map .put)) :
    src'.Stores ts (StoredRecord.putAll stored records) := by
  induction records generalizing src stored docs with
  | nil =>
    cases hdocs
    exact ⟨fun id => hsrc ▸ h.document id, h.known⟩
  | cons r records ih =>
    obtain ⟨hr, hknown⟩ := List.forall_mem_cons.1 hknown
    simp only [List.mapM_cons, bind_eq_ok, pure_eq_ok] at hdocs
    obtain ⟨d, hd, docs, hdocs, rfl⟩ := hdocs
    have hid : d.id = r.reference.docId := StoredRecord.id_toDocument hd
    refine @ih ⟨(Write.put d).on src.document?, []⟩ _ docs ⟨fun id => ?_, fun id r' hr' => ?_⟩
      hknown hdocs hsrc
    · show (if id = d.id then some d else src.document? id) =
        (if id = r.reference.docId then some r else stored id).bind _
      rw [hid]
      split
      · rw [Option.bind_some, hd]
        rfl
      · exact h.document id
    · dsimp only at hr'
      split at hr'
      · cases hr'
        exact hr
      · exact h.known id r' hr'

/-- Who opens a snapshot after records were written to a new store is shown the records. -/
theorem Store.shows_records {ν : Type} {ts : TypeSystem} {records : List StoredRecord}
    {docs : List Document} (capacity : Nat) (functions : List (TxFunction ν)) (now now' : Instant)
    (hknown : ∀ r ∈ records, r.Known ts)
    (hdocs : records.mapM (StoredRecord.toDocument ts) = .ok docs) :
    let s := ((Store.empty capacity).submit functions now ((docs.map .put).map .write)).2.2
    ∃ src, (s.openSnapshot now' none).2.Shows (s.openSnapshot now' none).1 src ∧
      src.Stores ts (StoredRecord.putAll (fun _ => none) records) := by
  obtain ⟨src, hshows, hsrc⟩ :=
    Store.shows_writes capacity ([] : List (StoreEvent ν)) functions now now' (docs.map .put)
  have hempty : (⟨fun _ => none, []⟩ : Source).Stores ts fun _ => none :=
    ⟨fun _ => rfl, fun _ _ hr => by cases hr⟩
  exact ⟨src, hshows, hempty.writeAll hknown hdocs hsrc⟩

end MetadataArchive
