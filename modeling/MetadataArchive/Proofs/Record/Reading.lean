import Mathlib.Algebra.Group.Nat.Defs
import MetadataArchive.Proofs.Record.Storage

/-!
# What is read back from documents

A record that is read has the key of the document it was read from, and the version that the
document holds. A relationship is read with its ends, each under the key of the document that was
found for it; where both were found, whatever else is wrong with it, its ends lead somewhere.
-/

set_option autoImplicit false

namespace MetadataArchive

variable {ts : TypeSystem} {d : Document} {α : Type}

/-! ## Keys -/

namespace RecordRef

theorem docId_toList (r : RecordRef) :
    r.docId.toList = r.kind.tag.toList ++ ':' :: r.guid.toList := by
  have hcolon : ":".toList = [':'] := by decide
  simp [docId, hcolon]

theorem docId_injective {r r' : RecordRef} (h : r.docId = r'.docId) : r = r' := by
  have hlist := congrArg String.toList h
  have he : "e".toList = ['e'] := by decide
  have hr : "r".toList = ['r'] := by decide
  obtain ⟨kind, guid⟩ := r
  obtain ⟨kind', guid'⟩ := r'
  simp only [docId_toList] at hlist
  cases kind <;> cases kind' <;>
    simp [RecordKind.tag, he, hr, String.toList_inj] at hlist <;> simp [hlist]

theorem docId_ofDocId {id : DocId} {r : RecordRef} (h : ofDocId id = .ok r) : r.docId = id := by
  rw [← String.toList_inj, docId_toList]
  have he : "e".toList = ['e'] := by decide
  have hr : "r".toList = ['r'] := by decide
  unfold ofDocId at h
  split at h
  next c rest hid =>
    cases h
    simp [entity, RecordKind.tag, he, hid]
  next c rest hid =>
    cases h
    simp [relationship, RecordKind.tag, hr, hid]
  next => cases h

theorem avoids_ofDocId (id : DocId) : Avoids RecordError.Dangling (ofDocId id) := by
  unfold ofDocId
  split <;> simp [RecordError.Dangling]

end RecordRef

/-! ## Headers -/

/-- A version as documents hold it: what does not fit a signed integer turns up as zero. -/
def keptVersion (v : UInt64) : UInt64 :=
  UInt64.ofNat (Int64.ofInt v.toNat).toInt.toNat

theorem keptVersion_eq (v : UInt64) : keptVersion v = if v.toNat < 2 ^ 63 then v else 0 := by
  have hv : v.toNat < 2 ^ 64 := v.toNat_lt
  have hint : (Int64.ofInt v.toNat).toInt = Int.bmod v.toNat (2 ^ 64) := Int64.toInt_ofInt
  unfold keptVersion
  rw [hint, Int.bmod_def]
  split
  next h =>
    have hmod : (v.toNat : Int) % (2 ^ 64 : Nat) = v.toNat := by omega
    rw [hmod, if_pos (by omega)]
    simp
  next h =>
    have hmod : (v.toNat : Int) % (2 ^ 64 : Nat) = v.toNat := by omega
    rw [hmod, if_neg (by omega), Int.toNat_of_nonpos (by omega)]
    rfl

/-- The version that a document holds. -/
def Document.version? (d : Document) : Option UInt64 :=
  (d.getInt? Attr.version).map fun i => UInt64.ofNat i.toInt.toNat

/-- Whether a document is that of a proxy. -/
def Document.isProxy (d : Document) : Bool :=
  ((d.get? Attr.isProxy).bind Value.asBool?).getD false

theorem Header.version?_of_ofDocument {h : Header} (hh : Header.ofDocument d "" = .ok h) :
    d.version? = some h.version := by
  simp only [Header.ofDocument, bind_eq_ok, Except.ok.injEq] at hh
  obtain ⟨version, hversion, _, -, _, -, _, -, _, -, _, -, _, -, _, -, _, -, _, -, rfl⟩ := hh
  have hfield : d.getInt? Attr.version = some version := by
    simp only [Document.demand] at hversion
    split at hversion
    next v hv =>
      cases hversion
      exact hv
    next => cases hversion
  rw [Document.version?, hfield]
  rfl

theorem Document.Lays.version? {r : RecordRef} {h : Header} {marks : List (String × Value)}
    (hd : d.Lays r h marks) : d.version? = some (keptVersion h.version) := by
  have hmem : (Attr.version, Value.int (Int64.ofInt h.version.toNat)) ∈ h.fields := by
    simp [Header.fields]
  have hget := hd.header _ hmem
  rw [Document.version?, Document.getInt?, hget]
  rfl

/-! ## No record but a relationship has ends -/

theorem avoids_demand {name : String} {part : Option α} :
    Avoids RecordError.Dangling (d.demand name part) := by
  cases part <;> simp [Document.demand, RecordError.Dangling]

theorem avoids_statusOfName (text : String) :
    Avoids RecordError.Dangling (Status.ofName text) := by
  unfold Status.ofName
  split <;> simp [RecordError.Dangling]

theorem avoids_provenanceOfName (text : String) :
    Avoids RecordError.Dangling (Provenance.ofName text) := by
  unfold Provenance.ofName
  split <;> simp [RecordError.Dangling]

theorem avoids_originOfName (text : String) :
    Avoids RecordError.Dangling (Origin.ofName text) := by
  unfold Origin.ofName
  split <;> simp [RecordError.Dangling]

theorem Header.avoids_ofDocument (d : Document) (stem : String) :
    Avoids RecordError.Dangling (Header.ofDocument d stem) := by
  have hstatus : ∀ o : Option String, Avoids RecordError.Dangling (o.mapM Status.ofName) := by
    intro o
    cases o with
    | none => exact avoids_pure
    | some text => exact avoids_fmap.2 (avoids_statusOfName text)
  simp [Header.ofDocument, avoids_demand, avoids_statusOfName, avoids_provenanceOfName, hstatus]

theorem PropertyValue.avoids_ofStored (v : Value) :
    Avoids RecordError.Dangling (PropertyValue.ofStored v) := by
  unfold PropertyValue.ofStored
  split
  · split <;> simp [RecordError.Dangling]
  · simp [RecordError.Dangling]

theorem Properties.avoids_ofDocument (d : Document) (space : PropertySpace) :
    Avoids RecordError.Dangling (Properties.ofDocument d space) := by
  simp only [Properties.ofDocument, avoids_bind, avoids_ok, implies_true, and_true]
  refine avoids_filterMapM (fun f => ?_) _
  split <;> simp [PropertyValue.avoids_ofStored]

theorem Classification.avoids_ofDocument (d : Document) (name : String) :
    Avoids RecordError.Dangling (Classification.ofDocument d name) := by
  unfold Classification.ofDocument
  split <;>
    simp [avoids_originOfName, Header.avoids_ofDocument, Properties.avoids_ofDocument]

theorem StoredEntity.avoids_ofDocument (d : Document) :
    Avoids RecordError.Dangling (StoredEntity.ofDocument d) := by
  simp only [StoredEntity.ofDocument, avoids_bind]
  refine ⟨RecordRef.avoids_ofDocId _, fun r _ => ?_⟩
  split
  · simp [RecordError.Dangling]
  · simp only [avoids_bind]
    refine ⟨Header.avoids_ofDocument _ _, fun h _ => ⟨Properties.avoids_ofDocument _ _, ?_⟩⟩
    intro ps _
    split
    · exact avoids_ok
    · simp [avoids_mapM fun name => Classification.avoids_ofDocument d name]

theorem Relationship.avoids_ends (d : Document) :
    Avoids RecordError.Dangling (Relationship.ends d) := by
  simp [Relationship.ends, avoids_demand]

/-- A relationship with both ends at hand fails to be read for other reasons, if at all. -/
theorem Relationship.avoids_ofDocument (d one two : Document) :
    Avoids RecordError.Dangling (Relationship.ofDocument ts d (some one) (some two)) := by
  simp only [Relationship.ofDocument, avoids_bind]
  refine ⟨RecordRef.avoids_ofDocId _, fun r _ => ?_⟩
  split
  · simp [RecordError.Dangling]
  · simp [Header.avoids_ofDocument, Properties.avoids_ofDocument, Proxy.ofDocument,
      StoredEntity.avoids_ofDocument]

theorem TypeSystem.avoids_writeType (h : Header) (d : Document) :
    Avoids RecordError.Dangling (ts.writeType h d) := by
  simp only [TypeSystem.writeType, TypeSystem.supertypeClosure, TypeSystem.require, avoids_bind]
  refine ⟨⟨?_, fun _ _ => avoids_ok⟩, fun closure _ => ?_⟩
  · split <;> simp [RecordError.Dangling]
  · split <;> simp [RecordError.Dangling]

theorem Entity.avoids_toDocument (e : Entity) :
    Avoids RecordError.Dangling (e.toDocument ts) := by
  simp [Entity.toDocument, TypeSystem.avoids_writeType]

theorem Proxy.avoids_toDocument (p : Proxy) : Avoids RecordError.Dangling (p.toDocument ts) := by
  simp [Proxy.toDocument, TypeSystem.avoids_writeType]

theorem Relationship.avoids_toDocument (r : Relationship) :
    Avoids RecordError.Dangling (r.toDocument ts) := by
  simp [Relationship.toDocument, TypeSystem.avoids_writeType]

/-! ## Records read from documents -/

theorem StoredEntity.ofDocument_ok {stored : StoredEntity}
    (h : StoredEntity.ofDocument d = .ok stored) :
    (RecordRef.entity stored.guid).docId = d.id ∧ d.version? = some stored.header.version ∧
      stored.isProxy = d.isProxy := by
  simp only [StoredEntity.ofDocument, bind_eq_ok] at h
  obtain ⟨r, hr, h⟩ := h
  split at h
  next => cases h
  next hkind =>
    simp only [ne_eq, Decidable.not_not] at hkind
    simp only [bind_eq_ok] at h
    obtain ⟨header, hheader, ps, -, h⟩ := h
    have hid : (RecordRef.entity r.guid).docId = d.id := by
      rw [← RecordRef.docId_ofDocId hr, RecordRef.entity, ← hkind]
    split at h
    next hproxy =>
      cases h
      exact ⟨hid, Header.version?_of_ofDocument hheader, hproxy.symm⟩
    next hfull =>
      simp only [bind_eq_ok] at h
      obtain ⟨cs, -, h⟩ := h
      cases h
      exact ⟨hid, Header.version?_of_ofDocument hheader, (Bool.eq_false_iff.2 hfull).symm⟩

theorem Proxy.ofDocument_ok {p : Proxy} (h : Proxy.ofDocument ts d = .ok p) :
    p.reference.docId = d.id := by
  simp only [Proxy.ofDocument, map_eq_ok] at h
  obtain ⟨stored, hstored, rfl⟩ := h
  rw [← (StoredEntity.ofDocument_ok hstored).1]
  cases stored <;> rfl

theorem Relationship.ends_ok {one two : DocId} (h : Relationship.ends d = .ok (one, two)) :
    d.get? (Attr.side .one) = some (.ref one) ∧ d.get? (Attr.side .two) = some (.ref two) := by
  have hside : ∀ (side : End) (id : DocId),
      d.demand (Attr.side side) (d.getRef? (Attr.side side)) = .ok id →
        d.get? (Attr.side side) = some (.ref id) := by
    intro side id hd
    unfold Document.demand Document.getRef? at hd
    cases hv : d.get? (Attr.side side) with
    | none => simp [hv] at hd
    | some v => cases v <;> simp_all [Value.asRef?]
  simp only [Relationship.ends, bind_eq_ok, Except.ok.injEq, Prod.mk.injEq] at h
  obtain ⟨one', hone, two', htwo, rfl, rfl⟩ := h
  exact ⟨hside _ _ hone, hside _ _ htwo⟩

theorem Relationship.ends_iff {one two : DocId} :
    Relationship.ends d = .ok (one, two) ↔
      d.get? (Attr.side .one) = some (.ref one) ∧ d.get? (Attr.side .two) = some (.ref two) := by
  refine ⟨Relationship.ends_ok, fun ⟨hone, htwo⟩ => ?_⟩
  simp only [Relationship.ends, Document.getRef?, hone, htwo]
  rfl

theorem Relationship.ofDocument_ok {one two : Option Document} {rel : Relationship}
    (h : Relationship.ofDocument ts d one two = .ok rel) :
    rel.reference.docId = d.id ∧ d.version? = some rel.header.version ∧
      (∃ d', one = some d' ∧ rel.endOne.reference.docId = d'.id) ∧
      ∃ d', two = some d' ∧ rel.endTwo.reference.docId = d'.id := by
  simp only [Relationship.ofDocument, bind_eq_ok] at h
  obtain ⟨r, hr, h⟩ := h
  split at h
  next => cases h
  next hkind =>
    simp only [ne_eq, Decidable.not_not] at hkind
    split at h
    · cases h
    · cases h
    next one two =>
      simp only [bind_eq_ok] at h
      obtain ⟨header, hheader, ps, -, endOne, hone, endTwo, htwo, h⟩ := h
      cases h
      have hid : (RecordRef.relationship r.guid).docId = d.id := by
        rw [← RecordRef.docId_ofDocId hr, RecordRef.relationship, ← hkind]
      exact ⟨hid, Header.version?_of_ofDocument hheader, ⟨one, rfl, Proxy.ofDocument_ok hone⟩,
        two, rfl, Proxy.ofDocument_ok htwo⟩

end MetadataArchive
