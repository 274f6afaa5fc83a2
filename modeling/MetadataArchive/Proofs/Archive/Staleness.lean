import MetadataArchive.Proofs.Archive.Arrival
import MetadataArchive.Proofs.Archive.Integrity

/-!
# Copies that come too late

A copy that is no newer than what is stored is ignored, so in the end the newest one is stored, in
whatever order they come (`late_copies_are_ignored`). Versions are compared as they were kept: of a
version that fits no signed integer zero is kept, and then every other copy is newer.
-/

set_option autoImplicit false

namespace MetadataArchive

/-- **Late copies are ignored.** In a type system that was accepted and has no full stop in a name,
let archives lead a store to any state, and let copies of an entity arrive from its home from then
on, or copies of a relationship, or of a classification that a given entity has not. However many
events there are about other records, every copy is accepted, what is stored in the end is the
newest one, and a copy that comes too late writes nothing. The newest copy is the first of those
with the highest version, and a copy is late if its version is not higher than all before, as long
as the versions fit a signed integer. Of a version that does not, zero is kept. -/
theorem late_copies_are_ignored {defs : List TypeDef} {ts : TypeSystem}
    (hts : TypeSystem.ofList defs = .ok ts) (hundotted : ts.Undotted) (capacity : Nat)
    (before : List (StoreEvent Failure)) (hbefore : ∀ ev ∈ before, ev.OfArchive ts) :
    let s := (Store.empty capacity).run before
    let holds (src : Source) (r : RecordRef) (doc : Except RecordError Document) :=
      ∃ d, doc = .ok d ∧ src.document? r.docId = some d
    (∀ guid home, guid ≠ "" →
      (∀ d, s.latest.document? (RecordRef.entity guid).docId = some d →
        ∃ p, StoredEntity.ofDocument d = .ok (.proxy p) ∧ p.header.collectionId = home) →
      s.KeepsNewest ts (.entity guid) (Entity.Arrives ts guid home) (fun x => x.header.version)
        fun src x => holds src (.entity guid) (x.toDocument ts) ∧
          ∀ e, src.entity guid = .ok e ↔ x.Rereads e) ∧
    (∀ guid home, guid ≠ "" → s.latest.document? (RecordRef.relationship guid).docId = none →
      s.KeepsNewest ts (.relationship guid) (Relationship.Arrives ts guid home)
        (fun x => x.header.version)
        fun src x => holds src (.relationship guid) (x.toDocument ts) ∧
          ∀ rel, src.relationship ts guid = .ok rel →
            { x with endOne := rel.endOne, endTwo := rel.endTwo }.Rereads rel) ∧
    (∀ (e : Entity) (name home : String), s.latest.entity e.guid = .ok e → e.WellNamed →
      e.ReadBack → ts.get? e.header.typeRef.name ≠ none → e.classification? name = none →
      s.KeepsNewest ts (.entity e.guid) (Classification.Arrives ts e name home)
        (fun c => c.header.version)
        fun src c => holds src (.entity e.guid) ((e.adding c).toDocument ts) ∧
          ∀ e', src.entity e.guid = .ok e' ↔ (e.adding c).Rereads e') ∧
    ∀ {α : Type} (version : α → UInt64) (xs : List α),
      (∀ x ∈ xs, (version x).toNat < 2 ^ 63) →
      (newest version xs = xs.argmax fun x => (version x).toNat) ∧
      ∀ x, IsLate version (newest version xs) x ↔ ∃ y ∈ xs, version x ≤ version y := by
  intro s holds
  have hnamed := TypeSystem.named_ofList hts
  have hreached : s.Reached := ⟨capacity, before, rfl⟩
  obtain ⟨hsource, hlinked⟩ :=
    Store.latest_of_run capacity (fun ev hev => (hbefore ev hev).keeps) linked_none
  have hentity {guid : String} {d : Document}
      (hd : s.latest.document? (RecordRef.entity guid).docId = some d) : d.IsEntity :=
    hlinked.isEntity hd (hsource.keyed _ d hd)
  refine ⟨fun guid home hguid hproxy => ?_, fun guid home hguid hnone => ?_,
    fun e name home hread he hback hknown hnone => ?_, fun version xs hfits =>
      ⟨newest_eq_argmax hfits, fun x => isLate_newest_iff hfits⟩⟩
  · apply (Entity.copying hnamed hundotted hguid).keepsNewest hreached
    · exact fun d hd => ⟨hentity hd, hproxy d hd⟩
    · rintro s x - ⟨d, hd, hdoc, hcopy⟩
      obtain rfl := hcopy.guid_eq
      exact ⟨⟨d, hdoc, hd⟩,
        fun e => Source.entity_rereads_iff hnamed hundotted hguid hcopy.wellNamed hdoc hd⟩
  · apply (Relationship.copying hguid).keepsNewest hreached
    · exact hnone
    · rintro s x - ⟨d, hd, hdoc, hcopy⟩
      obtain rfl := hcopy.guid_eq
      refine ⟨⟨d, hdoc, hd⟩, fun rel hrel => ?_⟩
      obtain ⟨d', one, two, hd', -, hof⟩ := Source.relationship_ok hrel
      cases hd'.symm.trans hd
      have hplain := Relationship.plain_of_toDocument hnamed hundotted hdoc
      exact ((Relationship.ofDocument_rereads_ends_iff hguid hplain hdoc).1 hof).2.2
  · obtain ⟨d, hd, hof⟩ := Source.entity_ok hread
    have hguid := (Entity.reads_of_ofDocument hof).1
    have hfits := Entity.fits_of_ofDocument hof
    apply (Classification.copying hnamed hundotted hguid he hfits hback hnone hknown).keepsNewest
      hreached
    · exact ⟨d, hd, hentity hd, hof⟩
    · rintro s c - ⟨d, hd, hdoc, hcopy⟩
      have hwell : (e.adding c).WellNamed := hcopy.wellNamed hnamed hundotted he hnone
      have hguid' : (e.adding c).guid ≠ "" := hguid
      exact ⟨⟨d, hdoc, hd⟩,
        fun e' => Source.entity_rereads_iff hnamed hundotted hguid' hwell hdoc hd⟩

/-- The second version of an entity arrives, and then the first: that one writes nothing, and the
second version stays. -/
theorem second_version_stays :
    let thing : TypeDef := ⟨"t1", "Thing", .entity, none, [], []⟩
    let ts := (TypeSystem.ofList [thing]).toOption.getD .empty
    let copy (version : UInt64) : Invocation := ⟨"ann", ⟨"home", none⟩, .storeEntityCopy
      ⟨"e1", { Header.create ⟨"t1", "Thing"⟩ "away" none "ann" ⟨0, 0⟩ with version }, ∅, []⟩⟩
    let first := StoreEvent.submit (Catalog.functions ts) ⟨0, 0⟩ [(copy 2).toOp]
    let s := (Store.empty 1).step first
    let late := StoreEvent.submit (Catalog.functions ts) ⟨1, 0⟩ [(copy 1).toOp]
    (s.outcome (Catalog.functions ts) ⟨1, 0⟩ [(copy 1).toOp]).result = .committed 0 ∧
      ∃ e, (s.step late).latest.entity "e1" = .ok e ∧ e.header.version = 2 := by
  intro thing ts copy first s late
  have hts : TypeSystem.ofList [thing] = .ok ts := eq_ok_of_isSome (by decide +kernel) _
  have hundotted : ts.Undotted := TypeSystem.undotted_of_values (by decide +kernel)
  have hknown : ts.Knows (· = .entity) "Thing" := ⟨thing, by decide +kernel, rfl⟩
  let fields (j : Invocation) (x : Entity) := (j.collection.id, x.guid, x.header.collectionId,
    x.header.version, x.header.typeRef.name, x.classifications.isEmpty && x.properties.isEmpty)
  have harrive (version : UInt64) (hfits : version.toNat < 2 ^ 63)
      (h : (Invocation.ofJson? (copy version).toJson).bind (fun j =>
        j.request.entityCopy?.map (fields j)) =
          some ("home", "e1", "away", version, "Thing", true)) (s : Store) :
      ∃ j x, (copy version).toOp.Calls j ∧ x.header.version = version ∧ x.Rereads x ∧
        Entity.Arrives ts "e1" "away" s j x := by
    obtain ⟨j, x, hop, hj, hfields⟩ := Invocation.calls_entityCopy rfl fields h
    simp only [fields, Prod.mk.injEq, Bool.and_eq_true, List.isEmpty_iff] at hfields
    obtain ⟨hcollection, hguid, hhome, rfl, htype, hcs, hps⟩ := hfields
    have hback : x.Rereads x := Entity.rereads_self_iff.2
      ⟨⟨hfits, by simp [hcs]⟩, Properties.readBack_of_isEmpty hps, by simp [hcs]⟩
    refine ⟨j, x, hop, rfl, hback, ⟨hguid, hhome, htype ▸ hknown, ?_, x, hback⟩, hj, ?_⟩
    · exact ⟨⟨by simp [hcs], by simp [hcs]⟩, by rw [htype]; decide, by simp [hcs]⟩
    · rw [hcollection]
      decide
  obtain ⟨i, x, hop, hversion, hback, hx⟩ := harrive 2 (by decide) (by decide +kernel) (.empty 1)
  obtain ⟨j, y, hop', hversion', -, hy⟩ := harrive 1 (by decide) (by decide +kernel) s
  obtain ⟨hentity, -⟩ := late_copies_are_ignored hts hundotted 1 [] (by simp)
  have hkeeps := hentity "e1" "away" (by decide) fun d hd => by cases hd
  have hone : (Store.empty 1).Receives ts (.entity "e1") (Entity.Arrives ts "e1" "away") [first]
      [x] := .copy hop hx .nil
  have hboth : (Store.empty 1).Receives ts (.entity "e1") (Entity.Arrives ts "e1" "away")
      [first, late] [x, y] := .copy hop hx (.copy hop' hy .nil)
  have hlate : IsLate (fun x => x.header.version) (newest (fun x => x.header.version) [x]) y :=
    ⟨x, rfl, by simp only [hversion, hversion']; decide⟩
  have hnewest : newest (fun x => x.header.version) [x, y] = some x :=
    newest_concat_of_late hlate
  obtain ⟨-, hexact⟩ := (hkeeps _ _ hboth).1 x hnewest
  obtain ⟨-, hignored⟩ := (hkeeps _ _ hone).2 ⟨1, 0⟩ _ j y hop' hy
  exact ⟨(hignored hlate).1, x, (hexact x).2 hback, hversion⟩

end MetadataArchive
