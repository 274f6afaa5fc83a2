import MetadataArchive.Proofs.Archive.Deletion
import MetadataArchive.Proofs.Lifecycle.Conformance

/-!
# Home records conform to their types

Where only requests of home are carried out, all records conform to their types at any time: each
request checks what it brings along, and all else has been checked before
(`home_records_conform`). Copies are stored as they come, and are left out.
-/

set_option autoImplicit false

namespace MetadataArchive

variable {ts : TypeSystem} {s : Store}

theorem Store.conforms_of_run (hnamed : ts.Named) (hundotted : ts.Undotted) (capacity : Nat)
    {events : List (StoreEvent Failure)} (hevents : ∀ ev ∈ events, ev.OfHome ts) :
    ∀ id d, ((Store.empty capacity).run events).latest.document? id = some d →
      d.Conforms ts := by
  apply Store.forall_of_run (Document.Conforms ts) _ capacity hevents
  rintro a req ws rfl hdocs hhome h
  exact Request.conforms_carryOut hnamed hundotted hdocs hhome h

/-- **Home records conform to their types.** In a type system that was accepted and has no full stop
in a name, let a run call no functions but those of home. Then every document that is no proxy's is
that of an entity or of a relationship that conforms: its type is known and of that category, and
declares all its properties; the classifications of an entity have distinct names, are named as
their types, which are known, declare all their properties and are valid for the type of the entity.
What is read of the document is the record again, up to its values, and conforms likewise; the
values are as they were where they read back. -/
theorem home_records_conform {defs : List TypeDef} {ts : TypeSystem}
    (hts : TypeSystem.ofList defs = .ok ts) (hundotted : ts.Undotted) (capacity : Nat)
    (events : List (StoreEvent Failure)) (hevents : ∀ ev ∈ events, ev.OfHome ts) :
    let s := (Store.empty capacity).run events
    (∀ id d, s.latest.document? id = some d → d.isProxy = false →
      (∃ e : Entity, id = e.reference.docId ∧ e.toDocument ts = .ok d ∧ e.Conforms ts ∧
        (e.guid ≠ "" → (∀ e', s.latest.entity e.guid = .ok e' ↔ e.Rereads e') ∧
          (e.Fits → e.ReadBack → s.latest.entity e.guid = .ok e))) ∨
      ∃ rel : Relationship, id = rel.reference.docId ∧ rel.toDocument ts = .ok d ∧
        rel.Conforms ts) ∧
    (∀ guid e, s.latest.entity guid = .ok e → e.Conforms ts) ∧
    ∀ guid rel, s.latest.relationship ts guid = .ok rel → rel.Conforms ts := by
  intro s
  have hnamed := TypeSystem.named_ofList hts
  have hreached : s.Reached := ⟨capacity, events, rfl⟩
  have hdocs : ∀ id d, s.latest.document? id = some d → d.Conforms ts :=
    Store.conforms_of_run hnamed hundotted capacity hevents
  refine ⟨?_, ?_, ?_⟩
  · intro id d hd hproxy
    have hkey := hreached.coherent.keyed id d hd
    cases hdocs id d hd with
    | @entity e htoDocument he =>
      have hid : id = e.reference.docId := hkey.symm.trans (Entity.lays htoDocument).id
      refine Or.inl ⟨e, hid, htoDocument, he, fun hguid => ?_⟩
      have hread : ∀ e', s.latest.entity e.guid = .ok e' ↔ e.Rereads e' := fun e' =>
        Source.entity_rereads_iff hnamed hundotted hguid (he.wellNamed hundotted) htoDocument
          (hid ▸ hd)
      exact ⟨hread, fun hfits hback => (hread e).2 (Entity.rereads_self_iff.2 ⟨hfits, hback⟩)⟩
    | proxy htoDocument =>
      rw [Proxy.isProxy_toDocument htoDocument] at hproxy
      cases hproxy
    | @relationship rel htoDocument hrel =>
      exact Or.inr ⟨rel, hkey.symm.trans (Relationship.lays htoDocument).id, htoDocument, hrel⟩
  · intro guid e he
    obtain ⟨d, hd, hread⟩ := Source.entity_ok he
    exact Document.Conforms.full (hdocs _ d hd) hnamed hundotted hread
  · intro guid rel hrel
    obtain ⟨d, _, _, hd, -, hread⟩ := Source.relationship_ok hrel
    exact Document.Conforms.relationship (hdocs _ d hd) hnamed hundotted hread

/-- A part is created under a type that inherits its only property, with a tag. -/
theorem tagged_part_conforms :
    let thing : TypeDef := ⟨"t1", "Thing", .entity, none, [⟨"name", true⟩], []⟩
    let part : TypeDef := ⟨"t2", "Part", .entity, some "Thing", [], []⟩
    let tag : TypeDef := ⟨"t3", "Tag", .classification, none, [], ["Thing"]⟩
    let ts := (TypeSystem.ofList [thing, part, tag]).toOption.getD .empty
    let create : Request :=
      .createEntity "e1" "Part" (.ofList [("name", .string "bolt")]) [⟨"Tag", ∅⟩] none
    let s := (Store.empty 1).run [StoreEvent.submit (Catalog.functions ts) ⟨0, 0⟩
      [Invocation.toOp ⟨"ann", ⟨"home", none⟩, create⟩]]
    ∃ e, s.latest.entity "e1" = .ok e ∧ e.Conforms ts ∧ e.properties.names = ["name"] ∧
      e.classifications.map Classification.name = ["Tag"] := by
  intro thing part tag ts create s
  have hts : TypeSystem.ofList [thing, part, tag] = .ok ts := eq_ok_of_isSome (by decide +kernel) _
  have hundotted : ts.Undotted := TypeSystem.undotted_of_values (by decide +kernel)
  have hhome : ∀ ev ∈ [StoreEvent.submit (Catalog.functions ts) ⟨0, 0⟩
      [Invocation.toOp ⟨"ann", ⟨"home", none⟩, create⟩]], ev.OfHome ts := by
    intro ev hev
    rw [List.mem_singleton.1 hev]
    refine ⟨rfl, fun op hop => ?_⟩
    rw [List.mem_singleton.1 hop]
    exact (by decide : "create-entity" ∉ Request.copyFunctions)
  obtain ⟨-, hentities, -⟩ := home_records_conform hts hundotted 1 _ hhome
  have hread : (s.latest.entity "e1").toOption.map (fun e =>
      (e.properties.names, e.classifications.map Classification.name)) =
      some (["name"], ["Tag"]) := by
    decide +kernel
  obtain ⟨e, he, hnames⟩ := Option.map_eq_some_iff.1 hread
  obtain ⟨hproperties, hclassified⟩ := Prod.mk.inj hnames
  have he := eq_ok_of_toOption he
  exact ⟨e, he, hentities "e1" e he, hproperties, hclassified⟩

end MetadataArchive
