import MetadataArchive.Proofs.Archive.Reading
import MetadataArchive.Proofs.Lifecycle.Catalog

/-!
# Referential integrity of every run

All that archives do to a store is to call the functions of the catalog and to put entities that
have come home. Each of them keeps relationships linked on the state that it sees, whatever it was
called with and whether it accepts or rejects; so they are linked in the latest state after any run.
-/

set_option autoImplicit false

namespace MetadataArchive

/-- An operation as archives submit it: a call, or the put of an entity. -/
def TxOp.OfArchive (ts : TypeSystem) : TxOp → Prop
  | .call _ _ => True
  | .write w => ∃ (e : Entity) (d : Document), e.toDocument ts = .ok d ∧ w = .put d

/-- An event as archives cause it: transactions are run with the catalog. -/
def StoreEvent.OfArchive (ts : TypeSystem) : StoreEvent Failure → Prop
  | .submit functions _ ops => functions = Catalog.functions ts ∧ ∀ op ∈ ops, op.OfArchive ts
  | _ => True

variable {ts : TypeSystem}

/-- Every event of archives keeps relationships linked, and no call notes a relationship with an end
that leads nowhere. -/
theorem StoreEvent.OfArchive.keeps {ev : StoreEvent Failure} (h : ev.OfArchive ts) :
    ev.Keeps Linked fun failure => ¬ failure.Dangling := by
  cases ev with
  | submit functions now ops =>
    obtain ⟨rfl, hops⟩ := h
    refine ⟨fun docs w hw hlinked => ?_,
      fun name args hc f hf _ ctx ws note hsource hlinked hrun => ?_⟩
    · obtain ⟨e, d, hd, rfl⟩ := hops _ hw
      exact hlinked.putEntity (Entity.isEntity_toDocument hd)
    · obtain ⟨i, -, -, ⟨hok, rfl⟩ | ⟨failure, hfail, rfl, rfl⟩⟩ := Catalog.run_writes hf hrun
      · exact ⟨Request.linked_carryOut hsource hlinked hok, by simp⟩
      · refine ⟨hlinked, fun n hn => ?_⟩
        cases hn
        exact Request.avoids_carryOut i.request hlinked failure hfail
  | openSnapshot | release | claim => trivial

/-- In a linked state both ends of a relationship are entities that are stored. -/
theorem Linked.ends {src : Source} (hsource : src.Coherent) (h : Linked src.document?)
    {guid : String} {d : Document}
    (hd : src.document? (RecordRef.relationship guid).docId = some d) (side : End) :
    ∃ guid' e, d.getRef? (Attr.side side) = some (RecordRef.entity guid').docId ∧
      src.document? (RecordRef.entity guid').docId = some e ∧ e.IsEntity := by
  have hentity {guid' : String} (hne : src.document? (RecordRef.entity guid').docId ≠ none) :
      ∃ e, src.document? (RecordRef.entity guid').docId = some e ∧ e.IsEntity := by
    obtain ⟨e, he⟩ := Option.ne_none_iff_exists'.1 hne
    exact ⟨e, he, h.isEntity he (hsource.keyed _ e he)⟩
  obtain ⟨one, two, hlinks, hone, htwo⟩ := h.links hd (hsource.keyed _ d hd)
  cases side with
  | one =>
    obtain ⟨e, he, hise⟩ := hentity hone
    exact ⟨one, e, hlinks.getRef?_one, he, hise⟩
  | two =>
    obtain ⟨e, he, hise⟩ := hentity htwo
    exact ⟨two, e, hlinks.getRef?_two, he, hise⟩

/-- **Relationships always lead somewhere.** After any run of transactions that archives submit,
each relationship that is visible at present has two ends, and both are references to entities that
are visible at present. So no call of a further transaction is rejected for an end that leads
nowhere, and nothing that reads relationships of the present fails for one. -/
theorem relationships_lead_somewhere (ts : TypeSystem) (capacity : Nat)
    (events : List (StoreEvent Failure)) (hevents : ∀ ev ∈ events, ev.OfArchive ts) :
    let s := (Store.empty capacity).run events
    (∀ guid d, s.latest.document? (RecordRef.relationship guid).docId = some d → ∀ side,
      ∃ guid' e, d.getRef? (Attr.side side) = some (RecordRef.entity guid').docId ∧
        s.latest.document? (RecordRef.entity guid').docId = some e ∧ e.IsEntity) ∧
    (∀ now ops, (∀ op ∈ ops, TxOp.OfArchive ts op) →
      ∀ failure ∈ (s.submit (Catalog.functions ts) now ops).2.1,
        failure.kind ≠ .inconsistentRelationship) ∧
    ∀ (a : Archive) (c : Clock) (site : Site), site.store = s → ∀ guid,
      AvoidsOn site (a.relationship c guid none) ∧
        (∀ search : RelationshipSearch, search.asOf = none →
          AvoidsOn site (a.findRelationships c search) ∧
          AvoidsOn site (a.relationshipsOf c guid search)) ∧
        ∀ g : GraphSearch, g.asOf = none → AvoidsOn site (a.neighborhood c g) := by
  intro s
  have hkeeps := fun ev hev => (hevents ev hev).keeps
  obtain ⟨hsource, hlinked⟩ := Store.latest_of_run capacity hkeeps linked_none
  refine ⟨fun guid d hd side => hlinked.ends hsource hd side, fun now ops hops => ?_, ?_⟩
  · -- The further transaction is one more event of the run.
    have hev : (StoreEvent.submit (Catalog.functions ts) now ops).OfArchive ts := ⟨rfl, hops⟩
    exact Store.notes_of_run capacity hkeeps linked_none hev.keeps
  · intro a c site hsite guid
    have htracks := (Tracks.empty capacity).run events
    have hnow : site.store.ShowsAsOf none s.latest := by
      rw [hsite, htracks.latest_eq]
      exact htracks.showsAsOf none
    exact Archive.avoids_reads hnow hlinked.hasEnds guid

/-- A relationship is created and one of its ends is purged, in one transaction. -/
theorem relationships_lead_somewhere_after_purge :
    let ts : TypeSystem := ⟨.ofList [("Thing", ⟨"t1", "Thing", .entity, none, [], []⟩),
      ("Link", ⟨"t2", "Link", .relationship, none, [], []⟩)]⟩
    let header : Header := .create ⟨"t1", "Thing"⟩ "home" none "user" ⟨0, 0⟩
    let create : Request :=
      .createRelationship "r1" "Link" ∅ none ⟨"e1", header, ∅⟩ ⟨"e2", header, ∅⟩
    let ops := [create, .purgeEntity "e1" true].map fun r =>
      Invocation.toOp ⟨"user", ⟨"home", none⟩, r⟩
    let events := [StoreEvent.submit (Catalog.functions ts) ⟨0, 0⟩ ops]
    (∀ ev ∈ events, ev.OfArchive ts) ∧
      ∀ guid d, ((Store.empty 1).run events).latest.document? (RecordRef.relationship guid).docId =
        some d → ∀ side, (d.getRef? (Attr.side side)).isSome := by
  intro ts header create ops events
  have hevents : ∀ ev ∈ events, ev.OfArchive ts := by
    intro ev hev
    rw [List.mem_singleton.1 hev]
    refine ⟨rfl, fun op hop => ?_⟩
    obtain ⟨r, -, rfl⟩ := List.mem_map.1 hop
    trivial
  refine ⟨hevents, fun guid d hd side => ?_⟩
  obtain ⟨_, _, href, -, -⟩ :=
    (relationships_lead_somewhere ts 1 events hevents).1 guid d hd side
  rw [href]
  rfl

end MetadataArchive
