import MetadataArchive.Proofs.Archive.Foreign
import MetadataArchive.Proofs.Lifecycle.GivingWay

/-!
# Copies and what is homed here

A copy replaces or takes away nothing that is homed in the acting collection, however the store was
led to where it is (`copies_spare_what_is_homed_here`). What a collection may change is more than
what is homed there: it may change records that come from an external system and that it
replicates, and classifications of its own on entities of others. These are not spared. The first
give way to a newer copy as any record that is homed elsewhere, and the second go with the entity
when that gives way.
-/

set_option autoImplicit false

namespace MetadataArchive

variable {ts : TypeSystem} {s : Store} {i : Invocation} {op : TxOp} {now : Instant}

/-- What is read of an entity that is written anew for a copy of a classification. -/
theorem Entity.SameAtHome.reads_iff {src : Source} {e e' : Entity} {d : Document}
    {collection : String} (hnamed : ts.Named) (hundotted : ts.Undotted)
    (h : e.SameAtHome collection e') (hguid : e.guid ≠ "") (hfits : e.Fits) (hwell : e'.WellNamed)
    (hd : e'.toDocument ts = .ok d)
    (hsrc : src.document? (RecordRef.entity e.guid).docId = some d) (e'' : Entity) :
    (src.entity e.guid = .ok e'' ↔ e'.Rereads e'') ∧
      (src.entity e.guid = .ok e'' → (e.SameAtHome collection e'' ↔
        e.properties.ReadBack ∧ ∀ c ∈ e.homedIn collection, c.properties.ReadBack)) := by
  have hiff : src.entity e.guid = .ok e'' ↔ e'.Rereads e'' := by
    rw [← h.guid] at hguid hsrc ⊢
    exact Source.entity_rereads_iff hnamed hundotted hguid hwell hd hsrc
  exact ⟨hiff, fun hread => h.of_rereads_iff hfits (hiff.1 hread)⟩

/-- **Copies spare what is homed here.** In a type system that was accepted and has no full stop in
a name, let any store that archives have led to carry out a request about a copy. Then the document
of every entity that is stored in full and of every relationship stays as it is, or the record gives
way, as it was read. A record gives way as a whole only to requests about copies of it, and only
where it is homed elsewhere; if the acting collection may change it all the same, then it comes from
an external system and the collection replicates it. Else an entity gives way in one classification
that is homed elsewhere, and keeps its header, its properties and all classifications that are homed
here; what is read then is the same in these exactly where the values read back, as long as the
names that it is stored under are distinct and no name has a full stop. -/
theorem copies_spare_what_is_homed_here {defs : List TypeDef} {ts : TypeSystem}
    (hts : TypeSystem.ofList defs = .ok ts) (hundotted : ts.Undotted) (capacity : Nat)
    (before : List (StoreEvent Failure)) (hbefore : ∀ ev ∈ before, ev.OfArchive ts) (now : Instant)
    (op : TxOp) (i : Invocation) (hop : op.Calls i) (hcopy : i.request.aboutCopy = true) :
    let s := (Store.empty capacity).run before
    let s' := s.step (.submit (Catalog.functions ts) now [op])
    let collection := i.collection.id
    let onlyReplicated (h : Header) := h.collectionId ≠ collection ∧
      (h.isLocalTo collection = true →
        h.provenance = .externalSource ∧ h.replicatedBy = some collection)
    (∀ guid d, s.latest.document? (RecordRef.entity guid).docId = some d → d.isProxy = false →
      s'.latest.document? (RecordRef.entity guid).docId = some d ∨
      ∃ e, s.latest.entity guid = .ok e ∧
        e.GivesWay ts collection i.request
          (s'.latest.document? (RecordRef.entity guid).docId) ∧
        (i.request.aboutEntityCopy = true ∧ onlyReplicated e.header ∨
          ∃ e' d', e.SameAtHome collection e' ∧ e'.toDocument ts = .ok d' ∧
            s'.latest.document? (RecordRef.entity guid).docId = some d' ∧
            (e.WellNamed → i.request.BringsUndotted → ∀ e'',
              (s'.latest.entity guid = .ok e'' ↔ e'.Rereads e'') ∧
              (s'.latest.entity guid = .ok e'' → (e.SameAtHome collection e'' ↔
                e.properties.ReadBack ∧
                  ∀ c ∈ e.homedIn collection, c.properties.ReadBack))))) ∧
    ∀ guid d, s.latest.document? (RecordRef.relationship guid).docId = some d →
      s'.latest.document? (RecordRef.relationship guid).docId = some d ∨
      ∃ rel, s.latest.relationship ts guid = .ok rel ∧ onlyReplicated rel.header ∧
        rel.GivesWay ts collection i.request
          (s'.latest.document? (RecordRef.relationship guid).docId) := by
  intro s s' collection onlyReplicated
  have hnamed := TypeSystem.named_ofList hts
  have hreached : s.Reached := ⟨capacity, before, rfl⟩
  obtain ⟨hsource, hlinked⟩ :=
    Store.latest_of_run capacity (fun ev hev => (hbefore ev hev).keeps) linked_none
  rcases hreached.calls hop ts now with ⟨ws, hcarry, -, hlatest, -⟩ | ⟨-, -, hlatest⟩
  · refine ⟨fun guid d hd hproxy => ?_, fun guid d hd => ?_⟩
    · have hentity : d.IsEntity := hlinked.isEntity hd (hsource.keyed _ d hd)
      rw [hlatest]
      apply (Request.entity_gives_way hcopy hsource hcarry hd hentity hproxy).imp_right
      rintro ⟨e, hstored, hgives⟩
      obtain ⟨href, hguid, hread⟩ := hreached.entity_of_stored? hstored
      obtain rfl : guid = e.guid := congrArg RecordRef.guid href
      refine ⟨e, hread, hgives, ?_⟩
      rcases hgives.whole_or_sameAtHome hnamed hundotted with
        ⟨hwhole, hforeign⟩ | ⟨e', d', hsame, hd', hwritten, hkeeps⟩
      · exact Or.inl ⟨hwhole, hforeign, fun hlocal => Header.replicated_of_foreign hlocal hforeign⟩
      · refine Or.inr ⟨e', d', hsame, hd', hwritten, fun hwell hbrings => ?_⟩
        have hfits := Entity.fits_of_ofDocument ((Source.entity_eq_ok hd).1 hread)
        have hnow : s'.latest.document? (RecordRef.entity e.guid).docId = some d' := by
          rw [hlatest]
          exact hwritten
        exact hsame.reads_iff hnamed hundotted hguid hfits (hkeeps hwell hbrings) hd' hnow
    · rw [hlatest]
      apply (Request.relationship_gives_way hcopy hsource hcarry hd).imp_right
      rintro ⟨rel, hstored, hgives⟩
      obtain ⟨href, hread⟩ := hreached.relationship_of_relationship? hstored
      obtain rfl : guid = rel.guid := congrArg RecordRef.guid href
      have hforeign : rel.header.collectionId ≠ collection := hgives.foreign
      exact ⟨rel, hread, ⟨hforeign, fun hlocal => Header.replicated_of_foreign hlocal hforeign⟩,
        hgives⟩
  · rw [hlatest]
    exact ⟨fun guid d hd _ => Or.inl hd, fun guid d hd => Or.inl hd⟩

/-- An entity that is homed here loses a label from elsewhere, and nothing more. -/
theorem entity_stays_without_foreign_label :
    let thing : TypeDef := ⟨"t1", "Thing", .entity, none, [], []⟩
    let ts := (TypeSystem.ofList [thing]).toOption.getD .empty
    let label : Classification :=
      ⟨"Label", .create ⟨"t2", "Label"⟩ "away" none "ann" ⟨0, 0⟩, .assigned, none, ∅⟩
    let written : Entity :=
      ⟨"e1", .create ⟨"t1", "Thing"⟩ "home" none "ann" ⟨0, 0⟩, ∅, [label]⟩
    let d := (written.toDocument ts).toOption.getD (.ofId written.reference.docId)
    let purge : Invocation := ⟨"ann", ⟨"home", none⟩, .purgeClassificationCopy "e1" "Label" "away"⟩
    let s := (Store.empty 1).run
      [StoreEvent.submit (Catalog.functions ts) ⟨0, 0⟩ [.write (.put d)]]
    let s' := s.step (.submit (Catalog.functions ts) ⟨0, 0⟩ [purge.toOp])
    ∃ e e', s.latest.entity "e1" = .ok e ∧ s'.latest.entity "e1" = .ok e' ∧
      e.SameAtHome "home" e' ∧ e.classifications.map Classification.name = ["Label"] ∧
      e'.classifications = [] := by
  intro thing ts label written d purge s s'
  have hts : TypeSystem.ofList [thing] = .ok ts := eq_ok_of_isSome (by decide +kernel) _
  have hundotted : ts.Undotted := TypeSystem.undotted_of_values (by decide +kernel)
  have hwritten : written.toDocument ts = .ok d := eq_ok_of_isSome (by decide +kernel) _
  have hbefore : ∀ ev ∈ [StoreEvent.submit (Catalog.functions ts) ⟨0, 0⟩ [.write (.put d)]],
      ev.OfArchive ts := by
    intro ev hev
    rw [List.mem_singleton.1 hev]
    refine ⟨rfl, fun op hop => ?_⟩
    rw [List.mem_singleton.1 hop]
    exact ⟨written, d, hwritten, rfl⟩
  have hcalls : purge.toOp.Calls purge := ⟨purge.toJson, rfl, rfl⟩
  obtain ⟨hspared, -⟩ := copies_spare_what_is_homed_here hts hundotted 1 _ hbefore ⟨0, 0⟩
    purge.toOp purge hcalls rfl
  have hearlier : (s.latest.entity "e1").toOption.map (fun e =>
      (e.header.typeRef.name, e.classifications.map Classification.name,
        e.classifications.map (fun c => c.header.typeRef.name), e.properties.isEmpty,
        (e.homedIn "home").isEmpty)) = some ("Thing", ["Label"], ["Label"], true, true) := by
    decide +kernel
  have hlater : (s'.latest.entity "e1").toOption.map (fun e =>
      e.classifications.isEmpty) = some true := by
    decide +kernel
  obtain ⟨e, he, hearlier⟩ := Option.map_eq_some_iff.1 hearlier
  obtain ⟨e', he', hlater⟩ := Option.map_eq_some_iff.1 hlater
  have hread := eq_ok_of_toOption he
  have hread' := eq_ok_of_toOption he'
  simp only [Prod.mk.injEq, List.isEmpty_iff] at hearlier hlater
  obtain ⟨htype, hnames, htypes, hps, hhomed⟩ := hearlier
  obtain ⟨d₀, hd₀, hof⟩ := Source.entity_ok hread
  rcases hspared "e1" d₀ hd₀ (StoredEntity.ofDocument_ok hof).2.2.symm with
    hsame | ⟨_, hread₀, -, ⟨hwhole, -⟩ | ⟨_, _, -, -, -, hexact⟩⟩
  · -- It was written, for it has lost the label.
    cases hof.symm.trans ((Source.entity_eq_ok hsame).1 hread')
    rw [hlater] at hnames
    cases hnames
  · cases hwhole
  · cases hread.symm.trans hread₀
    have hundotted (name : String) (h : name ∈ ["Label"]) : '.' ∉ name.toList := by
      rw [List.mem_singleton.1 h]
      decide
    have hwell : e.WellNamed := by
      refine ⟨⟨by rw [hnames]; decide, fun c hc => ?_⟩, by rw [htype]; decide, fun c hc => ?_⟩
      · exact hundotted _ (hnames ▸ List.mem_map_of_mem hc)
      · exact hundotted _ (htypes ▸ List.mem_map_of_mem (f := fun c => c.header.typeRef.name) hc)
    have hback : e.properties.ReadBack := Properties.readBack_of_isEmpty hps
    have hnone : ∀ c ∈ e.homedIn "home", c.properties.ReadBack := by
      rw [hhomed]
      simp
    have hsame := ((hexact hwell trivial e').2 hread').2 ⟨hback, hnone⟩
    exact ⟨e, e', hread, hread', hsame, hnames, hlater⟩

end MetadataArchive
