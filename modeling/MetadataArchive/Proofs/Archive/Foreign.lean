import MetadataArchive.Proofs.Archive.Edit
import MetadataArchive.Proofs.Archive.Integrity
import MetadataArchive.Proofs.Lifecycle.Others
import MetadataArchive.Proofs.Lifecycle.Settled

/-!
# What belongs to others

A collection changes records of its own. There is one request of home that writes an entity of
another collection, which is to classify it, or to take such a classification back; and it is
carried out for the collection's own classifications only. All else of the entity is written as it
was read (`foreign_entities_are_kept`).
-/

set_option autoImplicit false

namespace MetadataArchive

variable {ts : TypeSystem} {s : Store} {i : Invocation} {op : TxOp} {now : Instant}

/-! ## What a collection may change of an entity that is not its own -/

/-- The classifications that a collection may not change. -/
def Entity.foreign (e : Entity) (collection : String) : List Classification :=
  e.classifications.filter fun c => !c.header.isLocalTo collection

/-- Two entities are the same but for what a collection may change of one that is not its own: the
version, who changed it last and when, who maintains it, and the classifications that are the
collection's own. -/
structure Entity.SameBut (collection : String) (e e' : Entity) : Prop where
  guid : e'.guid = e.guid
  header : e'.header = { e.header with
    version := e'.header.version
    updatedBy := e'.header.updatedBy
    updateTime := e'.header.updateTime
    maintainedBy := e'.header.maintainedBy }
  properties : e'.properties = e.properties
  foreign : e'.foreign collection = e.foreign collection

/-- **An edit of an entity that is not the collection's own** is one of its classifications. -/
theorem Entity.Edited.sameBut {e e' : Entity} (h : e.Edited ts now i e')
    (hforeign : e.header.isLocalTo i.collection.id = false) : e.SameBut i.collection.id e' := by
  cases h with
  | changed makes =>
    rw [makes.owned] at hforeign
    cases hforeign
  | classified _ _ follows _ swapped =>
    refine ⟨rfl, follows.rest, rfl, swapped.filter_eq (by simp) fun c hc => ?_⟩
    cases hc
    simp [Header.isLocalTo, Header.create]
  | reclassified _ follows _ owned touched swapped =>
    refine ⟨rfl, follows.rest, rfl, swapped.filter_eq (fun c hc => ?_) fun c hc => ?_⟩ <;> cases hc
    · rw [owned, Bool.not_true]
    · rw [touched.isLocalTo, owned, Bool.not_true]
  | declassified _ follows owned swapped =>
    refine ⟨rfl, follows.rest, rfl, swapped.filter_eq (fun c hc => ?_) (by simp)⟩
    cases hc
    rw [owned, Bool.not_true]

/-- What is read is still the same exactly where the values read back that are not the
collection's. -/
theorem Entity.SameBut.of_rereads_iff {collection : String} {e e' e'' : Entity}
    (h : e.SameBut collection e') (hfits : e.Fits) (hread : e'.Rereads e'') :
    e.SameBut collection e'' ↔
      e.properties.ReadBack ∧ ∀ c ∈ e.foreign collection, c.properties.ReadBack := by
  obtain ⟨ps, cs, hps, hcs, rfl⟩ := hread
  rw [h.properties] at hps
  -- What is read belongs to the same collections as what was written.
  have hforeign : List.Forall₂ Classification.Rereads (e.foreign collection)
      (cs.filter fun c => !c.header.isLocalTo collection) := by
    rw [← h.foreign]
    exact Classification.filter_rereads (p := fun h => !h.isLocalTo collection) (fun _ => rfl) hcs
  have hkept : ∀ c ∈ e.foreign collection, c.header.version.toNat < 2 ^ 63 := fun c hc =>
    hfits.classifications c (List.mem_of_mem_filter hc)
  constructor
  · intro hsame
    refine ⟨?_, (Classification.eq_of_rereads_iff hkept hforeign).1 hsame.foreign⟩
    exact Properties.rereads_self_iff.1 ((show ps = e.properties from hsame.properties) ▸ hps)
  · rintro ⟨hback, hclassified⟩
    exact ⟨h.guid, congrArg Header.stored h.header, hps.eq (Properties.rereads_self_iff.2 hback),
      (Classification.eq_of_rereads_iff hkept hforeign).2 hclassified⟩

/-! ## Requests -/

section CarryOut

variable {ctx : TxContext} {ws : List Write} {guid : String} {d : Document} {h : Header}

/-- What is read in full of a document has the header that the document holds. -/
theorem Acting.header_of_stored? {a : Acting} {e : Entity}
    (he : a.stored? (.entity guid) = .ok (some (.full e)))
    (hd : a.context.source.document? (RecordRef.entity guid).docId = some d)
    (hheader : Header.ofDocument d "" = .ok h) : e.header = h := by
  obtain ⟨d', hd', hread⟩ := Acting.stored?_some he
  cases hd.symm.trans hd'
  exact Except.ok.inj ((Entity.reads_of_ofDocument hread).2.1.symm.trans hheader)

theorem Request.OfHome.aboutCopy {req : Request} (h : req.OfHome) : req.aboutCopy = false := by
  cases req with
  | storeEntityCopy | purgeEntityCopy | storeRelationshipCopy | purgeRelationshipCopy
  | storeClassificationCopy | purgeClassificationCopy => exact absurd (of_decide_eq_true rfl) h
  | _ => rfl

/-- **A request of home leaves an entity of another collection alone**, unless it is to edit it. -/
theorem Request.leaves_foreign (hsource : ctx.source.Coherent) (hhome : i.request.OfHome)
    (hcarry : i.request.carryOut ⟨ts, i.user, i.collection, ctx⟩ = .ok ws)
    (hd : ctx.source.document? (RecordRef.entity guid).docId = some d) (hentity : d.IsEntity)
    (hproxy : d.isProxy = false) (hheader : Header.ofDocument d "" = .ok h)
    (hforeign : h.isLocalTo i.collection.id = false) :
    writeAll ctx.source.document? ws (RecordRef.entity guid).docId = some d ∨
      i.request.editsEntity = true ∧ i.request.target = .entity guid := by
  by_cases htarget : i.request.target = .entity guid
  · by_cases hedits : i.request.editsEntity = true
    · exact Or.inr ⟨hedits, htarget⟩
    · have hpurge (force : Bool) : i.request ≠ .purgeEntity guid force := fun heq => by
        rw [heq] at hcarry
        simp only [Request.carryOut, Acting.purgeEntity, bind_eq_ok,
          liftM_rejection_eq_ok] at hcarry
        obtain ⟨e, he, _, howned, -⟩ := hcarry
        have hlocal := Rule.owned_ok howned
        rw [Acting.header_of_stored? (Acting.entity_ok he) hd hheader, hforeign] at hlocal
        cases hlocal
      have hleaves := Request.leaves_full hsource hcarry hhome.aboutCopy (by simpa using hedits)
        hpurge hd hentity hproxy
      exact Or.inl (hleaves.trans hd)
  · exact Or.inl ((Request.leaves_carryOut hsource hcarry htarget hd hentity).trans hd)

end CarryOut

/-! ## Foreign entities are kept -/

/-- **What belongs to others is kept.** In a type system that was accepted and has no full stop in a
name, let any store that archives have led to carry out a request of home, with any target and for
any collection. Then the document of every entity that is stored in full and is not the collection's
own stays as it is; or the collection classifies that entity, and what is written is the entity that
was read, the same but for its version, who changed it, and classifications that are the
collection's own. What is read then is the same but for these exactly where the values read back
that are not the collection's, as long as the names that the entity is stored under are distinct and
have no full stops. -/
theorem foreign_entities_are_kept {defs : List TypeDef} {ts : TypeSystem}
    (hts : TypeSystem.ofList defs = .ok ts) (hundotted : ts.Undotted) (capacity : Nat)
    (before : List (StoreEvent Failure)) (hbefore : ∀ ev ∈ before, ev.OfArchive ts) (now : Instant)
    (op : TxOp) (i : Invocation) (hop : op.Calls i) (hhome : i.request.OfHome) :
    let s := (Store.empty capacity).run before
    let s' := s.step (.submit (Catalog.functions ts) now [op])
    ∀ guid d h, s.latest.document? (RecordRef.entity guid).docId = some d → d.isProxy = false →
      Header.ofDocument d "" = .ok h → h.isLocalTo i.collection.id = false →
      s'.latest.document? (RecordRef.entity guid).docId = some d ∨
      ∃ e e' d', s.latest.entity guid = .ok e ∧ e.header = h ∧ e.SameBut i.collection.id e' ∧
        e'.toDocument ts = .ok d' ∧
        s'.latest.document? (RecordRef.entity guid).docId = some d' ∧
        (e.WellNamed → ∀ e'', (s'.latest.entity guid = .ok e'' ↔ e'.Rereads e'') ∧
          (s'.latest.entity guid = .ok e'' → (e.SameBut i.collection.id e'' ↔
            e.properties.ReadBack ∧
              ∀ c ∈ e.foreign i.collection.id, c.properties.ReadBack))) := by
  intro s s' guid d h hd hproxy hheader hforeign
  have hnamed := TypeSystem.named_ofList hts
  have hreached : s.Reached := ⟨capacity, before, rfl⟩
  obtain ⟨hsource, hlinked⟩ :=
    Store.latest_of_run capacity (fun ev hev => (hbefore ev hev).keeps) linked_none
  have hentity : d.IsEntity := hlinked.isEntity hd (hsource.keyed _ d hd)
  rcases hreached.calls hop ts now with ⟨ws, hcarry, haccepted, hlatest, -⟩ | ⟨-, -, hlatest⟩
  · rw [hlatest]
    rcases Request.leaves_foreign hsource hhome hcarry hd hentity hproxy hheader hforeign with
      hsame | ⟨hedits, htarget⟩
    · exact Or.inl hsame
    · obtain ⟨e, e', d', htarget', hguid, hread, hedited, hd', hput, -⟩ :=
        hreached.edits_entity hop hedits haccepted
      obtain rfl : guid = e.guid := congrArg RecordRef.guid (htarget.symm.trans htarget')
      have hread' := (Source.entity_eq_ok hd).1 hread
      have heq : e.header = h :=
        Except.ok.inj ((Entity.reads_of_ofDocument hread').2.1.symm.trans hheader)
      have hkept := hedited.sameBut (heq ▸ hforeign)
      refine Or.inr ⟨e, e', d', hread, heq, hkept, hd', ?_, fun he e'' => ?_⟩
      · have hid : d'.id = (RecordRef.entity e.guid).docId := by
          rw [(Entity.lays hd').id, Entity.reference, hedited.guid]
        rw [← hlatest, hput, ← hid]
        exact Write.on_self
      · have hiff : s'.latest.entity e.guid = .ok e'' ↔ e'.Rereads e'' :=
          hedited.rereads_iff hnamed hundotted hguid he hd' hput
        exact ⟨hiff, fun hread'' =>
          hkept.of_rereads_iff (Entity.fits_of_ofDocument hread') (hiff.1 hread'')⟩
  · exact Or.inl ((congrFun hlatest _).trans hd)

/-- A copy of an entity that is homed elsewhere is classified: it is of the second version, and the
same but for what is the collection's own. -/
theorem foreign_copy_is_classified :
    let thing : TypeDef := ⟨"t1", "Thing", .entity, none, [], []⟩
    let tag : TypeDef := ⟨"t2", "Tag", .classification, none, [], ["Thing"]⟩
    let ts := (TypeSystem.ofList [thing, tag]).toOption.getD .empty
    let copy : Entity := ⟨"e1", .create ⟨"t1", "Thing"⟩ "away" none "ann" ⟨0, 0⟩, ∅, []⟩
    let save := Invocation.toOp ⟨"ann", ⟨"home", none⟩, .storeEntityCopy copy⟩
    let classify : Invocation := ⟨"bob", ⟨"home", none⟩, .classify "e1" "Tag" ∅ .add⟩
    let s := (Store.empty 1).run [StoreEvent.submit (Catalog.functions ts) ⟨0, 0⟩ [save]]
    let s' := s.step (.submit (Catalog.functions ts) ⟨1, 0⟩ [classify.toOp])
    ∃ e e', s.latest.entity "e1" = .ok e ∧ s'.latest.entity "e1" = .ok e' ∧
      e.SameBut "home" e' ∧ e'.header.version = 2 := by
  intro thing tag ts copy save classify s s'
  have hts : TypeSystem.ofList [thing, tag] = .ok ts := eq_ok_of_isSome (by decide +kernel) _
  have hundotted : ts.Undotted := TypeSystem.undotted_of_values (by decide +kernel)
  have hbefore : ∀ ev ∈ [StoreEvent.submit (Catalog.functions ts) ⟨0, 0⟩ [save]],
      ev.OfArchive ts := by
    intro ev hev
    rw [List.mem_singleton.1 hev]
    refine ⟨rfl, fun op hop => ?_⟩
    rw [List.mem_singleton.1 hop]
    trivial
  have hcalls : classify.toOp.Calls classify := ⟨classify.toJson, rfl, rfl⟩
  have hhome : classify.request.OfHome := (by decide : "classify-entity" ∉ Request.copyFunctions)
  have hfields : ((s.latest.entity "e1").toOption.map fun e =>
      (e.header.typeRef.name, e.header.isLocalTo "home", e.header.version,
        e.classifications.isEmpty, e.properties.isEmpty)) = some ("Thing", false, 1, true, true) := by
    decide +kernel
  have hlater : (s'.latest.entity "e1").toOption.map (fun e => e.header.version) = some 2 := by
    decide +kernel
  obtain ⟨e, he, hfields⟩ := Option.map_eq_some_iff.1 hfields
  obtain ⟨e', he', hversion⟩ := Option.map_eq_some_iff.1 hlater
  have hread := eq_ok_of_toOption he
  have hread' := eq_ok_of_toOption he'
  simp only [Prod.mk.injEq, List.isEmpty_iff] at hfields
  obtain ⟨htype, hforeign, hfirst, hcs, hps⟩ := hfields
  obtain ⟨d, hd, hof⟩ := Source.entity_ok hread
  rcases foreign_entities_are_kept hts hundotted 1 _ hbefore ⟨1, 0⟩ classify.toOp classify
    hcalls hhome "e1" d e.header hd (StoredEntity.ofDocument_ok hof).2.2.symm
    (Entity.reads_of_ofDocument hof).2.1 hforeign with
      hsame | ⟨e₀, _, _, hread₀, -, -, -, -, hexact⟩
  · -- It was written, for it has another version.
    have heq := hof.symm.trans ((Source.entity_eq_ok hsame).1 hread')
    cases heq
    rw [hfirst] at hversion
    cases hversion
  · cases hread.symm.trans hread₀
    have hwell : e.WellNamed :=
      ⟨⟨by simp [hcs], by simp [hcs]⟩, by rw [htype]; decide, by simp [hcs]⟩
    have hback := Properties.readBack_of_isEmpty hps
    exact ⟨e, e', hread, hread',
      ((hexact hwell _).2 hread').2 ⟨hback, by simp [Entity.foreign, hcs]⟩, hversion⟩

end MetadataArchive
