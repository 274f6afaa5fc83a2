import MetadataArchive.Proofs.Archive.Edit
import MetadataArchive.Proofs.Lifecycle.Others
import MetadataArchive.Proofs.Lifecycle.Settled

/-!
# Deleted and restored

Where only requests of home are carried out, every record is settled at any time. So when a record
is deleted its status is remembered, and remembered for as long as no other request about it is
accepted; and when it is restored it has this status again, under a header that follows twice
(`restoring_undoes_deletion`). Its values have by then been written and read twice.
-/

set_option autoImplicit false

namespace MetadataArchive

variable {ts : TypeSystem} {s : Store} {i : Invocation} {op : TxOp} {now now' : Instant}

/-! ## Requests of home -/

/-- A call of a function that is not for copies. -/
def TxOp.OfHome : TxOp → Prop
  | .call name _ => name ∉ Request.copyFunctions
  | .write _ => False

/-- An event in which all that transactions do is to call functions that are not for copies. -/
def StoreEvent.OfHome (ts : TypeSystem) : StoreEvent Failure → Prop
  | .submit functions _ ops => functions = Catalog.functions ts ∧ ∀ op ∈ ops, op.OfHome
  | _ => True

section Home

variable (P : Document → Prop)
variable (hwrites : ∀ (a : Acting) (req : Request) (ws : List Write), a.types = ts →
  (∀ id d, a.context.source.document? id = some d → P d) → req.OfHome → req.carryOut a = .ok ws →
  ∀ d, .put d ∈ ws → P d)
include hwrites

theorem StoreEvent.OfHome.keeps {ev : StoreEvent Failure} (h : ev.OfHome ts) :
    ev.Keeps (fun docs => ∀ id d, docs id = some d → P d) fun _ => True := by
  cases ev with
  | submit functions now ops =>
    obtain ⟨rfl, hops⟩ := h
    refine ⟨fun docs w hw _ => (hops _ hw).elim,
      fun name args hc f hf hname ctx ws note _ hdocs hrun => ⟨?_, fun _ _ => trivial⟩⟩
    obtain ⟨i, -, hfunction, ⟨hok, -⟩ | ⟨_, -, rfl, -⟩⟩ := Catalog.run_writes hf hrun
    · have hhome : i.request.OfHome := by
        rw [Request.OfHome, hfunction, hname]
        exact hops _ hc
      exact forall_writeAll hdocs (hwrites _ _ _ rfl hdocs hhome hok)
    · exact hdocs
  | openSnapshot | release | claim => trivial

/-- **What requests of home keep holds of every document**, after any run of them. -/
theorem Store.forall_of_run (capacity : Nat) {events : List (StoreEvent Failure)}
    (hevents : ∀ ev ∈ events, ev.OfHome ts) :
    ∀ id d, ((Store.empty capacity).run events).latest.document? id = some d → P d :=
  (Store.latest_of_run capacity (fun ev hev => (hevents ev hev).keeps P hwrites)
    fun _ _ h => by cases h).2

end Home

/-- **Every record is settled**, after any run of requests of home. -/
theorem Store.settled_of_run (hnamed : ts.Named) (hundotted : ts.Undotted) (capacity : Nat)
    {events : List (StoreEvent Failure)} (hevents : ∀ ev ∈ events, ev.OfHome ts) :
    ∀ id d, ((Store.empty capacity).run events).latest.document? id = some d → d.Settled ts := by
  apply Store.forall_of_run (Document.Settled ts) _ capacity hevents
  rintro a req ws rfl hdocs hhome h
  exact Request.settled_carryOut hnamed hundotted hdocs hhome h

section Settled

variable (hdocs : ∀ id d, s.latest.document? id = some d → d.Settled ts)
include hdocs

theorem Store.settled_entity (hnamed : ts.Named) (hundotted : ts.Undotted) {guid : String}
    {e : Entity} (he : s.latest.entity guid = .ok e) : e.header.Settled ∧ e.WellNamed ∧ e.Fits := by
  obtain ⟨d, hd, hread⟩ := Source.entity_ok he
  obtain ⟨hs, hwell⟩ := (hdocs _ d hd).full hnamed hundotted hread
  exact ⟨hs, hwell, Entity.fits_of_ofDocument hread⟩

theorem Store.settled_relationship {guid : String} {rel : Relationship}
    (hrel : s.latest.relationship ts guid = .ok rel) : rel.header.Settled := by
  obtain ⟨d, _, _, hd, -, hread⟩ := Source.relationship_ok hrel
  exact (hdocs _ d hd).relationship_of_ofDocument hread

end Settled

/-! ## While a record is left alone -/

/-- No request about a record is accepted in an event. Snapshots may be opened and released and
outcomes be claimed, and there may be any request that is rejected or is about another record. -/
def StoreEvent.Spares (ts : TypeSystem) (r : RecordRef) (s : Store) : StoreEvent Failure → Prop
  | .submit functions now ops => functions = Catalog.functions ts ∧ ∃ (op : TxOp) (i : Invocation),
      ops = [op] ∧ op.Calls i ∧ (s.accepts functions now ops = true → i.request.target ≠ r)
  | _ => True

/-- No request about a record is accepted while the store goes on. -/
def Store.Spares (ts : TypeSystem) (r : RecordRef) : Store → List (StoreEvent Failure) → Prop
  | _, [] => True
  | s, ev :: events => ev.Spares ts r s ∧ (s.step ev).Spares ts r events

namespace Store.Reached

variable {ev : StoreEvent Failure} {events : List (StoreEvent Failure)} {r : RecordRef}
variable {guid : String} {d : Document}

/-- What an event does to the documents that spares a record: nothing, or what a request writes that
is about another record. -/
theorem spares_cases (h : s.Reached) (hev : ev.Spares ts r s) :
    (s.step ev).latest.document? = s.latest.document? ∨
      ∃ (i : Invocation) (now : Instant) (ws : List Write), i.request.target ≠ r ∧
        i.request.carryOut (s.acting ts now i) = .ok ws ∧
        (s.step ev).latest.document? = writeAll s.latest.document? ws := by
  cases ev with
  | submit functions now ops =>
    obtain ⟨rfl, op, i, rfl, hop, hother⟩ := hev
    rcases h.calls hop ts now with ⟨ws, hcarry, haccepts, hlatest, -⟩ | ⟨-, -, hlatest⟩
    · exact Or.inr ⟨i, now, ws, hother haccepts, hcarry, hlatest⟩
    · exact Or.inl hlatest
  | openSnapshot | release | claim =>
    obtain ⟨l, htracks, -⟩ := h.tracks
    refine Or.inl (congrArg Source.document? ?_)
    rw [(htracks.step _).latest_eq, htracks.latest_eq]
    rfl

theorem entity_of_spares (h : s.Reached) (hspares : s.Spares ts (.entity guid) events)
    (hd : s.latest.document? (RecordRef.entity guid).docId = some d) (hentity : d.IsEntity) :
    (s.run events).latest.document? (RecordRef.entity guid).docId = some d := by
  induction events generalizing s with
  | nil => exact hd
  | cons ev events ih =>
    obtain ⟨hev, hrest⟩ := hspares
    refine ih (h.step ev) hrest ?_
    rcases h.spares_cases hev with hlatest | ⟨i, now, ws, hother, hcarry, hlatest⟩
    · rwa [hlatest]
    · rw [hlatest]
      exact (Request.leaves_carryOut h.coherent hcarry hother hd hentity).trans hd

/-- A relationship may go with one of its ends, and then it does not come back. -/
theorem relationship_of_spares (h : s.Reached) (hspares : s.Spares ts (.relationship guid) events) :
    let after := (s.run events).latest.document? (RecordRef.relationship guid).docId
    after = s.latest.document? (RecordRef.relationship guid).docId ∨ after = none := by
  induction events generalizing s with
  | nil => exact Or.inl rfl
  | cons ev events ih =>
    obtain ⟨hev, hrest⟩ := hspares
    have hstep : (s.step ev).latest.document? (RecordRef.relationship guid).docId =
          s.latest.document? (RecordRef.relationship guid).docId ∨
        (s.step ev).latest.document? (RecordRef.relationship guid).docId = none := by
      rcases h.spares_cases hev with hlatest | ⟨i, now, ws, hother, hcarry, hlatest⟩
      · exact Or.inl (by rw [hlatest])
      · rw [hlatest]
        exact Request.relationship_carryOut h.coherent hcarry hother
    rcases ih (h.step ev) hrest with hsame | hnone
    · exact hstep.imp hsame.trans hsame.trans
    · exact Or.inr hnone

end Store.Reached

/-! ## Deletion and restoration -/

section Restoring

variable {guid user user' : String} {collection collection' : Collection} {delete restore : TxOp}
variable {between : List (StoreEvent Failure)} (h : s.Reached) (hnamed : ts.Named)
variable (hundotted : ts.Undotted)
variable (hdocs : ∀ id d, s.latest.document? id = some d → d.Settled ts)
include h hnamed hundotted hdocs

/-- An entity is deleted and restored: what is read of it then is the entity from before, under a
header that follows twice, with its values read twice from what was written of them. -/
theorem Store.Reached.restores_entity
    (hdelete : delete.Calls ⟨user, collection, .changeEntity guid .delete⟩)
    (hrestore : restore.Calls ⟨user', collection', .changeEntity guid .restore⟩)
    (hdeleted : s.accepts (Catalog.functions ts) now [delete] = true)
    (hspares : (s.step (.submit (Catalog.functions ts) now [delete])).Spares ts (.entity guid)
      between)
    (hrestored : ((s.step (.submit (Catalog.functions ts) now [delete])).run between).accepts
      (Catalog.functions ts) now' [restore] = true) :
    let deleted := (s.step (.submit (Catalog.functions ts) now [delete])).run between
    ∃ e, s.latest.entity guid = .ok e ∧ (e.header.version.toNat < 2 ^ 63 - 2 →
      ∃ (e₁ : Entity) (hm h' : Header), e.Rereads e₁ ∧
        e.header.Follows hm user (s.nextTime now) ∧ hm.Follows h' user' (deleted.nextTime now') ∧
        ∀ e', (deleted.step (.submit (Catalog.functions ts) now' [restore])).latest.entity guid =
          .ok e' ↔ { e₁ with header := h' }.Rereads e') := by
  intro deleted
  obtain ⟨e, e₀, d, htarget, hguid, hread, hedited, hd, hlatest, -⟩ :=
    h.edits_entity hdelete rfl hdeleted
  obtain rfl : guid = e.guid := congrArg RecordRef.guid htarget
  obtain ⟨hs, he, -⟩ := Store.settled_entity hdocs hnamed hundotted hread
  refine ⟨e, hread, fun hroom => ?_⟩
  -- The document that the deletion wrote is still there when the entity is restored.
  have hid : d.id = (RecordRef.entity e.guid).docId := by
    rw [(Entity.lays hd).id, Entity.reference, hedited.guid]
  have hstored : deleted.latest.document? (RecordRef.entity e.guid).docId = some d := by
    refine (h.step _).entity_of_spares hspares ?_ (Entity.isEntity_toDocument hd)
    rw [hlatest, ← hid]
    exact Write.on_self
  obtain ⟨e₂, e₃, d₃, htarget₂, hguid₂, hread₂, hedited₂, hd₃, hlatest₃, -⟩ :=
    ((h.step _).run between).edits_entity hrestore rfl hrestored
  have hsame : e.guid = e₂.guid := congrArg RecordRef.guid htarget₂
  have hrereads : e₀.Rereads e₂ := by
    have he₀ := hedited.wellNamed hnamed hundotted he
    rw [← hedited.guid] at hguid hstored
    refine (Source.entity_rereads_iff hnamed hundotted hguid he₀ hd hstored).1 ?_
    rwa [hedited.guid, hsame]
  obtain ⟨e₁, hm, h', he₁, hfirst, hlast, rfl⟩ := hedited.restores hrereads hedited₂ hs hroom
  refine ⟨e₁, hm, h', he₁, hfirst, hlast, fun e' => ?_⟩
  have hwell := hrereads.wellNamed (hedited.wellNamed hnamed hundotted he)
  rw [hsame]
  exact hedited₂.rereads_iff hnamed hundotted hguid₂ hwell hd₃ hlatest₃

omit h hnamed hundotted hdocs in
/-- The ends that are read of a relationship are those that it was written with, as they are now. -/
theorem Relationship.ends_of_toDocument {src : Source} {rel rel' : Relationship} {d : Document}
    {one two : DocId} (hsource : src.Coherent) (hd : rel.toDocument ts = .ok d)
    (hends : Relationship.ends d = .ok (one, two))
    (hread : Relationship.ofDocument ts d (src.document? one) (src.document? two) = .ok rel') :
    rel'.endOne.guid = rel.endOne.guid ∧ rel'.endTwo.guid = rel.endTwo.guid := by
  obtain ⟨hone, htwo⟩ := Relationship.ends_ok hends
  have hlinks := Relationship.links_toDocument hd
  obtain ⟨-, -, ⟨d₁, hd₁, hid₁⟩, d₂, hd₂, hid₂⟩ := Relationship.ofDocument_ok hread
  rw [hlinks.one] at hone
  rw [hlinks.two] at htwo
  cases hone
  cases htwo
  rw [hsource.keyed _ d₁ hd₁] at hid₁
  rw [hsource.keyed _ d₂ hd₂] at hid₂
  exact ⟨congrArg RecordRef.guid (RecordRef.docId_injective hid₁),
    congrArg RecordRef.guid (RecordRef.docId_injective hid₂)⟩

/-- A relationship is deleted and restored: what is read of it then is the relationship from before,
between the ends as they are when it is restored. -/
theorem Store.Reached.restores_relationship
    (hdelete : delete.Calls ⟨user, collection, .changeRelationship guid .delete⟩)
    (hrestore : restore.Calls ⟨user', collection', .changeRelationship guid .restore⟩)
    (hdeleted : s.accepts (Catalog.functions ts) now [delete] = true)
    (hspares : (s.step (.submit (Catalog.functions ts) now [delete])).Spares ts (.relationship guid)
      between)
    (hrestored : ((s.step (.submit (Catalog.functions ts) now [delete])).run between).accepts
      (Catalog.functions ts) now' [restore] = true) :
    let deleted := (s.step (.submit (Catalog.functions ts) now [delete])).run between
    ∃ rel, s.latest.relationship ts guid = .ok rel ∧ (rel.header.version.toNat < 2 ^ 63 - 2 →
      ∃ (rel₁ : Relationship) (hm h' : Header) (one two : Proxy),
        one.guid = rel.endOne.guid ∧ two.guid = rel.endTwo.guid ∧
        { rel with endOne := one, endTwo := two }.Rereads rel₁ ∧
        rel.header.Follows hm user (s.nextTime now) ∧
        hm.Follows h' user' (deleted.nextTime now') ∧
        ∀ rel', (deleted.step (.submit (Catalog.functions ts) now' [restore])).latest.relationship
          ts guid = .ok rel' ↔ { rel₁ with header := h' }.Rereads rel') := by
  intro deleted
  obtain ⟨rel, rel₀, d, htarget, hread, hedited, hd, hlatest, -⟩ :=
    h.edits_relationship hdelete rfl hdeleted
  obtain rfl : guid = rel.guid := congrArg RecordRef.guid htarget
  have hs := Store.settled_relationship hdocs hread
  refine ⟨rel, hread, fun hroom => ?_⟩
  obtain ⟨rel₂, rel₃, d₃, htarget₂, hread₂, hedited₂, hd₃, hlatest₃, -⟩ :=
    ((h.step _).run between).edits_relationship hrestore rfl hrestored
  have hsame : rel.guid = rel₂.guid := congrArg RecordRef.guid htarget₂
  obtain ⟨d₂, one, two, hd₂, hends, hread₃⟩ := Source.relationship_ok hread₂
  -- What is restored is read of the document that the deletion wrote, or it would not be there.
  have hkey : d.id = (RecordRef.relationship rel.guid).docId := by
    rw [(Relationship.lays hd).id, Relationship.reference, hedited.guid]
  have hput : (Write.put d).on s.latest.document? (RecordRef.relationship rel.guid).docId =
      some d := by
    rw [← hkey]
    exact Write.on_self
  have hstored : d₂ = d := by
    rw [← hsame] at hd₂
    rcases (h.step _).relationship_of_spares hspares with hkept | hgone
    · rw [hlatest, hput] at hkept
      exact Option.some.inj (hd₂.symm.trans hkept)
    · rw [hd₂] at hgone
      cases hgone
  subst hstored
  obtain ⟨hone, htwo⟩ :=
    Relationship.ends_of_toDocument ((h.step _).run between).coherent hd hends hread₃
  rw [hedited.ends.1] at hone
  rw [hedited.ends.2] at htwo
  have hguid : rel₀.guid ≠ "" := by
    rw [hedited.guid, hsame]
    exact (Relationship.reads_of_ofDocument hread₃).1
  have hplain := Relationship.plain_of_toDocument hnamed hundotted hd
  obtain ⟨-, -, hrereads⟩ :=
    (Relationship.ofDocument_rereads_ends_iff hguid hplain hd).1 hread₃
  obtain ⟨rel₁, hm, h', hrel₁, hfirst, hlast, rfl⟩ := hedited.restores hrereads hedited₂ hs hroom
  refine ⟨rel₁, hm, h', _, _, hone, htwo, hrel₁, hfirst, hlast, fun rel' => ?_⟩
  rw [hsame]
  exact hedited₂.rereads_iff ((h.step _).run between).coherent hnamed hundotted hread₂ hd₃ hlatest₃

end Restoring

/-- Of an entity whose values read back nothing is lost in between. -/
theorem Entity.ReadBack.restored {e e₁ : Entity} {h : Header} (hback : e.ReadBack) (hfits : e.Fits)
    (hversion : h.version.toNat < 2 ^ 63) (he₁ : e.Rereads e₁) :
    { e₁ with header := h }.Rereads { e with header := h } := by
  have hself : e.Rereads e := Entity.rereads_self_iff.2 ⟨hfits, hback⟩
  rw [he₁.eq hself, Entity.rereads_self_iff]
  exact ⟨⟨hversion, hfits.classifications⟩, hback.properties, hback.classifications⟩

theorem Relationship.restored {rel rel₁ : Relationship} {h : Header}
    (hback : rel.properties.ReadBack) (hfits : rel.header.version.toNat < 2 ^ 63)
    (hversion : h.version.toNat < 2 ^ 63) (hrel₁ : rel.Rereads rel₁) :
    { rel₁ with header := h }.Rereads { rel with header := h } := by
  have hself : rel.Rereads rel := Relationship.rereads_self_iff.2 ⟨hfits, hback⟩
  rw [hrel₁.eq hself, Relationship.rereads_self_iff]
  exact ⟨hversion, hback⟩

/-- **Deletion remembers, and restoration undoes it.** In a type system that was accepted and has no
full stop in a name, let a run call no functions but those of home. Then every record that is not a
proxy is deleted exactly where it remembers a status, which is not deletion. And if a record is
deleted, and restored after any time in which no other request about it was accepted, what is read
of it is the record from before: it has the version two higher and the same status, its header
follows by the two users, and its values, with those of its classifications, are what is read when
they are written twice; so they are the same where they read back. A relationship has the same ends,
as these are by then. -/
theorem restoring_undoes_deletion {defs : List TypeDef} {ts : TypeSystem}
    (hts : TypeSystem.ofList defs = .ok ts) (hundotted : ts.Undotted) (capacity : Nat)
    (before : List (StoreEvent Failure)) (hbefore : ∀ ev ∈ before, ev.OfHome ts) :
    let s := (Store.empty capacity).run before
    (∀ id d, s.latest.document? id = some d → d.isProxy = false →
      ∃ h, Header.ofDocument d "" = .ok h ∧ h.Settled) ∧
    (∀ guid e, s.latest.entity guid = .ok e → e.header.Settled) ∧
    (∀ guid rel, s.latest.relationship ts guid = .ok rel → rel.header.Settled) ∧
    ∀ (guid user user' : String) (collection collection' : Collection) (now now' : Instant)
      (delete restore : TxOp) (between : List (StoreEvent Failure)),
      let deleting := s.step (.submit (Catalog.functions ts) now [delete])
      let deleted := deleting.run between
      let restored := deleted.step (.submit (Catalog.functions ts) now' [restore])
      let undone (h h' : Header) := h'.version.toNat = h.version.toNat + 2 ∧
        ∃ hm, h.Follows hm user (s.nextTime now) ∧ hm.Follows h' user' (deleted.nextTime now')
      s.accepts (Catalog.functions ts) now [delete] = true →
      deleted.accepts (Catalog.functions ts) now' [restore] = true →
      (delete.Calls ⟨user, collection, .changeEntity guid .delete⟩ →
        restore.Calls ⟨user', collection', .changeEntity guid .restore⟩ →
        deleting.Spares ts (.entity guid) between →
        ∃ e, s.latest.entity guid = .ok e ∧ (e.header.version.toNat < 2 ^ 63 - 2 →
          ∃ e₁ h', undone e.header h' ∧ e.Rereads e₁ ∧
            (∀ e', restored.latest.entity guid = .ok e' ↔
              { e₁ with header := h' }.Rereads e') ∧
            (e.ReadBack → restored.latest.entity guid = .ok { e with header := h' }))) ∧
      (delete.Calls ⟨user, collection, .changeRelationship guid .delete⟩ →
        restore.Calls ⟨user', collection', .changeRelationship guid .restore⟩ →
        deleting.Spares ts (.relationship guid) between →
        ∃ rel, s.latest.relationship ts guid = .ok rel ∧ (rel.header.version.toNat < 2 ^ 63 - 2 →
          ∃ rel₁ h' one two, undone rel.header h' ∧ one.guid = rel.endOne.guid ∧
            two.guid = rel.endTwo.guid ∧
            { rel with endOne := one, endTwo := two }.Rereads rel₁ ∧
            (∀ rel', restored.latest.relationship ts guid = .ok rel' ↔
              { rel₁ with header := h' }.Rereads rel') ∧
            (rel.properties.ReadBack → restored.latest.relationship ts guid =
              .ok { rel with header := h', endOne := one, endTwo := two }))) := by
  intro s
  have hnamed := TypeSystem.named_ofList hts
  have hreached : s.Reached := ⟨capacity, before, rfl⟩
  have hdocs : ∀ id d, s.latest.document? id = some d → d.Settled ts :=
    Store.settled_of_run hnamed hundotted capacity hbefore
  refine ⟨fun id d hd => (hdocs id d hd).header,
    fun guid e he => (Store.settled_entity hdocs hnamed hundotted he).1,
    fun guid rel hrel => Store.settled_relationship hdocs hrel, ?_⟩
  intro guid user user' collection collection' now now' delete restore between deleting deleted
    restored undone hdeleted hrestored
  constructor
  · intro hdelete hrestore hspares
    obtain ⟨e, he, hundone⟩ := hreached.restores_entity hnamed hundotted hdocs hdelete hrestore
      hdeleted hspares hrestored
    refine ⟨e, he, fun hroom => ?_⟩
    obtain ⟨e₁, hm, h', he₁, hfirst, hlast, hread⟩ := hundone hroom
    have hversion := hfirst.toNat_version_twice hlast hroom
    refine ⟨e₁, h', ⟨hversion, hm, hfirst, hlast⟩, he₁, hread, fun hback => (hread _).2 ?_⟩
    have hfits := (Store.settled_entity hdocs hnamed hundotted he).2.2
    exact hback.restored hfits (by omega) he₁
  · intro hdelete hrestore hspares
    obtain ⟨rel, hrel, hundone⟩ := hreached.restores_relationship hnamed hundotted hdocs hdelete
      hrestore hdeleted hspares hrestored
    refine ⟨rel, hrel, fun hroom => ?_⟩
    obtain ⟨rel₁, hm, h', one, two, hone, htwo, hrel₁, hfirst, hlast, hread⟩ := hundone hroom
    have hversion := hfirst.toNat_version_twice hlast hroom
    refine ⟨rel₁, h', one, two, ⟨hversion, hm, hfirst, hlast⟩, hone, htwo, hrel₁, hread,
      fun hback => (hread _).2 ?_⟩
    let rel₀ : Relationship := { rel with endOne := one, endTwo := two }
    have hback₀ : rel₀.properties.ReadBack := hback
    have hfits₀ : rel₀.header.version.toNat < 2 ^ 63 := Nat.lt_of_lt_of_le hroom (Nat.sub_le _ _)
    exact Relationship.restored hback₀ hfits₀ (by omega) hrel₁

/-- A draft is deleted and restored, and in between it cannot be deleted once more: it is a draft
again, of the third version. -/
theorem deleted_draft_is_restored :
    let thing : TypeDef := ⟨"t1", "Thing", .entity, none, [], []⟩
    let ts := (TypeSystem.ofList [thing]).toOption.getD .empty
    let op (user : String) (r : Request) := Invocation.toOp ⟨user, ⟨"home", none⟩, r⟩
    let submit (op : TxOp) := StoreEvent.submit (Catalog.functions ts) ⟨0, 0⟩ [op]
    let s := (Store.empty 1).run [submit (op "ann" (.createEntity "e1" "Thing" ∅ [] (some .draft)))]
    let delete := submit (op "bob" (.changeEntity "e1" .delete))
    let restore := submit (op "cid" (.changeEntity "e1" .restore))
    ∃ e, (((s.step delete).run [delete]).step restore).latest.entity "e1" = .ok e ∧
      e.header.status = .draft ∧ e.header.version.toNat = 3 ∧ e.header.updatedBy = some "cid" := by
  intro thing ts op submit s delete restore
  have hts : TypeSystem.ofList [thing] = .ok ts := eq_ok_of_isSome (by decide +kernel) _
  have hundotted : ts.Undotted := TypeSystem.undotted_of_values (by decide +kernel)
  let create := op "ann" (.createEntity "e1" "Thing" ∅ [] (some .draft))
  have hhome : ∀ ev ∈ [submit create], ev.OfHome ts := by
    intro ev hev
    rw [List.mem_singleton.1 hev]
    refine ⟨rfl, fun op hop => ?_⟩
    rw [List.mem_singleton.1 hop]
    exact (by decide : "create-entity" ∉ Request.copyFunctions)
  obtain ⟨-, -, -, hundone⟩ :=
    restoring_undoes_deletion hts hundotted 1 [submit create] hhome
  let delete' : Invocation := ⟨"bob", ⟨"home", none⟩, .changeEntity "e1" .delete⟩
  let restore' : Invocation := ⟨"cid", ⟨"home", none⟩, .changeEntity "e1" .restore⟩
  have hdelete : delete'.toOp.Calls delete' := ⟨delete'.toJson, rfl, rfl⟩
  have hrestore : restore'.toOp.Calls restore' := ⟨restore'.toJson, rfl, rfl⟩
  have hdeleted : s.accepts (Catalog.functions ts) ⟨0, 0⟩ [delete'.toOp] = true := by
    decide +kernel
  have hrejected :
      (s.step delete).accepts (Catalog.functions ts) ⟨0, 0⟩ [delete'.toOp] = false := by
    decide +kernel
  have hrestored : ((s.step delete).run [delete]).accepts (Catalog.functions ts) ⟨0, 0⟩
      [restore'.toOp] = true := by
    decide +kernel
  have hspares : (s.step delete).Spares ts (.entity "e1") [delete] := by
    refine ⟨⟨rfl, delete'.toOp, delete', rfl, hdelete, fun haccepted => ?_⟩, trivial⟩
    rw [hrejected] at haccepted
    cases haccepted
  obtain ⟨e, he, hexact⟩ := (hundone "e1" "bob" "cid" ⟨"home", none⟩ ⟨"home", none⟩ ⟨0, 0⟩ ⟨0, 0⟩
    delete'.toOp restore'.toOp [delete] hdeleted hrestored).1 hdelete hrestore hspares
  have hbefore : ((s.latest.entity "e1").toOption.map fun e =>
      (e.header.version, e.header.status, e.classifications.isEmpty, e.properties.isEmpty)) =
        some (1, .draft, true, true) := by
    decide +kernel
  have he' : s.latest.entity "e1" = .ok e := he
  rw [he'] at hbefore
  obtain ⟨hversion, hstatus, hcs, hps⟩ : e.header.version = 1 ∧ e.header.status = .draft ∧
      e.classifications = [] ∧ e.properties.isEmpty = true := by
    simpa [Except.toOption, List.isEmpty_iff] using hbefore
  have hback : e.ReadBack := ⟨Properties.readBack_of_isEmpty hps, by simp [hcs]⟩
  obtain ⟨-, h', ⟨hnext, hm, hfirst, hlast⟩, -, -, hread⟩ := hexact (by rw [hversion]; decide)
  refine ⟨_, hread hback, ?_, ?_, hlast.updatedBy⟩
  · exact (hlast.status.trans hfirst.status).trans hstatus
  · rw [hnext, hversion]
    rfl

end MetadataArchive
