import MetadataArchive.Proofs.Archive.Readback
import MetadataArchive.Proofs.Lifecycle.Edit
import MetadataArchive.Proofs.Store.Outcome

/-!
# Edits are exact

A transaction of one call either commits what the request writes on the latest state, or leaves all
documents alone; which of the two is for the request alone to decide (`Store.Reached.calls`). An
edit writes one document, which holds the edited record. What is then read of it is the edited
record with its values read again, so it is the edited record itself exactly where the values read
back (`edits_are_exact`).
-/

set_option autoImplicit false

namespace MetadataArchive

variable {ts : TypeSystem} {s : Store} {i : Invocation} {op : TxOp} {now : Instant}

/-! ## Stores that came to be -/

/-- A store that some run has led to. -/
def Store.Reached (s : Store) : Prop :=
  ∃ (capacity : Nat) (events : List (StoreEvent Failure)), s = (Store.empty capacity).run events

namespace Store.Reached

theorem tracks (h : s.Reached) : ∃ l, Tracks s l ∧ l.Keyed := by
  obtain ⟨capacity, events, rfl⟩ := h
  exact ⟨_, (Tracks.empty capacity).run events, Ledger.keyed_empty.run events⟩

theorem coherent (h : s.Reached) : s.latest.Coherent := by
  obtain ⟨l, htracks, hkeyed⟩ := h.tracks
  rw [htracks.latest_eq]
  exact Ledger.coherent_latest hkeyed

theorem keepsOutcomes (h : s.Reached) : s.KeepsOutcomes := by
  obtain ⟨capacity, events, rfl⟩ := h
  exact (Store.KeepsOutcomes.empty capacity).run events

theorem run (h : s.Reached) (events : List (StoreEvent Failure)) : (s.run events).Reached := by
  obtain ⟨capacity, before, rfl⟩ := h
  exact ⟨capacity, before ++ events, List.foldl_append.symm⟩

theorem step (h : s.Reached) (ev : StoreEvent Failure) : (s.step ev).Reached := h.run [ev]

end Store.Reached

/-! ## One call -/

/-- An operation that calls the function of an invocation's request, with arguments that the
invocation is read from. -/
def TxOp.Calls (op : TxOp) (i : Invocation) : Prop :=
  ∃ args, op = .call i.request.function args ∧ Invocation.ofJson? args = some i

/-- The copy of an entity that a request stores. -/
def Request.entityCopy? : Request → Option Entity
  | .storeEntityCopy x => some x
  | _ => none

/-- An invocation with a copy of an entity is called as it arrives. -/
theorem Invocation.calls_entityCopy {β : Type} {i : Invocation} {x₀ : Entity}
    (hi : i.request = .storeEntityCopy x₀) (f : Invocation → Entity → β) {b : β}
    (h : (Invocation.ofJson? i.toJson).bind (fun j => j.request.entityCopy?.map (f j)) = some b) :
    ∃ j x, i.toOp.Calls j ∧ j.request = .storeEntityCopy x ∧ f j x = b := by
  obtain ⟨j, hj, h⟩ := Option.bind_eq_some_iff.1 h
  obtain ⟨x, hx, hb⟩ := Option.map_eq_some_iff.1 h
  have hrequest : j.request = .storeEntityCopy x := by
    cases hr : j.request <;> rw [hr] at hx <;> cases hx
    rfl
  have hsame : i.request.function = j.request.function := by
    rw [hi, hrequest]
    rfl
  exact ⟨j, x, ⟨i.toJson, congrArg (TxOp.call · i.toJson) hsame, hj⟩, hrequest, hb⟩

/-- Who acts in the next transaction, for an invocation. -/
def Store.acting (s : Store) (ts : TypeSystem) (now : Instant) (i : Invocation) : Acting :=
  ⟨ts, i.user, i.collection, ⟨⟨s.lastTx + 1⟩, s.nextTime now, s.latest⟩⟩

theorem Catalog.runOps_calls (h : op.Calls i) (ts : TypeSystem) (tx : TxId) (time : Instant)
    (base : Source) :
    runOps (Catalog.functions ts) tx time base ∅ [op] =
      match i.request.carryOut ⟨ts, i.user, i.collection, ⟨tx, time, base⟩⟩ with
      | .ok ws => (.ok (ws.foldl Staged.apply ∅), [])
      | .error failure => (.ok ∅, [failure]) := by
  obtain ⟨args, rfl, hargs⟩ := h
  simp only [runOps, Catalog.find?_function, Staged.laidOver_empty, Catalog.function, hargs,
    if_true, Catalog.reply]
  cases i.request.carryOut ⟨ts, i.user, i.collection, ⟨tx, time, base⟩⟩ <;> simp

/-- **A call is accepted where its request is carried out**, and its writes are then made on the
latest state; else the documents stay as they are. -/
theorem Store.Reached.calls (h : s.Reached) (hop : op.Calls i) (ts : TypeSystem) (now : Instant) :
    let s' := s.step (.submit (Catalog.functions ts) now [op])
    (∃ ws, i.request.carryOut (s.acting ts now i) = .ok ws ∧
        s.accepts (Catalog.functions ts) now [op] = true ∧
        s'.latest.document? = writeAll s.latest.document? ws ∧
        (s.outcome (Catalog.functions ts) now [op]).result =
          .committed (ws.foldl Staged.apply ∅).size) ∨
      (∃ failure, i.request.carryOut (s.acting ts now i) = .error failure) ∧
        s.accepts (Catalog.functions ts) now [op] = false ∧
        s'.latest.document? = s.latest.document? := by
  intro s'
  obtain ⟨l, htracks, -⟩ := h.tracks
  have hrun := Catalog.runOps_calls hop ts ⟨s.lastTx + 1⟩ (s.nextTime now) s.latest
  have haccepts : s.accepts (Catalog.functions ts) now [op] = true ↔ _ :=
    Store.accepts_iff h.keepsOutcomes
  have hlatest : s'.latest.document? = _ := htracks.latest_submit (Catalog.functions ts) now [op]
  unfold Store.acting
  cases hcarry : i.request.carryOut ⟨ts, i.user, i.collection,
    ⟨⟨s.lastTx + 1⟩, s.nextTime now, s.latest⟩⟩ with
  | ok ws =>
    rw [hcarry] at hrun
    rw [hrun] at haccepts hlatest
    refine Or.inl ⟨ws, rfl, haccepts.2 ⟨_, rfl⟩, ?_, ?_⟩
    · rw [hlatest]
      exact Staged.laidOver_applyAll ∅ ws s.latest
    · rw [Store.outcome, hrun]
      rfl
  | error failure =>
    rw [hcarry] at hrun
    rw [hrun] at haccepts hlatest
    refine Or.inr ⟨⟨failure, rfl⟩, ?_, ?_⟩
    · rw [Bool.eq_false_iff, ne_eq, haccepts]
      simp
    · exact hlatest.trans (congrArg Source.document? (Staged.laidOver_empty s.latest))

/-! ## Reading what was written -/

theorem Source.relationship_ok {src : Source} {guid : String} {rel : Relationship}
    (h : src.relationship ts guid = .ok rel) :
    ∃ d one two, src.document? (RecordRef.relationship guid).docId = some d ∧
      Relationship.ends d = .ok (one, two) ∧
      Relationship.ofDocument ts d (src.document? one) (src.document? two) = .ok rel := by
  simp only [Source.relationship, Source.relationship?, bind_eq_ok, liftM_rejection_eq_ok] at h
  obtain ⟨stored, hstored, hknown⟩ := h
  split at hstored
  · cases hstored
    cases hknown
  next d hd =>
    simp only [bind_eq_ok, pure_eq_ok, liftM_record_eq_ok] at hstored
    obtain ⟨⟨one, two⟩, hends, rel', hread, rfl⟩ := hstored
    cases hknown
    exact ⟨d, one, two, hd, hends, hread⟩

/-- What is read of an entity whose document was written. -/
theorem Source.entity_rereads_iff {src : Source} {e e' : Entity} {d : Document}
    (hnamed : ts.Named) (hundotted : ts.Undotted) (hguid : e.guid ≠ "") (he : e.WellNamed)
    (hd : e.toDocument ts = .ok d) (hsrc : src.document? (RecordRef.entity e.guid).docId = some d) :
    src.entity e.guid = .ok e' ↔ e.Rereads e' := by
  rw [Source.entity_eq_ok hsrc,
    Entity.ofDocument_rereads_iff hguid he.toApart (he.plain hnamed hundotted) hd]
  simp

/-- What is read of a relationship that takes the place of one with the same ends. -/
theorem Source.relationship_rereads_iff {src src' : Source} {rel rel' rel'' : Relationship}
    {d : Document} (hsource : src.Coherent) (hnamed : ts.Named) (hundotted : ts.Undotted)
    (hrel : src.relationship ts rel.guid = .ok rel) (hguid : rel'.guid = rel.guid)
    (hone : rel'.endOne = rel.endOne) (htwo : rel'.endTwo = rel.endTwo)
    (hd : rel'.toDocument ts = .ok d) (hsrc : src'.document? = (Write.put d).on src.document?) :
    src'.relationship ts rel.guid = .ok rel'' ↔ rel'.Rereads rel'' := by
  obtain ⟨d₀, one, two, hd₀, hends, hread⟩ := Source.relationship_ok hrel
  obtain ⟨hne, hreadOne, hreadTwo⟩ := Relationship.reads_of_ofDocument hread
  obtain ⟨-, -, ⟨d₁, hd₁, hid₁⟩, d₂, hd₂, hid₂⟩ := Relationship.ofDocument_ok hread
  rw [hsource.keyed one d₁ hd₁] at hid₁
  rw [hsource.keyed two d₂ hd₂] at hid₂
  have hkey : d.id = (RecordRef.relationship rel.guid).docId := by
    rw [(Relationship.lays hd).id, Relationship.reference, hguid]
  have hput : src'.document? (RecordRef.relationship rel.guid).docId = some d := by
    rw [hsrc, ← hkey]
    exact Write.on_self
  -- The ends are entities, and those are stored as they were.
  have hkept (guid : String) : src'.document? (RecordRef.entity guid).docId =
      src.document? (RecordRef.entity guid).docId := by
    rw [hsrc]
    exact Write.on_of_ne fun heq =>
      RecordRef.relationship_ne_entity rel.guid guid (heq.trans hkey).symm
  have hlinks := Relationship.links_toDocument hd
  have hplain := Relationship.plain_of_toDocument hnamed hundotted hd
  rw [Source.relationship_eq_ok hput (Relationship.ends_iff.2 ⟨hlinks.one, hlinks.two⟩), hkept,
    hkept]
  refine Relationship.ofDocument_rereads_iff (hguid ▸ hne) hplain hd ?_ ?_
  · rw [hone, ← hreadOne, ← hid₁]
    rfl
  · rw [htwo, ← hreadTwo, ← hid₂]
    rfl

/-! ## One edit -/

/-- An entity that the acting user reads is that of the latest state. -/
theorem Store.Reached.entity_of_stored? (h : s.Reached) {r : RecordRef} {e : Entity}
    (he : (s.acting ts now i).stored? r = .ok (some (.full e))) :
    r = .entity e.guid ∧ e.guid ≠ "" ∧ s.latest.entity e.guid = .ok e := by
  obtain ⟨d, hd, hread⟩ := Acting.stored?_some he
  have hr : r = .entity e.guid := (Acting.stored?_reference h.coherent he).symm
  subst hr
  exact ⟨rfl, (Entity.reads_of_ofDocument hread).1, (Source.entity_eq_ok hd).2 hread⟩

theorem Store.Reached.relationship_of_relationship? (h : s.Reached) {r : RecordRef}
    {rel : Relationship} (hrel : (s.acting ts now i).relationship? r = .ok (some rel)) :
    r = .relationship rel.guid ∧ s.latest.relationship ts rel.guid = .ok rel := by
  obtain ⟨d, one, two, hd, hends, hread⟩ := Acting.relationship?_some hrel
  have hr : r = .relationship rel.guid := by
    refine (RecordRef.docId_injective ?_).symm
    exact (Relationship.ofDocument_ok hread).1.trans (h.coherent.keyed _ d hd)
  subst hr
  exact ⟨rfl, (Source.relationship_eq_ok hd hends).2 hread⟩

/-- **An accepted edit of an entity** puts the document of the edited entity, and nothing else. -/
theorem Store.Reached.edits_entity (h : s.Reached) (hop : op.Calls i)
    (hedits : i.request.editsEntity = true)
    (haccepted : s.accepts (Catalog.functions ts) now [op] = true) :
    ∃ (e e' : Entity) (d : Document), i.request.target = e.reference ∧ e.guid ≠ "" ∧
      s.latest.entity e.guid = .ok e ∧ e.Edited ts (s.nextTime now) i e' ∧
      e'.toDocument ts = .ok d ∧
      (s.step (.submit (Catalog.functions ts) now [op])).latest.document? =
        (Write.put d).on s.latest.document? ∧
      (s.outcome (Catalog.functions ts) now [op]).result = .committed 1 := by
  rcases h.calls hop ts now with ⟨ws, hcarry, -, hlatest, hresult⟩ | ⟨-, hrejected, -⟩
  · obtain ⟨e, e', d, hstored, hedited, hd, rfl⟩ := Request.edits_entity hedits hcarry
    obtain ⟨htarget, hguid, hread⟩ := h.entity_of_stored? hstored
    exact ⟨e, e', d, htarget, hguid, hread, hedited, hd, hlatest, hresult⟩
  · rw [haccepted] at hrejected
    cases hrejected

/-- **An accepted edit of a relationship** puts the document of the edited relationship, and nothing
else. -/
theorem Store.Reached.edits_relationship (h : s.Reached) (hop : op.Calls i)
    (hedits : i.request.editsRelationship = true)
    (haccepted : s.accepts (Catalog.functions ts) now [op] = true) :
    ∃ (rel rel' : Relationship) (d : Document), i.request.target = rel.reference ∧
      s.latest.relationship ts rel.guid = .ok rel ∧ rel.Edited (s.nextTime now) i rel' ∧
      rel'.toDocument ts = .ok d ∧
      (s.step (.submit (Catalog.functions ts) now [op])).latest.document? =
        (Write.put d).on s.latest.document? ∧
      (s.outcome (Catalog.functions ts) now [op]).result = .committed 1 := by
  rcases h.calls hop ts now with ⟨ws, hcarry, -, hlatest, hresult⟩ | ⟨-, hrejected, -⟩
  · obtain ⟨rel, rel', d, hstored, hedited, hd, rfl⟩ := Request.edits_relationship hedits hcarry
    obtain ⟨htarget, hread⟩ := h.relationship_of_relationship? hstored
    exact ⟨rel, rel', d, htarget, hread, hedited, hd, hlatest, hresult⟩
  · rw [haccepted] at hrejected
    cases hrejected

/-- What is read of an entity after an edit. -/
theorem Entity.Edited.rereads_iff {src src' : Source} {e e' e'' : Entity} {d : Document}
    {time : Instant} (hnamed : ts.Named) (hundotted : ts.Undotted) (h : e.Edited ts time i e')
    (hguid : e.guid ≠ "") (he : e.WellNamed) (hd : e'.toDocument ts = .ok d)
    (hput : src'.document? = (Write.put d).on src.document?) :
    src'.entity e.guid = .ok e'' ↔ e'.Rereads e'' := by
  have hstored : src'.document? (RecordRef.entity e'.guid).docId = some d := by
    rw [hput, ← Entity.reference, ← (Entity.lays hd).id]
    exact Write.on_self
  have hread : src'.entity e'.guid = .ok e'' ↔ e'.Rereads e'' :=
    Source.entity_rereads_iff hnamed hundotted (h.guid ▸ hguid)
      (h.wellNamed hnamed hundotted he) hd hstored
  rwa [h.guid] at hread

/-- What is read of a relationship after an edit. -/
theorem Relationship.Edited.rereads_iff {src src' : Source} {rel rel' rel'' : Relationship}
    {d : Document} {time : Instant} (hsource : src.Coherent) (hnamed : ts.Named)
    (hundotted : ts.Undotted) (h : rel.Edited time i rel')
    (hrel : src.relationship ts rel.guid = .ok rel) (hd : rel'.toDocument ts = .ok d)
    (hput : src'.document? = (Write.put d).on src.document?) :
    src'.relationship ts rel.guid = .ok rel'' ↔ rel'.Rereads rel'' := by
  cases h with
  | changed =>
    exact Source.relationship_rereads_iff hsource hnamed hundotted hrel rfl rfl rfl hd hput

/-- **An edit changes exactly what it names.** In a type system that was accepted and has no full
stop in a name, let any store that was reached run a transaction of one call. Where that is not
accepted, all documents stay as they are. Where it is, and its request edits an entity or a
relationship (its properties, its status, its deletion or one of its classifications), then one
document is written, which is that of the target; and what is read of the target afterwards is the
record that was read before, edited by the request at the time of the transaction, exactly where the
values of the edited record read back. This holds as long as the versions have room to grow and the
names that the entity is stored under are distinct and have no full stops. -/
theorem edits_are_exact {defs : List TypeDef} {ts : TypeSystem}
    (hts : TypeSystem.ofList defs = .ok ts) (hundotted : ts.Undotted) (capacity : Nat)
    (before : List (StoreEvent Failure)) (now : Instant) (op : TxOp) (i : Invocation)
    (hop : op.Calls i) :
    let s := (Store.empty capacity).run before
    let accepted := s.accepts (Catalog.functions ts) now [op]
    let result := (s.outcome (Catalog.functions ts) now [op]).result
    let s' := s.step (.submit (Catalog.functions ts) now [op])
    let puts (r : RecordRef) (d : Document) :=
      d.id = r.docId ∧ s'.latest.document? r.docId = some d ∧
        ∀ id, id ≠ r.docId → s'.latest.document? id = s.latest.document? id
    (accepted = false → s'.latest.document? = s.latest.document?) ∧
    (accepted = true → i.request.editsEntity = true →
      result = .committed 1 ∧ (∃ d, puts i.request.target d) ∧
      ∃ e e' : Entity, i.request.target = e.reference ∧ s.latest.entity e.guid = .ok e ∧
        e.Edited ts (s.nextTime now) i e' ∧
        (e.WellNamed → e.HasRoom → e'.header.version.toNat = e.header.version.toNat + 1 ∧
          (s'.latest.entity e.guid = .ok e' ↔ e'.ReadBack))) ∧
    (accepted = true → i.request.editsRelationship = true →
      result = .committed 1 ∧ (∃ d, puts i.request.target d) ∧
      ∃ rel rel' : Relationship, i.request.target = rel.reference ∧
        s.latest.relationship ts rel.guid = .ok rel ∧ rel.Edited (s.nextTime now) i rel' ∧
        (rel.header.version.toNat < 2 ^ 63 - 1 →
          rel'.header.version.toNat = rel.header.version.toNat + 1 ∧
          (s'.latest.relationship ts rel.guid = .ok rel' ↔ rel'.properties.ReadBack))) := by
  intro s accepted result s' puts
  have hnamed := TypeSystem.named_ofList hts
  have hreached : s.Reached := ⟨capacity, before, rfl⟩
  have hputs {r : RecordRef} {d : Document} (hid : d.id = r.docId)
      (hlatest : s'.latest.document? = (Write.put d).on s.latest.document?) : puts r d := by
    refine ⟨hid, ?_, fun id hne => ?_⟩
    · rw [hlatest, ← hid]
      exact Write.on_self
    · rw [hlatest]
      exact Write.on_of_ne fun heq => hne (heq.trans hid)
  refine ⟨fun hrejected => ?_, fun haccepted hedits => ?_, fun haccepted hedits => ?_⟩
  · rcases hreached.calls hop ts now with ⟨_, -, haccepted, -, -⟩ | ⟨-, -, hlatest⟩
    · exact absurd (hrejected.symm.trans haccepted) (by decide)
    · exact hlatest
  · obtain ⟨e, e', d, htarget, hguid, hread, hedited, hd, hlatest, hresult⟩ :=
      hreached.edits_entity hop hedits haccepted
    have hid : d.id = i.request.target.docId := by
      rw [(Entity.lays hd).id, htarget, Entity.reference, hedited.guid, Entity.reference]
    refine ⟨hresult, ⟨d, hputs hid hlatest⟩, e, e', htarget, hread, hedited, fun he hroom => ?_⟩
    have hversion := hedited.header.toNat_version hroom.header
    refine ⟨hversion, ?_⟩
    rw [hedited.rereads_iff hnamed hundotted hguid he hd hlatest, Entity.rereads_self_iff,
      and_iff_right (hedited.fits hroom)]
  · obtain ⟨rel, rel', d, htarget, hread, hedited, hd, hlatest, hresult⟩ :=
      hreached.edits_relationship hop hedits haccepted
    have hid : d.id = i.request.target.docId := by
      rw [(Relationship.lays hd).id, htarget, Relationship.reference, hedited.guid,
        Relationship.reference]
    refine ⟨hresult, ⟨d, hputs hid hlatest⟩, rel, rel', htarget, hread, hedited, fun hroom => ?_⟩
    have hversion : rel'.header.version.toNat = rel.header.version.toNat + 1 := by
      cases hedited with
      | changed makes => exact makes.follows.toNat_version hroom
    have hfits : rel'.header.version.toNat < 2 ^ 63 := by omega
    refine ⟨hversion, ?_⟩
    rw [hedited.rereads_iff hreached.coherent hnamed hundotted hread hd hlatest,
      Relationship.rereads_self_iff, and_iff_right hfits]

/-- Another user gives an entity a status: the entity that is read has this status, its second
version, and both users among those who maintain it. -/
theorem status_change_is_exact :
    let thing : TypeDef := ⟨"t1", "Thing", .entity, none, [], []⟩
    let ts := (TypeSystem.ofList [thing]).toOption.getD .empty
    let create := Invocation.toOp ⟨"ann", ⟨"home", none⟩, .createEntity "e1" "Thing" ∅ [] none⟩
    let change : Invocation := ⟨"bob", ⟨"home", none⟩, .changeEntity "e1" (.status (some .draft))⟩
    let s := (Store.empty 1).run [StoreEvent.submit (Catalog.functions ts) ⟨0, 0⟩ [create]]
    let s' := s.step (.submit (Catalog.functions ts) ⟨1, 0⟩ [change.toOp])
    s.accepts (Catalog.functions ts) ⟨1, 0⟩ [change.toOp] = true ∧
      ∃ e, s'.latest.entity "e1" = .ok e ∧ e.header.version.toNat = 2 ∧ e.header.status = .draft ∧
        e.header.maintainedBy = ["ann", "bob"] := by
  intro thing ts create change s s'
  have hts : TypeSystem.ofList [thing] = .ok ts := eq_ok_of_isSome (by decide +kernel) _
  have hundotted : ts.Undotted := TypeSystem.undotted_of_values (by decide +kernel)
  have hcalls : change.toOp.Calls change := ⟨change.toJson, rfl, rfl⟩
  have haccepted : s.accepts (Catalog.functions ts) ⟨1, 0⟩ [change.toOp] = true := by
    decide +kernel
  obtain ⟨-, hentity, -⟩ := edits_are_exact hts hundotted 1
    [StoreEvent.submit (Catalog.functions ts) ⟨0, 0⟩ [create]] ⟨1, 0⟩ change.toOp change hcalls
  obtain ⟨-, -, e, e', htarget, hread, hedited, hexact⟩ := hentity haccepted rfl
  have hguid : e.guid = "e1" := (congrArg RecordRef.guid htarget).symm
  rw [hguid] at hread hexact
  have hbefore : ((s.latest.entity "e1").toOption.map fun e =>
      (e.header.version, e.header.maintainedBy, e.header.typeRef.name, e.classifications.isEmpty,
        e.properties.isEmpty)) = some (1, ["ann"], "Thing", true, true) := by
    decide +kernel
  rw [hread] at hbefore
  obtain ⟨hversion, hmaintained, htype, hcs, hps⟩ :
      e.header.version = 1 ∧ e.header.maintainedBy = ["ann"] ∧ e.header.typeRef.name = "Thing" ∧
        e.classifications = [] ∧ e.properties.isEmpty = true := by
    simpa [Except.toOption, List.isEmpty_iff] using hbefore
  have hback : e.properties.ReadBack := Properties.readBack_of_isEmpty hps
  have he : e.WellNamed := ⟨⟨by simp [hcs], by simp [hcs]⟩, by rw [htype]; decide, by simp [hcs]⟩
  have hroom : e.HasRoom := ⟨by rw [hversion]; decide, by simp [hcs]⟩
  obtain ⟨hnext, hiff⟩ := hexact he hroom
  have hedited : e.Edited ts (s.nextTime ⟨1, 0⟩)
    ⟨"bob", ⟨"home", none⟩, .changeEntity "e1" (.status (some .draft))⟩ e' := hedited
  cases hedited with
  | changed makes =>
    obtain ⟨-, hgiven, -, -, rfl⟩ := makes.sets
    have hread' := hiff.2 ⟨hback, by simp [hcs]⟩
    refine ⟨haccepted, _, hread', hnext.trans (by rw [hversion]; rfl), ?_, ?_⟩
    · exact (Option.some.inj hgiven).symm
    · have hlisted := makes.follows.maintainedBy
      simpa [hmaintained, change] using hlisted

end MetadataArchive
