import MetadataArchive.Proofs.Lifecycle.GivingWay

/-!
# Entities that stay

Only three requests can put another entity in the place of one that is stored in full, or take it
away. As long as none of them does, the entity is stored in full for good, and its header says how
often it was edited: every edit makes for the next version, whoever it belongs to, and nothing else
moves the version (`Request.storedUnder_carryOut`). A copy of one of its classifications is not an
edit.
-/

set_option autoImplicit false

namespace MetadataArchive

theorem Header.Follows.collectionId {h h' : Header} {user : String} {now : Instant}
    (hf : h.Follows h' user now) : h'.collectionId = h.collectionId :=
  (congrArg Header.collectionId hf.rest :)

/-- The requests that put another entity in the place of one, or take it away. -/
def Request.replacesEntity : Request → Bool
  | .purgeEntity _ _ | .storeEntityCopy _ | .purgeEntityCopy _ _ => true
  | _ => false

/-- Of an entity that is not replaced only classifications give way to a copy. -/
theorem Entity.GivesWay.classifications {ts : TypeSystem} {collection : String} {e : Entity}
    {req : Request} {doc : Option Document} (h : e.GivesWay ts collection req doc)
    (hstays : req.replacesEntity = false) :
    ∃ cs d, Entity.toDocument ts { e with classifications := cs } = .ok d ∧ doc = some d := by
  cases h with
  | replaced | evicted | reduced => cases hstays
  | classified _ _ _ _ _ toDocument | declassified _ _ toDocument => exact ⟨_, _, toDocument, rfl⟩

/-- The requests that edit one entity. -/
def Request.Edits (req : Request) (guid : String) : Prop :=
  req.editsEntity = true ∧ req.target = .entity guid

instance (req : Request) (guid : String) : Decidable (req.Edits guid) :=
  inferInstanceAs (Decidable (_ ∧ _))

/-- An entity is stored in full, under a header. -/
def StoredUnder (docs : DocId → Option Document) (guid : String) (h : Header) : Prop :=
  ∃ d, docs (RecordRef.entity guid).docId = some d ∧ d.IsEntity ∧ d.isProxy = false ∧
    Header.ofDocument d "" = .ok h

section StoredUnder

variable {docs : DocId → Option Document} {guid : String} {h : Header} {ts : TypeSystem}

theorem StoredUnder.version_lt (hstored : StoredUnder docs guid h) : h.version.toNat < 2 ^ 63 := by
  obtain ⟨d, -, -, -, hheader⟩ := hstored
  exact Header.toNat_version_lt hheader

theorem Entity.storedUnder {e : Entity} {d : Document} (hd : e.toDocument ts = .ok d)
    (hdocs : docs e.reference.docId = some d) : StoredUnder docs e.guid e.header.stored :=
  ⟨d, hdocs, Entity.isEntity_toDocument hd, (Entity.storedVersion_toDocument hd).1,
    Header.ofDocument_of_laidOut (Entity.lays hd).laidOut⟩

theorem Entity.storedUnder_put {e : Entity} {d : Document} (hd : e.toDocument ts = .ok d) :
    StoredUnder (writeAll docs [.put d]) e.guid e.header.stored :=
  Entity.storedUnder hd (writeAll_put (Entity.lays hd).id)

/-- Whatever is read of the record is the entity, under that header. -/
theorem Acting.full_of_storedUnder {a : Acting} {stored : Option StoredEntity}
    (hsource : a.context.source.Coherent)
    (hstored : StoredUnder a.context.source.document? guid h)
    (hread : a.stored? (.entity guid) = .ok stored) :
    ∃ e, stored = some (.full e) ∧ e.guid = guid ∧ e.header = h := by
  obtain ⟨d, hd, -, hproxy, hheader⟩ := hstored
  obtain ⟨e, rfl, hguid, hof⟩ := Acting.full_of_stored? hsource hd hproxy hread
  have hsame : e.header = h :=
    Except.ok.inj ((Entity.reads_of_ofDocument hof).2.1.symm.trans hheader)
  exact ⟨e, rfl, hguid, hsame⟩

end StoredUnder

section CarryOut

variable {ts : TypeSystem} {i : Invocation} {ctx : TxContext} {ws : List Write} {guid : String}
variable {h : Header}

/-- **An entity that stays** keeps its header, or is edited and has the one that follows, but for
what the edit sets. -/
theorem Request.storedUnder_carryOut (hsource : ctx.source.Coherent)
    (hcarry : i.request.carryOut ⟨ts, i.user, i.collection, ctx⟩ = .ok ws)
    (hstored : StoredUnder ctx.source.document? guid h)
    (hstays : i.request.target = .entity guid → i.request.replacesEntity = false) :
    ∃ h', StoredUnder (writeAll ctx.source.document? ws) guid h' ∧
      h'.collectionId = h.collectionId ∧
      h'.version = if i.request.Edits guid then keptVersion (h.version + 1) else h.version := by
  let a : Acting := ⟨ts, i.user, i.collection, ctx⟩
  have hfull {stored : Option StoredEntity} (hread : a.stored? (.entity guid) = .ok stored) :
      ∃ e, stored = some (.full e) ∧ e.guid = guid ∧ e.header = h :=
    Acting.full_of_storedUnder hsource hstored hread
  have hkept : h.stored = h := Header.stored_eq_self_iff.2 hstored.version_lt
  obtain ⟨d, hd, hentity, hproxy, hheader⟩ := id hstored
  have hsame (hdoc : writeAll ctx.source.document? ws (RecordRef.entity guid).docId = some d) :
      StoredUnder (writeAll ctx.source.document? ws) guid h :=
    ⟨d, hdoc, hentity, hproxy, hheader⟩
  by_cases htarget : i.request.target = .entity guid
  · by_cases hedits : i.request.editsEntity = true
    · obtain ⟨e, e', d', hread, hedited, hd', rfl⟩ := Request.edits_entity hedits hcarry
      rw [htarget] at hread
      obtain ⟨_, heq, rfl, rfl⟩ := hfull hread
      cases heq
      refine ⟨e'.header.stored, hedited.guid ▸ Entity.storedUnder_put hd', ?_, ?_⟩
      · exact hedited.header.collectionId
      · rw [if_pos ⟨hedits, htarget⟩]
        exact congrArg keptVersion hedited.header.version
    · -- Without an edit only a purge or a request about a copy writes an entity in full.
      have hnot : ¬ i.request.Edits guid := fun h => hedits h.1
      rw [if_neg hnot]
      by_cases hcopy : i.request.aboutCopy = true
      · rcases Request.entity_gives_way (a := a) hcopy hsource hcarry hd hentity hproxy with
          hdoc | ⟨e, hread, hgives⟩
        · exact ⟨h, hsame hdoc, rfl, rfl⟩
        · obtain ⟨_, heq, rfl, rfl⟩ := hfull hread
          cases heq
          obtain ⟨cs, d', hd', hdoc⟩ := hgives.classifications (hstays htarget)
          refine ⟨e.header, ?_, rfl, rfl⟩
          rw [← hkept]
          exact Entity.storedUnder (e := { e with classifications := cs }) hd' hdoc
      · have hpurge (force : Bool) : i.request ≠ .purgeEntity guid force := fun heq => by
          cases (congrArg Request.replacesEntity heq).symm.trans (hstays htarget)
        have hleaves := Request.leaves_full (a := a) hsource hcarry (by simpa using hcopy)
          (by simpa using hedits) hpurge hd hentity hproxy
        exact ⟨h, hsame (hleaves.trans hd), rfl, rfl⟩
  · have hnot : ¬ i.request.Edits guid := fun h => htarget h.2
    rw [if_neg hnot]
    exact ⟨h, hsame ((Request.leaves_carryOut (a := a) hsource hcarry htarget hd hentity).trans hd),
      rfl, rfl⟩

end CarryOut

end MetadataArchive
