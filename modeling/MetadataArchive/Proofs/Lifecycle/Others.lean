import MetadataArchive.Proofs.Lifecycle.Edit
import MetadataArchive.Proofs.Lifecycle.Version

/-!
# What a request leaves alone

A request is about one record. It takes relationships along with their entity, and it adds proxies
where nothing is stored; but the document of an entity stays as it is under every request that is
about another record (`Request.leaves_carryOut`), and that of a relationship stays or is taken away
(`Request.relationship_carryOut`). Of the requests that are about an entity, those that make one
leave it alone where it is stored in full (`Request.leaves_full`).
-/

set_option autoImplicit false

namespace MetadataArchive

/-- The requests that store a copy, or take one away. -/
def Request.aboutCopy : Request → Bool
  | .storeEntityCopy _ | .purgeEntityCopy _ _ | .storeRelationshipCopy _
  | .purgeRelationshipCopy _ _ | .storeClassificationCopy _ _ | .purgeClassificationCopy _ _ _ =>
    true
  | _ => false

namespace Acting

variable {a : Acting} {ws : List Write} {d : Document} {r : RecordRef} {guid : String}

/-- What is read of an entity that is stored in full is the entity, under the key that it is stored
under. -/
theorem full_of_stored? {stored : Option StoredEntity} (hsource : a.context.source.Coherent)
    (hd : a.document? (.entity guid) = some d) (hproxy : d.isProxy = false)
    (h : a.stored? (.entity guid) = .ok stored) :
    ∃ e, stored = some (.full e) ∧ e.guid = guid ∧ StoredEntity.ofDocument d = .ok (.full e) := by
  cases stored with
  | none => cases (stored?_none h).symm.trans hd
  | some existing =>
    obtain ⟨d', hd', hread⟩ := stored?_some h
    cases hd.symm.trans hd'
    have hkey : existing.guid = guid := congrArg RecordRef.guid (stored?_reference hsource h)
    cases existing with
    | full e => exact ⟨e, rfl, hkey, hread⟩
    | proxy p => cases (StoredEntity.ofDocument_ok hread).2.2.trans hproxy

/-- What is stored of an entity is the same after the writes. -/
def Leaves (a : Acting) (guid : String) (ws : List Write) : Prop :=
  writeAll a.context.source.document? ws (RecordRef.entity guid).docId =
    a.document? (.entity guid)

theorem leaves_nil : a.Leaves guid [] := rfl

/-- Of an entity's document it is known that it is not among the relationships of any record. -/
theorem not_mem_touching {ids : List DocId} (hsource : a.context.source.Coherent)
    (hids : a.touching r = .ok ids) (hd : a.document? (.entity guid) = some d)
    (hentity : d.IsEntity) : (RecordRef.entity guid).docId ∉ ids := by
  intro hmem
  obtain ⟨d', hd', hid, side, v, hv, -⟩ := (mem_touching hids).1 hmem
  have hsame : d' = d := by
    rw [hsource.listed, hid] at hd'
    exact Option.some.inj (hd'.symm.trans hd)
  rw [hsame, hentity.2 side] at hv
  cases hv

theorem leaves_put (hid : d.id = r.docId) (hr : r ≠ .entity guid) : a.Leaves guid [.put d] :=
  Write.on_of_ne fun heq => hr (RecordRef.docId_injective (heq.trans hid)).symm

theorem leaves_evict {ids : List DocId} (hids : (RecordRef.entity guid).docId ∉ ids) :
    a.Leaves guid (ids.map .evict) := by
  unfold Leaves
  rw [writeAll_evict, if_neg hids]
  rfl

theorem leaves_rewrites {guid' : String} {next : UInt64 → UInt64}
    (hsource : a.context.source.Coherent) (h : a.Rewrites guid' next ws)
    (hr : RecordRef.entity guid' ≠ .entity guid) : a.Leaves guid ws := by
  obtain ⟨e, e', d, he, hguid, -, hd, rfl⟩ := h
  have hkey : RecordRef.entity e.guid = .entity guid' := stored?_reference hsource he
  refine leaves_put (Entity.lays hd).id ?_
  rw [Entity.reference, hguid, hkey]
  exact hr

/-- Only proxies of records that are not stored are written along with a relationship. -/
theorem leaves_connects {rel : Relationship} (h : a.Connects rel ws)
    (hd : a.document? (.entity guid) = some d) : a.Leaves guid ws := by
  obtain ⟨proxies, d', live, hproxies, hd', rfl⟩ := h
  obtain ⟨hnew, -, -⟩ := endProxies_ok hproxies
  have hstored : a.context.source.document? (RecordRef.entity guid).docId ≠ none := by
    rw [show a.context.source.document? _ = some d from hd]
    simp
  have hkey : (RecordRef.entity guid).docId ≠ (Write.put d').id := fun heq =>
    RecordRef.relationship_ne_entity rel.guid guid
      ((Relationship.lays hd').id.symm.trans heq.symm)
  unfold Leaves
  rw [writeAll_concat, Write.on_of_ne hkey]
  exact newProxies_document? hnew hstored

end Acting

/-- **A request leaves the entities alone that it is not about.** -/
theorem Request.leaves_carryOut {a : Acting} {req : Request} {ws : List Write} {d : Document}
    {guid : String} (hsource : a.context.source.Coherent) (h : req.carryOut a = .ok ws)
    (hother : req.target ≠ .entity guid) (hd : a.document? (.entity guid) = some d)
    (hentity : d.IsEntity) : a.Leaves guid ws := by
  have hrelationship (r : String) : (RecordRef.entity guid).docId ∉
      [(RecordRef.relationship r).docId] := fun hmem =>
    RecordRef.relationship_ne_entity r guid (List.mem_singleton.1 hmem).symm
  have hentityKey (r : String) (hr : RecordRef.entity r ≠ .entity guid) :
      (RecordRef.entity guid).docId ∉ [(RecordRef.entity r).docId] := fun hmem =>
    hr (RecordRef.docId_injective (List.mem_singleton.1 hmem)).symm
  cases req with
  | createEntity guid' typeName ps cs status =>
    obtain ⟨-, e, d', rfl, -, hd', rfl⟩ := Acting.createEntity_ok h
    exact Acting.leaves_put (Entity.lays hd').id hother
  | createStub proxy =>
    rcases Acting.createStub_ok h with rfl | ⟨-, d', hd', rfl⟩
    · exact Acting.leaves_nil
    · exact Acting.leaves_put (Proxy.lays hd').id hother
  | changeEntity guid' change =>
    exact Acting.leaves_rewrites hsource (Acting.changeEntity_ok h).rewrites hother
  | purgeEntity guid' force =>
    obtain ⟨ids, hids, rfl⟩ := Acting.purgeEntity_ok h
    have hall : (RecordRef.entity guid).docId ∉ ids ++ [(RecordRef.entity guid').docId] := by
      rw [List.mem_append, not_or]
      exact ⟨Acting.not_mem_touching hsource hids hd hentity, hentityKey guid' hother⟩
    simpa using Acting.leaves_evict hall
  | classify guid' name ps mode =>
    exact Acting.leaves_rewrites hsource (Acting.classify_ok h).rewrites hother
  | declassify guid' name =>
    exact Acting.leaves_rewrites hsource (Acting.declassify_ok h).rewrites hother
  | createRelationship guid' typeName ps status endOne endTwo =>
    obtain ⟨-, rel, -, hconnects⟩ := Acting.createRelationship_ok h
    exact Acting.leaves_connects hconnects hd
  | changeRelationship guid' change =>
    obtain ⟨rel, rel', d', -, -, -, -, -, hd', rfl⟩ := Acting.changeRelationship_ok h
    exact Acting.leaves_put (Relationship.lays hd').id fun heq => by cases heq
  | purgeRelationship guid' force =>
    rw [Acting.purgeRelationship_ok h]
    exact Acting.leaves_evict (hrelationship guid')
  | storeEntityCopy e =>
    obtain ⟨-, -, ⟨rfl, -⟩ | ⟨d', hd', rfl, -⟩⟩ := Acting.storeEntityCopy_ok h
    · exact Acting.leaves_nil
    · exact Acting.leaves_put (Entity.lays hd').id hother
  | purgeEntityCopy guid' home =>
    rcases Acting.purgeEntityCopy_ok h with rfl | ⟨-, rfl⟩ | ⟨e, d', he, hd', rfl⟩
    · exact Acting.leaves_nil
    · exact Acting.leaves_evict (hentityKey guid' hother)
    · have hkey : RecordRef.entity e.guid = .entity guid' := Acting.stored?_reference hsource he
      exact Acting.leaves_put (Proxy.lays hd').id fun heq => hother (hkey.symm.trans heq)
  | storeRelationshipCopy rel =>
    obtain ⟨-, -, ⟨rfl, -⟩ | ⟨hconnects, -⟩⟩ := Acting.storeRelationshipCopy_ok h
    · exact Acting.leaves_nil
    · exact Acting.leaves_connects hconnects hd
  | storeHomeRelationship rel =>
    exact Acting.leaves_connects (Acting.storeHomeRelationship_ok h) hd
  | purgeRelationshipCopy guid' home =>
    rcases Acting.purgeRelationshipCopy_ok h with rfl | rfl
    · exact Acting.leaves_nil
    · exact Acting.leaves_evict (hrelationship guid')
  | storeClassificationCopy guid' c =>
    rcases Acting.storeClassificationCopy_ok h with rfl | hrewrites
    · exact Acting.leaves_nil
    · exact Acting.leaves_rewrites hsource hrewrites hother
  | purgeClassificationCopy guid' name home =>
    rcases Acting.purgeClassificationCopy_ok h with rfl | hrewrites
    · exact Acting.leaves_nil
    · exact Acting.leaves_rewrites hsource hrewrites hother

/-- **An entity that is stored in full is left alone**, unless the request edits it, purges it or is
about a copy. -/
theorem Request.leaves_full {a : Acting} {req : Request} {ws : List Write} {d : Document}
    {guid : String} (hsource : a.context.source.Coherent) (h : req.carryOut a = .ok ws)
    (hcopy : req.aboutCopy = false) (hedits : req.editsEntity = false)
    (hpurge : ∀ force, req ≠ .purgeEntity guid force)
    (hd : a.document? (.entity guid) = some d) (hentity : d.IsEntity) (hproxy : d.isProxy = false) :
    a.Leaves guid ws := by
  by_cases htarget : req.target = .entity guid
  · cases req with
    | createEntity guid' typeName ps cs status =>
      obtain rfl : guid' = guid := congrArg RecordRef.guid htarget
      obtain ⟨⟨stored, hstored, hnot⟩, -⟩ := Acting.createEntity_ok h
      obtain ⟨e, rfl, -⟩ := Acting.full_of_stored? hsource hd hproxy hstored
      exact absurd rfl (hnot e)
    | createStub proxy =>
      rcases Acting.createStub_ok h with rfl | ⟨hnone, -⟩
      · exact Acting.leaves_nil
      · have hkey : proxy.reference = .entity guid := htarget
        rw [hkey] at hnone
        cases hnone.symm.trans hd
    | purgeEntity guid' force =>
      obtain rfl : guid' = guid := congrArg RecordRef.guid htarget
      exact absurd rfl (hpurge force)
    | changeEntity | classify | declassify => cases hedits
    | createRelationship | changeRelationship | purgeRelationship | storeHomeRelationship =>
      cases htarget
    | _ => cases hcopy
  · exact Request.leaves_carryOut hsource h htarget hd hentity

/-- What a request puts is the document of its own record or that of an entity. -/
theorem Request.puts_carryOut {a : Acting} {req : Request} {ws : List Write}
    (hsource : a.context.source.Coherent) (h : req.carryOut a = .ok ws) :
    ∀ d, .put d ∈ ws → d.id = req.target.docId ∨ ∃ guid, d.id = (RecordRef.entity guid).docId := by
  have hone {d : Document} (hd : d.id = req.target.docId ∨
      ∃ guid, d.id = (RecordRef.entity guid).docId) : ∀ d', .put d' ∈ [Write.put d] →
        d'.id = req.target.docId ∨ ∃ guid, d'.id = (RecordRef.entity guid).docId := by
    intro d' hd'
    cases List.mem_singleton.1 hd'
    exact hd
  have hrewrites {guid : String} {next : UInt64 → UInt64} (h : a.Rewrites guid next ws) :
      ∀ d, .put d ∈ ws →
        d.id = req.target.docId ∨ ∃ guid, d.id = (RecordRef.entity guid).docId := by
    obtain ⟨e, e', d, -, -, -, hd, rfl⟩ := h
    exact hone (Or.inr ⟨_, (Entity.lays hd).id⟩)
  have hconnects {rel : Relationship} (h : a.Connects rel ws)
      (htarget : rel.reference = req.target) : ∀ d, .put d ∈ ws →
        d.id = req.target.docId ∨ ∃ guid, d.id = (RecordRef.entity guid).docId := by
    obtain ⟨proxies, d, live, hproxies, hd, rfl⟩ := h
    intro d' hd'
    rcases List.mem_append.1 hd' with hd' | hd'
    · obtain ⟨p, _, heq, hp, -⟩ := (Acting.endProxies_ok hproxies).1 _ hd'
      cases heq
      exact Or.inr ⟨_, (Proxy.lays hp).id⟩
    · cases List.mem_singleton.1 hd'
      exact Or.inl (htarget ▸ (Relationship.lays hd).id)
  cases req with
  | createEntity guid typeName ps cs status =>
    obtain ⟨-, e, d, -, -, hd, rfl⟩ := Acting.createEntity_ok h
    exact hone (Or.inr ⟨_, (Entity.lays hd).id⟩)
  | createStub proxy =>
    rcases Acting.createStub_ok h with rfl | ⟨-, d, hd, rfl⟩
    · simp
    · exact hone (Or.inr ⟨_, (Proxy.lays hd).id⟩)
  | changeEntity guid change => exact hrewrites (Acting.changeEntity_ok h).rewrites
  | purgeEntity guid force =>
    obtain ⟨ids, -, rfl⟩ := Acting.purgeEntity_ok h
    simp
  | classify guid name ps mode => exact hrewrites (Acting.classify_ok h).rewrites
  | declassify guid name => exact hrewrites (Acting.declassify_ok h).rewrites
  | createRelationship guid typeName ps status endOne endTwo =>
    obtain ⟨-, rel, hguid, hrel⟩ := Acting.createRelationship_ok h
    exact hconnects hrel (congrArg RecordRef.relationship hguid)
  | changeRelationship guid change =>
    obtain ⟨rel, rel', d, hrel, hguid, -, -, -, hd, rfl⟩ := Acting.changeRelationship_ok h
    obtain ⟨d₀, _, _, hd₀, -, hread⟩ := Acting.relationship?_some hrel
    have hkey := (Relationship.ofDocument_ok hread).1.trans (hsource.keyed _ d₀ hd₀)
    refine hone (Or.inl ((Relationship.lays hd).id.trans ?_))
    rw [Relationship.reference, hguid]
    exact hkey
  | purgeRelationship guid force =>
    rw [Acting.purgeRelationship_ok h]
    simp
  | storeEntityCopy e =>
    obtain ⟨-, -, ⟨rfl, -⟩ | ⟨d, hd, rfl, -⟩⟩ := Acting.storeEntityCopy_ok h
    · simp
    · exact hone (Or.inr ⟨_, (Entity.lays hd).id⟩)
  | purgeEntityCopy guid home =>
    rcases Acting.purgeEntityCopy_ok h with rfl | ⟨-, rfl⟩ | ⟨e, d, -, hd, rfl⟩
    · simp
    · simp
    · exact hone (Or.inr ⟨_, (Proxy.lays hd).id⟩)
  | storeRelationshipCopy rel =>
    obtain ⟨-, -, ⟨rfl, -⟩ | ⟨hrel, -⟩⟩ := Acting.storeRelationshipCopy_ok h
    · simp
    · exact hconnects hrel rfl
  | storeHomeRelationship rel => exact hconnects (Acting.storeHomeRelationship_ok h) rfl
  | purgeRelationshipCopy guid home =>
    rcases Acting.purgeRelationshipCopy_ok h with rfl | rfl <;> simp
  | storeClassificationCopy guid c =>
    rcases Acting.storeClassificationCopy_ok h with rfl | hwrites
    · simp
    · exact hrewrites hwrites
  | purgeClassificationCopy guid name home =>
    rcases Acting.purgeClassificationCopy_ok h with rfl | hwrites
    · simp
    · exact hrewrites hwrites

/-- **A request leaves the relationships alone that it is not about**, or takes them away. -/
theorem Request.relationship_carryOut {a : Acting} {req : Request} {ws : List Write} {guid : String}
    (hsource : a.context.source.Coherent) (h : req.carryOut a = .ok ws)
    (hother : req.target ≠ .relationship guid) :
    writeAll a.context.source.document? ws (RecordRef.relationship guid).docId =
        a.document? (.relationship guid) ∨
      writeAll a.context.source.document? ws (RecordRef.relationship guid).docId = none := by
  refine writeAll_of_not_put fun d hd heq => ?_
  rcases Request.puts_carryOut hsource h d hd with htarget | ⟨guid', hentity⟩
  · exact hother (RecordRef.docId_injective (htarget.symm.trans heq))
  · exact RecordRef.relationship_ne_entity guid guid' (heq.symm.trans hentity)

end MetadataArchive
