import MetadataArchive.Proofs.Lifecycle.GivingWay
import MetadataArchive.Proofs.Lifecycle.Integrity

/-!
# Proxies and the entities they stand for

A proxy is made where nothing is stored, and gives way to the entity whenever that arrives. The
other way round there is one case only: a copy that is taken away while a relationship still
references it leaves its proxy behind. `Entity.Fate` lists what may become of an entity that is
stored in full, and `Request.fate` says that nothing else does.

Of the requests that make proxies none writes a proxy where a document is stored, and none writes
two under one key (`Request.makesNew_carryOut`). So a proxy is made once, however many requests ask
for it.
-/

set_option autoImplicit false

namespace MetadataArchive

variable {a : Acting} {req : Request} {ws : List Write} {guid : String} {d : Document}

/-! ## What becomes of an entity -/

/-- What may become of the document of an entity that is stored in full, among these documents, when
a request is carried out for a collection. -/
inductive Entity.Fate (ts : TypeSystem) (collection : String) (docs : DocId → Option Document)
    (guid : String) (d : Document) : Request → Option Document → Prop
  /-- It is still stored in full. -/
  | kept {req : Request} {d' : Document} (full : d'.isProxy = false) :
      Fate ts collection docs guid d req (some d')
  | purged (force : Bool) : Fate ts collection docs guid d (.purgeEntity guid force) none
  | withdrawn (home : String) : Fate ts collection docs guid d (.purgeEntityCopy guid home) none
  /-- It is homed elsewhere, and a relationship needs its proxy. -/
  | reduced {home : String} {e : Entity} {d' rel : Document} {r : String}
      (reads : StoredEntity.ofDocument d = .ok (.full e))
      (foreign : e.header.collectionId ≠ collection)
      (stub : (e.toProxy ts).toDocument ts = .ok d')
      (relationship : docs (RecordRef.relationship r).docId = some rel)
      (references : rel.Touches (.entity guid)) :
      Fate ts collection docs guid d (.purgeEntityCopy guid home) (some d')

/-- An entity that is written under the key is stored in full. -/
theorem Entity.Fate.put {ts : TypeSystem} {collection : String} {docs : DocId → Option Document}
    {d' : Document} {e : Entity} (hguid : e.guid = guid) (hd' : e.toDocument ts = .ok d') :
    Entity.Fate ts collection docs guid d req
      (writeAll docs [.put d'] (RecordRef.entity guid).docId) := by
  have hid : d'.id = (RecordRef.entity guid).docId := by
    rw [(Entity.lays hd').id, Entity.reference, hguid]
  rw [writeAll_put hid]
  exact .kept (Entity.storedVersion_toDocument hd').1

theorem Acting.fate_purgeEntityCopy {home : String} (hsource : a.context.source.Coherent)
    (hlinked : Linked a.context.source.document?) (h : a.purgeEntityCopy guid home = .ok ws)
    (hd : a.document? (.entity guid) = some d) (hproxy : d.isProxy = false) :
    Entity.Fate a.types a.collection.id a.context.source.document? guid d
      (.purgeEntityCopy guid home)
      (writeAll a.context.source.document? ws (RecordRef.entity guid).docId) := by
  rcases Acting.purgeEntityCopy_takes h with
    rfl | ⟨existing, hstored, hforeign, -, ids, hids, ⟨-, rfl⟩ | ⟨hsome, e, d', rfl, hd', rfl⟩⟩
  · have hsame : writeAll a.context.source.document? [] (RecordRef.entity guid).docId = some d := hd
    rw [hsame]
    exact .kept hproxy
  · rw [writeAll_evict_self]
    exact .withdrawn home
  · obtain ⟨e', heq, rfl, hread⟩ := Acting.full_of_stored? hsource hd hproxy hstored
    cases heq
    -- The query has found a document with the entity at an end, and that is a relationship.
    obtain ⟨id, hid⟩ := List.exists_mem_of_ne_nil _ hsome
    obtain ⟨rel, hrel, rfl, htouches⟩ := (Acting.mem_touching hids).1 hid
    have hrel := (hsource.listed rel).1 hrel
    obtain ⟨r, hr⟩ := hlinked.id_of_touches hrel htouches
    rw [hr] at hrel
    rw [writeAll_put (show d'.id = (RecordRef.entity e.guid).docId from (Proxy.lays hd').id)]
    exact .reduced hread hforeign hd' hrel htouches

/-- **What becomes of an entity that is stored in full**: it stays so unless it is purged, or is a
copy that is taken away, which may leave a proxy. -/
theorem Request.fate (hsource : a.context.source.Coherent)
    (hlinked : Linked a.context.source.document?) (h : req.carryOut a = .ok ws)
    (hd : a.document? (.entity guid) = some d) (hproxy : d.isProxy = false) :
    Entity.Fate a.types a.collection.id a.context.source.document? guid d req
      (writeAll a.context.source.document? ws (RecordRef.entity guid).docId) := by
  have hentity : d.IsEntity := hlinked.isEntity hd (hsource.keyed _ d hd)
  have hleaves (hleaves : a.Leaves guid ws) :
      Entity.Fate a.types a.collection.id a.context.source.document? guid d req
        (writeAll a.context.source.document? ws (RecordRef.entity guid).docId) := by
    rw [hleaves, hd]
    exact .kept hproxy
  have hrewrites {next : UInt64 → UInt64} (hrewrites : a.Rewrites guid next ws) :
      Entity.Fate a.types a.collection.id a.context.source.document? guid d req
        (writeAll a.context.source.document? ws (RecordRef.entity guid).docId) := by
    obtain ⟨e, e', d', he, hguid, -, hd', rfl⟩ := hrewrites
    obtain ⟨_, heq, hkey, -⟩ := Acting.full_of_stored? hsource hd hproxy he
    cases heq
    exact .put (hguid.trans hkey) hd'
  by_cases htarget : req.target = .entity guid
  · cases req with
    | createEntity | createStub =>
      exact hleaves (Request.leaves_full hsource h rfl rfl (fun _ => by simp) hd hentity hproxy)
    | changeEntity guid' change =>
      obtain rfl : guid' = guid := congrArg RecordRef.guid htarget
      exact hrewrites (Acting.changeEntity_ok h).rewrites
    | purgeEntity guid' force =>
      obtain rfl : guid' = guid := congrArg RecordRef.guid htarget
      obtain ⟨ids, -, rfl⟩ := Acting.purgeEntity_ok h
      rw [writeAll_append, writeAll_evict_self]
      exact .purged force
    | classify guid' name ps mode =>
      obtain rfl : guid' = guid := congrArg RecordRef.guid htarget
      exact hrewrites (Acting.classify_ok h).rewrites
    | declassify guid' name =>
      obtain rfl : guid' = guid := congrArg RecordRef.guid htarget
      exact hrewrites (Acting.declassify_ok h).rewrites
    | storeEntityCopy e =>
      have hkey : e.guid = guid := congrArg RecordRef.guid htarget
      obtain ⟨-, -, ⟨rfl, -⟩ | ⟨d', hd', rfl, -⟩⟩ := Acting.storeEntityCopy_ok h
      · exact hleaves Acting.leaves_nil
      · exact .put hkey hd'
    | purgeEntityCopy guid' home =>
      obtain rfl : guid' = guid := congrArg RecordRef.guid htarget
      exact Acting.fate_purgeEntityCopy hsource hlinked h hd hproxy
    | storeClassificationCopy guid' c =>
      obtain rfl : guid' = guid := congrArg RecordRef.guid htarget
      rcases Acting.storeClassificationCopy_ok h with rfl | hwrites
      · exact hleaves Acting.leaves_nil
      · exact hrewrites hwrites
    | purgeClassificationCopy guid' name home =>
      obtain rfl : guid' = guid := congrArg RecordRef.guid htarget
      rcases Acting.purgeClassificationCopy_ok h with rfl | hwrites
      · exact hleaves Acting.leaves_nil
      · exact hrewrites hwrites
    | createRelationship | changeRelationship | purgeRelationship | storeRelationshipCopy
    | storeHomeRelationship | purgeRelationshipCopy => cases htarget
  · exact hleaves (Request.leaves_carryOut hsource h htarget hd hentity)

/-! ## Making proxies -/

/-- The requests that make proxies, as such or for the ends of a relationship. -/
def Request.makesProxies : Request → Bool
  | .createStub _ | .createRelationship .. | .storeRelationshipCopy _ | .storeHomeRelationship _ =>
    true
  | _ => false

/-- The relationship whose copy takes the place of the one that is stored. -/
def Request.relationshipCopy? : Request → Option Relationship
  | .storeRelationshipCopy rel | .storeHomeRelationship rel => some rel
  | _ => none

/-- Writes that make proxies where nothing is stored, and bring the copy of a relationship. -/
structure Request.MakesNew (req : Request) (docs : DocId → Option Document) (ws : List Write) :
    Prop where
  /-- No key is written twice. -/
  once : (ws.map Write.id).Nodup
  /-- No document is written that is stored, but the relationship of which there is a copy. -/
  new : ∀ w ∈ ws, docs w.id = none ∨
    ∃ rel, req.relationshipCopy? = some rel ∧ w.id = rel.reference.docId
  /-- What is written under the key of an entity is a proxy. -/
  proxies : ∀ w ∈ ws, ∀ guid, w.id = (RecordRef.entity guid).docId →
    ∃ d, w = .put d ∧ d.isProxy = true

namespace Acting

theorem endProxy_writes {p : Proxy} {live needed : Bool} (h : a.endProxy live p needed = .ok ws) :
    ws = [] ∨ needed = true ∧ ∃ d, p.toDocument a.types = .ok d ∧ ws = [.put d] := by
  simp only [endProxy, bind_eq_ok] at h
  obtain ⟨stored, -, h⟩ := h
  cases stored with
  | some existing =>
    cases live with
    | false =>
      simp only [Bool.false_eq_true, if_false, pure_eq_ok] at h
      exact Or.inl h.symm
    | true =>
      simp only [if_true, bind_eq_ok, pure_eq_ok] at h
      obtain ⟨_, -, h⟩ := h
      exact Or.inl h.symm
  | none =>
    cases needed with
    | false =>
      simp only [Bool.false_eq_true, if_false, pure_eq_ok] at h
      exact Or.inl h.symm
    | true =>
      simp only [if_true, bind_eq_ok, pure_eq_ok] at h
      obtain ⟨_, -, w, hw, rfl⟩ := h
      obtain ⟨d, hd, rfl⟩ := putProxy_ok hw
      exact Or.inr ⟨rfl, d, hd, rfl⟩

/-- The proxies of two ends are under different keys: an entity that is both needs one. -/
theorem endProxies_once {one two : Proxy} {live : Bool}
    (h : a.endProxies one two live = .ok ws) : (ws.map Write.id).Nodup := by
  simp only [endProxies_eq, bind_eq_ok, pure_eq_ok] at h
  obtain ⟨ws₁, h₁, ws₂, h₂, rfl⟩ := h
  rcases endProxy_writes h₁ with rfl | ⟨-, d₁, hd₁, rfl⟩ <;>
    rcases endProxy_writes h₂ with rfl | ⟨hother, d₂, hd₂, rfl⟩
  · simp
  · simp
  · simp
  · have hne : d₁.id ≠ d₂.id := by
      rw [(Proxy.lays hd₁).id, (Proxy.lays hd₂).id]
      intro heq
      have hguid : one.guid = two.guid :=
        congrArg RecordRef.guid (RecordRef.docId_injective heq)
      simp [hguid] at hother
    simpa [Write.id] using hne

theorem OnlyNewProxies.makesNew (hnew : a.OnlyNewProxies ws) (honce : (ws.map Write.id).Nodup) :
    req.MakesNew a.context.source.document? ws where
  once := honce
  new w hw := by
    obtain ⟨p, d, rfl, hd, hnone⟩ := hnew w hw
    have hid : (Write.put d).id = p.reference.docId := (Proxy.lays hd).id
    exact Or.inl (hid ▸ hnone)
  proxies w hw guid _ := by
    obtain ⟨p, d, rfl, hd, -⟩ := hnew w hw
    exact ⟨d, rfl, Proxy.isProxy_toDocument hd⟩

/-- A relationship comes with new proxies, and takes the place of a stored one only as a copy. -/
theorem Connects.makesNew {rel : Relationship} (h : a.Connects rel ws)
    (hown : a.document? rel.reference = none ∨ req.relationshipCopy? = some rel) :
    req.MakesNew a.context.source.document? ws := by
  obtain ⟨proxies, d, live, hends, hd, rfl⟩ := h
  have hnew := (endProxies_ok hends).1
  have hproxies : req.MakesNew a.context.source.document? proxies :=
    hnew.makesNew (endProxies_once hends)
  have hid : (Write.put d).id = rel.reference.docId := (Relationship.lays hd).id
  refine ⟨?_, fun w hw => ?_, fun w hw guid hguid => ?_⟩
  · rw [List.map_append, List.map_singleton, List.nodup_append]
    refine ⟨hproxies.once, List.nodup_singleton _, fun id hmem id' hmem' heq => ?_⟩
    obtain ⟨w, hw, rfl⟩ := List.mem_map.1 hmem
    obtain ⟨p, d', rfl, hd', -⟩ := hnew w hw
    rw [List.mem_singleton.1 hmem', hid] at heq
    exact RecordRef.relationship_ne_entity rel.guid p.guid (heq.symm.trans (Proxy.lays hd').id)
  · rcases List.mem_append.1 hw with hw | hw
    · exact hproxies.new w hw
    · rw [List.mem_singleton.1 hw, hid]
      exact hown.imp id fun hcopy => ⟨rel, hcopy, rfl⟩
  · rcases List.mem_append.1 hw with hw | hw
    · exact hproxies.proxies w hw guid hguid
    · rw [List.mem_singleton.1 hw, hid] at hguid
      exact absurd hguid (RecordRef.relationship_ne_entity rel.guid guid)

end Acting

/-- **Proxies are made where nothing is stored, and once.** -/
theorem Request.makesNew_carryOut (hmakes : req.makesProxies = true)
    (h : req.carryOut a = .ok ws) : req.MakesNew a.context.source.document? ws := by
  have hnil {req : Request} : req.MakesNew a.context.source.document? [] :=
    ⟨List.nodup_nil, by simp, by simp⟩
  cases req with
  | createStub proxy =>
    rcases Acting.createStub_ok h with rfl | ⟨hnone, d, hd, rfl⟩
    · exact hnil
    · have hnew : a.OnlyNewProxies [.put d] := fun w hw =>
        ⟨proxy, d, List.mem_singleton.1 hw, hd, hnone⟩
      exact hnew.makesNew (List.nodup_singleton _)
  | createRelationship guid typeName ps status endOne endTwo =>
    obtain ⟨hnone, rel, hguid, hrel⟩ := Acting.createRelationship_ok h
    refine hrel.makesNew (Or.inl ?_)
    rw [Relationship.reference, hguid]
    exact hnone
  | storeRelationshipCopy rel =>
    obtain ⟨-, -, ⟨rfl, -⟩ | ⟨hrel, -⟩⟩ := Acting.storeRelationshipCopy_ok h
    · exact hnil
    · exact hrel.makesNew (Or.inr rfl)
  | storeHomeRelationship rel =>
    exact (Acting.storeHomeRelationship_ok h).makesNew (Or.inr rfl)
  | _ => cases hmakes

end MetadataArchive
