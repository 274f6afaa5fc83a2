import Mathlib
import MetadataArchive.Proofs.Lifecycle.Integrity

/-!
# What becomes of versions

The version of a record is read off its document; a proxy has none. For every request that is
accepted `Request.versionAfter` says which version any record has afterwards that is stored both
before and after: the record of the request may be given a new one, and all others keep theirs.

A new version is higher than the old one but for two reasons. A relationship that comes back to its
home is written without a look at what is stored; and a version that no signed integer holds is
read back as zero.
-/

set_option autoImplicit false

namespace MetadataArchive

/-! ## Versions as they are stored -/

/-- A version that was read fits a signed integer. -/
theorem Document.version?_lt {d : Document} {v : UInt64} (h : d.version? = some v) :
    v.toNat < 2 ^ 63 := by
  obtain ⟨i, -, rfl⟩ := Option.map_eq_some_iff.1 h
  have hi := i.toInt_lt
  simp only [UInt64.toNat_ofNat']
  omega

/-- The version of a record that is stored in full. -/
def storedVersion (docs : DocId → Option Document) (r : RecordRef) : Option UInt64 :=
  (docs r.docId).bind fun d => if d.isProxy then none else d.version?

section Stored

variable {docs : DocId → Option Document} {r : RecordRef} {d : Document} {v v' : UInt64}
variable {ts : TypeSystem}

theorem storedVersion_eq_some : storedVersion docs r = some v ↔
    ∃ d, docs r.docId = some d ∧ d.isProxy = false ∧ d.version? = some v := by
  unfold storedVersion
  cases docs r.docId with
  | none => simp
  | some d => cases hp : d.isProxy <;> simp [hp]

theorem keptVersion_of_stored (h : storedVersion docs r = some v) : keptVersion v = v := by
  obtain ⟨d, -, -, hv⟩ := storedVersion_eq_some.1 h
  rw [keptVersion_eq, if_pos (Document.version?_lt hv)]

theorem Entity.storedVersion_toDocument {e : Entity} (h : e.toDocument ts = .ok d) :
    d.isProxy = false ∧ d.version? = some (keptVersion e.header.version) := by
  have hmark := (Entity.lays h).mark (Attr.isProxy, .bool false) (by simp)
  refine ⟨?_, (Entity.lays h).version?⟩
  rw [Document.isProxy, hmark]
  rfl

theorem Proxy.isProxy_toDocument {p : Proxy} (h : p.toDocument ts = .ok d) :
    d.isProxy = true := by
  have hmark := (Proxy.lays h).mark (Attr.isProxy, .bool true) (by simp)
  rw [Document.isProxy, hmark]
  rfl

theorem Relationship.storedVersion_toDocument {rel : Relationship}
    (h : rel.toDocument ts = .ok d) :
    d.isProxy = false ∧ d.version? = some (keptVersion rel.header.version) := by
  have hrest := (Relationship.lays h).rest Attr.isProxy (by decide) (by decide)
    (by simp; decide)
  refine ⟨?_, (Relationship.lays h).version?⟩
  rw [Document.isProxy, hrest]
  rfl

theorem storedVersion_on_of_ne {w : Write} (h : r.docId ≠ w.id) :
    storedVersion (w.on docs) r = storedVersion docs r := by
  unfold storedVersion
  rw [Write.on_of_ne h]

/-- A document that is put has its version; that of every other record stays. -/
theorem storedVersion_put {r' : RecordRef} {w : UInt64} (hid : d.id = r'.docId)
    (hd : d.isProxy = false ∧ d.version? = some w) (hv : storedVersion docs r = some v)
    (hv' : storedVersion ((Write.put d).on docs) r = some v') :
    v' = if r = r' then w else v := by
  by_cases hr : r = r'
  · obtain ⟨d', hget, -, hversion⟩ := storedVersion_eq_some.1 hv'
    have hon : (Write.put d).on docs r.docId = some d := by
      rw [hr, ← hid]
      exact Write.on_self
    rw [hon] at hget
    cases hget
    rw [if_pos hr]
    exact Option.some.inj (hversion.symm.trans hd.2)
  · have hne : r.docId ≠ (Write.put d).id := fun h => hr (RecordRef.docId_injective (h.trans hid))
    rw [storedVersion_on_of_ne hne, hv] at hv'
    rw [if_neg hr]
    exact (Option.some.inj hv').symm

/-- A proxy that is put takes the version away; that of every other record stays. -/
theorem storedVersion_put_proxy (hd : d.isProxy = true) (hv : storedVersion docs r = some v)
    (hv' : storedVersion ((Write.put d).on docs) r = some v') : v' = v := by
  have hne : r.docId ≠ (Write.put d).id := by
    intro heq
    obtain ⟨d', hget, hproxy, -⟩ := storedVersion_eq_some.1 hv'
    rw [heq, Write.on_self] at hget
    cases hget
    rw [hd] at hproxy
    cases hproxy
  rw [storedVersion_on_of_ne hne, hv] at hv'
  exact (Option.some.inj hv').symm

/-- What is evicted has no version any more; that of every other record stays. -/
theorem storedVersion_evictAll {ids : List DocId} (hv : storedVersion docs r = some v)
    (hv' : storedVersion (writeAll docs (ids.map .evict)) r = some v') : v' = v := by
  unfold storedVersion at hv hv'
  rw [writeAll_evict] at hv'
  split at hv'
  · cases hv'
  · exact Option.some.inj (hv'.symm.trans hv)

theorem storedVersion_evict {id : DocId} (hv : storedVersion docs r = some v)
    (hv' : storedVersion ((Write.evict id).on docs) r = some v') : v' = v := by
  refine storedVersion_evictAll hv (?_ : storedVersion (writeAll docs ([id].map .evict)) r = _)
  exact hv'

end Stored

/-! ## Reading -/

namespace Acting

variable {a : Acting} {r : RecordRef} {v v' : UInt64} {ws : List Write}

theorem stored?_version {stored : Option StoredEntity} (h : a.stored? r = .ok stored)
    (hv : storedVersion a.context.source.document? r = some v) :
    ∃ e, stored = some (.full e) ∧ e.header.version = v := by
  obtain ⟨d, hd, hproxy, hversion⟩ := storedVersion_eq_some.1 hv
  cases stored with
  | none =>
    have hnone : a.context.source.document? r.docId = none := stored?_none h
    rw [hd] at hnone
    cases hnone
  | some stored =>
    obtain ⟨d', hd', hread⟩ := stored?_some h
    have hsame : d' = d := Option.some.inj (hd'.symm.trans hd)
    subst hsame
    obtain ⟨-, hversion', hproxy'⟩ := StoredEntity.ofDocument_ok hread
    rw [hversion] at hversion'
    rw [hproxy] at hproxy'
    cases stored with
    | proxy p => cases hproxy'
    | full e => exact ⟨e, rfl, (Option.some.inj hversion').symm⟩

/-- What is read of an entity has the key that it was read under. -/
theorem stored?_reference {stored : StoredEntity} (hsource : a.context.source.Coherent)
    (h : a.stored? r = .ok (some stored)) : RecordRef.entity stored.guid = r := by
  obtain ⟨d, hd, hread⟩ := stored?_some h
  exact RecordRef.docId_injective
    ((StoredEntity.ofDocument_ok hread).1.trans (hsource.keyed _ d hd))

theorem relationship?_version {stored : Option Relationship} (h : a.relationship? r = .ok stored)
    (hv : storedVersion a.context.source.document? r = some v) :
    ∃ rel, stored = some rel ∧ rel.header.version = v := by
  obtain ⟨d, hd, -, hversion⟩ := storedVersion_eq_some.1 hv
  cases stored with
  | none =>
    have hnone : a.context.source.document? r.docId = none := relationship?_none h
    rw [hd] at hnone
    cases hnone
  | some rel =>
    obtain ⟨d', one, two, hd', -, hread⟩ := relationship?_some h
    have hsame : d' = d := Option.some.inj (hd'.symm.trans hd)
    subst hsame
    obtain ⟨-, hversion', -, -⟩ := Relationship.ofDocument_ok hread
    rw [hversion] at hversion'
    exact ⟨rel, rfl, (Option.some.inj hversion').symm⟩

/-! ## Writing -/

theorem version_rewrites {guid : String} {next : UInt64 → UInt64}
    (hsource : a.context.source.Coherent) (h : a.Rewrites guid next ws)
    (hv : storedVersion a.context.source.document? r = some v)
    (hv' : storedVersion (writeAll a.context.source.document? ws) r = some v') :
    v' = if r = .entity guid then keptVersion (next v) else v := by
  obtain ⟨e, e', d, he, hguid, hnext, hd, rfl⟩ := h
  -- The entity was read under its own key, so it is written back under that key.
  have hkey : RecordRef.entity e.guid = .entity guid := stored?_reference hsource he
  have hid : d.id = (RecordRef.entity guid).docId := by
    rw [(Entity.lays hd).id, ← hkey, ← hguid]
    rfl
  have hput := storedVersion_put hid (Entity.storedVersion_toDocument hd) hv hv'
  by_cases hr : r = .entity guid
  · subst hr
    obtain ⟨e₀, heq, rfl⟩ := stored?_version he hv
    cases heq
    rw [hput, hnext]
  · rw [hput, if_neg hr, if_neg hr]

/-- Proxies are written where nothing is stored, so nothing that is stored changes. -/
theorem newProxies_document? {id : DocId} {docs : DocId → Option Document}
    (hws : a.OnlyNewProxies ws) (hid : a.context.source.document? id ≠ none) :
    writeAll docs ws id = docs id := by
  refine writeAll_of_forall_ne fun w hw heq => ?_
  obtain ⟨p, d, rfl, hd, hnone⟩ := hws w hw
  have hkey : id = p.reference.docId := heq.trans (Proxy.lays hd).id
  exact hid (hkey ▸ hnone)

theorem version_connects {rel : Relationship} (h : a.Connects rel ws)
    (hv : storedVersion a.context.source.document? r = some v)
    (hv' : storedVersion (writeAll a.context.source.document? ws) r = some v') :
    v' = if r = rel.reference then keptVersion rel.header.version else v := by
  obtain ⟨proxies, d, live, hproxies, hd, rfl⟩ := h
  obtain ⟨hnew, -, -⟩ := endProxies_ok hproxies
  have hsome : a.context.source.document? r.docId ≠ none := by
    obtain ⟨d', hd', -⟩ := storedVersion_eq_some.1 hv
    simp [hd']
  have hv₁ : storedVersion (writeAll a.context.source.document? proxies) r = some v := by
    rw [← hv]
    unfold storedVersion
    rw [newProxies_document? hnew hsome]
  rw [writeAll_concat] at hv'
  exact storedVersion_put (Relationship.lays hd).id (Relationship.storedVersion_toDocument hd)
    hv₁ hv'

/-! ## Requests one by one -/

variable {guid name typeName : String} {ps : Properties} {status : Option Status}

theorem version_createEntity {cs : List NewClassification}
    (h : a.createEntity guid typeName ps cs status = .ok ws)
    (hv : storedVersion a.context.source.document? r = some v)
    (hv' : storedVersion (writeAll a.context.source.document? ws) r = some v') : v' = v := by
  obtain ⟨⟨stored, hstored, hnot⟩, e, d, hguid, -, hd, rfl⟩ := createEntity_ok h
  have hid : d.id = (RecordRef.entity guid).docId := hguid ▸ (Entity.lays hd).id
  have hother : r ≠ .entity guid := by
    rintro rfl
    obtain ⟨e', rfl, -⟩ := stored?_version hstored hv
    exact hnot e' rfl
  rw [storedVersion_put hid (Entity.storedVersion_toDocument hd) hv hv', if_neg hother]

theorem version_changeRelationship {change : Change} (hsource : a.context.source.Coherent)
    (h : a.changeRelationship guid change = .ok ws)
    (hv : storedVersion a.context.source.document? r = some v)
    (hv' : storedVersion (writeAll a.context.source.document? ws) r = some v') :
    v' = if r = .relationship guid then keptVersion (v + 1) else v := by
  obtain ⟨rel, rel', d, hrel, hguid, -, -, hnext, hd, rfl⟩ := changeRelationship_ok h
  obtain ⟨d₀, one, two, hd₀, -, hread⟩ := relationship?_some hrel
  have hkey : rel.reference.docId = (RecordRef.relationship guid).docId :=
    (Relationship.ofDocument_ok hread).1.trans (hsource.keyed _ d₀ hd₀)
  have hid : d.id = (RecordRef.relationship guid).docId := by
    rw [(Relationship.lays hd).id, ← hkey, Relationship.reference, hguid]
    rfl
  have hput := storedVersion_put hid (Relationship.storedVersion_toDocument hd) hv hv'
  by_cases hr : r = .relationship guid
  · subst hr
    obtain ⟨rel₀, heq, rfl⟩ := relationship?_version hrel hv
    cases heq
    rw [hput, hnext]
  · rw [hput, if_neg hr, if_neg hr]

theorem version_createRelationship {endOne endTwo : Proxy}
    (h : a.createRelationship guid typeName ps status endOne endTwo = .ok ws)
    (hv : storedVersion a.context.source.document? r = some v)
    (hv' : storedVersion (writeAll a.context.source.document? ws) r = some v') : v' = v := by
  obtain ⟨hnone, rel, hguid, hconnects⟩ := createRelationship_ok h
  have hother : r ≠ rel.reference := by
    rintro rfl
    obtain ⟨d, hd, -⟩ := storedVersion_eq_some.1 hv
    have hnone' : a.context.source.document? rel.reference.docId = none := by
      rw [Relationship.reference, hguid]
      exact hnone
    rw [hd] at hnone'
    cases hnone'
  rw [version_connects hconnects hv hv', if_neg hother]

/-- What a copy makes of the version: that of the copy where it is newer. -/
theorem version_storeEntityCopy {e : Entity} (h : a.storeEntityCopy e = .ok ws)
    (hv : storedVersion a.context.source.document? r = some v)
    (hv' : storedVersion (writeAll a.context.source.document? ws) r = some v') :
    v' = if r = e.reference ∧ ¬ e.header.version ≤ v then keptVersion e.header.version else v := by
  obtain ⟨stored, hstored, hws⟩ := storeEntityCopy_ok h
  by_cases hr : r = e.reference
  · subst hr
    obtain ⟨current, rfl, rfl⟩ := stored?_version hstored hv
    rcases hws with ⟨rfl, _, heq, hstale⟩ | ⟨d, hd, rfl, hnewer⟩
    · cases heq
      rw [if_neg (fun hnew => hnew.2 hstale)]
      exact Option.some.inj (hv'.symm.trans hv)
    · rw [storedVersion_put (Entity.lays hd).id (Entity.storedVersion_toDocument hd) hv hv',
        if_pos rfl, if_pos ⟨rfl, hnewer current rfl⟩]
  · rw [if_neg (fun hnew => hr hnew.1)]
    rcases hws with ⟨rfl, -⟩ | ⟨d, hd, rfl, -⟩
    · exact Option.some.inj (hv'.symm.trans hv)
    · rw [storedVersion_put (Entity.lays hd).id (Entity.storedVersion_toDocument hd) hv hv',
        if_neg hr]

theorem version_storeRelationshipCopy {rel : Relationship}
    (h : a.storeRelationshipCopy rel = .ok ws)
    (hv : storedVersion a.context.source.document? r = some v)
    (hv' : storedVersion (writeAll a.context.source.document? ws) r = some v') :
    v' = if r = rel.reference ∧ ¬ rel.header.version ≤ v then keptVersion rel.header.version
      else v := by
  obtain ⟨stored, hstored, hws⟩ := storeRelationshipCopy_ok h
  by_cases hr : r = rel.reference
  · subst hr
    obtain ⟨current, rfl, rfl⟩ := relationship?_version hstored hv
    rcases hws with ⟨rfl, _, heq, hstale⟩ | ⟨hconnects, hnewer⟩
    · cases heq
      rw [if_neg (fun hnew => hnew.2 hstale)]
      exact Option.some.inj (hv'.symm.trans hv)
    · rw [version_connects hconnects hv hv', if_pos rfl, if_pos ⟨rfl, hnewer current rfl⟩]
  · rw [if_neg (fun hnew => hr hnew.1)]
    rcases hws with ⟨rfl, -⟩ | ⟨hconnects, -⟩
    · exact Option.some.inj (hv'.symm.trans hv)
    · rw [version_connects hconnects hv hv', if_neg hr]

end Acting

/-! ## All requests -/

namespace Request

/-- The version that a request writes for its record, where it writes one. -/
def newVersion : Request → UInt64 → Option UInt64
  | .changeEntity _ _, v => some (v + 1)
  | .classify _ _ _ _, v => some (v + 1)
  | .declassify _ _, v => some (v + 1)
  | .changeRelationship _ _, v => some (v + 1)
  | .storeEntityCopy e, v => if e.header.version ≤ v then none else some e.header.version
  | .storeRelationshipCopy rel, v =>
      if rel.header.version ≤ v then none else some rel.header.version
  | .storeHomeRelationship rel, _ => some rel.header.version
  | _, _ => none

/-- Whether a request stores a copy of a record that is homed elsewhere. -/
def isCopy : Request → Bool
  | .storeEntityCopy _ | .storeRelationshipCopy _ => true
  | _ => false

/-- The version of a record after a request that is accepted, by the one before. -/
def versionAfter (req : Request) (r : RecordRef) (v : UInt64) : UInt64 :=
  if r = req.target then ((req.newVersion v).map keptVersion).getD v else v

variable {req : Request} {r : RecordRef} {v w : UInt64}

theorem versionAfter_of_none (h : req.newVersion v = none) : req.versionAfter r v = v := by
  simp [versionAfter, h]

theorem versionAfter_of_some (h : req.newVersion v = some w) :
    req.versionAfter r v = if r = req.target then keptVersion w else v := by
  simp [versionAfter, h]

theorem versionAfter_of_newer (h : req.newVersion v = if w ≤ v then none else some w) :
    req.versionAfter r v = if r = req.target ∧ ¬ w ≤ v then keptVersion w else v := by
  by_cases hw : w ≤ v
  · rw [if_pos hw] at h
    rw [versionAfter_of_none h, if_neg (fun hnew => hnew.2 hw)]
  · rw [if_neg hw] at h
    simp [versionAfter_of_some h, hw]

/-- **The version of a record after a request** is the one that the request says, for its own
record and for all others. -/
theorem version_carryOut {a : Acting} {ws : List Write} {v' : UInt64}
    (hsource : a.context.source.Coherent) (hw : req.carryOut a = .ok ws)
    (hv : storedVersion a.context.source.document? r = some v)
    (hv' : storedVersion (writeAll a.context.source.document? ws) r = some v') :
    v' = req.versionAfter r v := by
  -- Most requests leave the version alone: they write nothing, or the entity with its own version.
  have hnothing : ws = [] → v' = v := by
    rintro rfl
    exact Option.some.inj (hv'.symm.trans hv)
  have hsame : a.Rewrites req.target.guid id ws → v' = v := fun hrewrites => by
    rw [Acting.version_rewrites hsource hrewrites hv hv', id, keptVersion_of_stored hv, ite_self]
  cases req with
  | createEntity guid typeName ps cs status =>
    rw [versionAfter_of_none rfl]
    exact Acting.version_createEntity hw hv hv'
  | createStub proxy =>
    rw [versionAfter_of_none rfl]
    rcases Acting.createStub_ok hw with hnil | ⟨-, d, hd, rfl⟩
    · exact hnothing hnil
    · exact storedVersion_put_proxy (Proxy.isProxy_toDocument hd) hv hv'
  | changeEntity guid change =>
    have hnew : (Request.changeEntity guid change).newVersion v = some (v + 1) := rfl
    rw [Acting.version_rewrites hsource (Acting.changeEntity_ok hw).rewrites hv hv',
      versionAfter_of_some hnew]
    rfl
  | purgeEntity guid force =>
    obtain ⟨ids, -, rfl⟩ := Acting.purgeEntity_ok hw
    have hevict : ids.map Write.evict ++ [.evict (RecordRef.entity guid).docId] =
        (ids ++ [(RecordRef.entity guid).docId]).map Write.evict := by simp
    rw [hevict] at hv'
    rw [versionAfter_of_none rfl]
    exact storedVersion_evictAll hv hv'
  | classify guid name ps mode =>
    have hnew : (Request.classify guid name ps mode).newVersion v = some (v + 1) := rfl
    rw [Acting.version_rewrites hsource (Acting.classify_ok hw).rewrites hv hv',
      versionAfter_of_some hnew]
    rfl
  | declassify guid name =>
    have hnew : (Request.declassify guid name).newVersion v = some (v + 1) := rfl
    rw [Acting.version_rewrites hsource (Acting.declassify_ok hw).rewrites hv hv',
      versionAfter_of_some hnew]
    rfl
  | createRelationship guid typeName ps status endOne endTwo =>
    rw [versionAfter_of_none rfl]
    exact Acting.version_createRelationship hw hv hv'
  | changeRelationship guid change =>
    have hnew : (Request.changeRelationship guid change).newVersion v = some (v + 1) := rfl
    rw [Acting.version_changeRelationship hsource hw hv hv', versionAfter_of_some hnew]
    rfl
  | purgeRelationship guid force =>
    rw [Acting.purgeRelationship_ok hw] at hv'
    rw [versionAfter_of_none rfl]
    exact storedVersion_evict hv hv'
  | storeEntityCopy e =>
    have hnew : (Request.storeEntityCopy e).newVersion v =
      if e.header.version ≤ v then none else some e.header.version := rfl
    rw [Acting.version_storeEntityCopy hw hv hv', versionAfter_of_newer hnew]
    rfl
  | purgeEntityCopy guid home =>
    rw [versionAfter_of_none rfl]
    rcases Acting.purgeEntityCopy_ok hw with hnil | ⟨-, rfl⟩ | ⟨e, d, -, hd, rfl⟩
    · exact hnothing hnil
    · exact storedVersion_evict hv hv'
    · exact storedVersion_put_proxy (Proxy.isProxy_toDocument hd) hv hv'
  | storeRelationshipCopy rel =>
    have hnew : (Request.storeRelationshipCopy rel).newVersion v =
      if rel.header.version ≤ v then none else some rel.header.version := rfl
    rw [Acting.version_storeRelationshipCopy hw hv hv', versionAfter_of_newer hnew]
    rfl
  | storeHomeRelationship rel =>
    have hnew : (Request.storeHomeRelationship rel).newVersion v = some rel.header.version := rfl
    rw [Acting.version_connects (Acting.storeHomeRelationship_ok hw) hv hv',
      versionAfter_of_some hnew]
    rfl
  | purgeRelationshipCopy guid home =>
    rw [versionAfter_of_none rfl]
    rcases Acting.purgeRelationshipCopy_ok hw with hnil | rfl
    · exact hnothing hnil
    · exact storedVersion_evict hv hv'
  | storeClassificationCopy guid classification =>
    rw [versionAfter_of_none rfl]
    rcases Acting.storeClassificationCopy_ok hw with hnil | hrewrites
    · exact hnothing hnil
    · exact hsame hrewrites
  | purgeClassificationCopy guid name home =>
    rw [versionAfter_of_none rfl]
    rcases Acting.purgeClassificationCopy_ok hw with hnil | hrewrites
    · exact hnothing hnil
    · exact hsame hrewrites

/-- **A copy that is no newer** than what is stored of its record leads to no write. -/
theorem stale_carryOut {a : Acting} {ws : List Write} (hcopy : req.isCopy = true)
    (hstale : req.newVersion v = none) (hw : req.carryOut a = .ok ws)
    (hv : storedVersion a.context.source.document? req.target = some v) : ws = [] := by
  cases req with
  | storeEntityCopy e =>
    obtain ⟨stored, hstored, hws⟩ := Acting.storeEntityCopy_ok hw
    obtain ⟨current, rfl, rfl⟩ := Acting.stored?_version hstored hv
    rcases hws with ⟨hnil, -⟩ | ⟨d, -, -, hnewer⟩
    · exact hnil
    · simp [newVersion, hnewer current rfl] at hstale
  | storeRelationshipCopy rel =>
    obtain ⟨stored, hstored, hws⟩ := Acting.storeRelationshipCopy_ok hw
    obtain ⟨current, rfl, rfl⟩ := Acting.relationship?_version hstored hv
    rcases hws with ⟨hnil, -⟩ | ⟨-, hnewer⟩
    · exact hnil
    · simp [newVersion, hnewer current rfl] at hstale
  | _ => cases hcopy

end Request

end MetadataArchive
