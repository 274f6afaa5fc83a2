import MetadataArchive.Proofs.Lifecycle.Others
import MetadataArchive.Proofs.Lifecycle.Reception

/-!
# What gives way to a copy

A request about a copy replaces or takes away a record, or one classification of an entity.
`Entity.GivesWay` and `Relationship.GivesWay` list how, with all that is asked before: the home of
what is replaced, the home of the copy and their versions. All else that is stored stays as it is
(`Request.entity_gives_way`, `Request.relationship_gives_way`).

Nothing that is homed in the acting collection gives way. But a record that comes from an external
system is changed by the collection that replicates it, which need not be its home; and an entity
that gives way takes all of its classifications along, whatever their homes.
-/

set_option autoImplicit false

namespace MetadataArchive

variable {ts : TypeSystem} {collection : String} {req : Request} {doc : Option Document}

/-- The requests about copies of whole entities. -/
def Request.aboutEntityCopy : Request → Bool
  | .storeEntityCopy _ | .purgeEntityCopy _ _ => true
  | _ => false

/-- The type of a classification that comes with a request has no full stop in its name. -/
def Request.BringsUndotted : Request → Prop
  | .storeClassificationCopy _ c => '.' ∉ c.header.typeRef.name.toList
  | _ => True

/-- What takes the place of an entity that is stored in full, under a request about a copy. -/
inductive Entity.GivesWay (ts : TypeSystem) (collection : String) (e : Entity) :
    Request → Option Document → Prop
  | replaced {x : Entity} {d : Document} (foreign : e.header.collectionId ≠ collection)
      (copy : x.header.collectionId ≠ collection) (guid : x.guid = e.guid)
      (newer : e.header.version < x.header.version) (toDocument : x.toDocument ts = .ok d) :
      GivesWay ts collection e (.storeEntityCopy x) (some d)
  | evicted (foreign : e.header.collectionId ≠ collection) :
      GivesWay ts collection e (.purgeEntityCopy e.guid e.header.collectionId) none
  /-- Relationships keep it as a proxy. -/
  | reduced {d : Document} (foreign : e.header.collectionId ≠ collection)
      (toDocument : (e.toProxy ts).toDocument ts = .ok d) :
      GivesWay ts collection e (.purgeEntityCopy e.guid e.header.collectionId) (some d)
  /-- It has a copy of a classification, in the place of an older one of the name. -/
  | classified {c : Classification} {old : Option Classification} {cs : List Classification}
      {d : Document} (copy : c.header.collectionId ≠ collection)
      (valid : ts.isValidFor c.name e.header.typeRef.name = true)
      (foreign : ∀ k, old = some k → k.header.collectionId ≠ collection)
      (newer : ∀ k, old = some k → k.header.version < c.header.version)
      (swapped : Swapped c.name old (some c) e.classifications cs)
      (toDocument : Entity.toDocument ts { e with classifications := cs } = .ok d) :
      GivesWay ts collection e (.storeClassificationCopy e.guid c) (some d)
  | declassified {name : String} {c : Classification} {cs : List Classification} {d : Document}
      (foreign : c.header.collectionId ≠ collection)
      (swapped : Swapped name (some c) none e.classifications cs)
      (toDocument : Entity.toDocument ts { e with classifications := cs } = .ok d) :
      GivesWay ts collection e (.purgeClassificationCopy e.guid name c.header.collectionId) (some d)

/-- What takes the place of a relationship under a request about a copy. -/
inductive Relationship.GivesWay (ts : TypeSystem) (collection : String) (rel : Relationship) :
    Request → Option Document → Prop
  | replaced {x : Relationship} {d : Document} (foreign : rel.header.collectionId ≠ collection)
      (copy : x.header.collectionId ≠ collection) (guid : x.guid = rel.guid)
      (newer : rel.header.version < x.header.version) (toDocument : x.toDocument ts = .ok d) :
      GivesWay ts collection rel (.storeRelationshipCopy x) (some d)
  | evicted (foreign : rel.header.collectionId ≠ collection) :
      GivesWay ts collection rel (.purgeRelationshipCopy rel.guid rel.header.collectionId) none

theorem Relationship.GivesWay.foreign {rel : Relationship}
    (h : rel.GivesWay ts collection req doc) : rel.header.collectionId ≠ collection := by
  cases h with
  | replaced foreign | evicted foreign => exact foreign

/-- A record is homed elsewhere, yet a collection may change it: it comes from an external system,
and the collection replicates it. -/
theorem Header.replicated_of_foreign {h : Header} (hlocal : h.isLocalTo collection = true)
    (hforeign : h.collectionId ≠ collection) :
    h.provenance = .externalSource ∧ h.replicatedBy = some collection := by
  unfold Header.isLocalTo at hlocal
  split at hlocal
  · exact absurd (by simpa using hlocal) hforeign
  next hexternal => exact ⟨hexternal, by simpa using hlocal⟩

/-! ## What is homed here -/

/-- The classifications that are homed in a collection. -/
def Entity.homedIn (e : Entity) (collection : String) : List Classification :=
  e.classifications.filter fun c => c.header.collectionId == collection

/-- Two entities are the same but for classifications that are homed outside of a collection. -/
structure Entity.SameAtHome (collection : String) (e e' : Entity) : Prop where
  guid : e'.guid = e.guid
  header : e'.header = e.header
  properties : e'.properties = e.properties
  homed : e'.homedIn collection = e.homedIn collection

/-- **An entity gives way as a whole** only to requests about copies of it, and only where it is
homed elsewhere. Else it keeps all that is homed here, which are its header, its properties and the
classifications of that home. -/
theorem Entity.GivesWay.whole_or_sameAtHome {e : Entity} (hnamed : ts.Named)
    (hundotted : ts.Undotted) (h : e.GivesWay ts collection req doc) :
    req.aboutEntityCopy = true ∧ e.header.collectionId ≠ collection ∨
      ∃ e' d, e.SameAtHome collection e' ∧ e'.toDocument ts = .ok d ∧ doc = some d ∧
        (e.WellNamed → req.BringsUndotted → e'.WellNamed) := by
  have hnot {k : Classification} (hk : k.header.collectionId ≠ collection) :
      (k.header.collectionId == collection) = false := by
    simpa using hk
  cases h with
  | replaced foreign | evicted foreign | reduced foreign => exact Or.inl ⟨rfl, foreign⟩
  | @classified c old cs d copy valid foreign _ swapped toDocument =>
    let e' := { e with classifications := cs }
    have hhomed : e'.homedIn collection = e.homedIn collection := by
      apply swapped.filter_eq
      · intro k hk
        exact hnot (foreign k hk)
      · intro k hk
        cases hk
        exact hnot copy
    refine Or.inr ⟨e', d, ⟨rfl, rfl, rfl, hhomed⟩, toDocument, rfl, fun he hc => ?_⟩
    refine ⟨⟨swapped.nodup he.distinct, swapped.forall_mem he.undotted ?_⟩, he.type,
      swapped.forall_mem he.classificationTypes ?_⟩
    · intro k hk
      cases hk
      exact TypeSystem.undotted_of_isValidFor hnamed hundotted valid
    · intro k hk
      cases hk
      exact hc
  | @declassified name c cs d foreign swapped toDocument =>
    let e' := { e with classifications := cs }
    have hhomed : e'.homedIn collection = e.homedIn collection := by
      apply swapped.filter_eq
      · intro k hk
        cases hk
        exact hnot foreign
      · intro k hk
        cases hk
    refine Or.inr ⟨e', d, ⟨rfl, rfl, rfl, hhomed⟩, toDocument, rfl, fun he _ => ?_⟩
    exact ⟨⟨swapped.nodup he.distinct, swapped.forall_mem he.undotted (by simp)⟩, he.type,
      swapped.forall_mem he.classificationTypes (by simp)⟩

/-- What is read is still the same exactly where the values read back of what is homed here. -/
theorem Entity.SameAtHome.of_rereads_iff {e e' e'' : Entity} (h : e.SameAtHome collection e')
    (hfits : e.Fits) (hread : e'.Rereads e'') : e.SameAtHome collection e'' ↔
      e.properties.ReadBack ∧ ∀ c ∈ e.homedIn collection, c.properties.ReadBack := by
  obtain ⟨ps, cs, hps, hcs, rfl⟩ := hread
  have hfilter : List.Forall₂ Classification.Rereads (e.homedIn collection)
      (cs.filter fun c => c.header.collectionId == collection) := by
    rw [← h.homed]
    exact Classification.filter_rereads (p := fun h => h.collectionId == collection)
      (fun _ => rfl) hcs
  have hkept : ∀ c ∈ e.homedIn collection, c.header.version.toNat < 2 ^ 63 := fun c hc =>
    hfits.classifications c (List.mem_of_mem_filter hc)
  have hheader : e.header.stored = e.header := Header.stored_eq_self_iff.2 hfits.header
  rw [h.properties] at hps
  constructor
  · intro hsame
    refine ⟨?_, (Classification.eq_of_rereads_iff hkept hfilter).1 hsame.homed⟩
    exact Properties.rereads_self_iff.1 ((show ps = e.properties from hsame.properties) ▸ hps)
  · rintro ⟨hback, hclassified⟩
    refine ⟨h.guid, ?_, hps.eq (Properties.rereads_self_iff.2 hback),
      (Classification.eq_of_rereads_iff hkept hfilter).2 hclassified⟩
    show e'.header.stored = e.header
    rw [h.header, hheader]

/-! ## Requests -/

section CarryOut

variable {a : Acting} {ws : List Write} {guid : String} {d : Document}

/-- Besides its own record a request about a copy writes none but entities. -/
theorem Request.writes_of_copy (hcopy : req.aboutCopy = true)
    (hsource : a.context.source.Coherent) (h : req.carryOut a = .ok ws) :
    ∀ w ∈ ws, w.id = req.target.docId ∨ ∃ guid, w.id = (RecordRef.entity guid).docId := by
  intro w hw
  cases w with
  | put d => exact Request.puts_carryOut hsource h d hw
  | evict id =>
    -- Nothing is evicted but the record of the request itself.
    have hput {d : Document} (hws : ws = [.put d]) : False := by
      simp [hws] at hw
    left
    cases req with
    | storeEntityCopy x =>
      obtain ⟨-, -, ⟨rfl, -⟩ | ⟨d, -, hws, -⟩⟩ := Acting.storeEntityCopy_ok h
      · cases hw
      · exact (hput hws).elim
    | purgeEntityCopy guid home =>
      rcases Acting.purgeEntityCopy_ok h with rfl | ⟨-, rfl⟩ | ⟨e, d, -, -, hws⟩
      · cases hw
      · cases List.mem_singleton.1 hw
        rfl
      · exact (hput hws).elim
    | storeRelationshipCopy x =>
      obtain ⟨-, -, ⟨rfl, -⟩ | ⟨⟨proxies, d, _, hproxies, -, rfl⟩, -⟩⟩ :=
        Acting.storeRelationshipCopy_ok h
      · cases hw
      · rcases List.mem_append.1 hw with hw | hw
        · obtain ⟨p, d', heq, -⟩ := (Acting.endProxies_ok hproxies).1 _ hw
          cases heq
        · cases List.mem_singleton.1 hw
    | purgeRelationshipCopy guid home =>
      rcases Acting.purgeRelationshipCopy_ok h with rfl | rfl
      · cases hw
      · cases List.mem_singleton.1 hw
        rfl
    | storeClassificationCopy guid c =>
      rcases Acting.storeClassificationCopy_ok h with rfl | ⟨-, -, d, -, -, -, -, hws⟩
      · cases hw
      · exact (hput hws).elim
    | purgeClassificationCopy guid name home =>
      rcases Acting.purgeClassificationCopy_ok h with rfl | ⟨-, -, d, -, -, -, -, hws⟩
      · cases hw
      · exact (hput hws).elim
    | _ => cases hcopy

/-- **The document of an entity stays as it is**, or the entity gives way. -/
theorem Request.entity_gives_way (hcopy : req.aboutCopy = true)
    (hsource : a.context.source.Coherent) (h : req.carryOut a = .ok ws)
    (hd : a.document? (.entity guid) = some d) (hentity : d.IsEntity) (hproxy : d.isProxy = false) :
    writeAll a.context.source.document? ws (RecordRef.entity guid).docId = some d ∨
      ∃ e, a.stored? (.entity guid) = .ok (some (.full e)) ∧ e.GivesWay a.types a.collection.id req
        (writeAll a.context.source.document? ws (RecordRef.entity guid).docId) := by
  by_cases htarget : req.target = .entity guid
  · have hfull {stored : Option StoredEntity} (hstored : a.stored? (.entity guid) = .ok stored) :
        ∃ e, stored = some (.full e) ∧ e.guid = guid :=
      (Acting.full_of_stored? hsource hd hproxy hstored).imp fun _ he => ⟨he.1, he.2.1⟩
    have hput {d' : Document} {e : Entity} (hkey : e.guid = guid)
        (hd' : e.toDocument a.types = .ok d') :
        writeAll a.context.source.document? [.put d'] (RecordRef.entity guid).docId = some d' :=
      writeAll_put <| (Entity.lays hd').id.trans <|
        congrArg (fun g => (RecordRef.entity g).docId) hkey
    cases req with
    | storeEntityCopy x =>
      obtain ⟨-, helsewhere, stored, hstored, hforeign, hwrites⟩ := Acting.storeEntityCopy_eq_ok.1 h
      have hkey : x.reference = .entity guid := htarget
      rw [hkey] at hstored
      obtain ⟨e, rfl, heguid⟩ := hfull hstored
      have hxguid : x.guid = guid := congrArg RecordRef.guid hkey
      rcases hwrites with ⟨-, rfl⟩ | ⟨hnewer, d', hd', rfl⟩
      · exact Or.inl hd
      · refine Or.inr ⟨e, hstored, ?_⟩
        rw [hput hxguid hd']
        exact .replaced (hforeign _ rfl) helsewhere (hxguid.trans heguid.symm) (hnewer e rfl) hd'
    | purgeEntityCopy guid' home =>
      obtain rfl : guid' = guid := congrArg RecordRef.guid htarget
      rcases Acting.purgeEntityCopy_takes h with
        rfl | ⟨existing, hstored, hforeign, rfl, ids, -, hwrites⟩
      · exact Or.inl hd
      · obtain ⟨e, heq, rfl⟩ := hfull hstored
        cases heq
        refine Or.inr ⟨e, hstored, ?_⟩
        rcases hwrites with ⟨-, rfl⟩ | ⟨-, _, d', heq, hd', rfl⟩
        · rw [writeAll_evict_self]
          exact .evicted hforeign
        · cases heq
          rw [writeAll_put (show d'.id = (RecordRef.entity e.guid).docId from (Proxy.lays hd').id)]
          exact .reduced hforeign hd'
    | storeClassificationCopy guid' c =>
      obtain rfl : guid' = guid := congrArg RecordRef.guid htarget
      obtain ⟨e, he, helsewhere, hvalid, hforeign, hwrites⟩ :=
        Acting.storeClassificationCopy_eq_ok.1 h
      have he := Acting.entity_ok he
      obtain ⟨_, heq, rfl⟩ := hfull he
      cases heq
      rcases hwrites with ⟨-, rfl⟩ | ⟨hnewer, d', hd', rfl⟩
      · exact Or.inl hd
      · refine Or.inr ⟨e, he, ?_⟩
        rw [hput (e := { e with classifications := e.takingIn c }) rfl hd']
        exact .classified helsewhere hvalid hforeign hnewer (e.swapped_takingIn c) hd'
    | purgeClassificationCopy guid' name home =>
      obtain rfl : guid' = guid := congrArg RecordRef.guid htarget
      rcases Acting.purgeClassificationCopy_takes h with
        rfl | ⟨e, c, d', he, hfound, hforeign, rfl, hd', rfl⟩
      · exact Or.inl hd
      · obtain ⟨_, heq, rfl⟩ := hfull he
        cases heq
        refine Or.inr ⟨e, he, ?_⟩
        rw [hput (e := { e with classifications := e.removeFirst name }) rfl hd']
        exact .declassified hforeign (Entity.swapped_removeFirst hfound) hd'
    | storeRelationshipCopy | purgeRelationshipCopy => cases htarget
    | _ => cases hcopy
  · exact Or.inl ((Request.leaves_carryOut hsource h htarget hd hentity).trans hd)

/-- **The document of a relationship stays as it is**, or the relationship gives way. -/
theorem Request.relationship_gives_way (hcopy : req.aboutCopy = true)
    (hsource : a.context.source.Coherent) (h : req.carryOut a = .ok ws)
    (hd : a.document? (.relationship guid) = some d) :
    writeAll a.context.source.document? ws (RecordRef.relationship guid).docId = some d ∨
      ∃ rel, a.relationship? (.relationship guid) = .ok (some rel) ∧
        rel.GivesWay a.types a.collection.id req
          (writeAll a.context.source.document? ws (RecordRef.relationship guid).docId) := by
  by_cases htarget : req.target = .relationship guid
  · have hread {stored : Option Relationship}
        (hstored : a.relationship? (.relationship guid) = .ok stored) :
        ∃ rel, stored = some rel ∧ rel.guid = guid := by
      cases stored with
      | none => cases (Acting.relationship?_none hstored).symm.trans hd
      | some rel =>
        obtain ⟨d', _, _, hd', -, hread⟩ := Acting.relationship?_some hstored
        have hkey := (Relationship.ofDocument_ok hread).1.trans (hsource.keyed _ d' hd')
        exact ⟨rel, rfl, congrArg RecordRef.guid (RecordRef.docId_injective hkey)⟩
    cases req with
    | storeRelationshipCopy x =>
      obtain ⟨-, helsewhere, stored, hstored, hforeign, hwrites⟩ :=
        Acting.storeRelationshipCopy_eq_ok.1 h
      have hkey : x.reference = .relationship guid := htarget
      rw [hkey] at hstored
      obtain ⟨rel, rfl, hguid⟩ := hread hstored
      rcases hwrites with ⟨-, rfl⟩ | ⟨hnewer, proxies, -, d', hd', rfl⟩
      · exact Or.inl hd
      · refine Or.inr ⟨rel, hstored, ?_⟩
        have hput : writeAll a.context.source.document? (proxies ++ [.put d'])
            (RecordRef.relationship guid).docId = some d' := by
          rw [writeAll_concat, ← hkey, ← (Relationship.lays hd').id]
          exact Write.on_self
        rw [hput]
        exact .replaced (hforeign _ rfl) helsewhere
          ((congrArg RecordRef.guid hkey).trans hguid.symm) (hnewer rel rfl) hd'
    | purgeRelationshipCopy guid' home =>
      obtain rfl : guid' = guid := congrArg RecordRef.guid htarget
      rcases Acting.purgeRelationshipCopy_takes h with rfl | ⟨rel, hstored, hforeign, rfl, rfl⟩
      · exact Or.inl hd
      · obtain ⟨_, heq, rfl⟩ := hread hstored
        cases heq
        refine Or.inr ⟨rel, hstored, ?_⟩
        rw [writeAll_evict_self]
        exact .evicted hforeign
    | storeEntityCopy | purgeEntityCopy | storeClassificationCopy | purgeClassificationCopy =>
      cases htarget
    | _ => cases hcopy
  · refine Or.inl ((writeAll_of_forall_ne fun w hw heq => ?_).trans hd)
    rcases Request.writes_of_copy hcopy hsource h w hw with hown | ⟨guid', hentity⟩
    · exact htarget (RecordRef.docId_injective (heq.trans hown)).symm
    · exact RecordRef.relationship_ne_entity guid guid' (heq.trans hentity)

end CarryOut

end MetadataArchive
