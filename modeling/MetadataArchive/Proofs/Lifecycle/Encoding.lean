import MetadataArchive.Lifecycle.Encoding
import MetadataArchive.Proofs.Json.Decoding
import MetadataArchive.Proofs.Lifecycle.Version

/-!
# What of a request arrives

A request travels as JSON, and not all of it arrives as it was sent: a double that is not finite
becomes null, and then the whole request is unreadable. What is read is a request of the same kind,
for the same record, and it writes the same version.
-/

set_option autoImplicit false

namespace MetadataArchive

variable {j : Json}

/-! ## Records -/

theorem Header.ofJson?_version {h : Header} (hj : Header.ofJson? j = some h) :
    ∃ ms, j.toMembers? = some ms ∧ Json.required ms "version" Json.toUInt64? = some h.version := by
  obtain ⟨ms, hms, hj⟩ := Option.bind_eq_some_iff.1 hj
  obtain ⟨_, -, hj⟩ := Option.bind_eq_some_iff.1 hj
  obtain ⟨version, hversion, hj⟩ := Option.bind_eq_some_iff.1 hj
  -- The other fields are read after the version and leave it alone.
  iterate 12 obtain ⟨_, -, hj⟩ := Option.bind_eq_some_iff.1 hj
  cases hj
  exact ⟨ms, hms, hversion⟩

theorem Header.version_ofJson? {h h' : Header} (hj : Header.ofJson? h.toJson = some h') :
    h'.version = h.version := by
  obtain ⟨ms, hms, hversion⟩ := Header.ofJson?_version hj
  cases hms
  exact Option.some.inj (hversion.symm.trans (Json.returns_uint64 h.version))

theorem Entity.ofJson?_header {e : Entity} (hj : Entity.ofJson? j = some e) :
    ∃ ms, j.toMembers? = some ms ∧ Json.required ms "guid" Json.toString? = some e.guid ∧
      Json.required ms "header" Header.ofJson? = some e.header := by
  obtain ⟨ms, hms, hj⟩ := Option.bind_eq_some_iff.1 hj
  obtain ⟨guid, hguid, hj⟩ := Option.bind_eq_some_iff.1 hj
  obtain ⟨header, hheader, hj⟩ := Option.bind_eq_some_iff.1 hj
  obtain ⟨_, -, hj⟩ := Option.bind_eq_some_iff.1 hj
  obtain ⟨_, -, hj⟩ := Option.bind_eq_some_iff.1 hj
  cases hj
  exact ⟨ms, hms, hguid, hheader⟩

theorem Entity.header_ofJson? {e e' : Entity} (hj : Entity.ofJson? e.toJson = some e') :
    e'.guid = e.guid ∧ e'.header.version = e.header.version := by
  obtain ⟨ms, hms, hguid, hheader⟩ := Entity.ofJson?_header hj
  cases hms
  exact ⟨(Option.some.inj hguid).symm, Header.version_ofJson? hheader⟩

theorem Proxy.ofJson?_guid {p : Proxy} (hj : Proxy.ofJson? j = some p) :
    ∃ ms, j.toMembers? = some ms ∧ Json.required ms "guid" Json.toString? = some p.guid := by
  obtain ⟨ms, hms, hj⟩ := Option.bind_eq_some_iff.1 hj
  obtain ⟨guid, hguid, hj⟩ := Option.bind_eq_some_iff.1 hj
  obtain ⟨_, -, hj⟩ := Option.bind_eq_some_iff.1 hj
  obtain ⟨_, -, hj⟩ := Option.bind_eq_some_iff.1 hj
  cases hj
  exact ⟨ms, hms, hguid⟩

theorem Proxy.guid_ofJson? {p p' : Proxy} (hj : Proxy.ofJson? p.toJson = some p') :
    p'.guid = p.guid := by
  obtain ⟨ms, hms, hguid⟩ := Proxy.ofJson?_guid hj
  cases hms
  exact (Option.some.inj hguid).symm

theorem Relationship.ofJson?_header {rel : Relationship} (hj : Relationship.ofJson? j = some rel) :
    ∃ ms, j.toMembers? = some ms ∧ Json.required ms "guid" Json.toString? = some rel.guid ∧
      Json.required ms "header" Header.ofJson? = some rel.header := by
  obtain ⟨ms, hms, hj⟩ := Option.bind_eq_some_iff.1 hj
  obtain ⟨guid, hguid, hj⟩ := Option.bind_eq_some_iff.1 hj
  obtain ⟨header, hheader, hj⟩ := Option.bind_eq_some_iff.1 hj
  obtain ⟨_, -, hj⟩ := Option.bind_eq_some_iff.1 hj
  obtain ⟨_, -, hj⟩ := Option.bind_eq_some_iff.1 hj
  obtain ⟨_, -, hj⟩ := Option.bind_eq_some_iff.1 hj
  cases hj
  exact ⟨ms, hms, hguid, hheader⟩

theorem Relationship.header_ofJson? {rel rel' : Relationship}
    (hj : Relationship.ofJson? rel.toJson = some rel') :
    rel'.guid = rel.guid ∧ rel'.header.version = rel.header.version := by
  obtain ⟨ms, hms, hguid, hheader⟩ := Relationship.ofJson?_header hj
  cases hms
  exact ⟨(Option.some.inj hguid).symm, Header.version_ofJson? hheader⟩

/-! ## Requests -/

namespace Request

variable {req req' : Request}

theorem ofJson?_members (hj : Request.ofJson? j = some req) :
    ∃ ms name, j.toMembers? = some ms ∧ Json.required ms "function" Json.toString? = some name ∧
      Request.ofMembers? ms name = some req := by
  obtain ⟨ms, hms, hj⟩ := Option.bind_eq_some_iff.1 hj
  obtain ⟨name, hname, hj⟩ := Option.bind_eq_some_iff.1 hj
  exact ⟨ms, name, hms, hname, hj⟩

/-- A request names its function, and by that its fields are read. -/
theorem ofJson?_toJson (req : Request) :
    ofJson? req.toJson =
      ofMembers? (("function", .str req.function) :: req.members) req.function := by
  cases req with
  | changeEntity guid change => cases change <;> rfl
  | changeRelationship guid change => cases change <;> rfl
  | _ => rfl

section Changes

variable {ms : List (String × Json)} {change : Change} {guid : String}

/-- The function of a change says of which kind its record is. -/
theorem change?_other {kind kind' : RecordKind} (hkind : kind' ≠ kind) :
    change? ms kind' (change.function kind) = none := by
  cases kind <;> cases kind' <;> cases change <;>
    simp [change?, Change.function, RecordKind.name] at hkind ⊢

theorem guid?_changeMembers (kind : RecordKind) (guid : String) (change : Change) :
    guid? (("function", .str (change.function kind)) :: ("guid", .str guid) ::
      changeMembers change) = some guid := by
  cases change <;> rfl

theorem ofMembers?_change (kind : RecordKind) :
    ofMembers? ms (change.function kind) =
      match change? ms .entity (change.function kind),
        change? ms .relationship (change.function kind) with
      | some change, _ => (guid? ms).bind fun guid => some (.changeEntity guid change)
      | none, some change => (guid? ms).bind fun guid => some (.changeRelationship guid change)
      | none, none => none := by
  cases kind <;> cases change <;> rfl

theorem ofMembers?_entityChange (hguid : guid? ms = some guid)
    (hread : ofMembers? ms (change.function .entity) = some req') :
    ∃ change', req' = .changeEntity guid change' := by
  have hother : change? ms .relationship (change.function .entity) = none :=
    change?_other (by decide)
  rw [ofMembers?_change, hother, hguid] at hread
  cases hc : change? ms .entity (change.function .entity) with
  | none =>
    rw [hc] at hread
    cases hread
  | some change' =>
    rw [hc] at hread
    exact ⟨change', (Option.some.inj hread).symm⟩

theorem ofMembers?_relationshipChange (hguid : guid? ms = some guid)
    (hread : ofMembers? ms (change.function .relationship) = some req') :
    ∃ change', req' = .changeRelationship guid change' := by
  have hother : change? ms .entity (change.function .relationship) = none :=
    change?_other (by decide)
  rw [ofMembers?_change, hother, hguid] at hread
  cases hc : change? ms .relationship (change.function .relationship) with
  | none =>
    rw [hc] at hread
    cases hread
  | some change' =>
    rw [hc] at hread
    exact ⟨change', (Option.some.inj hread).symm⟩

end Changes

/-- **A request that arrives** is one for the same record, and it writes the same version. -/
theorem effect_ofJson? (hj : Request.ofJson? req.toJson = some req') :
    req'.target = req.target ∧ req'.newVersion = req.newVersion ∧ req'.isCopy = req.isCopy := by
  have hread := hj
  rw [ofJson?_toJson] at hread
  cases req with
  | createEntity guid | purgeEntity guid | classify guid | declassify guid
  | createRelationship guid | purgeRelationship guid | purgeEntityCopy guid
  | purgeRelationshipCopy guid | storeClassificationCopy guid | purgeClassificationCopy guid =>
    simp only [function] at hread
    generalize hms : (_ :: _ : List (String × Json)) = ms at hread
    have hguid : guid? ms = some guid := by
      rw [← hms]
      rfl
    simp only [ofMembers?, hguid, Option.bind_eq_bind, Option.bind_some, Option.bind_eq_some_iff,
      Option.some.injEq] at hread
    -- However many more fields there are, none of them is the guid or a version.
    repeat obtain ⟨_, -, hread⟩ := hread
    exact ⟨rfl, rfl, rfl⟩
  | createStub proxy =>
    obtain ⟨proxy', hproxy', rfl⟩ := Option.map_eq_some_iff.1 hread
    exact ⟨congrArg RecordRef.entity (Proxy.guid_ofJson? hproxy'), rfl, rfl⟩
  | changeEntity guid change =>
    obtain ⟨change', rfl⟩ :=
      ofMembers?_entityChange (guid?_changeMembers .entity guid change) hread
    exact ⟨rfl, rfl, rfl⟩
  | changeRelationship guid change =>
    obtain ⟨change', rfl⟩ :=
      ofMembers?_relationshipChange (guid?_changeMembers .relationship guid change) hread
    exact ⟨rfl, rfl, rfl⟩
  | storeEntityCopy e =>
    obtain ⟨e', he', rfl⟩ := Option.map_eq_some_iff.1 hread
    obtain ⟨hguid, hversion⟩ := Entity.header_ofJson? he'
    refine ⟨congrArg RecordRef.entity hguid, funext fun v => ?_, rfl⟩
    simp only [newVersion, hversion]
  | storeRelationshipCopy rel =>
    obtain ⟨rel', hrel', rfl⟩ := Option.map_eq_some_iff.1 hread
    obtain ⟨hguid, hversion⟩ := Relationship.header_ofJson? hrel'
    refine ⟨congrArg RecordRef.relationship hguid, funext fun v => ?_, rfl⟩
    simp only [newVersion, hversion]
  | storeHomeRelationship rel =>
    obtain ⟨rel', hrel', rfl⟩ := Option.map_eq_some_iff.1 hread
    obtain ⟨hguid, hversion⟩ := Relationship.header_ofJson? hrel'
    refine ⟨congrArg RecordRef.relationship hguid, funext fun v => ?_, rfl⟩
    simp only [newVersion, hversion]

theorem versionAfter_ofJson? (hj : Request.ofJson? req.toJson = some req') (r : RecordRef)
    (v : UInt64) : req'.versionAfter r v = req.versionAfter r v := by
  obtain ⟨htarget, hversion, -⟩ := effect_ofJson? hj
  unfold versionAfter
  rw [htarget, hversion]

end Request

theorem Invocation.ofJson?_required {i : Invocation} (hj : Invocation.ofJson? j = some i) :
    ∃ ms, j.toMembers? = some ms ∧ Json.required ms "request" Request.ofJson? = some i.request := by
  obtain ⟨ms, hms, hj⟩ := Option.bind_eq_some_iff.1 hj
  obtain ⟨_, -, hj⟩ := Option.bind_eq_some_iff.1 hj
  obtain ⟨_, -, hj⟩ := Option.bind_eq_some_iff.1 hj
  obtain ⟨request, hrequest, hj⟩ := Option.bind_eq_some_iff.1 hj
  cases hj
  exact ⟨ms, hms, hrequest⟩

theorem Invocation.ofJson?_request {i i' : Invocation}
    (hj : Invocation.ofJson? i.toJson = some i') :
    Request.ofJson? i.request.toJson = some i'.request := by
  obtain ⟨ms, hms, hrequest⟩ := Invocation.ofJson?_required hj
  cases hms
  exact hrequest

end MetadataArchive
