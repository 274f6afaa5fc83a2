import MetadataArchive.Proofs.Lifecycle.Written
import MetadataArchive.Proofs.Lifecycle.Encoding
import MetadataArchive.Proofs.Record.Returning

/-!
# The values of all records

Values come with requests, and nothing that a request writes has values from elsewhere than the
request or the stored record that it edits. What is decoded of a request is sound, and what is read
of a stored record is sound and shallow; so all values that are ever written are sound, and they are
shallow as long as those of all requests are.
-/

set_option autoImplicit false

namespace MetadataArchive

variable {P : PropertyValue → Prop} {j : Json}

/-! ## Values of requests -/

/-- The values of a relationship and of its ends have the property. -/
structure Relationship.All (P : PropertyValue → Prop) (rel : Relationship) : Prop where
  properties : rel.properties.All P
  endOne : rel.endOne.uniqueProperties.All P
  endTwo : rel.endTwo.uniqueProperties.All P

def Change.All (P : PropertyValue → Prop) : Change → Prop
  | .properties ps => ps.All P
  | _ => True

/-- All values that come with a request have the property. -/
def Request.All (P : PropertyValue → Prop) : Request → Prop
  | .createEntity _ _ ps cs _ => ps.All P ∧ ∀ c ∈ cs, c.properties.All P
  | .createStub p => p.uniqueProperties.All P
  | .changeEntity _ change | .changeRelationship _ change => change.All P
  | .classify _ _ ps _ => ps.All P
  | .createRelationship _ _ ps _ one two =>
      ps.All P ∧ one.uniqueProperties.All P ∧ two.uniqueProperties.All P
  | .storeEntityCopy e => e.All P
  | .storeRelationshipCopy rel | .storeHomeRelationship rel => rel.All P
  | .storeClassificationCopy _ c => c.properties.All P
  | _ => True

section Computing

variable [DecidablePred P]

instance (rel : Relationship) : Decidable (rel.All P) :=
  decidable_of_iff (rel.properties.All P ∧ rel.endOne.uniqueProperties.All P ∧
      rel.endTwo.uniqueProperties.All P)
    ⟨fun h => ⟨h.1, h.2.1, h.2.2⟩, fun h => ⟨h.properties, h.endOne, h.endTwo⟩⟩

instance : (change : Change) → Decidable (change.All P)
  | .properties ps => inferInstanceAs (Decidable (ps.All P))
  | .status _ | .delete | .restore => .isTrue trivial

instance : (req : Request) → Decidable (req.All P)
  | .createEntity _ _ ps cs _ =>
      inferInstanceAs (Decidable (ps.All P ∧ ∀ c ∈ cs, c.properties.All P))
  | .createStub p => inferInstanceAs (Decidable (p.uniqueProperties.All P))
  | .changeEntity _ change | .changeRelationship _ change =>
      inferInstanceAs (Decidable (change.All P))
  | .classify _ _ ps _ => inferInstanceAs (Decidable (ps.All P))
  | .createRelationship _ _ ps _ one two =>
      inferInstanceAs (Decidable
        (ps.All P ∧ one.uniqueProperties.All P ∧ two.uniqueProperties.All P))
  | .storeEntityCopy e => inferInstanceAs (Decidable (e.All P))
  | .storeRelationshipCopy rel | .storeHomeRelationship rel =>
      inferInstanceAs (Decidable (rel.All P))
  | .storeClassificationCopy _ c => inferInstanceAs (Decidable (c.properties.All P))
  | .purgeEntity .. | .declassify .. | .purgeRelationship .. | .purgeEntityCopy ..
  | .purgeRelationshipCopy .. | .purgeClassificationCopy .. => .isTrue trivial

end Computing

section Both

variable {P' Q : PropertyValue → Prop}

theorem Properties.All.imp₂ {ps : Properties} (h : ps.All P) (h' : ps.All P')
    (hQ : ∀ v, P v → P' v → Q v) : ps.All Q :=
  fun name v hv => hQ v (h name v hv) (h' name v hv)

theorem Relationship.All.imp₂ {rel : Relationship} (h : rel.All P) (h' : rel.All P')
    (hQ : ∀ v, P v → P' v → Q v) : rel.All Q :=
  ⟨h.properties.imp₂ h'.properties hQ, h.endOne.imp₂ h'.endOne hQ, h.endTwo.imp₂ h'.endTwo hQ⟩

theorem Change.All.imp₂ {change : Change} (h : change.All P) (h' : change.All P')
    (hQ : ∀ v, P v → P' v → Q v) : change.All Q := by
  cases change with
  | properties ps => exact Properties.All.imp₂ h h' hQ
  | status | delete | restore => trivial

/-- What two properties of all values of a request make of each value. -/
theorem Request.All.imp₂ {req : Request} (h : req.All P) (h' : req.All P')
    (hQ : ∀ v, P v → P' v → Q v) : req.All Q := by
  cases req with
  | createEntity =>
    exact ⟨h.1.imp₂ h'.1 hQ, fun c hc => (h.2 c hc).imp₂ (h'.2 c hc) hQ⟩
  | createStub | classify | storeClassificationCopy => exact Properties.All.imp₂ h h' hQ
  | changeEntity | changeRelationship => exact Change.All.imp₂ h h' hQ
  | createRelationship =>
    exact ⟨h.1.imp₂ h'.1 hQ, h.2.1.imp₂ h'.2.1 hQ, h.2.2.imp₂ h'.2.2 hQ⟩
  | storeEntityCopy =>
    exact ⟨h.properties.imp₂ h'.properties hQ,
      fun c hc => (h.classifications c hc).imp₂ (h'.classifications c hc) hQ⟩
  | storeRelationshipCopy | storeHomeRelationship => exact Relationship.All.imp₂ h h' hQ
  | purgeEntity | declassify | purgeRelationship | purgeEntityCopy | purgeRelationshipCopy
  | purgeClassificationCopy => trivial

end Both

/-! ## Decoding -/

section Decoding

theorem PropertyValue.decodes_sound : Json.Decodes Sound ofJson? := fun j v hj hv => by
  have hfits : j.Fits j.nesting := ⟨hj, Nat.le_refl _⟩
  exact (sound_of_ofJson? hfits hv).1

theorem Header.decodes : Json.Decodes Header.InCalendar ofJson? :=
  fun _ _ _ hh => inCalendar_of_ofJson? hh

/-- The headers that come with a request. -/
def Request.headers : Request → List Header
  | .createStub p => [p.header]
  | .createRelationship _ _ _ _ one two => [one.header, two.header]
  | .storeEntityCopy e => e.headers
  | .storeRelationshipCopy rel | .storeHomeRelationship rel => rel.headers
  | .storeClassificationCopy _ c => [c.header]
  | _ => []

variable (hP : Json.Decodes P PropertyValue.ofJson?)

include hP

theorem Properties.decodes : Json.Decodes (Properties.All P) ofJson? := hP.toNameMap?

theorem Classification.decodes :
    Json.Decodes (fun c => c.header.InCalendar ∧ c.properties.All P) ofJson? := by
  intro j c hj hc
  simp only [ofJson?, Option.bind_eq_bind, Option.bind_eq_some_iff, Option.some.injEq] at hc
  obtain ⟨ms, hms, _, -, h, hh, _, -, _, -, ps, hps, rfl⟩ := hc
  have hmembers := hj.members hms
  exact ⟨Header.decodes.required hmembers hh, (Properties.decodes hP).required hmembers hps⟩

theorem NewClassification.decodes : Json.Decodes (fun c => c.properties.All P) ofJson? := by
  intro j c hj hc
  simp only [ofJson?, Option.bind_eq_bind, Option.bind_eq_some_iff, Option.some.injEq] at hc
  obtain ⟨ms, hms, _, -, ps, hps, rfl⟩ := hc
  exact (Properties.decodes hP).defaulted (fun _ _ h => by cases h) (hj.members hms) hps

theorem Entity.decodes :
    Json.Decodes (fun e => (∀ h ∈ e.headers, h.InCalendar) ∧ e.All P) ofJson? := by
  intro j e hj he
  simp only [ofJson?, Option.bind_eq_bind, Option.bind_eq_some_iff, Option.some.injEq] at he
  obtain ⟨ms, hms, _, -, h, hh, ps, hps, cs, hcs, rfl⟩ := he
  have hmembers := hj.members hms
  have hcs := (Classification.decodes hP).toList?.required hmembers hcs
  refine ⟨List.forall_mem_cons.2 ⟨Header.decodes.required hmembers hh, ?_⟩,
    (Properties.decodes hP).required hmembers hps, fun c hc => (hcs c hc).2⟩
  exact List.forall_mem_map.2 fun c hc => (hcs c hc).1

theorem Proxy.decodes :
    Json.Decodes (fun p => p.header.InCalendar ∧ p.uniqueProperties.All P) ofJson? := by
  intro j p hj hp
  simp only [ofJson?, Option.bind_eq_bind, Option.bind_eq_some_iff, Option.some.injEq] at hp
  obtain ⟨ms, hms, _, -, h, hh, ps, hps, rfl⟩ := hp
  have hmembers := hj.members hms
  exact ⟨Header.decodes.required hmembers hh, (Properties.decodes hP).required hmembers hps⟩

theorem Relationship.decodes :
    Json.Decodes (fun rel => (∀ h ∈ rel.headers, h.InCalendar) ∧ rel.All P) ofJson? := by
  intro j rel hj hrel
  simp only [ofJson?, Option.bind_eq_bind, Option.bind_eq_some_iff, Option.some.injEq] at hrel
  obtain ⟨ms, hms, _, -, h, hh, ps, hps, one, hone, two, htwo, rfl⟩ := hrel
  have hmembers := hj.members hms
  obtain ⟨hheaderOne, hone⟩ := (Proxy.decodes hP).required hmembers hone
  obtain ⟨hheaderTwo, htwo⟩ := (Proxy.decodes hP).required hmembers htwo
  refine ⟨?_, (Properties.decodes hP).required hmembers hps, hone, htwo⟩
  simpa [headers] using ⟨Header.decodes.required hmembers hh, hheaderOne, hheaderTwo⟩

namespace Request

variable {ms : List (String × Json)} {function : String} {req : Request}

theorem all_of_change? {kind : RecordKind} {change : Change} (hms : ∀ m ∈ ms, m.2.Proper)
    (h : change? ms kind function = some change) : change.All P := by
  unfold change? at h
  split at h
  · obtain ⟨ps, hps, rfl⟩ := Option.map_eq_some_iff.1 h
    exact (Properties.decodes hP).required hms hps
  · split at h
    · obtain ⟨s, -, rfl⟩ := Option.map_eq_some_iff.1 h
      trivial
    · split at h
      · cases h
        trivial
      · split at h
        · cases h
          trivial
        · cases h

theorem all_of_ofMembers? (hms : ∀ m ∈ ms, m.2.Proper) (h : ofMembers? ms function = some req) :
    (∀ h ∈ req.headers, h.InCalendar) ∧ req.All P := by
  have hproperties {ps : Properties} (hps : properties? ms = some ps) : ps.All P :=
    (Properties.decodes hP).defaulted (fun _ _ h => by cases h) hms hps
  have hnone : ∀ h ∈ ([] : List Header), h.InCalendar := fun _ h => by cases h
  unfold ofMembers? at h
  split at h
  all_goals simp only [Option.bind_eq_bind, Option.bind_eq_some_iff, Option.map_eq_some_iff,
    Option.some.injEq] at h
  case h_1 =>
    obtain ⟨_, -, _, -, ps, hps, cs, hcs, _, -, rfl⟩ := h
    have hcs := (NewClassification.decodes hP).toList?.defaulted (by simp) hms hcs
    exact ⟨hnone, hproperties hps, hcs⟩
  case h_2 =>
    obtain ⟨p, hp, rfl⟩ := h
    obtain ⟨hheader, hp⟩ := (Proxy.decodes hP).required hms hp
    exact ⟨List.forall_mem_singleton.2 hheader, hp⟩
  case h_4 =>
    obtain ⟨_, -, _, -, ps, hps, _, -, rfl⟩ := h
    exact ⟨hnone, hproperties hps⟩
  case h_6 =>
    obtain ⟨_, -, _, -, ps, hps, _, -, one, hone, two, htwo, rfl⟩ := h
    obtain ⟨hheaderOne, hone⟩ := (Proxy.decodes hP).required hms hone
    obtain ⟨hheaderTwo, htwo⟩ := (Proxy.decodes hP).required hms htwo
    refine ⟨?_, hproperties hps, hone, htwo⟩
    simpa [headers] using ⟨hheaderOne, hheaderTwo⟩
  case h_8 =>
    obtain ⟨e, he, rfl⟩ := h
    exact (Entity.decodes hP).required hms he
  case h_10 | h_11 =>
    obtain ⟨rel, hrel, rfl⟩ := h
    exact (Relationship.decodes hP).required hms hrel
  case h_13 =>
    obtain ⟨_, -, c, hc, rfl⟩ := h
    obtain ⟨hheader, hc⟩ := (Classification.decodes hP).required hms hc
    exact ⟨List.forall_mem_singleton.2 hheader, hc⟩
  case h_15 =>
    split at h
    next hchange =>
      obtain ⟨_, -, heq⟩ := Option.bind_eq_some_iff.1 h
      cases heq
      exact ⟨hnone, all_of_change? hP hms hchange⟩
    next hchange =>
      obtain ⟨_, -, heq⟩ := Option.bind_eq_some_iff.1 h
      cases heq
      exact ⟨hnone, all_of_change? hP hms hchange⟩
    · cases h
  -- The others take something away and bring no values.
  case h_3 | h_5 | h_7 | h_9 | h_12 =>
    obtain ⟨_, -, _, -, rfl⟩ := h
    exact ⟨hnone, trivial⟩
  case h_14 =>
    obtain ⟨_, -, _, -, _, -, rfl⟩ := h
    exact ⟨hnone, trivial⟩

end Request

/-- All that comes with an invocation is as it can be decoded: the times in headers are in the
calendar, and values are as the decoder of values leaves them. -/
theorem Invocation.all_of_ofJson? {args : Json} {i : Invocation} (hargs : args.Proper)
    (h : Invocation.ofJson? args = some i) :
    (∀ h ∈ i.request.headers, h.InCalendar) ∧ i.request.All P := by
  obtain ⟨ms, hms, hrequest⟩ := Invocation.ofJson?_required h
  obtain ⟨j, hmem, hj⟩ := Json.mem_of_required hrequest
  obtain ⟨ms', name, hms', -, hread⟩ := Request.ofJson?_members hj
  exact Request.all_of_ofMembers? hP ((hargs.members hms _ hmem).members hms') hread

end Decoding

/-! ## Guids of requests -/

/-- The records that come with a request, but for proxies. -/
def Request.records : Request → List RecordRef
  | .createEntity guid _ _ _ _ => [.entity guid]
  | .createRelationship guid _ _ _ _ _ => [.relationship guid]
  | .storeEntityCopy e => [e.reference]
  | .storeRelationshipCopy rel | .storeHomeRelationship rel => [rel.reference]
  | _ => []

/-- Every record that comes with a request has a guid, and so has every proxy. -/
structure Request.Guided (req : Request) : Prop where
  records : ∀ r ∈ req.records, r.guid ≠ ""
  proxies : ∀ p ∈ req.proxies, p.guid ≠ ""

instance (req : Request) : Decidable req.Guided :=
  decidable_of_iff ((∀ r ∈ req.records, r.guid ≠ "") ∧ ∀ p ∈ req.proxies, p.guid ≠ "")
    ⟨fun h => ⟨h.1, h.2⟩, fun h => ⟨h.records, h.proxies⟩⟩

/-! ## What requests write -/

section Writing

variable {a : Acting} {req : Request} {e : Entity}

theorem Properties.All.mono {P' : PropertyValue → Prop} {ps : Properties} (h : ps.All P)
    (hP : ∀ v, P v → P' v) : ps.All P' := fun name v hv => hP v (h name v hv)

theorem Entity.All.mono {P' : PropertyValue → Prop} (h : e.All P) (hP : ∀ v, P v → P' v) :
    e.All P' :=
  ⟨h.properties.mono hP, fun c hc => (h.classifications c hc).mono hP⟩

theorem Change.Makes.all {c : Change} {user : String} {collection : Collection} {now : Instant}
    {h h' : Header} {ps ps' : Properties} (makes : c.Makes user collection now h ps h' ps')
    (hc : c.All P) (hps : ps.All P) : ps'.All P := by
  have hsets := makes.sets
  cases c with
  | properties new =>
    obtain ⟨-, -, -, rfl⟩ := hsets
    exact hc
  | status s =>
    obtain ⟨-, -, -, -, rfl⟩ := hsets
    exact hps
  | delete | restore =>
    obtain ⟨-, -, -, rfl⟩ := hsets
    exact hps

theorem Entity.all_of_stored? (hP : ∀ v : PropertyValue, v.Sound ∧ v.Shallow → P v) {r : RecordRef}
    (h : a.stored? r = .ok (some (.full e))) : e.All P := by
  obtain ⟨d, -, hread⟩ := Acting.stored?_some h
  exact (Entity.all_of_ofDocument hread).mono hP

/-- **The values of an entity** that a request puts come with the request, or were read. -/
theorem Entity.Put.all (hP : ∀ v : PropertyValue, v.Sound ∧ v.Shallow → P v) (hreq : req.All P)
    (h : Entity.Put a req e) : e.All P := by
  cases h with
  | created _ properties _ classifications =>
    refine ⟨properties ▸ hreq.1, fun c hc => ?_⟩
    obtain ⟨new, hnew, -, hsame, -⟩ := classifications c hc
    exact hsame ▸ hreq.2 new hnew
  | edited stored edited =>
    have hold := Entity.all_of_stored? hP stored
    cases edited with
    | changed makes => exact ⟨makes.all hreq hold.properties, hold.classifications⟩
    | classified _ _ _ _ swapped | reclassified _ _ _ _ _ swapped =>
      refine ⟨hold.properties, swapped.forall_mem hold.classifications fun c hc => ?_⟩
      cases hc
      exact hreq
    | declassified _ _ _ swapped =>
      exact ⟨hold.properties, swapped.forall_mem hold.classifications (by simp)⟩
  | copied => exact hreq
  | @received _ c old stored valid =>
    have hold := Entity.all_of_stored? hP stored
    refine ⟨hold.properties,
      (old.swapped_takingIn c).forall_mem hold.classifications fun c' hc => ?_⟩
    cases hc
    exact hreq
  | withdrawn stored found =>
    have hold := Entity.all_of_stored? hP stored
    exact ⟨hold.properties,
      (Entity.swapped_removeFirst found).forall_mem hold.classifications (by simp)⟩

theorem Entity.Put.guid_ne (hreq : req.Guided) (h : Entity.Put a req e) : e.guid ≠ "" := by
  have hstored {r : RecordRef} {old : Entity} (h : a.stored? r = .ok (some (.full old))) :
      old.guid ≠ "" := by
    obtain ⟨d, -, hread⟩ := Acting.stored?_some h
    exact (Entity.reads_of_ofDocument hread).1
  cases h with
  | created guid_eq =>
    rw [guid_eq]
    exact hreq.records _ (List.mem_singleton.2 rfl)
  | edited stored edited => exact edited.guid ▸ hstored stored
  | copied => exact hreq.records e.reference (List.mem_singleton.2 rfl)
  | received stored | withdrawn stored =>
    have hold := hstored stored
    exact hold

theorem Proxy.Put.all {p : Proxy} (hP : ∀ v : PropertyValue, v.Sound ∧ v.Shallow → P v)
    (hreq : req.All P) (h : Proxy.Put a req p) : p.uniqueProperties.All P := by
  cases h with
  | brought mem =>
    cases req with
    | createStub => exact List.mem_singleton.1 mem ▸ hreq
    | createRelationship =>
      rcases List.mem_pair.1 mem with rfl | rfl
      · exact hreq.2.1
      · exact hreq.2.2
    | storeRelationshipCopy | storeHomeRelationship =>
      rcases List.mem_pair.1 mem with rfl | rfl
      · exact hreq.endOne
      · exact hreq.endTwo
    | _ => cases mem
  | reduced stored =>
    intro name v hv
    rw [Entity.toProxy, NameMap.get?_filter, Option.filter_eq_some_iff] at hv
    exact (Entity.all_of_stored? hP stored).properties name v hv.1

theorem Proxy.Put.guid_ne {p : Proxy} (hreq : req.Guided) (h : Proxy.Put a req p) :
    p.guid ≠ "" := by
  cases h with
  | brought mem => exact hreq.proxies p mem
  | reduced stored =>
    obtain ⟨d, -, hread⟩ := Acting.stored?_some stored
    exact (Entity.reads_of_ofDocument hread).1

theorem Relationship.Put.all {rel : Relationship}
    (hP : ∀ v : PropertyValue, v.Sound ∧ v.Shallow → P v) (hreq : req.All P)
    (h : Relationship.Put a req rel) : rel.properties.All P := by
  cases h with
  | created _ properties => exact properties ▸ hreq.1
  | edited stored edited =>
    obtain ⟨d, one, two, -, -, hread⟩ := Acting.relationship?_some stored
    have hold := (Relationship.all_of_ofDocument hread).mono hP
    cases edited with
    | changed makes => exact makes.all hreq hold
  | copied | broughtHome => exact hreq.properties

theorem Relationship.Put.guid_ne {rel : Relationship} (hreq : req.Guided)
    (h : Relationship.Put a req rel) : rel.guid ≠ "" := by
  cases h with
  | created guid_eq =>
    rw [guid_eq]
    exact hreq.records _ (List.mem_singleton.2 rfl)
  | edited stored edited =>
    obtain ⟨d, one, two, -, -, hread⟩ := Acting.relationship?_some stored
    exact edited.guid ▸ (Relationship.reads_of_ofDocument hread).1
  | copied | broughtHome => exact hreq.records rel.reference (List.mem_singleton.2 rfl)

end Writing

end MetadataArchive
