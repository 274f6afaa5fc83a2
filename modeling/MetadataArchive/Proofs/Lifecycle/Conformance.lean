import MetadataArchive.Proofs.Lifecycle.Settled

/-!
# Records that conform to their types

A record conforms where its type is known and of the right category, and where it has no property
that the type, with all it inherits, does not declare. A classification has to be valid for the type
of its entity besides, and be named as its type is.

A request checks only what it brings along, and takes it that the rest of the record, as it is read,
conforms already. That is true where all records conform that were written: what is read of a record
has the same names and the same types (`Entity.Rereads.conforms`), so each request of home writes
conforming records again (`Request.conforms_carryOut`).
-/

set_option autoImplicit false

namespace MetadataArchive

variable {ts : TypeSystem}

/-! ## Conforming -/

/-- A type that is known and of a category, by its guid and its name. -/
def TypeSystem.Refers (ts : TypeSystem) (category : TypeCategory) (r : TypeRef) : Prop :=
  ∃ t, ts.get? r.name = some t ∧ t.category = category ∧ t.typeRef = r

/-- The properties are all declared by a type or by one that it inherits from. -/
def Properties.Legal (ts : TypeSystem) (typeName : String) (ps : Properties) : Prop :=
  ∀ name v, ps.get? name = some v → ts.isLegalProperty typeName name = true

/-- A classification of entities of a type. -/
structure Classification.Conforms (ts : TypeSystem) (entityType : String) (c : Classification) :
    Prop where
  named : c.header.typeRef.name = c.name
  type : ts.Refers .classification c.header.typeRef
  valid : ts.isValidFor c.name entityType = true
  legal : c.properties.Legal ts c.name

structure Entity.Conforms (ts : TypeSystem) (e : Entity) : Prop where
  type : ts.Refers .entity e.header.typeRef
  legal : e.properties.Legal ts e.header.typeRef.name
  distinct : (e.classifications.map Classification.name).Nodup
  classifications : ∀ c ∈ e.classifications, c.Conforms ts e.header.typeRef.name

structure Relationship.Conforms (ts : TypeSystem) (rel : Relationship) : Prop where
  type : ts.Refers .relationship rel.header.typeRef
  legal : rel.properties.Legal ts rel.header.typeRef.name

theorem TypeSystem.Refers.undotted {category : TypeCategory} {r : TypeRef}
    (h : ts.Refers category r) (hundotted : ts.Undotted) : '.' ∉ r.name.toList := by
  obtain ⟨t, ht, -, rfl⟩ := h
  exact hundotted _ _ ht

/-- No name is in the way of storing a record that conforms. -/
theorem Entity.Conforms.wellNamed {e : Entity} (h : e.Conforms ts) (hundotted : ts.Undotted) :
    e.WellNamed where
  distinct := h.distinct
  undotted c hc := by
    rw [← (h.classifications c hc).named]
    exact (h.classifications c hc).type.undotted hundotted
  type := h.type.undotted hundotted
  classificationTypes c hc := (h.classifications c hc).type.undotted hundotted

/-! ## What is read conforms -/

theorem Properties.Rereads.legal {typeName : String} {ps ps' : Properties} (h : ps.Rereads ps')
    (hlegal : ps.Legal ts typeName) : ps'.Legal ts typeName := by
  intro name v hv
  have hname := h name
  rw [hv, Option.map_some, Option.map_eq_some_iff] at hname
  obtain ⟨w, hw, -⟩ := hname
  exact hlegal name w hw

theorem Classification.Rereads.conforms {entityType : String} {c c' : Classification}
    (h : c.Rereads c') (hc : c.Conforms ts entityType) : c'.Conforms ts entityType := by
  obtain ⟨ps, hps, rfl⟩ := h
  exact ⟨hc.named, hc.type, hc.valid, hps.legal hc.legal⟩

theorem Classification.conforms_of_rereads {entityType : String} {cs cs' : List Classification}
    (h : List.Forall₂ Classification.Rereads cs cs')
    (hcs : ∀ c ∈ cs, c.Conforms ts entityType) : ∀ c' ∈ cs', c'.Conforms ts entityType := by
  induction h with
  | nil => simp
  | cons hread _ ih =>
    rw [List.forall_mem_cons] at hcs ⊢
    exact ⟨hread.conforms hcs.1, ih hcs.2⟩

theorem Entity.Rereads.conforms {e e' : Entity} (h : e.Rereads e') (he : e.Conforms ts)
    (hundotted : ts.Undotted) : e'.Conforms ts := by
  have hdistinct := (h.wellNamed (he.wellNamed hundotted)).distinct
  obtain ⟨ps, cs, hps, hcs, rfl⟩ := h
  exact ⟨he.type, hps.legal he.legal, hdistinct,
    Classification.conforms_of_rereads hcs he.classifications⟩

theorem Relationship.Rereads.conforms {rel rel' : Relationship} (h : rel.Rereads rel')
    (hrel : rel.Conforms ts) : rel'.Conforms ts := by
  obtain ⟨ps, hps, rfl⟩ := h
  exact ⟨hrel.type, hps.legal hrel.legal⟩

/-! ## Rules -/

namespace Rule

variable {name entityType : String} {category : TypeCategory} {t : TypeDef} {ps : Properties}
variable {u : Unit}

theorem refers_of_typeOf (hnamed : ts.Named) (h : Rule.typeOf ts name category = .ok t) :
    ts.Refers category t.typeRef := by
  obtain ⟨ht, hcategory⟩ := Rule.typeOf_ok h
  refine ⟨t, ?_, hcategory, rfl⟩
  show ts.get? t.name = some t
  rwa [hnamed _ _ ht]

theorem name_of_typeOf (hnamed : ts.Named) (h : Rule.typeOf ts name category = .ok t) :
    t.typeRef.name = name := hnamed _ _ (Rule.typeOf_ok h).1

theorem legal_ok (h : Rule.legal ts name ps = .ok u) : ps.Legal ts name := by
  unfold Rule.legal at h
  split at h
  · cases h
  next hnone =>
    intro property v hv
    have hmem : property ∈ ps.names := NameMap.mem_names.2 (hv ▸ rfl)
    simpa using List.find?_eq_none.1 hnone property hmem

theorem applicable_ok (h : Rule.applicable ts name entityType = .ok u) :
    ts.isValidFor name entityType = true := by
  unfold Rule.applicable at h
  split at h
  next hvalid => exact hvalid
  · cases h

end Rule

/-! ## Requests one by one -/

/-- A document of a proxy, or of a record that conforms. -/
abbrev Document.Conforms (ts : TypeSystem) (d : Document) : Prop :=
  d.Holds ts (Entity.Conforms ts) (Relationship.Conforms ts)

/-- A change leaves the type as it is, and no properties but legal ones. -/
theorem Change.legal_apply {a : Acting} {r : RecordRef} {h h' : Header} {ps ps' : Properties}
    {c : Change} (hc : c.apply a r h ps = .ok (h', ps'))
    (hlegal : ps.Legal a.types h.typeRef.name) : ps'.Legal a.types h.typeRef.name := by
  cases c with
  | properties new =>
    simp only [Change.apply, bind_eq_ok, pure_eq_ok, Prod.mk.injEq] at hc
    obtain ⟨_, -, _, hnew, -, rfl⟩ := hc
    exact Rule.legal_ok hnew
  | status s =>
    obtain ⟨-, -, -, -, rfl⟩ := (Change.makes_apply hc).sets
    exact hlegal
  | delete | restore =>
    obtain ⟨-, -, -, rfl⟩ := (Change.makes_apply hc).sets
    exact hlegal

namespace Acting

variable {a : Acting} {ws : List Write} {w : Write} {guid name typeName entityType : String}
variable {ps : Properties} {status : Option Status}

theorem conforms_putEntity {e : Entity} (he : e.Conforms a.types) (h : a.putEntity e = .ok w) :
    ∀ d, .put d ∈ [w] → d.Conforms a.types := by
  obtain ⟨d, hd, rfl⟩ := putEntity_ok h
  intro d' hd'
  cases List.mem_singleton.1 hd'
  exact .entity hd he

theorem conforms_putRelationship {rel : Relationship} (hrel : rel.Conforms a.types)
    (h : a.putRelationship rel = .ok w) : ∀ d, .put d ∈ [w] → d.Conforms a.types := by
  obtain ⟨d, hd, rfl⟩ := putRelationship_ok h
  intro d' hd'
  cases List.mem_singleton.1 hd'
  exact .relationship hd hrel

theorem conforms_newProxies (h : a.OnlyNewProxies ws) :
    ∀ d, .put d ∈ ws → d.Conforms a.types := by
  intro d hd
  obtain ⟨p, _, heq, hp, -⟩ := h _ hd
  cases heq
  exact .proxy hp

section Creating

variable (hnamed : a.types.Named)
include hnamed

theorem conforms_newClassification {c : Classification}
    (h : a.newClassification entityType name ps = .ok c) :
    c.name = name ∧ c.Conforms a.types entityType := by
  simp only [newClassification, bind_eq_ok, pure_eq_ok, liftM_rejection_eq_ok] at h
  obtain ⟨t, htype, _, hvalid, _, hlegal, rfl⟩ := h
  exact ⟨rfl, Rule.name_of_typeOf hnamed htype, Rule.refers_of_typeOf hnamed htype,
    Rule.applicable_ok hvalid, Rule.legal_ok hlegal⟩

theorem conforms_newClassifications {done cs : List Classification}
    {new : List NewClassification} (hdistinct : (done.map Classification.name).Nodup)
    (hdone : ∀ c ∈ done, c.Conforms a.types entityType)
    (h : a.newClassifications entityType done new = .ok cs) :
    (cs.map Classification.name).Nodup ∧ ∀ c ∈ cs, c.Conforms a.types entityType := by
  induction new generalizing done with
  | nil =>
    cases h
    exact ⟨hdistinct, hdone⟩
  | cons c new ih =>
    unfold newClassifications at h
    split at h
    · simp only [bind_eq_ok, throw_eq_ok, false_and, exists_false] at h
    next hfresh =>
      simp only [bind_eq_ok] at h
      obtain ⟨c', hc', h⟩ := h
      obtain ⟨hname, hconforms⟩ := conforms_newClassification hnamed hc'
      have hfresh : ∀ d ∈ done, d.name ≠ c'.name := by simpa [hname] using hfresh
      apply ih _ _ h
      · simpa [List.nodup_append, hdistinct] using hfresh
      · intro d hd
        rcases List.mem_append.1 hd with hd | hd
        · exact hdone d hd
        · rw [List.mem_singleton.1 hd]
          exact hconforms

theorem conforms_createEntity {cs : List NewClassification}
    (h : a.createEntity guid typeName ps cs status = .ok ws) :
    ∀ d, .put d ∈ ws → d.Conforms a.types := by
  simp only [createEntity, bind_eq_ok, liftM_rejection_eq_ok] at h
  obtain ⟨t, ht, _, hlegal, s, -, stored, -, h⟩ := h
  have hname : t.typeRef.name = typeName := Rule.name_of_typeOf hnamed ht
  have hput : ∀ new w, a.newClassifications typeName [] cs = .ok new →
      a.putEntity ⟨guid, { a.newHeader t.typeRef with status := s }, ps, new⟩ = .ok w →
      ∀ d, .put d ∈ [w] → d.Conforms a.types := by
    intro new w hnew hw
    obtain ⟨hdistinct, hnew⟩ := conforms_newClassifications hnamed (by simp) (by simp) hnew
    apply conforms_putEntity _ hw
    refine ⟨Rule.refers_of_typeOf hnamed ht, ?_, hdistinct, ?_⟩
    · exact (hname ▸ Rule.legal_ok hlegal :)
    · exact (hname ▸ hnew :)
  cases stored with
  | none =>
    simp only [bind_eq_ok, pure_eq_ok] at h
    obtain ⟨new, hnew, w, hw, rfl⟩ := h
    exact hput new w hnew hw
  | some existing =>
    dsimp only at h
    split at h
    · simp only [bind_eq_ok, throw_eq_ok, false_and, exists_false] at h
    · simp only [bind_eq_ok, pure_eq_ok] at h
      obtain ⟨new, hnew, w, hw, rfl⟩ := h
      exact hput new w hnew hw

theorem conforms_createRelationship {endOne endTwo : Proxy}
    (h : a.createRelationship guid typeName ps status endOne endTwo = .ok ws) :
    ∀ d, .put d ∈ ws → d.Conforms a.types := by
  simp only [createRelationship, bind_eq_ok, liftM_rejection_eq_ok] at h
  obtain ⟨t, ht, _, hlegal, s, -, h⟩ := h
  have hname : t.typeRef.name = typeName := Rule.name_of_typeOf hnamed ht
  split at h
  · simp only [bind_eq_ok, throw_eq_ok, false_and, exists_false] at h
  · simp only [bind_eq_ok, pure_eq_ok] at h
    obtain ⟨proxies, hproxies, w, hw, rfl⟩ := h
    intro d hd
    rcases List.mem_append.1 hd with hd | hd
    · exact conforms_newProxies (endProxies_ok hproxies).1 d hd
    · apply conforms_putRelationship _ hw d hd
      exact ⟨Rule.refers_of_typeOf hnamed ht, (hname ▸ Rule.legal_ok hlegal :)⟩

end Creating

section Editing

variable {e : Entity} {rel : Relationship}

theorem conforms_changeEntity {change : Change}
    (hread : ∀ e, a.stored? (.entity guid) = .ok (some (.full e)) → e.Conforms a.types)
    (h : a.changeEntity guid change = .ok ws) : ∀ d, .put d ∈ ws → d.Conforms a.types := by
  simp only [changeEntity, bind_eq_ok, pure_eq_ok, liftM_rejection_eq_ok] at h
  obtain ⟨e, he, ⟨header, properties⟩, hchange, w, hw, rfl⟩ := h
  have he := hread e (entity_ok he)
  have htype : header.typeRef = e.header.typeRef := Change.typeRef_apply hchange
  apply conforms_putEntity _ hw
  refine ⟨?_, ?_, he.distinct, ?_⟩
  · exact (htype ▸ he.type :)
  · exact (htype ▸ Change.legal_apply hchange he.legal :)
  · exact (htype ▸ he.classifications :)

theorem conforms_classify {mode : ClassifyMode} (hnamed : a.types.Named)
    (hread : ∀ e, a.stored? (.entity guid) = .ok (some (.full e)) → e.Conforms a.types)
    (h : a.classify guid name ps mode = .ok ws) : ∀ d, .put d ∈ ws → d.Conforms a.types := by
  simp only [classify, bind_eq_ok, liftM_rejection_eq_ok] at h
  obtain ⟨e, he, _, -, h⟩ := h
  have he := hread e (entity_ok he)
  split at h
  · simp only [bind_eq_ok, throw_eq_ok, false_and, exists_false] at h
  · simp only [bind_eq_ok, throw_eq_ok, false_and, exists_false] at h
  next c hfound _ =>
    simp only [bind_eq_ok, pure_eq_ok, liftM_rejection_eq_ok] at h
    obtain ⟨_, -, _, hvalid, _, hlegal, _, rfl, w, hw, rfl⟩ := h
    -- The classification keeps its name and its type, and has new properties.
    let c' := { c with properties := ps, header := a.touch c.header }
    have hname : c'.name = name := (Entity.split_classification? hfound).1
    have hswapped := Entity.swapped_replaceFirst hfound hname
    have hc := he.classifications c (hswapped.mem_of_old rfl)
    apply conforms_putEntity _ hw
    refine ⟨he.type, he.legal, hswapped.nodup he.distinct, ?_⟩
    apply hswapped.forall_mem he.classifications
    intro d hd
    cases hd
    refine ⟨hc.named, hc.type, hc.valid, ?_⟩
    show ps.Legal a.types c.name
    exact hname ▸ Rule.legal_ok hlegal
  next hfound _ =>
    simp only [bind_eq_ok, pure_eq_ok] at h
    obtain ⟨c, hc, _, rfl, w, hw, rfl⟩ := h
    obtain ⟨hname, hc⟩ := conforms_newClassification hnamed hc
    have hswapped := Entity.swapped_concat hfound hname
    apply conforms_putEntity _ hw
    refine ⟨he.type, he.legal, hswapped.nodup he.distinct, ?_⟩
    apply hswapped.forall_mem he.classifications
    intro d hd
    cases hd
    exact hc

theorem conforms_declassify
    (hread : ∀ e, a.stored? (.entity guid) = .ok (some (.full e)) → e.Conforms a.types)
    (h : a.declassify guid name = .ok ws) : ∀ d, .put d ∈ ws → d.Conforms a.types := by
  simp only [declassify, bind_eq_ok, liftM_rejection_eq_ok] at h
  obtain ⟨e, he, _, -, h⟩ := h
  have he := hread e (entity_ok he)
  split at h
  · simp only [throw_eq_ok] at h
  next c hfound =>
    simp only [bind_eq_ok, pure_eq_ok] at h
    obtain ⟨_, -, w, hw, rfl⟩ := h
    have hswapped := Entity.swapped_removeFirst hfound
    apply conforms_putEntity _ hw
    exact ⟨he.type, he.legal, hswapped.nodup he.distinct,
      hswapped.forall_mem he.classifications (by simp)⟩

theorem conforms_changeRelationship {change : Change}
    (hread : ∀ rel, a.relationship? (.relationship guid) = .ok (some rel) → rel.Conforms a.types)
    (h : a.changeRelationship guid change = .ok ws) : ∀ d, .put d ∈ ws → d.Conforms a.types := by
  simp only [changeRelationship, bind_eq_ok, pure_eq_ok, liftM_rejection_eq_ok] at h
  obtain ⟨rel, hrel, ⟨header, properties⟩, hchange, w, hw, rfl⟩ := h
  have hrel := hread rel (relationship_ok hrel)
  have htype : header.typeRef = rel.header.typeRef := Change.typeRef_apply hchange
  apply conforms_putRelationship _ hw
  refine ⟨?_, ?_⟩
  · exact (htype ▸ hrel.type :)
  · exact (htype ▸ Change.legal_apply hchange hrel.legal :)

end Editing

end Acting

section Reading

variable {d : Document} (h : d.Conforms ts) (hnamed : ts.Named) (hundotted : ts.Undotted)
include h hnamed hundotted

/-- An entity that is read conforms, where what was written does. -/
theorem Document.Conforms.full {e : Entity} (hread : StoredEntity.ofDocument d = .ok (.full e)) :
    e.Conforms ts := by
  obtain ⟨e₀, he₀, hrereads⟩ :=
    Document.Holds.full hnamed hundotted (fun e he => he.wellNamed hundotted) h hread
  exact hrereads.conforms he₀ hundotted

theorem Document.Conforms.relationship {rel : Relationship} {one two : Option Document}
    (hread : Relationship.ofDocument ts d one two = .ok rel) : rel.Conforms ts := by
  obtain ⟨rel₀, hrel₀, hrereads⟩ :=
    Document.Holds.relationship_of_ofDocument hnamed hundotted h hread
  exact hrereads.conforms ⟨hrel₀.type, hrel₀.legal⟩

end Reading

/-! ## All requests of home -/

section CarryOut

variable {a : Acting} {req : Request} {ws : List Write}
variable (hnamed : a.types.Named) (hundotted : a.types.Undotted)
include hnamed hundotted

/-- **Every request of home writes records that conform**, where all records conform. -/
theorem Request.conforms_carryOut
    (hdocs : ∀ id d, a.context.source.document? id = some d → d.Conforms a.types)
    (hhome : req.OfHome) (h : req.carryOut a = .ok ws) :
    ∀ d, .put d ∈ ws → d.Conforms a.types := by
  have hread {guid : String} (e : Entity)
      (he : a.stored? (.entity guid) = .ok (some (.full e))) : e.Conforms a.types := by
    obtain ⟨d, hd, he⟩ := Acting.stored?_some he
    exact Document.Conforms.full (hdocs _ d hd) hnamed hundotted he
  cases req with
  | createEntity => exact Acting.conforms_createEntity hnamed h
  | createStub proxy =>
    rcases Acting.createStub_ok h with rfl | ⟨-, d, hd, rfl⟩
    · simp
    · intro d' hd'
      cases List.mem_singleton.1 hd'
      exact .proxy hd
  | changeEntity => exact Acting.conforms_changeEntity hread h
  | purgeEntity =>
    obtain ⟨ids, -, rfl⟩ := Acting.purgeEntity_ok h
    simp
  | classify => exact Acting.conforms_classify hnamed hread h
  | declassify => exact Acting.conforms_declassify hread h
  | createRelationship => exact Acting.conforms_createRelationship hnamed h
  | changeRelationship =>
    apply Acting.conforms_changeRelationship _ h
    intro rel hrel
    obtain ⟨d, one, two, hd, -, hrel⟩ := Acting.relationship?_some hrel
    exact Document.Conforms.relationship (hdocs _ d hd) hnamed hundotted hrel
  | purgeRelationship =>
    rw [Acting.purgeRelationship_ok h]
    simp
  | _ => exact absurd (of_decide_eq_true rfl) hhome

end CarryOut

end MetadataArchive
