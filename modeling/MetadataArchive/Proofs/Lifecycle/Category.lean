import MetadataArchive.Proofs.Lifecycle.Integrity
import MetadataArchive.Proofs.Record.Category

/-!
# Documents under the right kind of key

The key of a document says which kind of record it is, and the type that it names says of which
category it is. `Filed` is the invariant that the two agree: a relationship is of that category and
names both ends, and an entity is of a category that fits.

Which category fits an entity is a parameter. Every request checks the types of what it creates, of
what it takes over and of the proxies that it adds, and whatever else it writes keeps the type of
what was read; so requests keep the invariant for any notion of fitness by which entity types fit.
-/

set_option autoImplicit false

namespace MetadataArchive

variable {ts : TypeSystem} {fit : TypeCategory → Prop} {d : Document}

/-! ## The invariant -/

/-- The key of a document agrees with the category of its type. -/
inductive Document.Filed (ts : TypeSystem) (fit : TypeCategory → Prop) (d : Document) : Prop where
  | entity {guid : String} {category : TypeCategory} (id : d.id = (RecordRef.entity guid).docId)
      (ofCategory : d.OfCategory ts category) (fits : fit category)
  | relationship {guid : String} {ends : DocId × DocId}
      (id : d.id = (RecordRef.relationship guid).docId) (ofCategory : d.OfCategory ts .relationship)
      (hasEnds : Relationship.ends d = .ok ends)

def Filed (ts : TypeSystem) (fit : TypeCategory → Prop) (docs : DocId → Option Document) : Prop :=
  ∀ id d, docs id = some d → d.Filed ts fit

def Write.Filed (ts : TypeSystem) (fit : TypeCategory → Prop) : Write → Prop
  | .put d => d.Filed ts fit
  | .evict _ => True

theorem Document.Filed.of_entity {guid : String} (h : d.Filed ts fit)
    (hid : d.id = (RecordRef.entity guid).docId) : ∃ category, fit category ∧
      d.OfCategory ts category := by
  cases h with
  | entity _ hcategory hfit => exact ⟨_, hfit, hcategory⟩
  | relationship hid' => exact absurd (hid'.symm.trans hid) (RecordRef.relationship_ne_entity _ _)

theorem Document.Filed.of_relationship {guid : String} (h : d.Filed ts fit)
    (hid : d.id = (RecordRef.relationship guid).docId) :
    d.OfCategory ts .relationship ∧ ∃ ends, Relationship.ends d = .ok ends := by
  cases h with
  | entity hid' => exact absurd (hid.symm.trans hid') (RecordRef.relationship_ne_entity _ _)
  | relationship _ hcategory hends => exact ⟨hcategory, _, hends⟩

theorem Filed.writeAll {docs : DocId → Option Document} {ws : List Write} (h : Filed ts fit docs)
    (hws : ∀ w ∈ ws, w.Filed ts fit) : Filed ts fit (writeAll docs ws) :=
  forall_writeAll h fun _ hd => hws _ hd

/-! ## Documents of records -/

theorem Entity.filed_toDocument {e : Entity} (h : e.toDocument ts = .ok d)
    (hknown : ts.Knows fit e.header.typeRef.name) : d.Filed ts fit := by
  obtain ⟨t, ht, hfit⟩ := hknown
  obtain ⟨t', ht', hcategory⟩ := Entity.ofCategory_toDocument h
  cases ht.symm.trans ht'
  exact .entity (Entity.lays h).id hcategory hfit

theorem Proxy.filed_toDocument {p : Proxy} (h : p.toDocument ts = .ok d)
    (hknown : ts.Knows fit p.header.typeRef.name) : d.Filed ts fit := by
  obtain ⟨t, ht, hfit⟩ := hknown
  obtain ⟨t', ht', hcategory⟩ := Proxy.ofCategory_toDocument h
  cases ht.symm.trans ht'
  exact .entity (Proxy.lays h).id hcategory hfit

theorem Relationship.filed_toDocument {rel : Relationship} (h : rel.toDocument ts = .ok d)
    (hknown : ts.Knows (· = .relationship) rel.header.typeRef.name) : d.Filed ts fit := by
  obtain ⟨t, ht, hfit⟩ := hknown
  obtain ⟨t', ht', hcategory⟩ := Relationship.ofCategory_toDocument h
  cases ht.symm.trans ht'
  have hlinks := Relationship.links_toDocument h
  exact .relationship (Relationship.lays h).id (hfit ▸ hcategory)
    (Relationship.ends_iff.2 ⟨hlinks.one, hlinks.two⟩)

/-! ## Types that are checked, and types that are kept -/

theorem Rule.typeOf_ok {name : String} {category : TypeCategory} {t : TypeDef}
    (h : Rule.typeOf ts name category = .ok t) : ts.get? name = some t ∧ t.category = category := by
  unfold Rule.typeOf at h
  split at h
  · cases h
  next t' ht =>
    split at h
    next hcategory =>
      cases h
      exact ⟨ht, hcategory⟩
    · cases h

theorem Rule.knows_of_typeOf {name : String} {category : TypeCategory} {t : TypeDef}
    (h : Rule.typeOf ts name category = .ok t) : ts.Knows (· = category) name :=
  ⟨t, Rule.typeOf_ok h⟩

/-- A new record is of the type that was asked for. -/
theorem Rule.knows_typeRef (hts : ts.Named) {name : String} {category : TypeCategory} {t : TypeDef}
    (h : Rule.typeOf ts name category = .ok t) : ts.Knows (· = category) t.typeRef.name := by
  have hname : t.typeRef.name = name := hts _ _ (Rule.typeOf_ok h).1
  rw [hname]
  exact Rule.knows_of_typeOf h

theorem TypeSystem.Knows.fits {name : String} (h : ts.Knows (· = .entity) name)
    (hfit : fit .entity) : ts.Knows fit name :=
  h.mono fun _ heq => heq ▸ hfit

/-- A change keeps the type. -/
theorem Change.typeRef_apply {a : Acting} {r : RecordRef} {h h' : Header} {ps ps' : Properties}
    {c : Change} (hc : c.apply a r h ps = .ok (h', ps')) : h'.typeRef = h.typeRef := by
  obtain ⟨h₀, -, htype, rfl⟩ := Change.touches_apply hc
  exact htype

/-! ## Requests one by one -/

namespace Acting

variable {a : Acting} {r : RecordRef} {w : Write} {ws ws' : List Write} {guid name : String}
variable {typeName home : String} {ps : Properties} {status : Option Status}

/-- All that is written is filed. -/
def Files (a : Acting) (fit : TypeCategory → Prop) (ws : List Write) : Prop :=
  ∀ w ∈ ws, w.Filed a.types fit

theorem files_nil : a.Files fit [] := by simp [Files]

theorem files_singleton (h : w.Filed a.types fit) : a.Files fit [w] := by simpa [Files] using h

theorem Files.append (h : a.Files fit ws) (h' : a.Files fit ws') : a.Files fit (ws ++ ws') :=
  List.forall_mem_append.2 ⟨h, h'⟩

theorem files_evict (ids : List DocId) : a.Files fit (ids.map .evict) := by
  simp [Files, Write.Filed]

theorem files_putEntity {e : Entity} (h : a.putEntity e = .ok w)
    (hknown : a.types.Knows fit e.header.typeRef.name) : a.Files fit [w] := by
  obtain ⟨d, hd, rfl⟩ := putEntity_ok h
  exact files_singleton (Entity.filed_toDocument hd hknown)

theorem files_putProxy {p : Proxy} (h : a.putProxy p = .ok w)
    (hknown : a.types.Knows fit p.header.typeRef.name) : a.Files fit [w] := by
  obtain ⟨d, hd, rfl⟩ := putProxy_ok h
  exact files_singleton (Proxy.filed_toDocument hd hknown)

theorem files_putRelationship {rel : Relationship} (h : a.putRelationship rel = .ok w)
    (hknown : a.types.Knows (· = .relationship) rel.header.typeRef.name) : a.Files fit [w] := by
  obtain ⟨d, hd, rfl⟩ := putRelationship_ok h
  exact files_singleton (Relationship.filed_toDocument hd hknown)

/-- What is read of an entity has a type that fits, however it came there. -/
theorem knows_stored {stored : StoredEntity} (hdocs : Filed a.types fit a.context.source.document?)
    (h : a.stored? r = .ok (some stored)) : a.types.Knows fit stored.header.typeRef.name := by
  obtain ⟨d, hd, hread⟩ := stored?_some h
  obtain ⟨category, hfit, hcategory⟩ :=
    (hdocs _ d hd).of_entity (StoredEntity.ofDocument_ok hread).1.symm
  exact (hcategory.knows (StoredEntity.typeName_of_ofDocument hread)).mono fun _ heq => heq ▸ hfit

theorem knows_entity {e : Entity} (hdocs : Filed a.types fit a.context.source.document?)
    (h : a.entity r = .ok e) : a.types.Knows fit e.header.typeRef.name :=
  knows_stored hdocs (entity_ok h)

theorem knows_relationship {rel : Relationship}
    (hdocs : Filed a.types fit a.context.source.document?) (h : a.relationship r = .ok rel) :
    a.types.Knows (· = .relationship) rel.header.typeRef.name := by
  obtain ⟨d, one, two, hd, -, hread⟩ := relationship?_some (relationship_ok h)
  have hcategory :=
    ((hdocs _ d hd).of_relationship (Relationship.ofDocument_ok hread).1.symm).1
  exact hcategory.knows (Relationship.typeName_of_ofDocument hread)

theorem files_endProxy (hfit : fit .entity) {p : Proxy} {live needed : Bool}
    (h : a.endProxy live p needed = .ok ws) : a.Files fit ws := by
  simp only [endProxy, bind_eq_ok] at h
  obtain ⟨stored, -, h⟩ := h
  cases stored with
  | some existing =>
    cases live with
    | false =>
      simp only [Bool.false_eq_true, if_false, pure_eq_ok] at h
      exact h ▸ files_nil
    | true =>
      simp only [if_true, bind_eq_ok, pure_eq_ok] at h
      obtain ⟨_, -, rfl⟩ := h
      exact files_nil
  | none =>
    cases needed with
    | false =>
      simp only [Bool.false_eq_true, if_false, pure_eq_ok] at h
      exact h ▸ files_nil
    | true =>
      simp only [if_true, bind_eq_ok, pure_eq_ok, liftM_rejection_eq_ok] at h
      obtain ⟨t, ht, w, hw, rfl⟩ := h
      exact files_putProxy hw ((Rule.knows_of_typeOf ht).fits hfit)

theorem files_endProxies (hfit : fit .entity) {one two : Proxy} {live : Bool}
    (h : a.endProxies one two live = .ok ws) : a.Files fit ws := by
  simp only [endProxies_eq, bind_eq_ok, pure_eq_ok] at h
  obtain ⟨ws₁, h₁, ws₂, h₂, rfl⟩ := h
  exact (files_endProxy hfit h₁).append (files_endProxy hfit h₂)

theorem files_connects (hfit : fit .entity) {rel : Relationship} (h : a.Connects rel ws)
    (hknown : a.types.Knows (· = .relationship) rel.header.typeRef.name) : a.Files fit ws := by
  obtain ⟨proxies, d, live, hproxies, hd, rfl⟩ := h
  exact (files_endProxies hfit hproxies).append
    (files_singleton (Relationship.filed_toDocument hd hknown))

section Home

theorem files_createEntity (hts : a.types.Named) (hfit : fit .entity)
    {cs : List NewClassification} (h : a.createEntity guid typeName ps cs status = .ok ws) :
    a.Files fit ws := by
  simp only [createEntity, bind_eq_ok, liftM_rejection_eq_ok] at h
  obtain ⟨t, ht, _, -, status, -, stored, -, h⟩ := h
  have hput : ∀ (h : Header) (e : Entity) (w : Write), h.typeRef = t.typeRef → e.header = h →
      a.putEntity e = .ok w → a.Files fit [w] := by
    rintro h e w htype rfl hw
    exact files_putEntity hw (htype ▸ (Rule.knows_typeRef hts ht).fits hfit)
  cases stored with
  | none =>
    simp only [bind_eq_ok, pure_eq_ok] at h
    obtain ⟨_, -, w, hw, rfl⟩ := h
    exact hput _ _ w rfl rfl hw
  | some existing =>
    dsimp only at h
    split at h
    · simp only [bind_eq_ok, throw_eq_ok, false_and, exists_false] at h
    · simp only [bind_eq_ok, pure_eq_ok] at h
      obtain ⟨_, -, w, hw, rfl⟩ := h
      exact hput _ _ w rfl rfl hw

theorem files_createStub (hfit : fit .entity) {p : Proxy} (h : a.createStub p = .ok ws) :
    a.Files fit ws := by
  simp only [createStub, bind_eq_ok, liftM_rejection_eq_ok] at h
  obtain ⟨t, ht, h⟩ := h
  split at h
  · exact pure_eq_ok.1 h ▸ files_nil
  · simp only [bind_eq_ok, pure_eq_ok] at h
    obtain ⟨w, hw, rfl⟩ := h
    exact files_putProxy hw ((Rule.knows_of_typeOf ht).fits hfit)

theorem files_createRelationship (hts : a.types.Named) (hfit : fit .entity) {endOne endTwo : Proxy}
    (h : a.createRelationship guid typeName ps status endOne endTwo = .ok ws) :
    a.Files fit ws := by
  simp only [createRelationship, bind_eq_ok, liftM_rejection_eq_ok] at h
  obtain ⟨t, ht, _, -, status, -, h⟩ := h
  split at h
  · simp only [bind_eq_ok, throw_eq_ok, false_and, exists_false] at h
  · simp only [bind_eq_ok, pure_eq_ok] at h
    obtain ⟨proxies, hproxies, w, hw, rfl⟩ := h
    exact (files_endProxies hfit hproxies).append
      (files_putRelationship hw (Rule.knows_typeRef hts ht))

variable (hdocs : Filed a.types fit a.context.source.document?)
include hdocs

theorem files_changeEntity {change : Change} (h : a.changeEntity guid change = .ok ws) :
    a.Files fit ws := by
  simp only [changeEntity, bind_eq_ok, pure_eq_ok, liftM_rejection_eq_ok] at h
  obtain ⟨e, he, ⟨header, properties⟩, hchange, w, hw, rfl⟩ := h
  exact files_putEntity hw (Change.typeRef_apply hchange ▸ knows_entity hdocs he)

theorem files_classify {mode : ClassifyMode} (h : a.classify guid name ps mode = .ok ws) :
    a.Files fit ws := by
  simp only [classify, bind_eq_ok] at h
  obtain ⟨e, he, _, -, h⟩ := h
  have hknown := knows_entity hdocs he
  split at h
  · simp only [bind_eq_ok, throw_eq_ok, false_and, exists_false] at h
  · simp only [bind_eq_ok, throw_eq_ok, false_and, exists_false] at h
  · simp only [bind_eq_ok, pure_eq_ok] at h
    obtain ⟨_, -, _, -, _, -, _, -, w, hw, rfl⟩ := h
    exact files_putEntity hw hknown
  · simp only [bind_eq_ok, pure_eq_ok] at h
    obtain ⟨_, -, _, -, w, hw, rfl⟩ := h
    exact files_putEntity hw hknown

theorem files_declassify (h : a.declassify guid name = .ok ws) : a.Files fit ws := by
  simp only [declassify, bind_eq_ok] at h
  obtain ⟨e, he, _, -, h⟩ := h
  have hknown := knows_entity hdocs he
  split at h
  · simp only [throw_eq_ok] at h
  · simp only [bind_eq_ok, pure_eq_ok] at h
    obtain ⟨_, -, w, hw, rfl⟩ := h
    exact files_putEntity hw hknown

theorem files_changeRelationship {change : Change}
    (h : a.changeRelationship guid change = .ok ws) : a.Files fit ws := by
  simp only [changeRelationship, bind_eq_ok, pure_eq_ok, liftM_rejection_eq_ok] at h
  obtain ⟨rel, hrel, ⟨header, properties⟩, hchange, w, hw, rfl⟩ := h
  exact files_putRelationship hw (Change.typeRef_apply hchange ▸ knows_relationship hdocs hrel)

end Home

section Copies

theorem files_storeEntityCopy (hfit : fit .entity) {e : Entity}
    (h : a.storeEntityCopy e = .ok ws) : a.Files fit ws := by
  simp only [storeEntityCopy, bind_eq_ok, liftM_rejection_eq_ok] at h
  obtain ⟨t, ht, _, -, stored, -, h⟩ := h
  have hknown := (Rule.knows_of_typeOf ht).fits hfit
  split at h
  · simp only [bind_eq_ok, pure_eq_ok] at h
    obtain ⟨w, hw, rfl⟩ := h
    exact files_putEntity hw hknown
  · simp only [bind_eq_ok, pure_eq_ok] at h
    obtain ⟨_, -, w, hw, rfl⟩ := h
    exact files_putEntity hw hknown
  · simp only [bind_eq_ok] at h
    obtain ⟨_, -, h⟩ := h
    split at h
    · exact pure_eq_ok.1 h ▸ files_nil
    · simp only [bind_eq_ok, pure_eq_ok] at h
      obtain ⟨w, hw, rfl⟩ := h
      exact files_putEntity hw hknown

theorem files_storeRelationshipCopy (hfit : fit .entity) {rel : Relationship}
    (h : a.storeRelationshipCopy rel = .ok ws) : a.Files fit ws := by
  obtain ⟨-, -, ⟨rfl, -⟩ | ⟨hconnects, -⟩⟩ := storeRelationshipCopy_ok h
  · exact files_nil
  · simp only [storeRelationshipCopy, bind_eq_ok, liftM_rejection_eq_ok] at h
    obtain ⟨t, ht, -⟩ := h
    exact files_connects hfit hconnects (Rule.knows_of_typeOf ht)

theorem files_storeHomeRelationship (hfit : fit .entity) {rel : Relationship}
    (h : a.storeHomeRelationship rel = .ok ws) : a.Files fit ws := by
  have hconnects := storeHomeRelationship_ok h
  simp only [storeHomeRelationship, bind_eq_ok, liftM_rejection_eq_ok] at h
  obtain ⟨t, ht, -⟩ := h
  exact files_connects hfit hconnects (Rule.knows_of_typeOf ht)

variable (hdocs : Filed a.types fit a.context.source.document?)
include hdocs

/-- The proxy that stays has the type of its entity. -/
theorem files_purgeEntityCopy (h : a.purgeEntityCopy guid home = .ok ws) : a.Files fit ws := by
  rcases purgeEntityCopy_ok h with rfl | ⟨-, rfl⟩ | ⟨e, d, he, hd, rfl⟩
  · exact files_nil
  · exact files_evict [_]
  · exact files_singleton (Proxy.filed_toDocument hd (knows_stored hdocs he))

theorem files_storeClassificationCopy {c : Classification}
    (h : a.storeClassificationCopy guid c = .ok ws) : a.Files fit ws := by
  simp only [storeClassificationCopy, bind_eq_ok] at h
  obtain ⟨e, he, _, -, _, -, h⟩ := h
  have hknown := knows_entity hdocs he
  split at h
  · simp only [bind_eq_ok, pure_eq_ok] at h
    obtain ⟨w, hw, rfl⟩ := h
    exact files_putEntity hw hknown
  · simp only [bind_eq_ok] at h
    obtain ⟨_, -, h⟩ := h
    split at h
    · exact pure_eq_ok.1 h ▸ files_nil
    · simp only [bind_eq_ok, pure_eq_ok] at h
      obtain ⟨w, hw, rfl⟩ := h
      exact files_putEntity hw hknown

theorem files_purgeClassificationCopy (h : a.purgeClassificationCopy guid name home = .ok ws) :
    a.Files fit ws := by
  simp only [purgeClassificationCopy, bind_eq_ok] at h
  obtain ⟨stored, hstored, h⟩ := h
  split at h
  · exact pure_eq_ok.1 h ▸ files_nil
  · exact pure_eq_ok.1 h ▸ files_nil
  · split at h
    · simp only [throw_eq_ok] at h
    · simp only [bind_eq_ok] at h
      obtain ⟨_, -, h⟩ := h
      split at h
      · exact pure_eq_ok.1 h ▸ files_nil
      · simp only [bind_eq_ok, pure_eq_ok] at h
        obtain ⟨w, hw, rfl⟩ := h
        exact files_putEntity hw (knows_stored hdocs hstored)

end Copies

end Acting

/-- **Every request writes what is filed**, on a state in which all is filed. -/
theorem Request.files_carryOut {a : Acting} {req : Request} {ws : List Write}
    (hts : a.types.Named) (hfit : fit .entity)
    (hdocs : Filed a.types fit a.context.source.document?) (hw : req.carryOut a = .ok ws) :
    a.Files fit ws := by
  cases req with
  | createEntity => exact Acting.files_createEntity hts hfit hw
  | createStub => exact Acting.files_createStub hfit hw
  | changeEntity => exact Acting.files_changeEntity hdocs hw
  | purgeEntity guid force =>
    obtain ⟨ids, -, rfl⟩ := Acting.purgeEntity_ok hw
    exact (Acting.files_evict ids).append (Acting.files_evict [_])
  | classify => exact Acting.files_classify hdocs hw
  | declassify => exact Acting.files_declassify hdocs hw
  | createRelationship => exact Acting.files_createRelationship hts hfit hw
  | changeRelationship => exact Acting.files_changeRelationship hdocs hw
  | purgeRelationship guid force =>
    rw [Acting.purgeRelationship_ok hw]
    exact Acting.files_evict [_]
  | storeEntityCopy => exact Acting.files_storeEntityCopy hfit hw
  | purgeEntityCopy => exact Acting.files_purgeEntityCopy hdocs hw
  | storeRelationshipCopy => exact Acting.files_storeRelationshipCopy hfit hw
  | storeHomeRelationship => exact Acting.files_storeHomeRelationship hfit hw
  | purgeRelationshipCopy guid home =>
    rcases Acting.purgeRelationshipCopy_ok hw with rfl | rfl
    · exact Acting.files_nil
    · exact Acting.files_evict [_]
  | storeClassificationCopy => exact Acting.files_storeClassificationCopy hdocs hw
  | purgeClassificationCopy => exact Acting.files_purgeClassificationCopy hdocs hw

end MetadataArchive
