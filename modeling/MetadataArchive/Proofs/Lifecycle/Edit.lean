import MetadataArchive.Proofs.Lifecycle.Category
import MetadataArchive.Proofs.Record.Reread

/-!
# What an edit makes of a record

Four kinds of requests edit a record that is there: to change an entity or a relationship, and to
classify or declassify an entity. Each decodes the document, edits the record and writes it whole.
`Entity.Edited` and `Relationship.Edited` say what becomes of the record, field by field and with
the guards: which user and which collection, what status comes from which, and where in the list of
classifications the one of a name has been. Whatever is true of records before and after an edit is
read off these, and the handlers are opened here for the last time.
-/

set_option autoImplicit false

namespace MetadataArchive

variable {ts : TypeSystem}

/-! ## Headers -/

/-- The header that follows from another when a user changes the record: it has the next version, it
says who changed the record and when, and the user is among those who maintain it. -/
structure Header.Follows (h h' : Header) (user : String) (now : Instant) : Prop where
  version : h'.version = h.version + 1
  updatedBy : h'.updatedBy = some user
  updateTime : h'.updateTime = some now
  maintainedBy : h'.maintainedBy =
    if user ∈ h.maintainedBy then h.maintainedBy else h.maintainedBy ++ [user]
  rest : h' = { h with
    version := h'.version
    updatedBy := h'.updatedBy
    updateTime := h'.updateTime
    maintainedBy := h'.maintainedBy }

theorem Header.follows_touch (h : Header) (user : String) (now : Instant) :
    h.Follows (h.touch user now) user now where
  version := rfl
  updatedBy := rfl
  updateTime := rfl
  maintainedBy := by
    simp only [Header.touch, List.contains_iff_mem]
  rest := rfl

namespace Header.Follows

variable {h h' : Header} {user : String} {now : Instant}

theorem typeRef (hf : h.Follows h' user now) : h'.typeRef = h.typeRef :=
  (congrArg Header.typeRef hf.rest :)

theorem status (hf : h.Follows h' user now) : h'.status = h.status :=
  (congrArg Header.status hf.rest :)

theorem statusOnDelete (hf : h.Follows h' user now) : h'.statusOnDelete = h.statusOnDelete :=
  (congrArg Header.statusOnDelete hf.rest :)

theorem isLocalTo (hf : h.Follows h' user now) (collection : String) :
    h'.isLocalTo collection = h.isLocalTo collection := by
  rw [hf.rest]
  rfl

theorem toNat_version (hf : h.Follows h' user now) (hroom : h.version.toNat < 2 ^ 63 - 1) :
    h'.version.toNat = h.version.toNat + 1 := by
  have hone : (1 : UInt64).toNat = 1 := rfl
  rw [hf.version, UInt64.toNat_add]
  omega

end Header.Follows

/-! ## Rules -/

namespace Rule

variable {r : RecordRef} {h : Header} {collection : String} {u : Unit} {s s' : Option Status}

theorem live_ok (hr : Rule.live h r = .ok u) : h.status ≠ .deleted := by
  unfold Rule.live at hr
  split at hr
  · cases hr
  next hlive => simpa [Header.isDeleted] using hlive

theorem deleted_ok (hr : Rule.deleted h r = .ok u) : h.status = .deleted := by
  unfold Rule.deleted at hr
  split at hr
  next hdeleted => simpa [Header.isDeleted] using hdeleted
  · cases hr

theorem owned_ok (hr : Rule.owned h collection r = .ok u) : h.isLocalTo collection = true := by
  unfold Rule.owned at hr
  split at hr
  next howned => exact howned
  · cases hr

theorem givenStatus_ok {status : Status} (hs : Rule.givenStatus s = .ok status) :
    s = some status ∧ status ≠ .deleted := by
  unfold Rule.givenStatus at hs
  split at hs
  · cases hs
  · cases hs
  next s hne =>
    cases hs
    exact ⟨rfl, fun heq => hne (heq ▸ rfl)⟩

theorem firstStatus_ok {status : Status} (hs : Rule.firstStatus s = .ok status) :
    status ≠ .deleted := by
  cases s with
  | none =>
    cases hs
    decide
  | some s => exact (givenStatus_ok hs).2

end Rule

/-! ## Changes -/

/-- What a change may be made to, and what it sets: the status, the status on deletion and the
properties. -/
def Change.Sets (h : Header) (ps : Properties) (status : Status) (onDelete : Option Status)
    (ps' : Properties) : Change → Prop
  | .properties new =>
      h.status ≠ .deleted ∧ status = h.status ∧ onDelete = h.statusOnDelete ∧ ps' = new
  | .status s =>
      h.status ≠ .deleted ∧ s = some status ∧ status ≠ .deleted ∧ onDelete = h.statusOnDelete ∧
        ps' = ps
  | .delete => h.status ≠ .deleted ∧ status = .deleted ∧ onDelete = some h.status ∧ ps' = ps
  | .restore =>
      h.status = .deleted ∧ status = h.statusOnDelete.getD .active ∧ onDelete = none ∧ ps' = ps

/-- A change that a user makes for a collection to the header and the properties of a record. -/
structure Change.Makes (c : Change) (user : String) (collection : Collection) (now : Instant)
    (h : Header) (ps : Properties) (h' : Header) (ps' : Properties) : Prop where
  owned : h.isLocalTo collection.id = true
  sets : c.Sets h ps h'.status h'.statusOnDelete ps'
  follows : { h with status := h'.status, statusOnDelete := h'.statusOnDelete }.Follows h' user now

theorem Change.makes_apply {a : Acting} {r : RecordRef} {h h' : Header} {ps ps' : Properties}
    {c : Change} (hc : c.apply a r h ps = .ok (h', ps')) :
    c.Makes a.user a.collection a.context.time h ps h' ps' := by
  have hupdatable {u : Unit} (hu : Change.apply.updatable a r h = .ok u) :
      h.status ≠ .deleted ∧ h.isLocalTo a.collection.id = true := by
    obtain ⟨_, hlive, howned⟩ := bind_eq_ok.1 hu
    exact ⟨Rule.live_ok hlive, Rule.owned_ok howned⟩
  cases c with
  | properties new =>
    simp only [Change.apply, bind_eq_ok, pure_eq_ok, Prod.mk.injEq] at hc
    obtain ⟨_, hu, _, -, rfl, rfl⟩ := hc
    obtain ⟨hlive, howned⟩ := hupdatable hu
    exact ⟨howned, ⟨hlive, rfl, rfl, rfl⟩, h.follows_touch a.user a.context.time⟩
  | status s =>
    simp only [Change.apply, bind_eq_ok, pure_eq_ok, Prod.mk.injEq] at hc
    obtain ⟨_, hu, s', hs, rfl, rfl⟩ := hc
    obtain ⟨hlive, howned⟩ := hupdatable hu
    obtain ⟨hgiven, hne⟩ := Rule.givenStatus_ok hs
    exact ⟨howned, ⟨hlive, hgiven, hne, rfl, rfl⟩, Header.follows_touch _ a.user a.context.time⟩
  | delete =>
    simp only [Change.apply, bind_eq_ok, pure_eq_ok, Prod.mk.injEq] at hc
    obtain ⟨_, hu, rfl, rfl⟩ := hc
    obtain ⟨hlive, howned⟩ := hupdatable hu
    exact ⟨howned, ⟨hlive, rfl, rfl, rfl⟩, Header.follows_touch _ a.user a.context.time⟩
  | restore =>
    simp only [Change.apply, bind_eq_ok, pure_eq_ok, Prod.mk.injEq] at hc
    obtain ⟨_, hdeleted, _, howned, rfl, rfl⟩ := hc
    exact ⟨Rule.owned_ok howned, ⟨Rule.deleted_ok hdeleted, rfl, rfl, rfl⟩,
      Header.follows_touch _ a.user a.context.time⟩

/-! ## Classifications -/

/-- A list of classifications in which `new` stands where there was `old`, the first of a name. What
is new altogether comes last. -/
structure Swapped (name : String) (old new : Option Classification)
    (cs cs' : List Classification) : Prop where
  around : ∃ before after, cs = before ++ old.toList ++ after ∧
    cs' = before ++ new.toList ++ after ∧ (∀ c ∈ before, c.name ≠ name) ∧ (old = none → after = [])
  old : ∀ c, old = some c → c.name = name
  new : ∀ c, new = some c → c.name = name

namespace Swapped

variable {name : String} {old new : Option Classification} {cs cs' : List Classification}

theorem mem_of_old (h : Swapped name old new cs cs') {c : Classification} (hc : old = some c) :
    c ∈ cs := by
  obtain ⟨⟨before, after, rfl, -, -, -⟩, -, -⟩ := h
  simp [hc]

/-- What is true of the classifications that were there, and of the new one, is true of all. -/
theorem forall_mem (h : Swapped name old new cs cs') {P : Classification → Prop}
    (hcs : ∀ c ∈ cs, P c) (hnew : ∀ c, new = some c → P c) : ∀ c ∈ cs', P c := by
  obtain ⟨⟨before, after, rfl, rfl, -, -⟩, -, -⟩ := h
  intro c hc
  simp only [List.mem_append, Option.mem_toList] at hc hcs
  rcases hc with (hc | hc) | hc
  · exact hcs c (Or.inl (Or.inl hc))
  · exact hnew c hc
  · exact hcs c (Or.inr hc)

/-- Of classifications that are chosen neither with the old nor with the new one all stay. -/
theorem filter_eq (h : Swapped name old new cs cs') {p : Classification → Bool}
    (hold : ∀ c, old = some c → p c = false) (hnew : ∀ c, new = some c → p c = false) :
    cs'.filter p = cs.filter p := by
  obtain ⟨⟨before, after, rfl, rfl, -, -⟩, -, -⟩ := h
  have hnone {o : Option Classification} (ho : ∀ c, o = some c → p c = false) :
      o.toList.filter p = [] := List.filter_eq_nil_iff.2 fun c hc => by
    simp [ho c (Option.mem_toList.1 hc)]
  rw [List.filter_append, List.filter_append, List.filter_append, List.filter_append, hnone hold,
    hnone hnew]

/-- Names stay distinct. -/
theorem nodup (h : Swapped name old new cs cs') (hcs : (cs.map Classification.name).Nodup) :
    (cs'.map Classification.name).Nodup := by
  obtain ⟨⟨before, after, rfl, rfl, hbefore, hlast⟩, hold, hnew⟩ := h
  cases old with
  | none =>
    cases new with
    | none => exact hcs
    | some c =>
      have hc : ∀ d ∈ before, d.name ≠ c.name := (hnew c rfl).symm ▸ hbefore
      rw [hlast rfl] at hcs ⊢
      simp only [Option.toList_none, List.append_nil] at hcs
      simpa [List.nodup_append, hcs] using hc
  | some c =>
    cases new with
    | none =>
      have hsub : (before ++ [] ++ after).Sublist (before ++ [c] ++ after) :=
        ((List.Sublist.refl before).append (List.nil_sublist _)).append (List.Sublist.refl after)
      exact hcs.sublist (hsub.map _)
    | some c' =>
      have hname : c'.name = c.name := (hnew c' rfl).trans (hold c rfl).symm
      simpa [hname] using hcs

end Swapped

namespace Entity

variable {e : Entity} {name : String} {c : Classification}

theorem split_classification? (h : e.classification? name = some c) :
    c.name = name ∧ ∃ before after, e.classifications = before ++ c :: after ∧
      ∀ c' ∈ before, c'.name ≠ name := by
  obtain ⟨hname, before, after, hsplit, hbefore⟩ := List.find?_eq_some_iff_append.1 h
  exact ⟨by simpa using hname, before, after, hsplit, fun c' hc => by simpa using hbefore c' hc⟩

theorem classification?_eq_none (h : e.classification? name = none) :
    ∀ c ∈ e.classifications, c.name ≠ name := fun c hc => by
  simpa using List.find?_eq_none.1 h c hc

theorem replace_append {before after : List Classification} {c c' : Classification}
    (hbefore : ∀ d ∈ before, d.name ≠ c'.name) (hc : c.name = c'.name) :
    replaceFirst.replace c' (before ++ c :: after) = before ++ c' :: after := by
  induction before with
  | nil => rw [List.nil_append, replaceFirst.replace, if_pos hc, List.nil_append]
  | cons d before ih =>
    rw [List.cons_append, replaceFirst.replace, if_neg (hbefore d (by simp)),
      ih fun d' hd => hbefore d' (List.mem_cons_of_mem _ hd), List.cons_append]

theorem swapped_replaceFirst {c' : Classification} (h : e.classification? name = some c)
    (hname : c'.name = name) :
    Swapped name (some c) (some c') e.classifications (e.replaceFirst c') := by
  obtain ⟨hc, before, after, hsplit, hbefore⟩ := split_classification? h
  refine ⟨⟨before, after, by simpa using hsplit, ?_, hbefore, by simp⟩,
    fun d hd => Option.some.inj hd ▸ hc, fun d hd => Option.some.inj hd ▸ hname⟩
  rw [replaceFirst, hsplit, replace_append (by rwa [hname]) (hc.trans hname.symm)]
  simp

theorem swapped_removeFirst (h : e.classification? name = some c) :
    Swapped name (some c) none e.classifications (e.removeFirst name) := by
  obtain ⟨hc, before, after, hsplit, hbefore⟩ := split_classification? h
  refine ⟨⟨before, after, by simpa using hsplit, ?_, hbefore, by simp⟩,
    fun d hd => Option.some.inj hd ▸ hc, by simp⟩
  rw [removeFirst, hsplit, List.eraseP_append_right _ fun d hd => by simpa using hbefore d hd,
    List.eraseP_cons_of_pos (by simpa using hc)]
  simp

theorem swapped_concat (h : e.classification? name = none) (hname : c.name = name) :
    Swapped name none (some c) e.classifications (e.classifications ++ [c]) := by
  have haround : ∀ c' ∈ e.classifications, c'.name ≠ name := classification?_eq_none h
  exact ⟨⟨e.classifications, [], by simp, by simp, haround, fun _ => rfl⟩,
    by simp, fun d hd => Option.some.inj hd ▸ hname⟩

end Entity

/-! ## Edits -/

/-- What an invocation makes of an entity that is stored in full. -/
inductive Entity.Edited (ts : TypeSystem) (now : Instant) : Invocation → Entity → Entity → Prop
  /-- The owner changes its properties or its status. -/
  | changed {user : String} {collection : Collection} {guid : String} {change : Change}
      {e : Entity} {h : Header} {ps : Properties}
      (makes : change.Makes user collection now e.header e.properties h ps) :
      Edited ts now ⟨user, collection, .changeEntity guid change⟩ e
        { e with header := h, properties := ps }
  /-- It gets a classification of a name that it had none of. -/
  | classified {user : String} {collection : Collection} {guid name : String} {ps : Properties}
      {mode : ClassifyMode} {e : Entity} {h : Header} {cs : List Classification} {t : TypeDef}
      (live : e.header.status ≠ .deleted) (known : ts.get? name = some t)
      (follows : e.header.Follows h user now) (allowed : mode ≠ .update)
      (swapped : Swapped name none
        (some ⟨name, .create t.typeRef collection.id collection.name user now, .assigned, none, ps⟩)
        e.classifications cs) :
      Edited ts now ⟨user, collection, .classify guid name ps mode⟩ e
        { e with header := h, classifications := cs }
  /-- The owner of a classification changes the properties of that. -/
  | reclassified {user : String} {collection : Collection} {guid name : String} {ps : Properties}
      {mode : ClassifyMode} {e : Entity} {h : Header} {cs : List Classification}
      {c : Classification} {ch : Header} (live : e.header.status ≠ .deleted)
      (follows : e.header.Follows h user now) (allowed : mode ≠ .add)
      (owned : c.header.isLocalTo collection.id = true) (touched : c.header.Follows ch user now)
      (swapped : Swapped name (some c) (some { c with header := ch, properties := ps })
        e.classifications cs) :
      Edited ts now ⟨user, collection, .classify guid name ps mode⟩ e
        { e with header := h, classifications := cs }
  /-- The owner of a classification takes that away. -/
  | declassified {user : String} {collection : Collection} {guid name : String} {e : Entity}
      {h : Header} {cs : List Classification} {c : Classification}
      (live : e.header.status ≠ .deleted) (follows : e.header.Follows h user now)
      (owned : c.header.isLocalTo collection.id = true)
      (swapped : Swapped name (some c) none e.classifications cs) :
      Edited ts now ⟨user, collection, .declassify guid name⟩ e
        { e with header := h, classifications := cs }

/-- What an invocation makes of a relationship that is stored. -/
inductive Relationship.Edited (now : Instant) : Invocation → Relationship → Relationship → Prop
  | changed {user : String} {collection : Collection} {guid : String} {change : Change}
      {rel : Relationship} {h : Header} {ps : Properties}
      (makes : change.Makes user collection now rel.header rel.properties h ps) :
      Edited now ⟨user, collection, .changeRelationship guid change⟩ rel
        { rel with header := h, properties := ps }

/-- No name that an entity is stored under has a full stop, neither that of its type nor any of its
classifications'. -/
structure Entity.WellNamed (e : Entity) : Prop extends e.Apart where
  type : '.' ∉ e.header.typeRef.name.toList
  classificationTypes : ∀ c ∈ e.classifications, '.' ∉ c.header.typeRef.name.toList

theorem Entity.WellNamed.plain {e : Entity} (h : e.WellNamed) (hnamed : ts.Named)
    (hundotted : ts.Undotted) : e.Plain ts where
  properties := Properties.plain_of_undotted hnamed hundotted h.type _
  classifications c hc :=
    Properties.plain_of_undotted hnamed hundotted (h.classificationTypes c hc) _

/-- A relationship that is written has a type, and where no type has a full stop in its name all its
properties are found under their own names. -/
theorem Relationship.plain_of_toDocument {rel : Relationship} {d : Document} (hnamed : ts.Named)
    (hundotted : ts.Undotted) (hd : rel.toDocument ts = .ok d) :
    rel.properties.Plain ts rel.header.typeRef.name := by
  obtain ⟨t, ht, -⟩ := Relationship.ofCategory_toDocument hd
  refine Properties.plain_of_undotted hnamed hundotted ?_ _
  rw [← hnamed _ _ ht]
  exact hundotted _ _ ht

/-- There is room for one more version, of the entity and of each of its classifications. -/
structure Entity.HasRoom (e : Entity) : Prop where
  header : e.header.version.toNat < 2 ^ 63 - 1
  classifications : ∀ c ∈ e.classifications, c.header.version.toNat < 2 ^ 63 - 1

namespace Entity.Edited

variable {now : Instant} {i : Invocation} {e e' : Entity}

theorem guid (h : e.Edited ts now i e') : e'.guid = e.guid := by
  cases h <;> rfl

/-- But for what a change sets, every edit comes with the header that follows. -/
theorem header (h : e.Edited ts now i e') :
    { e.header with
      status := e'.header.status
      statusOnDelete := e'.header.statusOnDelete }.Follows e'.header i.user now := by
  cases h with
  | changed makes => exact makes.follows
  | classified _ _ follows | reclassified _ follows | declassified _ follows =>
    dsimp only
    rw [follows.status, follows.statusOnDelete]
    exact follows

theorem wellNamed (hnamed : ts.Named) (hundotted : ts.Undotted) (h : e.Edited ts now i e')
    (he : e.WellNamed) : e'.WellNamed := by
  have htype : '.' ∉ e'.header.typeRef.name.toList := h.header.typeRef ▸ he.type
  cases h with
  | changed makes => exact ⟨⟨he.distinct, he.undotted⟩, htype, he.classificationTypes⟩
  | classified _ known _ _ swapped =>
    have hname := hundotted _ _ known
    refine ⟨⟨swapped.nodup he.distinct, swapped.forall_mem he.undotted fun c hc => ?_⟩, htype,
      swapped.forall_mem he.classificationTypes fun c hc => ?_⟩ <;> cases hc
    · rwa [hnamed _ _ known] at hname
    · exact hname
  | reclassified _ _ _ _ touched swapped =>
    have hmem := swapped.mem_of_old rfl
    refine ⟨⟨swapped.nodup he.distinct, swapped.forall_mem he.undotted fun c hc => ?_⟩, htype,
      swapped.forall_mem he.classificationTypes fun c hc => ?_⟩ <;> cases hc
    · exact (he.undotted _ hmem :)
    · rw [touched.typeRef]
      exact he.classificationTypes _ hmem
  | declassified _ _ _ swapped =>
    exact ⟨⟨swapped.nodup he.distinct, swapped.forall_mem he.undotted (by simp)⟩, htype,
      swapped.forall_mem he.classificationTypes (by simp)⟩

theorem fits (h : e.Edited ts now i e') (hroom : e.HasRoom) : e'.Fits := by
  have hheader : e'.header.version.toNat < 2 ^ 63 := by
    have hown := hroom.header
    have hnext := h.header.toNat_version hown
    dsimp only at hnext
    omega
  have hkept : ∀ c ∈ e.classifications, c.header.version.toNat < 2 ^ 63 := fun c hc =>
    Nat.lt_of_lt_of_le (hroom.classifications c hc) (Nat.sub_le _ _)
  refine ⟨hheader, ?_⟩
  cases h with
  | changed makes => exact hkept
  | classified _ _ _ _ swapped =>
    refine swapped.forall_mem hkept fun c hc => ?_
    cases hc
    exact (by decide : (1 : UInt64).toNat < 2 ^ 63)
  | reclassified _ _ _ _ touched swapped =>
    refine swapped.forall_mem hkept fun c hc => ?_
    cases hc
    have hold := hroom.classifications _ (swapped.mem_of_old rfl)
    have hnext := touched.toNat_version hold
    dsimp only
    omega
  | declassified _ _ _ swapped => exact swapped.forall_mem hkept (by simp)

end Entity.Edited

theorem Relationship.Edited.guid {now : Instant} {i : Invocation} {rel rel' : Relationship}
    (h : rel.Edited now i rel') : rel'.guid = rel.guid := by
  cases h
  rfl

theorem Relationship.Edited.ends {now : Instant} {i : Invocation} {rel rel' : Relationship}
    (h : rel.Edited now i rel') : rel'.endOne = rel.endOne ∧ rel'.endTwo = rel.endTwo := by
  cases h
  exact ⟨rfl, rfl⟩

/-- The requests that edit an entity. -/
def Request.editsEntity : Request → Bool
  | .changeEntity _ _ | .classify _ _ _ _ | .declassify _ _ => true
  | _ => false

/-- The requests that edit a relationship. -/
def Request.editsRelationship : Request → Bool
  | .changeRelationship _ _ => true
  | _ => false

section CarryOut

variable {i : Invocation} {ctx : TxContext} {ws : List Write}

/-- **An accepted edit of an entity** writes one document, that of the edited entity. -/
theorem Request.edits_entity (hedits : i.request.editsEntity = true)
    (h : i.request.carryOut ⟨ts, i.user, i.collection, ctx⟩ = .ok ws) :
    ∃ (e e' : Entity) (d : Document),
      Acting.stored? ⟨ts, i.user, i.collection, ctx⟩ i.request.target = .ok (some (.full e)) ∧
        e.Edited ts ctx.time i e' ∧ e'.toDocument ts = .ok d ∧ ws = [.put d] := by
  obtain ⟨user, collection, request⟩ := i
  cases request with
  | changeEntity guid change =>
    simp only [Request.carryOut, Acting.changeEntity, bind_eq_ok, pure_eq_ok,
      liftM_rejection_eq_ok] at h
    obtain ⟨e, he, ⟨header, ps⟩, hchange, w, hw, rfl⟩ := h
    obtain ⟨d, hd, rfl⟩ := Acting.putEntity_ok hw
    exact ⟨e, _, d, Acting.entity_ok he, .changed (Change.makes_apply hchange), hd, rfl⟩
  | classify guid name ps mode =>
    simp only [Request.carryOut, Acting.classify, bind_eq_ok, liftM_rejection_eq_ok] at h
    obtain ⟨e, he, _, hlive, h⟩ := h
    have hlive := Rule.live_ok hlive
    have hfollows := e.header.follows_touch user ctx.time
    split at h
    · simp only [bind_eq_ok, throw_eq_ok, false_and, exists_false] at h
    · simp only [bind_eq_ok, throw_eq_ok, false_and, exists_false] at h
    next c hfound hallowed =>
      simp only [bind_eq_ok, pure_eq_ok, liftM_rejection_eq_ok] at h
      obtain ⟨_, howned, _, -, _, -, _, rfl, w, hw, rfl⟩ := h
      obtain ⟨d, hd, rfl⟩ := Acting.putEntity_ok hw
      let c' := { c with properties := ps, header := c.header.touch user ctx.time }
      have hname : c'.name = name := (Entity.split_classification? hfound).1
      have hswapped := Entity.swapped_replaceFirst hfound hname
      exact ⟨e, _, d, Acting.entity_ok he, .reclassified hlive hfollows hallowed
        (Rule.owned_ok howned) (c.header.follows_touch user ctx.time) hswapped, hd, rfl⟩
    next hfound hallowed =>
      simp only [Acting.newClassification, bind_eq_ok, pure_eq_ok, liftM_rejection_eq_ok] at h
      obtain ⟨_, ⟨t, htype, _, -, _, -, rfl⟩, _, rfl, w, hw, rfl⟩ := h
      obtain ⟨d, hd, rfl⟩ := Acting.putEntity_ok hw
      exact ⟨e, _, d, Acting.entity_ok he, .classified hlive (Rule.typeOf_ok htype).1 hfollows
        hallowed (Entity.swapped_concat hfound rfl), hd, rfl⟩
  | declassify guid name =>
    simp only [Request.carryOut, Acting.declassify, bind_eq_ok, liftM_rejection_eq_ok] at h
    obtain ⟨e, he, _, hlive, h⟩ := h
    split at h
    · simp only [throw_eq_ok] at h
    next c hfound =>
      simp only [bind_eq_ok, pure_eq_ok, liftM_rejection_eq_ok] at h
      obtain ⟨_, howned, w, hw, rfl⟩ := h
      obtain ⟨d, hd, rfl⟩ := Acting.putEntity_ok hw
      exact ⟨e, _, d, Acting.entity_ok he, .declassified (Rule.live_ok hlive)
        (e.header.follows_touch user ctx.time) (Rule.owned_ok howned)
        (Entity.swapped_removeFirst hfound), hd, rfl⟩
  | _ => cases hedits

/-- **An accepted edit of a relationship** writes one document, that of the edited relationship. -/
theorem Request.edits_relationship (hedits : i.request.editsRelationship = true)
    (h : i.request.carryOut ⟨ts, i.user, i.collection, ctx⟩ = .ok ws) :
    ∃ (rel rel' : Relationship) (d : Document),
      Acting.relationship? ⟨ts, i.user, i.collection, ctx⟩ i.request.target = .ok (some rel) ∧
        rel.Edited ctx.time i rel' ∧ rel'.toDocument ts = .ok d ∧ ws = [.put d] := by
  obtain ⟨user, collection, request⟩ := i
  cases request with
  | changeRelationship guid change =>
    simp only [Request.carryOut, Acting.changeRelationship, bind_eq_ok, pure_eq_ok,
      liftM_rejection_eq_ok] at h
    obtain ⟨rel, hrel, ⟨header, ps⟩, hchange, w, hw, rfl⟩ := h
    obtain ⟨d, hd, rfl⟩ := Acting.putRelationship_ok hw
    exact ⟨rel, _, d, Acting.relationship_ok hrel, .changed (Change.makes_apply hchange), hd, rfl⟩
  | _ => cases hedits

end CarryOut

end MetadataArchive
