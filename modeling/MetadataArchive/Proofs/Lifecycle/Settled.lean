import MetadataArchive.Proofs.Lifecycle.Edit
import MetadataArchive.Proofs.Lifecycle.Version

/-!
# Deletion and what it remembers

A record is deleted exactly where it remembers the status that it had before (`Header.Settled`).
Requests that change records of their own home keep this: each writes settled records only, and
entities whose classifications can be told apart (`Request.settled_carryOut`). Copies come with the
headers that they have, and are left out here.

An invariant of a store is a property of the records whose documents it holds (`Document.Holds`).
What a request reads is not the record that was written but what is read of its document, so an
invariant is of use where it is passed on to that; this is where names without full stops are
needed. What is read of a document that holds a settled record is settled again, and has the same
names. Proxies carry no more than a header and unique properties, and no invariant here says
anything about them.
-/

set_option autoImplicit false

namespace MetadataArchive

variable {ts : TypeSystem} {d : Document}

/-! ## What holds of the records that are stored -/

section Held

variable {P : Entity → Prop} {Q : Relationship → Prop}

/-- A document of a proxy, or of an entity or a relationship of which something holds. -/
inductive Document.Holds (ts : TypeSystem) (P : Entity → Prop) (Q : Relationship → Prop)
    (d : Document) : Prop
  | entity {e : Entity} (toDocument : e.toDocument ts = .ok d) (holds : P e)
  | proxy {p : Proxy} (toDocument : p.toDocument ts = .ok d)
  | relationship {rel : Relationship} (toDocument : rel.toDocument ts = .ok d) (holds : Q rel)

namespace Document.Holds

/-- An entity that is read is what is read of one that was written. -/
theorem full {e : Entity} (hnamed : ts.Named) (hundotted : ts.Undotted)
    (hwell : ∀ e, P e → e.WellNamed) (h : d.Holds ts P Q)
    (hread : StoredEntity.ofDocument d = .ok (.full e)) : ∃ e₀, P e₀ ∧ e₀.Rereads e := by
  obtain ⟨hid, -, hproxy⟩ := StoredEntity.ofDocument_ok hread
  have hguid := (Entity.reads_of_ofDocument hread).1
  cases h with
  | @entity e₀ hd he =>
    have hkey : e₀.guid = e.guid := by
      have hsame := RecordRef.docId_injective ((Entity.lays hd).id.symm.trans hid.symm)
      exact congrArg RecordRef.guid hsame
    have hnames := hwell e₀ he
    rw [Entity.ofDocument_rereads_iff (hkey ▸ hguid) hnames.toApart (hnames.plain hnamed hundotted)
      hd] at hread
    obtain ⟨e', hrereads, heq⟩ := hread
    cases heq
    exact ⟨e₀, he, hrereads⟩
  | proxy hd =>
    rw [Proxy.isProxy_toDocument hd] at hproxy
    cases hproxy
  | relationship hd =>
    have hkey := (Relationship.lays hd).id.symm.trans hid.symm
    exact absurd hkey (RecordRef.relationship_ne_entity _ _)

/-- A relationship that is read is what is read of one that was written, with the ends as they are
by then. -/
theorem relationship_of_ofDocument {rel : Relationship} {one two : Option Document}
    (hnamed : ts.Named) (hundotted : ts.Undotted) (h : d.Holds ts P Q)
    (hread : Relationship.ofDocument ts d one two = .ok rel) :
    ∃ rel₀, Q rel₀ ∧ { rel₀ with endOne := rel.endOne, endTwo := rel.endTwo }.Rereads rel := by
  obtain ⟨hid, -, -, -⟩ := Relationship.ofDocument_ok hread
  have hguid := (Relationship.reads_of_ofDocument hread).1
  cases h with
  | entity hd =>
    have hkey := (Entity.lays hd).id.symm.trans hid.symm
    exact absurd hkey.symm (RecordRef.relationship_ne_entity _ _)
  | proxy hd =>
    have hkey := (Proxy.lays hd).id.symm.trans hid.symm
    exact absurd hkey.symm (RecordRef.relationship_ne_entity _ _)
  | @relationship rel₀ hd hrel =>
    have hkey : rel₀.guid = rel.guid := by
      have hsame := RecordRef.docId_injective ((Relationship.lays hd).id.symm.trans hid.symm)
      exact congrArg RecordRef.guid hsame
    have hplain := Relationship.plain_of_toDocument hnamed hundotted hd
    rw [Relationship.ofDocument_rereads_ends_iff (hkey ▸ hguid) hplain hd] at hread
    exact ⟨rel₀, hrel, hread.2.2⟩

end Document.Holds

end Held

/-! ## Headers -/

/-- A record is deleted exactly where it remembers a status, and that is not deletion. -/
structure Header.Settled (h : Header) : Prop where
  deleted_iff : h.status = .deleted ↔ h.statusOnDelete ≠ none
  remembered : h.statusOnDelete ≠ some .deleted

theorem Header.Settled.of_live {h : Header} (hlive : h.status ≠ .deleted)
    (hnone : h.statusOnDelete = none) : h.Settled :=
  ⟨iff_of_false hlive fun hne => hne hnone, by simp [hnone]⟩

theorem Header.Settled.stored {h : Header} (hs : h.Settled) : h.stored.Settled :=
  ⟨hs.deleted_iff, hs.remembered⟩

theorem Header.Settled.statusOnDelete_eq_none {h : Header} (hs : h.Settled)
    (hlive : h.status ≠ .deleted) : h.statusOnDelete = none := by
  by_contra hne
  exact hlive (hs.deleted_iff.2 hne)

section Changes

variable {c : Change} {user : String} {collection : Collection} {now : Instant}
variable {h h' : Header} {ps ps' : Properties}

/-- **Every change keeps the header settled.** -/
theorem Change.Makes.settled (hm : c.Makes user collection now h ps h' ps') (hs : h.Settled) :
    h'.Settled := by
  have hsets := hm.sets
  cases c with
  | properties new =>
    obtain ⟨-, hstatus, honDelete, -⟩ := hsets
    exact ⟨by rw [hstatus, honDelete]; exact hs.deleted_iff, by rw [honDelete]; exact hs.remembered⟩
  | status s =>
    obtain ⟨hlive, -, hne, honDelete, -⟩ := hsets
    exact .of_live hne (honDelete.trans (hs.statusOnDelete_eq_none hlive))
  | delete =>
    obtain ⟨hlive, hstatus, honDelete, -⟩ := hsets
    exact ⟨iff_of_true hstatus (by simp [honDelete]), by simpa [honDelete] using hlive⟩
  | restore =>
    obtain ⟨hdeleted, hstatus, honDelete, -⟩ := hsets
    refine .of_live ?_ honDelete
    rw [hstatus]
    cases hs' : h.statusOnDelete with
    | none => decide
    | some s =>
      have hne := hs.remembered
      simpa [hs'] using hne

end Changes

theorem Entity.Edited.settled {now : Instant} {i : Invocation} {e e' : Entity}
    (h : e.Edited ts now i e') (hs : e.header.Settled) : e'.header.Settled := by
  cases h with
  | changed makes => exact makes.settled hs
  | classified _ _ follows | reclassified _ follows | declassified _ follows =>
    exact ⟨by rw [follows.status, follows.statusOnDelete]; exact hs.deleted_iff,
      by rw [follows.statusOnDelete]; exact hs.remembered⟩

theorem Relationship.Edited.settled {now : Instant} {i : Invocation} {rel rel' : Relationship}
    (h : rel.Edited now i rel') (hs : rel.header.Settled) : rel'.header.Settled := by
  cases h with
  | changed makes => exact makes.settled hs

/-! ## Documents -/

/-- A document of a proxy, or of a record that is settled and, if it is an entity, well named. -/
inductive Document.Settled (ts : TypeSystem) (d : Document) : Prop
  | entity {e : Entity} (toDocument : e.toDocument ts = .ok d) (named : e.WellNamed)
      (settled : e.header.Settled)
  | proxy {p : Proxy} (toDocument : p.toDocument ts = .ok d)
  | relationship {rel : Relationship} (toDocument : rel.toDocument ts = .ok d)
      (settled : rel.header.Settled)

/-- What is read has the names that were written. -/
theorem Entity.Rereads.wellNamed {e e' : Entity} (h : e.Rereads e') (he : e.WellNamed) :
    e'.WellNamed := by
  obtain ⟨ps, cs, -, hcs, rfl⟩ := h
  let names (c : Classification) := (c.name, c.header.typeRef.name)
  have hnames : e.classifications.map names = cs.map names := by
    rw [← List.forall₂_eq_eq_eq, List.forall₂_map_left_iff, List.forall₂_map_right_iff]
    refine hcs.imp fun c c' hc => ?_
    obtain ⟨_, -, rfl⟩ := hc
    rfl
  have hkept : ∀ c' ∈ cs, ∃ c ∈ e.classifications, names c = names c' := fun c' hc =>
    List.mem_map.1 (hnames ▸ List.mem_map_of_mem hc)
  have hdistinct := congrArg (List.map Prod.fst) hnames
  rw [List.map_map, List.map_map] at hdistinct
  refine ⟨⟨?_, fun c' hc => ?_⟩, he.type, fun c' hc => ?_⟩
  · exact hdistinct ▸ he.distinct
  · obtain ⟨c, hmem, heq⟩ := hkept c' hc
    exact (Prod.mk.inj heq).1 ▸ he.undotted c hmem
  · obtain ⟨c, hmem, heq⟩ := hkept c' hc
    exact (Prod.mk.inj heq).2 ▸ he.classificationTypes c hmem

namespace Document.Settled

/-- A document that is no proxy's holds a settled header. -/
theorem header (h : d.Settled ts) (hproxy : d.isProxy = false) :
    ∃ header, Header.ofDocument d "" = .ok header ∧ header.Settled := by
  cases h with
  | entity hd _ hs => exact ⟨_, Header.ofDocument_of_laidOut (Entity.lays hd).laidOut, hs.stored⟩
  | proxy hd =>
    rw [Proxy.isProxy_toDocument hd] at hproxy
    cases hproxy
  | relationship hd hs =>
    exact ⟨_, Header.ofDocument_of_laidOut (Relationship.lays hd).laidOut, hs.stored⟩

variable (hnamed : ts.Named) (hundotted : ts.Undotted)
include hnamed hundotted

omit hnamed hundotted in
theorem holds (h : d.Settled ts) :
    d.Holds ts (fun e => e.WellNamed ∧ e.header.Settled) fun rel => rel.header.Settled := by
  cases h with
  | entity hd he hs => exact .entity hd ⟨he, hs⟩
  | proxy hd => exact .proxy hd
  | relationship hd hs => exact .relationship hd hs

/-- An entity that is read of such a document is settled, and can be stored again. -/
theorem full {e : Entity} (h : d.Settled ts) (hread : StoredEntity.ofDocument d = .ok (.full e)) :
    e.header.Settled ∧ e.WellNamed := by
  obtain ⟨e₀, ⟨he, hs⟩, hrereads⟩ :=
    h.holds.full hnamed hundotted (fun _ hholds => hholds.1) hread
  refine ⟨?_, hrereads.wellNamed he⟩
  obtain ⟨ps, cs, -, -, rfl⟩ := hrereads
  exact hs.stored

omit hnamed hundotted in
theorem relationship_of_ofDocument {rel : Relationship} {one two : Option Document}
    (h : d.Settled ts) (hread : Relationship.ofDocument ts d one two = .ok rel) :
    rel.header.Settled := by
  obtain ⟨hid, -, -, -⟩ := Relationship.ofDocument_ok hread
  have hguid := (Relationship.reads_of_ofDocument hread).1
  cases h with
  | entity hd =>
    have hkey := (Entity.lays hd).id.symm.trans hid.symm
    exact absurd hkey.symm (RecordRef.relationship_ne_entity _ _)
  | proxy hd =>
    have hkey := (Proxy.lays hd).id.symm.trans hid.symm
    exact absurd hkey.symm (RecordRef.relationship_ne_entity _ _)
  | @relationship rel₀ hd hs =>
    have hkey : rel₀.guid = rel.guid := by
      have hsame := RecordRef.docId_injective ((Relationship.lays hd).id.symm.trans hid.symm)
      exact congrArg RecordRef.guid hsame
    rw [Relationship.ofDocument_parts (hkey ▸ hguid) hd] at hread
    obtain ⟨header, ps, p, q, hheader, -, -, -, rfl⟩ := hread
    rw [Header.ofDocument_of_laidOut (Relationship.lays hd).laidOut] at hheader
    cases hheader
    exact hs.stored

end Document.Settled

/-! ## Deletion and restoration -/

section Restoring

variable {user user' guid guid' : String} {collection collection' : Collection}
variable {now now' : Instant}

/-- **What deletion remembers restoration gives back**: the header follows twice. -/
theorem Change.Makes.restores {h h₁ h₂ : Header} {ps ps₁ ps' ps₂ : Properties}
    (hdelete : Change.delete.Makes user collection now h ps h₁ ps₁)
    (hrestore : Change.restore.Makes user' collection' now' h₁ ps' h₂ ps₂) (hs : h.Settled) :
    ∃ between : Header, h.Follows between user now ∧ between.Follows h₂ user' now' := by
  obtain ⟨hlive, -, honDelete, -⟩ := hdelete.sets
  obtain ⟨-, hstatus, hforgotten, -⟩ := hrestore.sets
  have hback : h₂.status = h.status := by rw [hstatus, honDelete, Option.getD_some]
  have hnone : h₂.statusOnDelete = h.statusOnDelete := by
    rw [hforgotten, hs.statusOnDelete_eq_none hlive]
  have hlast := hrestore.follows
  rw [hback, hnone] at hlast
  refine ⟨{ h₁ with status := h.status, statusOnDelete := h.statusOnDelete }, ?_, hlast⟩
  have hfirst := hdelete.follows
  let settle (x : Header) := { x with status := h.status, statusOnDelete := h.statusOnDelete }
  exact ⟨hfirst.version, hfirst.updatedBy, hfirst.updateTime, hfirst.maintainedBy,
    congrArg settle hfirst.rest⟩

theorem Header.Follows.toNat_version_twice {h between h' : Header}
    (hfirst : h.Follows between user now) (hlast : between.Follows h' user' now')
    (hroom : h.version.toNat < 2 ^ 63 - 2) : h'.version.toNat = h.version.toNat + 2 := by
  have hone := hfirst.toNat_version (Nat.lt_of_lt_of_le hroom (by decide))
  rw [hlast.toNat_version (by omega), hone]

/-- The header that a deletion writes is read as it is. -/
theorem Change.Makes.stored_eq {c : Change} {h h' : Header} {ps ps' : Properties}
    (hm : c.Makes user collection now h ps h' ps') (hroom : h.version.toNat < 2 ^ 63 - 1) :
    h'.stored = h' := by
  have hnext : h'.version.toNat = h.version.toNat + 1 := hm.follows.toNat_version hroom
  rw [Header.stored_eq_self_iff]
  omega

/-- An entity that is deleted, read and restored is the entity as it is read, under a header that
follows twice. -/
theorem Entity.Edited.restores {e e₀ e₂ e₃ : Entity}
    (hdelete : e.Edited ts now ⟨user, collection, .changeEntity guid .delete⟩ e₀)
    (hread : e₀.Rereads e₂)
    (hrestore : e₂.Edited ts now' ⟨user', collection', .changeEntity guid' .restore⟩ e₃)
    (hs : e.header.Settled) (hroom : e.header.version.toNat < 2 ^ 63 - 2) :
    ∃ (e₁ : Entity) (between h : Header), e.Rereads e₁ ∧ e.header.Follows between user now ∧
      between.Follows h user' now' ∧ e₃ = { e₁ with header := h } := by
  cases hdelete with
  | changed makes =>
    obtain ⟨_, cs, hps, hcs, rfl⟩ := hread
    cases hrestore with
    | @changed _ _ _ _ _ _ ps makes' =>
      have hstored := makes.stored_eq (Nat.lt_of_lt_of_le hroom (by decide))
      obtain ⟨-, -, -, rfl⟩ := makes.sets
      obtain ⟨-, -, -, rfl⟩ := makes'.sets
      obtain ⟨between, hfirst, hlast⟩ := makes.restores (hstored ▸ makes') hs
      exact ⟨⟨e.guid, e.header.stored, ps, cs⟩, between, _, ⟨ps, cs, hps, hcs, rfl⟩, hfirst, hlast,
        rfl⟩

/-- A relationship that is deleted, read between any ends and restored likewise. -/
theorem Relationship.Edited.restores {rel rel₀ rel₂ rel₃ : Relationship} {one two : Proxy}
    (hdelete : rel.Edited now ⟨user, collection, .changeRelationship guid .delete⟩ rel₀)
    (hread : { rel₀ with endOne := one, endTwo := two }.Rereads rel₂)
    (hrestore : rel₂.Edited now' ⟨user', collection', .changeRelationship guid' .restore⟩ rel₃)
    (hs : rel.header.Settled) (hroom : rel.header.version.toNat < 2 ^ 63 - 2) :
    ∃ (rel₁ : Relationship) (between h : Header),
      { rel with endOne := one, endTwo := two }.Rereads rel₁ ∧
      rel.header.Follows between user now ∧ between.Follows h user' now' ∧
      rel₃ = { rel₁ with header := h } := by
  cases hdelete with
  | changed makes =>
    obtain ⟨_, hps, rfl⟩ := hread
    cases hrestore with
    | @changed _ _ _ _ _ _ ps makes' =>
      have hstored := makes.stored_eq (Nat.lt_of_lt_of_le hroom (by decide))
      obtain ⟨-, -, -, rfl⟩ := makes.sets
      obtain ⟨-, -, -, rfl⟩ := makes'.sets
      obtain ⟨between, hfirst, hlast⟩ := makes.restores (hstored ▸ makes') hs
      exact ⟨⟨rel.guid, rel.header.stored, ps, one, two⟩, between, _, ⟨ps, hps, rfl⟩, hfirst, hlast,
        rfl⟩

end Restoring

/-! ## New records -/

/-- Classifications whose names are distinct, and neither these nor their types' have full stops. -/
structure Classification.WellNamed (cs : List Classification) : Prop where
  distinct : (cs.map Classification.name).Nodup
  undotted : ∀ c ∈ cs, '.' ∉ c.name.toList ∧ '.' ∉ c.header.typeRef.name.toList

namespace Acting

variable {a : Acting} {ws : List Write} {guid typeName : String} {ps : Properties}
variable {status : Option Status} (hnamed : a.types.Named) (hundotted : a.types.Undotted)
include hnamed hundotted

theorem wellNamed_newClassifications {entityType : String} {done cs : List Classification}
    {new : List NewClassification} (hdone : Classification.WellNamed done)
    (h : a.newClassifications entityType done new = .ok cs) : Classification.WellNamed cs := by
  induction new generalizing done with
  | nil =>
    cases h
    exact hdone
  | cons c new ih =>
    unfold newClassifications at h
    split at h
    · simp only [bind_eq_ok, throw_eq_ok, false_and, exists_false] at h
    next hfresh =>
      simp only [newClassification, bind_eq_ok, pure_eq_ok, liftM_rejection_eq_ok] at h
      obtain ⟨_, ⟨t, htype, _, -, _, -, rfl⟩, h⟩ := h
      obtain ⟨hknown, -⟩ := Rule.typeOf_ok htype
      have hname := hundotted _ _ hknown
      have hfresh : ∀ d ∈ done, d.name ≠ c.name := by simpa using hfresh
      refine ih ⟨?_, fun d hd => ?_⟩ h
      · simpa [List.nodup_append, hdone.distinct] using hfresh
      · rcases List.mem_append.1 hd with hd | hd
        · exact hdone.undotted d hd
        · rw [List.mem_singleton.1 hd]
          exact ⟨hnamed _ _ hknown ▸ hname, hname⟩

/-- **An entity is created settled.** -/
theorem settled_createEntity {cs : List NewClassification}
    (h : a.createEntity guid typeName ps cs status = .ok ws) :
    ∃ d : Document, d.Settled a.types ∧ ws = [.put d] := by
  simp only [createEntity, bind_eq_ok, liftM_rejection_eq_ok] at h
  obtain ⟨t, ht, _, -, s, hs, stored, -, h⟩ := h
  have hput : ∀ new w, a.newClassifications typeName [] cs = .ok new →
      a.putEntity ⟨guid, { a.newHeader t.typeRef with status := s }, ps, new⟩ = .ok w →
      ∃ d : Document, d.Settled a.types ∧ [w] = [.put d] := by
    intro new w hnew hw
    obtain ⟨d, hd, rfl⟩ := putEntity_ok hw
    have hwell := wellNamed_newClassifications hnamed hundotted ⟨by simp, by simp⟩ hnew
    refine ⟨d, .entity hd ⟨⟨hwell.distinct, fun c hc => (hwell.undotted c hc).1⟩, ?_,
      fun c hc => (hwell.undotted c hc).2⟩ (.of_live (Rule.firstStatus_ok hs) rfl), rfl⟩
    exact hundotted _ _ (Rule.typeOf_ok ht).1
  cases stored with
  | none =>
    simp only [bind_eq_ok, pure_eq_ok] at h
    obtain ⟨new, hnew, w, hw, rfl⟩ := h
    exact hput new w hnew hw
  | some existing =>
    dsimp only at h
    split at h
    · simp only [bind_eq_ok, throw_eq_ok, false_and, exists_false] at h
    · simp only [bind_eq_ok, pure_eq_ok] at h
      obtain ⟨new, hnew, w, hw, rfl⟩ := h
      exact hput new w hnew hw

omit hnamed hundotted in
theorem settled_newProxies (h : a.OnlyNewProxies ws) : ∀ d, .put d ∈ ws → d.Settled a.types := by
  intro d hd
  obtain ⟨p, _, heq, hp, -⟩ := h _ hd
  cases heq
  exact .proxy hp

omit hnamed hundotted in
/-- **A relationship is created settled.** -/
theorem settled_createRelationship {endOne endTwo : Proxy}
    (h : a.createRelationship guid typeName ps status endOne endTwo = .ok ws) :
    ∀ d, .put d ∈ ws → d.Settled a.types := by
  simp only [createRelationship, bind_eq_ok, liftM_rejection_eq_ok] at h
  obtain ⟨t, -, _, -, s, hs, h⟩ := h
  split at h
  · simp only [bind_eq_ok, throw_eq_ok, false_and, exists_false] at h
  · simp only [bind_eq_ok, pure_eq_ok] at h
    obtain ⟨proxies, hproxies, w, hw, rfl⟩ := h
    obtain ⟨d', hd', rfl⟩ := putRelationship_ok hw
    intro d hd
    rcases List.mem_append.1 hd with hd | hd
    · exact settled_newProxies (endProxies_ok hproxies).1 d hd
    · cases List.mem_singleton.1 hd
      exact .relationship hd' (.of_live (Rule.firstStatus_ok hs) rfl)

end Acting

/-! ## Requests -/

/-- The functions for copies. All others change records of their own home. -/
def Request.copyFunctions : List String :=
  ["store-entity-reference-copy", "purge-entity-reference-copy",
    "store-relationship-reference-copy", "store-home-relationship",
    "purge-relationship-reference-copy", "store-classification-reference-copy",
    "purge-classification-reference-copy"]

def Request.OfHome (r : Request) : Prop := r.function ∉ Request.copyFunctions

section CarryOut

variable {a : Acting} {req : Request} {ws : List Write}
variable (hnamed : a.types.Named) (hundotted : a.types.Undotted)
variable (hdocs : ∀ id d, a.context.source.document? id = some d → d.Settled a.types)
include hnamed hundotted hdocs

theorem Request.settled_edits_entity (hedits : req.editsEntity = true)
    (h : req.carryOut a = .ok ws) : ∀ d, .put d ∈ ws → d.Settled a.types := by
  obtain ⟨e, e', d, hstored, hedited, hd, rfl⟩ :=
    Request.edits_entity (i := ⟨a.user, a.collection, req⟩) hedits h
  obtain ⟨d₀, hd₀, hread⟩ := Acting.stored?_some hstored
  obtain ⟨hs, he⟩ := (hdocs _ d₀ hd₀).full hnamed hundotted hread
  intro d' hd'
  cases List.mem_singleton.1 hd'
  exact .entity hd (hedited.wellNamed hnamed hundotted he) (hedited.settled hs)

omit hnamed hundotted in
theorem Request.settled_edits_relationship (hedits : req.editsRelationship = true)
    (h : req.carryOut a = .ok ws) : ∀ d, .put d ∈ ws → d.Settled a.types := by
  obtain ⟨rel, rel', d, hstored, hedited, hd, rfl⟩ :=
    Request.edits_relationship (i := ⟨a.user, a.collection, req⟩) hedits h
  obtain ⟨d₀, one, two, hd₀, -, hread⟩ := Acting.relationship?_some hstored
  have hs := (hdocs _ d₀ hd₀).relationship_of_ofDocument hread
  intro d' hd'
  cases List.mem_singleton.1 hd'
  exact .relationship hd (hedited.settled hs)

/-- **Every request of a record's home writes settled records**, where all are settled. -/
theorem Request.settled_carryOut (hhome : req.OfHome) (h : req.carryOut a = .ok ws) :
    ∀ d, .put d ∈ ws → d.Settled a.types := by
  cases req with
  | createEntity =>
    obtain ⟨d, hd, rfl⟩ := Acting.settled_createEntity hnamed hundotted h
    intro d' hd'
    cases List.mem_singleton.1 hd'
    exact hd
  | createStub proxy =>
    rcases Acting.createStub_ok h with rfl | ⟨-, d, hd, rfl⟩
    · simp
    · intro d' hd'
      cases List.mem_singleton.1 hd'
      exact .proxy hd
  | changeEntity => exact Request.settled_edits_entity hnamed hundotted hdocs rfl h
  | purgeEntity =>
    obtain ⟨ids, -, rfl⟩ := Acting.purgeEntity_ok h
    simp
  | classify => exact Request.settled_edits_entity hnamed hundotted hdocs rfl h
  | declassify => exact Request.settled_edits_entity hnamed hundotted hdocs rfl h
  | createRelationship => exact Acting.settled_createRelationship h
  | changeRelationship => exact Request.settled_edits_relationship hdocs rfl h
  | purgeRelationship =>
    rw [Acting.purgeRelationship_ok h]
    simp
  | _ => exact absurd (of_decide_eq_true rfl) hhome

end CarryOut

end MetadataArchive
