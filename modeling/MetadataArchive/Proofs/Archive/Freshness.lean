import MetadataArchive.Proofs.Archive.Edit
import MetadataArchive.Proofs.Lifecycle.Standing

/-!
# Which copies of an entity are taken in

A copy is taken in where what is stored can be read, is homed elsewhere and is no full entity of the
same version or a higher one. The version that is stored is that of the copy which was taken in
last, as it was kept, and one more for every edit since; for whoever classifies a copy gives it the
next version. So a new copy is overlooked where its home has changed the entity no more often since
than it was edited here (`fresh_copies_are_taken_in`).
-/

set_option autoImplicit false

namespace MetadataArchive

variable {ts : TypeSystem} {s : Store} {i : Invocation} {op : TxOp} {now : Instant} {x : Entity}
variable {guid : String} {header : Header}

/-! ## Taking in -/

/-- What is stored can give way to a copy: it can be read, it is homed outside of the collection,
and it is no full entity of that version or a higher one. -/
def Source.Admits (src : Source) (collection : String) (x : Entity) : Prop :=
  ∃ stored, src.stored? x.reference.docId = .ok stored ∧
    (∀ existing, stored = some existing → existing.header.collectionId ≠ collection) ∧
    ∀ current, stored = some (.full current) → current.header.version < x.header.version

/-- A call is accepted and writes one document. -/
def Store.Writes (s : Store) (ts : TypeSystem) (now : Instant) (op : TxOp) : Prop :=
  s.accepts (Catalog.functions ts) now [op] = true ∧
    (s.outcome (Catalog.functions ts) now [op]).result = .committed 1

/-- **A copy is taken in** where its type is known, its home is another one and what is stored can
give way; else all documents stay as they are. -/
theorem Store.Reached.takes_entity (h : s.Reached) (hop : op.Calls i)
    (hi : i.request = .storeEntityCopy x) :
    let s' := s.step (.submit (Catalog.functions ts) now [op])
    let admitted := ts.Knows (· = .entity) x.header.typeRef.name ∧
      x.header.collectionId ≠ i.collection.id ∧ s.latest.Admits i.collection.id x
    s.Writes ts now op ∧ admitted ∧
        (∃ d, x.toDocument ts = .ok d ∧
          s'.latest.document? = (Write.put d).on s.latest.document?) ∨
      ¬ s.Writes ts now op ∧ ¬ admitted ∧ s'.latest.document? = s.latest.document? := by
  intro s' admitted
  rcases h.calls hop ts now with
    ⟨ws, hcarry, haccepted, hlatest, hresult⟩ | ⟨⟨failure, hcarry⟩, hrejected, hlatest⟩
  · rw [hi] at hcarry
    obtain ⟨hknown, helsewhere, stored, hstored, hforeign, hwrites⟩ :=
      Acting.storeEntityCopy_eq_ok.1 hcarry
    rcases hwrites with ⟨⟨current, rfl, hlate⟩, rfl⟩ | ⟨hnewer, d, hd, rfl⟩
    · refine Or.inr ⟨fun hwrites => ?_, ?_, hlatest⟩
      · cases hresult.symm.trans hwrites.2
      · rintro ⟨-, -, stored, hstored', -, hnewer⟩
        cases hstored.symm.trans hstored'
        exact UInt64.not_le.2 (hnewer current rfl) hlate
    · exact Or.inl ⟨⟨haccepted, hresult⟩, ⟨hknown, helsewhere, stored, hstored, hforeign, hnewer⟩,
        d, hd, hlatest⟩
  · refine Or.inr ⟨fun hwrites => ?_, ?_, hlatest⟩
    · cases hrejected.symm.trans hwrites.1
    · rintro ⟨hknown, helsewhere, stored, hstored, hforeign, hnewer⟩
      obtain ⟨t, ht, -⟩ := id hknown
      have hput : ∃ d, x.toDocument ts = .ok d := Entity.exists_toDocument (by simp [ht])
      obtain ⟨d, hd⟩ := hput
      have hok : i.request.carryOut (s.acting ts now i) = .ok [.put d] := by
        rw [hi]
        exact Acting.storeEntityCopy_eq_ok.2 ⟨hknown, helsewhere, stored, hstored, hforeign,
          Or.inr ⟨hnewer, d, hd, rfl⟩⟩
      cases hok.symm.trans hcarry

/-- A copy that is taken in is what is stored then. -/
theorem Store.Reached.stores_entity (h : s.Reached) (hop : op.Calls i)
    (hi : i.request = .storeEntityCopy x) (hknown : ts.Knows (· = .entity) x.header.typeRef.name)
    (helsewhere : x.header.collectionId ≠ i.collection.id)
    (hadmits : s.latest.Admits i.collection.id x) :
    ∃ d, x.toDocument ts = .ok d ∧
      (s.step (.submit (Catalog.functions ts) now [op])).latest.document? x.reference.docId =
        some d := by
  rcases h.takes_entity hop hi with ⟨-, -, d, hd, hdocs⟩ | ⟨-, hrefused, -⟩
  · refine ⟨d, hd, ?_⟩
    rw [hdocs, show x.reference.docId = d.id from (Entity.lays hd).id.symm]
    exact Write.on_self (w := .put d)
  · exact absurd ⟨hknown, helsewhere, hadmits⟩ hrefused

/-- What gives way to a copy, where the entity is stored in full and homed elsewhere. -/
theorem StoredUnder.admits_iff {collection : String}
    (hstored : StoredUnder s.latest.document? x.guid header)
    (helsewhere : header.collectionId ≠ collection) :
    s.latest.Admits collection x ↔
      (∃ e, s.latest.entity x.guid = .ok e) ∧ header.version < x.header.version := by
  obtain ⟨d, hd, -, hproxy, hheader⟩ := hstored
  have hread (e : Entity) : s.latest.entity x.guid = .ok e ↔
      s.latest.stored? x.reference.docId = .ok (some (.full e)) := by
    rw [Source.entity_eq_ok hd, Source.stored?, Entity.reference, hd]
    simp only [bind_eq_ok, pure_eq_ok, liftM_record_eq_ok, Option.some.injEq, exists_eq_right]
  have hfull {stored : Option StoredEntity}
      (hstored : s.latest.stored? x.reference.docId = .ok stored) :
      ∃ e, stored = some (.full e) ∧ e.header = header := by
    rw [Source.stored?, Entity.reference, hd] at hstored
    simp only [bind_eq_ok, pure_eq_ok, liftM_record_eq_ok] at hstored
    obtain ⟨existing, hof, rfl⟩ := hstored
    cases existing with
    | proxy p => cases (StoredEntity.ofDocument_ok hof).2.2.trans hproxy
    | full e =>
      exact ⟨e, rfl, Except.ok.inj ((Entity.reads_of_ofDocument hof).2.1.symm.trans hheader)⟩
  constructor
  · rintro ⟨stored, hstored, -, hnewer⟩
    obtain ⟨e, rfl, rfl⟩ := hfull hstored
    exact ⟨⟨e, (hread e).2 hstored⟩, hnewer e rfl⟩
  · rintro ⟨⟨e, he⟩, hnewer⟩
    have hstored := (hread e).1 he
    obtain ⟨_, heq, rfl⟩ := hfull hstored
    cases heq
    refine ⟨_, hstored, ?_, ?_⟩
    · intro existing heq
      cases heq
      exact helsewhere
    · intro current heq
      cases heq
      exact hnewer

/-! ## Edits since -/

/-- An event in which an entity stays, and is edited so many times. What leaves its document alone
is no edit; a call is one where its request is to edit the entity and is accepted, but it may not be
a request that replaces it. -/
inductive StoreEvent.Edits (ts : TypeSystem) (guid : String) (s : Store) :
    StoreEvent Failure → Nat → Prop
  | leaves {ev : StoreEvent Failure}
      (same : (s.step ev).latest.document? (RecordRef.entity guid).docId =
        s.latest.document? (RecordRef.entity guid).docId) :
      Edits ts guid s ev 0
  | call {now : Instant} {op : TxOp} {i : Invocation} (calls : op.Calls i)
      (stays : i.request.target = .entity guid → i.request.replacesEntity = false) :
      Edits ts guid s (.submit (Catalog.functions ts) now [op])
        (if s.accepts (Catalog.functions ts) now [op] = true ∧ i.request.Edits guid then 1 else 0)

/-- The store goes on, and the entity is edited so many times. -/
inductive Store.Edits (ts : TypeSystem) (guid : String) :
    Store → List (StoreEvent Failure) → Nat → Prop
  | nil {s : Store} : Edits ts guid s [] 0
  | cons {s : Store} {ev : StoreEvent Failure} {events : List (StoreEvent Failure)} {m n : Nat}
      (first : ev.Edits ts guid s m) (rest : Edits ts guid (s.step ev) events n) :
      Edits ts guid s (ev :: events) (m + n)

namespace Store.Reached

variable {ev : StoreEvent Failure} {events : List (StoreEvent Failure)} {n : Nat}

theorem storedUnder_step (h : s.Reached) (hev : ev.Edits ts guid s n)
    (hstored : StoredUnder s.latest.document? guid header)
    (hroom : header.version.toNat + n < 2 ^ 63) :
    ∃ header', StoredUnder (s.step ev).latest.document? guid header' ∧
      header'.collectionId = header.collectionId ∧
      header'.version.toNat = header.version.toNat + n := by
  cases hev with
  | leaves same =>
    obtain ⟨d, hd, hrest⟩ := hstored
    exact ⟨header, ⟨d, same.trans hd, hrest⟩, rfl, rfl⟩
  | @call now op i calls stays =>
    rcases h.calls calls ts now with ⟨ws, hcarry, haccepted, hlatest, -⟩ | ⟨-, hrejected, hlatest⟩
    · obtain ⟨header', hstored', hhome, hversion⟩ :=
        Request.storedUnder_carryOut h.coherent hcarry hstored stays
      refine ⟨header', by rwa [hlatest], hhome, ?_⟩
      rw [hversion]
      by_cases hedits : i.request.Edits guid
      · simp only [haccepted, hedits, and_self, if_true] at hroom ⊢
        have hone : (1 : UInt64).toNat = 1 := rfl
        have hnext : (header.version + 1).toNat = header.version.toNat + 1 := by
          rw [UInt64.toNat_add]
          omega
        rw [keptVersion_eq, if_pos (hnext ▸ hroom), hnext]
      · simp [hedits]
    · refine ⟨header, by rwa [hlatest], rfl, ?_⟩
      simp [hrejected]

/-- **An entity that stays** keeps its home, and has one more version for every edit. -/
theorem storedUnder_run (h : s.Reached) (hevents : s.Edits ts guid events n)
    (hstored : StoredUnder s.latest.document? guid header)
    (hroom : header.version.toNat + n < 2 ^ 63) :
    ∃ header', StoredUnder (s.run events).latest.document? guid header' ∧
      header'.collectionId = header.collectionId ∧
      header'.version.toNat = header.version.toNat + n := by
  induction hevents generalizing header with
  | nil => exact ⟨header, hstored, rfl, rfl⟩
  | cons first rest ih =>
    obtain ⟨header₁, hstored₁, hhome₁, hversion₁⟩ := h.storedUnder_step first hstored (by omega)
    obtain ⟨header₂, hstored₂, hhome₂, hversion₂⟩ := ih (h.step _) hstored₁ (by omega)
    exact ⟨header₂, hstored₂, hhome₂.trans hhome₁, by omega⟩

end Store.Reached

/-! ## Fresh copies -/

/-- **Which copies are taken in.** In a type system that was accepted, let any store that was
reached be asked to store a copy of an entity. The copy is taken in exactly where its type is known,
its home is not the acting collection and what is stored gives way: it can be read, it is homed
elsewhere, and it is no full entity of that version or a higher one. Where the copy is not taken in,
nothing is written. Where it is, and no name has a full stop, it is read back as it came exactly if
its versions fit and its values read back.

From then on let the entity stay, with any number of edits among all else that happens, and let its
home send another copy, to whatever collection. It is taken in exactly where what is stored can be
read and the version of that copy is higher than the version that was kept of the last one and the
number of edits together. -/
theorem fresh_copies_are_taken_in {defs : List TypeDef} {ts : TypeSystem}
    (hts : TypeSystem.ofList defs = .ok ts) (capacity : Nat) (before : List (StoreEvent Failure))
    (now : Instant) (op : TxOp) (i : Invocation) (x : Entity) (hop : op.Calls i)
    (hi : i.request = .storeEntityCopy x) :
    let s := (Store.empty capacity).run before
    let s' := s.step (.submit (Catalog.functions ts) now [op])
    (s.Writes ts now op ↔ ts.Knows (· = .entity) x.header.typeRef.name ∧
      x.header.collectionId ≠ i.collection.id ∧ s.latest.Admits i.collection.id x) ∧
    (¬ s.Writes ts now op → s'.latest.document? = s.latest.document?) ∧
    (s.Writes ts now op → ts.Undotted → x.guid ≠ "" → x.WellNamed →
      (∀ e, s'.latest.entity x.guid = .ok e ↔ x.Rereads e) ∧
      (s'.latest.entity x.guid = .ok x ↔ x.Fits ∧ x.ReadBack)) ∧
    (s.Writes ts now op → ∀ between n, s'.Edits ts x.guid between n →
      (keptVersion x.header.version).toNat + n < 2 ^ 63 →
      ∀ (now' : Instant) (op' : TxOp) (i' : Invocation) (y : Entity), op'.Calls i' →
        i'.request = .storeEntityCopy y → y.guid = x.guid →
        y.header.collectionId = x.header.collectionId →
        y.header.collectionId ≠ i'.collection.id →
        ts.Knows (· = .entity) y.header.typeRef.name →
        ((s'.run between).Writes ts now' op' ↔
          (∃ e, (s'.run between).latest.entity y.guid = .ok e) ∧
            (keptVersion x.header.version).toNat + n < y.header.version.toNat)) := by
  intro s s'
  have hnamed := TypeSystem.named_ofList hts
  have hreached : s.Reached := ⟨capacity, before, rfl⟩
  have hstep : s'.Reached := hreached.step _
  rcases hreached.takes_entity hop hi with
    ⟨hwrites, hadmitted, d, hd, hlatest⟩ | ⟨hnot, hrefused, hlatest⟩
  · have hstored : s'.latest.document? x.reference.docId = some d := by
      rw [hlatest, ← (Entity.lays hd).id]
      exact Write.on_self
    refine ⟨iff_of_true hwrites hadmitted, fun hnot => absurd hwrites hnot,
      fun _ hundotted hguid hwell => ?_, fun _ between n hedits hroom now' op' i' y hop' hi' => ?_⟩
    · have hread (e : Entity) : s'.latest.entity x.guid = .ok e ↔ x.Rereads e :=
        Source.entity_rereads_iff hnamed hundotted hguid hwell hd hstored
      exact ⟨hread, (hread x).trans Entity.rereads_self_iff⟩
    · intro hguid hhome helsewhere hknown
      obtain ⟨header, hstored₁, hhome₁, hversion⟩ :=
        hstep.storedUnder_run hedits (Entity.storedUnder hd hstored) hroom
      have hown : header.collectionId ≠ i'.collection.id := by
        rw [hhome₁]
        exact hhome ▸ helsewhere
      rw [← hguid] at hstored₁
      have htakes : (s'.run between).Writes ts now' op' ↔
          (s'.run between).latest.Admits i'.collection.id y := by
        rcases (hstep.run between).takes_entity hop' hi' with
          ⟨hwrites, ⟨-, -, hadmits⟩, -⟩ | ⟨hnot, hrefused, -⟩
        · exact iff_of_true hwrites hadmits
        · exact iff_of_false hnot fun hadmits => hrefused ⟨hknown, helsewhere, hadmits⟩
      rw [htakes, hstored₁.admits_iff hown, UInt64.lt_iff_toNat_lt, hversion]
      rfl
  · exact ⟨iff_of_false hnot hrefused, fun _ => hlatest, fun hwrites => absurd hwrites hnot,
      fun hwrites => absurd hwrites hnot⟩

/-- After one classification the second version of the home is overlooked, and the third is not. -/
theorem later_copy_is_overlooked :
    let thing : TypeDef := ⟨"t1", "Thing", .entity, none, [], []⟩
    let tag : TypeDef := ⟨"t2", "Tag", .classification, none, [], ["Thing"]⟩
    let ts := (TypeSystem.ofList [thing, tag]).toOption.getD .empty
    let copy (version : UInt64) : Invocation := ⟨"ann", ⟨"home", none⟩, .storeEntityCopy
      ⟨"e1", { Header.create ⟨"t1", "Thing"⟩ "away" none "ann" ⟨0, 0⟩ with version }, ∅, []⟩⟩
    let classify : Invocation := ⟨"bob", ⟨"home", none⟩, .classify "e1" "Tag" ∅ .add⟩
    let s := (Store.empty 1).run [StoreEvent.submit (Catalog.functions ts) ⟨0, 0⟩ [(copy 1).toOp]]
    let s' := s.run [StoreEvent.submit (Catalog.functions ts) ⟨1, 0⟩ [classify.toOp]]
    ¬ s'.Writes ts ⟨2, 0⟩ (copy 2).toOp ∧ s'.Writes ts ⟨2, 0⟩ (copy 3).toOp := by
  intro thing tag ts copy classify s s'
  have hts : TypeSystem.ofList [thing, tag] = .ok ts := eq_ok_of_isSome (by decide +kernel) _
  let fields (j : Invocation) (x : Entity) :=
    (j.collection.id, x.guid, x.header.collectionId, x.header.version, x.header.typeRef.name)
  have harrive (version : UInt64) (h : (Invocation.ofJson? (copy version).toJson).bind (fun j =>
      j.request.entityCopy?.map (fields j)) = some ("home", "e1", "away", version, "Thing")) :
      ∃ j x, (copy version).toOp.Calls j ∧ j.request = .storeEntityCopy x ∧
        j.collection.id = "home" ∧ x.guid = "e1" ∧ x.header.collectionId = "away" ∧
        x.header.version = version ∧ x.header.typeRef.name = "Thing" := by
    obtain ⟨j, x, hop, hj, hfields⟩ := Invocation.calls_entityCopy rfl fields h
    simp only [fields, Prod.mk.injEq] at hfields
    exact ⟨j, x, hop, hj, hfields⟩
  obtain ⟨i, x, hop, hi, -, hguid, hhome, hversion, -⟩ := harrive 1 (by decide +kernel)
  obtain ⟨-, -, -, hlater⟩ := fresh_copies_are_taken_in hts 1 [] ⟨0, 0⟩ (copy 1).toOp i x hop hi
  have hwrites : (Store.empty 1).Writes ts ⟨0, 0⟩ (copy 1).toOp :=
    ⟨by decide +kernel, by decide +kernel⟩
  -- The one event since is an edit.
  have haccepted : s.accepts (Catalog.functions ts) ⟨1, 0⟩ [classify.toOp] = true := by
    decide +kernel
  have hedits : s.Edits ts "e1" [.submit (Catalog.functions ts) ⟨1, 0⟩ [classify.toOp]] 1 := by
    have hcalls : classify.toOp.Calls classify := ⟨classify.toJson, rfl, rfl⟩
    have hfirst : StoreEvent.Edits ts "e1" s (.submit (Catalog.functions ts) ⟨1, 0⟩ [classify.toOp])
        (if s.accepts (Catalog.functions ts) ⟨1, 0⟩ [classify.toOp] = true ∧
          classify.request.Edits "e1" then 1 else 0) := .call hcalls fun _ => rfl
    rw [if_pos ⟨haccepted, rfl, rfl⟩] at hfirst
    exact .cons hfirst .nil
  have hread : (s'.latest.entity "e1").toOption.isSome = true := by decide +kernel
  obtain ⟨e, he⟩ := Option.isSome_iff_exists.1 hread
  have hknown : ts.Knows (· = .entity) "Thing" := ⟨thing, by decide +kernel, rfl⟩
  have hexact {version : UInt64} {j : Invocation} {y : Entity}
      (hop' : (copy version).toOp.Calls j) (hj : j.request = .storeEntityCopy y)
      (hcollection : j.collection.id = "home") (hguid' : y.guid = "e1")
      (hhome' : y.header.collectionId = "away") (htype : y.header.typeRef.name = "Thing") :
      s'.Writes ts ⟨2, 0⟩ (copy version).toOp ↔ 2 < y.header.version.toNat := by
    have htaken := hlater hwrites _ 1 (hguid ▸ hedits) (by rw [hversion]; decide) ⟨2, 0⟩ _ j y hop'
      hj (hguid'.trans hguid.symm) (hhome'.trans hhome.symm) (by rw [hhome', hcollection]; decide)
      (htype ▸ hknown)
    rw [hversion, hguid'] at htaken
    exact htaken.trans (and_iff_right ⟨e, eq_ok_of_toOption he⟩)
  obtain ⟨j₂, y₂, hop₂, hj₂, hc₂, hg₂, hh₂, hv₂, ht₂⟩ := harrive 2 (by decide +kernel)
  obtain ⟨j₃, y₃, hop₃, hj₃, hc₃, hg₃, hh₃, hv₃, ht₃⟩ := harrive 3 (by decide +kernel)
  rw [hexact hop₂ hj₂ hc₂ hg₂ hh₂ ht₂, hexact hop₃ hj₃ hc₃ hg₃ hh₃ ht₃, hv₂, hv₃]
  decide

end MetadataArchive
