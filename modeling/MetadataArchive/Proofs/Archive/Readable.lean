import MetadataArchive.Proofs.Archive.Indexing
import MetadataArchive.Proofs.Archive.Proxies
import MetadataArchive.Proofs.Lifecycle.Values

/-!
# Whatever is stored is read

A record is stored with the JSON texts of its values, and is read by reading these texts again. The
writer nests them as deep as the values are nested, and the reader gives up at a limit; nobody
compares the two. So a record that was accepted is read exactly if its values are shallow
(`records_are_read`): all are read as long as the values of all requests are shallow, and a record
with a deeper value is stored all the same, and then cannot be read.
-/

set_option autoImplicit false

namespace MetadataArchive

open PropertyValue (Sound Shallow)

variable {ts : TypeSystem} {d : Document} {P : PropertyValue → Prop} {guid : String}

/-! ## Records that can be read by name -/

/-- An entity that has a guid, values with the property, and no full stop in the name of a
classification. -/
structure Entity.Legible (P : PropertyValue → Prop) (e : Entity) : Prop where
  guid : e.guid ≠ ""
  undotted : ∀ n ∈ e.classificationNames, '.' ∉ n.toList
  values : e.All P

structure Proxy.Legible (P : PropertyValue → Prop) (p : Proxy) : Prop where
  guid : p.guid ≠ ""
  values : p.uniqueProperties.All P

structure Relationship.Legible (P : PropertyValue → Prop) (rel : Relationship) : Prop where
  guid : rel.guid ≠ ""
  values : rel.properties.All P

/-- A document of a record that has a guid and values with the property. -/
def Document.Legible (ts : TypeSystem) (P : PropertyValue → Prop) (d : Document) : Prop :=
  d.Written ts (Entity.Legible P) (Proxy.Legible P) (Relationship.Legible P)

theorem Entity.Legible.undotted_name {e : Entity} (h : e.Legible P) :
    ∀ c ∈ e.classifications, '.' ∉ c.name.toList := fun _ hc =>
  h.undotted _ (List.mem_map_of_mem hc)

namespace Document.Legible

/-- A document under the key of a relationship is that of a relationship. -/
theorem exists_relationship (h : d.Legible ts P)
    (hid : d.id = (RecordRef.relationship guid).docId) :
    ∃ rel : Relationship, rel.toDocument ts = .ok d ∧ rel.Legible P := by
  cases h with
  | @entity e hd =>
    exact absurd (hid.symm.trans (Entity.lays hd).id) (RecordRef.relationship_ne_entity guid e.guid)
  | @proxy p hd =>
    exact absurd (hid.symm.trans (Proxy.lays hd).id) (RecordRef.relationship_ne_entity guid p.guid)
  | relationship hd hrel => exact ⟨_, hd, hrel⟩

/-- A document under the key of an entity is read exactly if its values are shallow. -/
theorem exists_ofDocument_iff (h : d.Legible ts Sound)
    (hid : d.id = (RecordRef.entity guid).docId) :
    (∃ stored, StoredEntity.ofDocument d = .ok stored) ↔ d.Shallow := by
  cases h with
  | entity hd he => exact Entity.exists_ofDocument_iff he.guid he.values he.undotted_name hd
  | proxy hd hp => exact Proxy.exists_ofDocument_iff hp.guid hp.values hd
  | @relationship rel hd =>
    exact absurd ((Relationship.lays hd).id.symm.trans hid)
      (RecordRef.relationship_ne_entity rel.guid guid)

/-- Where the values of a record are shallow, those that its document stores are. -/
theorem shallow (h : d.Legible ts fun v => v.Sound ∧ v.Shallow)
    (hid : d.id = (RecordRef.entity guid).docId) : d.Shallow := by
  cases h with
  | entity hd he =>
    obtain ⟨hproperties, hclassifications⟩ :=
      Entity.stores_toDocument he.values he.undotted_name hd
    exact ⟨hproperties.shallowIn, fun name hname => (hclassifications name hname).shallowIn⟩
  | proxy hd hp =>
    refine ⟨(Proxy.stores_toDocument hp.values hd).shallowIn, ?_⟩
    rw [Proxy.classificationNames_toDocument hd]
    simp
  | @relationship rel hd =>
    exact absurd ((Relationship.lays hd).id.symm.trans hid)
      (RecordRef.relationship_ne_entity rel.guid guid)

theorem shallowIn (h : d.Legible ts fun v => v.Sound ∧ v.Shallow)
    (hid : d.id = (RecordRef.relationship guid).docId) : d.ShallowIn .relationship := by
  obtain ⟨rel, hrel, hlegible⟩ := h.exists_relationship hid
  exact (Relationship.stores_toDocument hlegible.values hrel).shallowIn

/-- A document under the key of a relationship has two ends, and is read with documents of these
exactly if its values are shallow and theirs are. -/
theorem exists_ends (h : d.Legible ts Sound) (hid : d.id = (RecordRef.relationship guid).docId) :
    ∃ endOne endTwo, Relationship.ends d =
        .ok ((RecordRef.entity endOne).docId, (RecordRef.entity endTwo).docId) ∧
      ∀ one two : Document, one.Legible ts Sound → one.id = (RecordRef.entity endOne).docId →
        two.Legible ts Sound → two.id = (RecordRef.entity endTwo).docId →
          ((∃ rel, Relationship.ofDocument ts d (some one) (some two) = .ok rel) ↔
            d.ShallowIn .relationship ∧ one.Shallow ∧ two.Shallow) := by
  obtain ⟨rel, hrel, hlegible⟩ := h.exists_relationship hid
  have hlinks := Relationship.links_toDocument hrel
  refine ⟨rel.endOne.guid, rel.endTwo.guid, Relationship.ends_iff.2 ⟨hlinks.one, hlinks.two⟩,
    fun one two hone hidOne htwo hidTwo => ?_⟩
  rw [Relationship.exists_ofDocument_iff hlegible.guid hlegible.values hrel,
    hone.exists_ofDocument_iff hidOne, htwo.exists_ofDocument_iff hidTwo]

end Document.Legible

/-! ## What is asked for -/

/-- The arguments of all calls have the property. -/
def StoreEvent.Sends (ok : Json → Prop) (ev : StoreEvent Failure) : Prop :=
  match ev with
  | .submit _ _ ops => ∀ name args, .call name args ∈ ops → ok args
  | _ => True

/-- The requests of all calls have the property. -/
def StoreEvent.Asks (ok : Request → Prop) (ev : StoreEvent Failure) : Prop :=
  ev.Sends fun args => ∀ i, Invocation.ofJson? args = some i → ok i.request

theorem StoreEvent.Asks.and {ev : StoreEvent Failure} {P' : PropertyValue → Prop}
    (h : ev.Asks (Request.All P)) (h' : ev.Asks (Request.All P')) :
    ev.Asks (Request.All fun v => P v ∧ P' v) := by
  cases ev with
  | submit =>
    exact fun name args hc i hi =>
      (h name args hc i hi).imp₂ (h' name args hc i hi) fun _ => And.intro
  | openSnapshot | release | claim => trivial

/-- Calls have sound values in their requests if they are sent what is proper. -/
theorem StoreEvent.Sends.asks_sound {ev : StoreEvent Failure} (h : ev.Sends Json.Proper) :
    ev.Asks (Request.All Sound) := by
  cases ev with
  | submit =>
    exact fun name args hc i hi =>
      (Invocation.all_of_ofJson? PropertyValue.decodes_sound (h name args hc) hi).2
  | openSnapshot | release | claim => trivial

theorem StoreEvent.sends_toOp {ok : Json → Prop} {functions : List (TxFunction Failure)}
    {now : Instant} {calls : List Invocation} (h : ∀ i ∈ calls, ok i.toJson) :
    (StoreEvent.submit functions now (calls.map Invocation.toOp)).Sends ok := by
  intro name args hc
  obtain ⟨i, hi, heq⟩ := List.mem_map.1 hc
  obtain ⟨-, rfl⟩ := TxOp.call.inj heq
  exact h i hi

/-- **The calls of a transaction keep documents legible**, if their requests are. -/
theorem StoreEvent.CallsCatalog.keeps_legible {ev : StoreEvent Failure}
    (hP : ∀ v : PropertyValue, v.Sound ∧ v.Shallow → P v) (hnamed : ts.Named)
    (hundotted : ts.Undotted) (h : ev.CallsCatalog ts) (hguided : ev.Asks Request.Guided)
    (hvalues : ev.Asks (Request.All P))
    (hbrings : ∀ e, ev.BringsEntity ts e → ∀ n ∈ e.classificationNames, '.' ∉ n.toList) :
    ev.Keeps (fun docs => ∀ id d, docs id = some d → d.Legible ts P) fun _ => True := by
  cases ev with
  | submit functions now ops =>
    obtain ⟨rfl, hops⟩ := h
    refine StoreEvent.keeps_forall (fun d hd => (hops _ hd).elim)
      fun name args hc i hi ctx hdocs ws hok d hd => ?_
    have hguided := hguided name args hc i hi
    have hvalues := hvalues name args hc i hi
    refine (Request.written_carryOut hok d hd).mono (fun e he => ?_)
      (fun p hp => ⟨hp.guid_ne hguided, hp.all hP hvalues⟩)
      fun rel hrel => ⟨hrel.guid_ne hguided, hrel.all hP hvalues⟩
    refine ⟨he.guid_ne hguided, ?_, he.all hP hvalues⟩
    refine he.names namesLaw_undotted hnamed hundotted (fun r old hold => ?_) fun hcopy =>
      hbrings e ⟨_, hc, i, hi, hcopy⟩
    exact Acting.names_of_stored? (N := fun ns => ∀ n ∈ ns, '.' ∉ n.toList)
      (fun id d hd => (hdocs id d hd).mono (fun _ he => he.undotted) (fun _ hp => hp)
        fun _ hrel => hrel) hold
  | openSnapshot | release | claim => trivial

/-- A copy with a value that is nested too deep is stored wherever any other would be, and then is
not read. -/
theorem Store.Reached.stores_deep_copy {s : Store} {now : Instant} {op : TxOp} {i : Invocation}
    {e : Entity} (h : s.Reached) (hnamed : ts.Named) (hundotted : ts.Undotted) (hop : op.Calls i)
    (hcopy : i.request = .storeEntityCopy e) (hguid : e.guid ≠ "") (hsound : e.properties.All Sound)
    (hdeep : ¬ e.properties.All Shallow) (hknown : ts.Knows (· = .entity) e.header.typeRef.name)
    (helsewhere : e.header.collectionId ≠ i.collection.id)
    (hadmits : s.latest.Admits i.collection.id e) :
    ∃ d, (s.step (.submit (Catalog.functions ts) now [op])).latest.document? e.reference.docId =
      some d ∧ ¬ ∃ stored, StoredEntity.ofDocument d = .ok stored := by
  obtain ⟨d, hd, hstored⟩ := h.stores_entity hop hcopy hknown helsewhere hadmits
  refine ⟨d, hstored, fun ⟨stored, hread⟩ => hdeep ?_⟩
  obtain ⟨t, ht, -⟩ := hknown
  have hplain : e.properties.Plain ts e.header.typeRef.name :=
    Properties.plain_of_undotted hnamed hundotted (hnamed _ t ht ▸ hundotted _ t ht) _
  exact Entity.shallow_of_reads hguid hplain hsound hd hread

/-! ## Runs -/

/-- Everything that can be seen is read: entities, proxies, and relationships with any documents of
their ends that can be seen. -/
structure Store.Legible (ts : TypeSystem) (s : Store) : Prop where
  entities (guid : String) (d : Document) : s.Visible d → d.id = (RecordRef.entity guid).docId →
    ∃ stored, StoredEntity.ofDocument d = .ok stored
  relationships (guid : String) (d one two : Document) : s.Visible d →
    d.id = (RecordRef.relationship guid).docId → Relationship.ends d = .ok (one.id, two.id) →
      s.Visible one → s.Visible two →
        ∃ rel, Relationship.ofDocument ts d (some one) (some two) = .ok rel

/-- **Whatever is stored is read, unless a value is nested too deep.** In a type system that was
accepted and has no full stop in a name, let transactions call the catalog with any arguments, but
let no record, proxy or end of a relationship come without a guid, and no copy with a full stop in
the name of a classification.

* Whatever can be seen of an entity or a proxy is read exactly if its values are shallow, and those
  of its classifications are.
* Whatever can be seen of a relationship has two ends. It is read with what can be seen of them
  exactly if its values are shallow and theirs are.
* So everything is read as long as all values that come with a request are shallow.
* A copy with a value that is not is stored wherever any other would be, and then is not read. -/
theorem records_are_read {defs : List TypeDef} {ts : TypeSystem}
    (hts : TypeSystem.ofList defs = .ok ts) (hundotted : ts.Undotted) (capacity : Nat)
    (events : List (StoreEvent Failure)) (hevents : ∀ ev ∈ events, ev.CallsCatalog ts)
    (hproper : ∀ ev ∈ events, ev.Sends Json.Proper)
    (hguided : ∀ ev ∈ events, ev.Asks Request.Guided)
    (hnames : ∀ ev ∈ events, ∀ e, ev.BringsEntity ts e →
      ∀ n ∈ e.classificationNames, '.' ∉ n.toList) :
    let s := (Store.empty capacity).run events
    (∀ guid d, s.Visible d → d.id = (RecordRef.entity guid).docId →
      ((∃ stored, StoredEntity.ofDocument d = .ok stored) ↔ d.Shallow)) ∧
    (∀ guid d, s.Visible d → d.id = (RecordRef.relationship guid).docId →
      ∃ endOne endTwo, Relationship.ends d =
          .ok ((RecordRef.entity endOne).docId, (RecordRef.entity endTwo).docId) ∧
        ∀ one two, s.Visible one → one.id = (RecordRef.entity endOne).docId →
          s.Visible two → two.id = (RecordRef.entity endTwo).docId →
            ((∃ rel, Relationship.ofDocument ts d (some one) (some two) = .ok rel) ↔
              d.ShallowIn .relationship ∧ one.Shallow ∧ two.Shallow)) ∧
    ((∀ ev ∈ events, ev.Asks (Request.All Shallow)) → s.Legible ts) ∧
    ∀ now args i e, args.Proper → Invocation.ofJson? args = some i →
      i.request = .storeEntityCopy e → e.guid ≠ "" → ¬ e.properties.All Shallow →
      ts.Knows (· = .entity) e.header.typeRef.name → e.header.collectionId ≠ i.collection.id →
      s.latest.Admits i.collection.id e →
        let op := TxOp.call i.request.function args
        ∃ d, (s.step (.submit (Catalog.functions ts) now [op])).latest.document?
          e.reference.docId = some d ∧ ¬ ∃ stored, StoredEntity.ofDocument d = .ok stored := by
  intro s
  have hnamed := TypeSystem.named_ofList hts
  have hlegible {P : PropertyValue → Prop} (hP : ∀ v : PropertyValue, v.Sound ∧ v.Shallow → P v)
      (hvalues : ∀ ev ∈ events, ev.Asks (Request.All P)) : ∀ d, s.Visible d → d.Legible ts P :=
    Store.forall_visible_of_run capacity fun ev hev => (hevents ev hev).keeps_legible hP hnamed
      hundotted (hguided ev hev) (hvalues ev hev) (hnames ev hev)
  have hsound := hlegible (fun v hv => hv.1) fun ev hev => (hproper ev hev).asks_sound
  have hentities : ∀ guid d, s.Visible d → d.id = (RecordRef.entity guid).docId →
      ((∃ stored, StoredEntity.ofDocument d = .ok stored) ↔ d.Shallow) :=
    fun guid d hd hid => (hsound d hd).exists_ofDocument_iff hid
  have hrelationships : ∀ guid d, s.Visible d → d.id = (RecordRef.relationship guid).docId →
      ∃ endOne endTwo, Relationship.ends d =
          .ok ((RecordRef.entity endOne).docId, (RecordRef.entity endTwo).docId) ∧
        ∀ one two, s.Visible one → one.id = (RecordRef.entity endOne).docId →
          s.Visible two → two.id = (RecordRef.entity endTwo).docId →
            ((∃ rel, Relationship.ofDocument ts d (some one) (some two) = .ok rel) ↔
              d.ShallowIn .relationship ∧ one.Shallow ∧ two.Shallow) := by
    intro guid d hd hid
    obtain ⟨endOne, endTwo, hends, hread⟩ := (hsound d hd).exists_ends hid
    exact ⟨endOne, endTwo, hends, fun one two hone hidOne htwo hidTwo =>
      hread one two (hsound one hone) hidOne (hsound two htwo) hidTwo⟩
  refine ⟨hentities, hrelationships, fun hshallow => ?_,
    fun now args i e hargs hi hcopy hguid hdeep hknown helsewhere hadmits => ?_⟩
  · have hall := hlegible (fun v hv => hv) fun ev hev =>
      (hproper ev hev).asks_sound.and (hshallow ev hev)
    refine ⟨fun guid d hd hid => (hentities guid d hd hid).2 ((hall d hd).shallow hid),
      fun guid d one two hd hid hends hone htwo => ?_⟩
    obtain ⟨endOne, endTwo, hsame, hread⟩ := hrelationships guid d hd hid
    obtain ⟨hidOne, hidTwo⟩ := Prod.mk.inj (Except.ok.inj (hends.symm.trans hsame))
    exact (hread one two hone hidOne htwo hidTwo).2
      ⟨(hall d hd).shallowIn hid, (hall one hone).shallow hidOne, (hall two htwo).shallow hidTwo⟩
  · have hreached : s.Reached := ⟨capacity, events, rfl⟩
    have hcopied : e.All Sound := by
      have hall := (Invocation.all_of_ofJson? PropertyValue.decodes_sound hargs hi).2
      rwa [hcopy] at hall
    exact hreached.stores_deep_copy hnamed hundotted ⟨args, rfl, hi⟩ hcopy hguid
      hcopied.properties hdeep hknown helsewhere hadmits

/-- A thing, a proxy and the link between them are read. A copy with a value that is nested too deep
is stored, and is not read. -/
theorem records_are_read_unless_deep :
    let thing : TypeDef := ⟨"t1", "Thing", .entity, none, [⟨"name", true⟩], []⟩
    let link : TypeDef := ⟨"t2", "Link", .relationship, none, [⟨"name", false⟩], []⟩
    let ts := (TypeSystem.ofList [thing, link]).toOption.getD .empty
    let header : Header := .create ⟨"t1", "Thing"⟩ "away" none "ann" ⟨0, 0⟩
    let nested (depth : Nat) : Properties :=
      .ofList [("name", (fun v => .array [v])^[depth] (.string "x"))]
    let call (request : Request) : Invocation := ⟨"ann", ⟨"home", none⟩, request⟩
    let calls := [call (.createEntity "e1" "Thing" (nested 1) [] none),
      call (.createRelationship "r" "Link" (nested 0) none ⟨"e1", header, ∅⟩
        ⟨"e2", header, ∅⟩)]
    let copy := call (.storeEntityCopy ⟨"e3", header, nested 63, []⟩)
    let s := (Store.empty 1).run
      [.submit (Catalog.functions ts) ⟨0, 0⟩ (calls.map Invocation.toOp)]
    let s' := s.step (.submit (Catalog.functions ts) ⟨1, 0⟩ [copy.toOp])
    (∃ d one two rel, s.Visible d ∧ d.id = (RecordRef.relationship "r").docId ∧
      Relationship.ofDocument ts d (some one) (some two) = .ok rel) ∧
      ∃ d, s'.latest.document? (RecordRef.entity "e3").docId = some d ∧
        ¬ ∃ stored, StoredEntity.ofDocument d = .ok stored := by
  intro thing link ts header nested call calls copy s s'
  have hts : TypeSystem.ofList [thing, link] = .ok ts := eq_ok_of_isSome (by decide +kernel) _
  have hundotted : ts.Undotted := TypeSystem.undotted_of_values (by decide +kernel)
  let events :=
    [StoreEvent.submit (Catalog.functions ts) ⟨0, 0⟩ (calls.map Invocation.toOp)]
  have hproper : ∀ i ∈ calls, i.toJson.Proper := by decide +kernel
  have hguided : ∀ i ∈ calls, ∀ j ∈ Invocation.ofJson? i.toJson, j.request.Guided := by
    decide +kernel
  have hshallow : ∀ i ∈ calls, ∀ j ∈ Invocation.ofJson? i.toJson, j.request.All Shallow := by
    decide +kernel
  have hnone : ∀ i ∈ calls, (Invocation.ofJson? i.toJson).bind
      (fun j => j.request.entityCopy?.map Entity.classificationNames) = none := by decide +kernel
  obtain ⟨-, -, hread, hdeep⟩ := records_are_read hts hundotted 1 events
    (List.forall_mem_singleton.2 ⟨rfl, List.forall_mem_map.2 fun _ _ => trivial⟩)
    (List.forall_mem_singleton.2 (StoreEvent.sends_toOp hproper))
    (List.forall_mem_singleton.2 (StoreEvent.sends_toOp hguided))
    (List.forall_mem_singleton.2 fun e hbrings => by
      obtain ⟨op, hop, hbrings⟩ := hbrings
      obtain ⟨i, hi, rfl⟩ := List.mem_map.1 hop
      cases (Invocation.classificationNames_of_brings hbrings).symm.trans (hnone i hi))
  refine ⟨?_, ?_⟩
  · let shown (r : RecordRef) := ((s.openSnapshot ⟨1, 0⟩ none).2.get
      (s.openSnapshot ⟨1, 0⟩ none).1 r.docId).toOption.join
    have hvisible {r : RecordRef} {d : Document} (hd : shown r = some d) (hid : d.id = r.docId) :
        s.Visible d := ⟨⟨1, 0⟩, none, eq_ok_of_toOption (by
      rw [hid]
      exact Option.join_eq_some_iff.1 hd)⟩
    have hends : (shown (.relationship "r")).map (fun d => (d.id, (Relationship.ends d).toOption)) =
        some ((RecordRef.relationship "r").docId,
          some ((RecordRef.entity "e1").docId, (RecordRef.entity "e2").docId)) := by
      decide +kernel
    have hids : ∀ r ∈ [RecordRef.entity "e1", .entity "e2"],
        (shown r).map Document.id = some r.docId := by decide +kernel
    obtain ⟨d, hd, hfields⟩ := Option.map_eq_some_iff.1 hends
    obtain ⟨hid, hends⟩ := Prod.mk.inj hfields
    obtain ⟨one, hone, hidOne⟩ := Option.map_eq_some_iff.1 (hids (.entity "e1") (by simp))
    obtain ⟨two, htwo, hidTwo⟩ := Option.map_eq_some_iff.1 (hids (.entity "e2") (by simp))
    have hlegible := hread (List.forall_mem_singleton.2 (StoreEvent.sends_toOp hshallow))
    obtain ⟨rel, hrel⟩ := hlegible.relationships "r" d one two (hvisible hd hid) hid
      (by rw [hidOne, hidTwo]; exact eq_ok_of_toOption hends) (hvisible hone hidOne)
      (hvisible htwo hidTwo)
    exact ⟨d, one, two, rel, hvisible hd hid, hid, hrel⟩
  · let fields (j : Invocation) (x : Entity) := (j.collection.id, x.guid, x.header.collectionId,
      x.header.typeRef.name, decide (x.properties.All Shallow))
    obtain ⟨j, x, ⟨args, hop, hj⟩, hcopy, hfields⟩ := Invocation.calls_entityCopy (i := copy) rfl
      fields (b := ("home", "e3", "away", "Thing", false)) (by decide +kernel)
    simp only [fields, Prod.mk.injEq, decide_eq_false_iff_not] at hfields
    obtain ⟨hcollection, hguid, hhome, htype, hnot⟩ := hfields
    obtain ⟨hname, rfl⟩ := TxOp.call.inj hop
    have hfree : (s.latest.stored? (RecordRef.entity "e3").docId).toOption.map Option.isNone =
        some true := by decide +kernel
    obtain ⟨stored, hstored, hnone⟩ := Option.map_eq_some_iff.1 hfree
    obtain rfl := Option.isNone_iff_eq_none.1 hnone
    have hreference : x.reference = .entity "e3" := congrArg RecordRef.entity hguid
    have hunread := hdeep ⟨1, 0⟩ copy.toJson j x (by decide +kernel) hj hcopy
      (by rw [hguid]; decide) hnot (htype ▸ ⟨thing, by decide +kernel, rfl⟩)
      (by rw [hhome, hcollection]; decide)
      ⟨none, hreference ▸ eq_ok_of_toOption hstored, by simp, by simp⟩
    rw [← hname, hreference] at hunread
    exact hunread

end MetadataArchive
