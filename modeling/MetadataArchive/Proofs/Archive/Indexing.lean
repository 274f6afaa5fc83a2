import MetadataArchive.Proofs.Archive.Freshness
import MetadataArchive.Proofs.Lifecycle.Written
import MetadataArchive.Proofs.Record.Index

/-!
# The classifications of all entities

Requests take classifications in one at a time, and look first whether there is one of the name; so
what they edit has no name twice if it had none before. A whole entity that comes as a copy, or
comes home, is another matter: it is stored with the classifications that it has, and nobody looks at
their names. So the indexes of all entities agree as long as no such copy has a name twice
(`classifications_are_indexed`), and a copy that has is stored all the same.
-/

set_option autoImplicit false

namespace MetadataArchive

variable {ts : TypeSystem} {N : List String → Prop}

/-! ## The names of classifications -/

namespace Entity

/-- The names of an entity's classifications, in the order in which its document lists them. -/
def classificationNames (e : Entity) : List String := e.classifications.map Classification.name

/-- What is read of an entity has the classifications that the document lists. -/
theorem classificationNames_of_ofDocument {e : Entity} {d : Document}
    (h : StoredEntity.ofDocument d = .ok (.full e)) :
    e.classificationNames = d.classificationNames := by
  have hname {n : String} {c : Classification} (hc : Classification.ofDocument d n = .ok c) :
      c.name = n := by
    unfold Classification.ofDocument at hc
    split at hc
    all_goals
      simp only [bind_eq_ok] at hc
      obtain ⟨_, -, _, -, _, -, hc⟩ := hc
      cases hc
      rfl
  obtain ⟨-, -, hcs⟩ := Entity.reads_of_ofDocument h
  have hsame := (mapM_eq_ok_iff.1 hcs).imp fun n c hc => hname hc
  rw [classificationNames, ← List.forall₂_eq_eq_eq, List.forall₂_map_left_iff]
  exact hsame.flip

end Entity

/-- A property of lists of names that dropping a name keeps, and adding one that is new and has no
full stop. -/
structure NamesLaw (N : List String → Prop) : Prop where
  nil : N []
  add {ns : List String} {n : String} (names : N ns) (new : n ∉ ns) (undotted : '.' ∉ n.toList) :
    N (ns ++ [n])
  drop {before after : List String} {n : String} (names : N (before ++ n :: after)) :
    N (before ++ after)

namespace NamesLaw

theorem of_nodup (hN : NamesLaw N) {ns : List String} (hnodup : ns.Nodup)
    (hundotted : ∀ n ∈ ns, '.' ∉ n.toList) : N ns := by
  induction ns using List.reverseRecOn with
  | nil => exact hN.nil
  | append_singleton ns n ih =>
    obtain ⟨hns, -, hnew⟩ := List.nodup_append.1 hnodup
    rw [List.forall_mem_append] at hundotted
    exact hN.add (ih hns hundotted.1) (fun hn => hnew n hn n (List.mem_singleton.2 rfl) rfl)
      (hundotted.2 n (List.mem_singleton.2 rfl))

theorem swapped (hN : NamesLaw N) {name : String} {old new : Option Classification}
    {cs cs' : List Classification} (h : Swapped name old new cs cs')
    (hcs : N (cs.map Classification.name)) (hnew : old = none → '.' ∉ name.toList) :
    N (cs'.map Classification.name) := by
  obtain ⟨⟨before, after, rfl, rfl, hbefore, hlast⟩, hold, hname⟩ := h
  cases old with
  | none =>
    cases new with
    | none => simpa [hlast rfl] using hcs
    | some c =>
      -- It comes last, and none before it has its name.
      have hfresh : name ∉ before.map Classification.name := fun hmem => by
        obtain ⟨c', hc', heq⟩ := List.mem_map.1 hmem
        exact hbefore c' hc' heq
      simp only [Option.toList_none, List.append_nil, hlast rfl] at hcs
      simpa [hlast rfl, hname c rfl] using hN.add hcs hfresh (hnew rfl)
  | some o =>
    cases new with
    | none =>
      simp only [Option.toList_some, List.map_append, List.append_assoc,
        List.singleton_append] at hcs
      simpa using hN.drop hcs
    | some c => simpa [hold o rfl, hname c rfl] using hcs

end NamesLaw

theorem namesLaw_undotted : NamesLaw fun ns => ∀ n ∈ ns, '.' ∉ n.toList where
  nil := by simp
  add names _ undotted := List.forall_mem_append.2 ⟨names, by simpa using undotted⟩
  drop names := by
    rw [List.forall_mem_append, List.forall_mem_cons] at names
    exact List.forall_mem_append.2 ⟨names.1, names.2.2⟩

theorem namesLaw_nodup : NamesLaw List.Nodup where
  nil := List.nodup_nil
  add names new _ := by
    refine List.nodup_append.2 ⟨names, List.nodup_singleton _, fun n hn m hm heq => ?_⟩
    rw [List.mem_singleton.1 hm] at heq
    exact new (heq ▸ hn)
  drop names := names.sublist (List.Sublist.append_left (List.sublist_cons_self _ _) _)

/-! ## What requests write -/

/-- **Whatever holds of the names of all classifications** holds of those of an entity that a
request writes, unless this is a copy. -/
theorem Entity.Put.names {a : Acting} {req : Request} {e : Entity} (hN : NamesLaw N)
    (hnamed : a.types.Named) (hundotted : a.types.Undotted)
    (hstored : ∀ r old, a.stored? r = .ok (some (.full old)) → N old.classificationNames)
    (hcopy : req = .storeEntityCopy e → N e.classificationNames) (h : Entity.Put a req e) :
    N e.classificationNames := by
  have hknown {name : String} (hget : a.types.get? name ≠ none) : '.' ∉ name.toList := by
    obtain ⟨t, ht⟩ := Option.ne_none_iff_exists'.1 hget
    exact hnamed _ t ht ▸ hundotted _ t ht
  cases h with
  | created _ _ distinct classifications =>
    refine hN.of_nodup distinct fun n hn => ?_
    obtain ⟨c, hc, rfl⟩ := List.mem_map.1 hn
    obtain ⟨_, -, -, -, hget⟩ := classifications c hc
    exact hknown hget
  | edited stored edited =>
    have hnames := hstored _ _ stored
    cases edited with
    | changed => exact hnames
    | classified _ known _ _ swapped =>
      exact hN.swapped swapped hnames fun _ => hknown (by simp [known])
    | reclassified _ _ _ _ _ swapped => exact hN.swapped swapped hnames (by simp)
    | declassified _ _ _ swapped => exact hN.swapped swapped hnames (by simp)
  | copied => exact hcopy rfl
  | @received _ c old stored valid =>
    exact hN.swapped (old.swapped_takingIn c) (hstored _ _ stored) fun _ =>
      TypeSystem.undotted_of_isValidFor hnamed hundotted valid
  | withdrawn stored found =>
    exact hN.swapped (Entity.swapped_removeFirst found) (hstored _ _ stored) (by simp)

/-! ## Copies -/

/-- An entity is brought as a whole: its copy is stored by a call, or it comes home and is put. -/
def TxOp.BringsEntity (ts : TypeSystem) (e : Entity) : TxOp → Prop
  | .call _ args => ∃ i, Invocation.ofJson? args = some i ∧ i.request = .storeEntityCopy e
  | .write w => ∃ d, e.toDocument ts = .ok d ∧ w = .put d

/-- What a call brings is the copy that arrives. -/
theorem Invocation.classificationNames_of_brings {i : Invocation} {e : Entity}
    (h : i.toOp.BringsEntity ts e) :
    (Invocation.ofJson? i.toJson).bind
      (fun j => j.request.entityCopy?.map Entity.classificationNames) =
        some e.classificationNames := by
  obtain ⟨j, hj, hrequest⟩ := h
  simp [hj, hrequest, Request.entityCopy?]

def StoreEvent.BringsEntity (ts : TypeSystem) (e : Entity) : StoreEvent Failure → Prop
  | .submit _ _ ops => ∃ op ∈ ops, op.BringsEntity ts e
  | _ => False

/-- What holds of the names of all entities that are stored holds of those of one that is read. -/
theorem Acting.names_of_stored? {a : Acting} {R : Proxy → Prop} {Q : Relationship → Prop}
    (hdocs : ∀ id d, a.context.source.document? id = some d →
      d.Written ts (fun e => N e.classificationNames) R Q)
    {r : RecordRef} {e : Entity} (h : a.stored? r = .ok (some (.full e))) :
    N e.classificationNames := by
  obtain ⟨d, hd, hread⟩ := Acting.stored?_some h
  obtain ⟨e₀, -, he₀, hnames⟩ := (hdocs _ d hd).of_ofDocument hread
  rw [Entity.classificationNames_of_ofDocument hread, Entity.classificationNames_toDocument he₀]
  exact hnames

/-- What holds of the names of all entities that are brought holds of those of every entity. -/
theorem StoreEvent.OfArchive.keeps_names {ev : StoreEvent Failure} (hN : NamesLaw N)
    (hnamed : ts.Named) (hundotted : ts.Undotted) (h : ev.OfArchive ts)
    (hbrings : ∀ e, ev.BringsEntity ts e → N e.classificationNames) :
    ev.Keeps (fun docs => ∀ id d, docs id = some d →
      d.Written ts (fun e => N e.classificationNames) (fun _ => True) fun _ => True)
      fun _ => True := by
  cases ev with
  | submit functions now ops =>
    obtain ⟨rfl, hops⟩ := h
    refine StoreEvent.keeps_forall (fun d hd => ?_)
      fun name args hc i hi ctx hdocs ws hok d hd => ?_
    · obtain ⟨e, d', hd', heq⟩ := hops _ hd
      cases heq
      exact .entity hd' (hbrings e ⟨_, hd, d, hd', rfl⟩)
    · refine (Request.written_carryOut hok d hd).mono (fun e he => ?_) (fun _ _ => trivial)
        fun _ _ => trivial
      exact he.names hN hnamed hundotted (fun r old hold => Acting.names_of_stored? hdocs hold)
        fun hcopy => hbrings e ⟨_, hc, i, hi, hcopy⟩
  | openSnapshot | release | claim => trivial

/-- **The classifications of all entities are indexed, unless a copy has a name twice.** In a type
system that was accepted and has no full stop in a name, let transactions call the catalog with any
arguments and put entities that come home, and let no entity that is brought as a whole have a full
stop in the name of a classification.

* Of any entity that can be seen, in the present or in the past, the list of classifications, their
  attributes and the mark of the last change agree exactly if the list has no name twice.
* No list has a name twice as long as no entity was brought that has one.
* A copy that has one is stored wherever any other would be, and then they do not agree. -/
theorem classifications_are_indexed {defs : List TypeDef} {ts : TypeSystem}
    (hts : TypeSystem.ofList defs = .ok ts) (hundotted : ts.Undotted) (capacity : Nat)
    (events : List (StoreEvent Failure)) (hevents : ∀ ev ∈ events, ev.OfArchive ts)
    (hnames : ∀ ev ∈ events, ∀ e, ev.BringsEntity ts e →
      ∀ n ∈ e.classificationNames, '.' ∉ n.toList) :
    let s := (Store.empty capacity).run events
    (∀ guid d, s.Visible d → d.id = (RecordRef.entity guid).docId → d.isProxy = false →
      (d.Indexed ↔ d.classificationNames.Nodup)) ∧
    ((∀ ev ∈ events, ∀ e, ev.BringsEntity ts e → e.classificationNames.Nodup) →
      ∀ guid d, s.Visible d → d.id = (RecordRef.entity guid).docId → d.isProxy = false →
        d.Indexed) ∧
    ∀ now op i e, TxOp.Calls op i → i.request = .storeEntityCopy e →
      ¬ e.classificationNames.Nodup → ts.Knows (· = .entity) e.header.typeRef.name →
      e.header.collectionId ≠ i.collection.id → s.latest.Admits i.collection.id e →
        ∃ d, (s.step (.submit (Catalog.functions ts) now [op])).latest.document?
          e.reference.docId = some d ∧ d.isProxy = false ∧ ¬ d.Indexed := by
  intro s
  have hnamed := TypeSystem.named_ofList hts
  have hwritten {N : List String → Prop} (hN : NamesLaw N)
      (hbrings : ∀ ev ∈ events, ∀ e, ev.BringsEntity ts e → N e.classificationNames) :
      ∀ d, s.Visible d → d.Written ts (fun e => N e.classificationNames) (fun _ => True)
        fun _ => True :=
    Store.forall_visible_of_run capacity fun ev hev =>
      (hevents ev hev).keeps_names hN hnamed hundotted (hbrings ev hev)
  have hindexed : ∀ guid d, s.Visible d → d.id = (RecordRef.entity guid).docId →
      d.isProxy = false → (d.Indexed ↔ d.classificationNames.Nodup) := by
    intro guid d hd hid hproxy
    obtain ⟨e, -, he, hplain⟩ := (hwritten namesLaw_undotted hnames d hd).full hid hproxy
    rw [Entity.classificationNames_toDocument he]
    exact Entity.indexed_iff he fun c hc => hplain _ (List.mem_map_of_mem hc)
  refine ⟨hindexed, fun hdistinct guid d hd hid hproxy => ?_,
    fun now op i e hop hi hrepeated hknown helsewhere hadmits => ?_⟩
  · obtain ⟨e, -, he, hnodup⟩ := (hwritten namesLaw_nodup hdistinct d hd).full hid hproxy
    rw [hindexed guid d hd hid hproxy, Entity.classificationNames_toDocument he]
    exact hnodup
  · have hreached : s.Reached := ⟨capacity, events, rfl⟩
    obtain ⟨d, hd, hstored⟩ := hreached.stores_entity hop hi hknown helsewhere hadmits
    refine ⟨d, hstored, (Entity.storedVersion_toDocument hd).1, fun h => hrepeated ?_⟩
    rw [Entity.classificationNames, ← Entity.classificationNames_toDocument hd]
    exact h.distinct

/-- A copy that has one classification is classified once more, and another copy has its
classification twice. -/
theorem classifications_are_indexed_after_copies :
    let thing : TypeDef := ⟨"t1", "Thing", .entity, none, [], []⟩
    let tag : TypeDef := ⟨"t2", "Tag", .classification, none, [], ["Thing"]⟩
    let mark : TypeDef := ⟨"t3", "Mark", .classification, none, [], ["Thing"]⟩
    let ts := (TypeSystem.ofList [thing, tag, mark]).toOption.getD .empty
    let header (typeRef : TypeRef) : Header := .create typeRef "away" none "ann" ⟨0, 0⟩
    let tagged : Classification := ⟨"Tag", header ⟨"t2", "Tag"⟩, .assigned, none, ∅⟩
    let copy (guid : String) (classifications : List Classification) : Invocation :=
      ⟨"ann", ⟨"home", none⟩,
        .storeEntityCopy ⟨guid, header ⟨"t1", "Thing"⟩, ∅, classifications⟩⟩
    let classify : Invocation := ⟨"bob", ⟨"home", none⟩, .classify "e1" "Mark" ∅ .add⟩
    let s := (Store.empty 1).run
      [.submit (Catalog.functions ts) ⟨0, 0⟩ [(copy "e1" [tagged]).toOp, classify.toOp]]
    let s' := s.step (.submit (Catalog.functions ts) ⟨1, 0⟩ [(copy "e2" [tagged, tagged]).toOp])
    (∃ d, s.Visible d ∧ d.classificationNames = ["Tag", "Mark"] ∧ d.Indexed) ∧
      ∃ d, s'.latest.document? (RecordRef.entity "e2").docId = some d ∧ ¬ d.Indexed := by
  intro thing tag mark ts header tagged copy classify s s'
  have hts : TypeSystem.ofList [thing, tag, mark] = .ok ts := eq_ok_of_isSome (by decide +kernel) _
  have hundotted : ts.Undotted := TypeSystem.undotted_of_values (by decide +kernel)
  let events :=
    [StoreEvent.submit (Catalog.functions ts) ⟨0, 0⟩ [(copy "e1" [tagged]).toOp, classify.toOp]]
  have hevents : ∀ ev ∈ events, ev.OfArchive ts := by
    intro ev hev
    rw [List.mem_singleton.1 hev]
    exact ⟨rfl, fun op hop => by
      rcases List.mem_pair.1 hop with rfl | rfl <;> trivial⟩
  -- The one entity that is brought has the one name.
  have hnames : ∀ ev ∈ events, ∀ e, ev.BringsEntity ts e → e.classificationNames = ["Tag"] := by
    intro ev hev e hbrings
    rw [List.mem_singleton.1 hev] at hbrings
    obtain ⟨op, hop, hbrings⟩ := hbrings
    rcases List.mem_pair.1 hop with rfl | rfl
    · have htag : (Invocation.ofJson? (copy "e1" [tagged]).toJson).bind
          (fun j => j.request.entityCopy?.map Entity.classificationNames) = some ["Tag"] := by
        decide +kernel
      exact Option.some.inj ((Invocation.classificationNames_of_brings hbrings).symm.trans htag)
    · have hnone : (Invocation.ofJson? classify.toJson).bind
          (fun j => j.request.entityCopy?.map Entity.classificationNames) = none := by
        decide +kernel
      cases (Invocation.classificationNames_of_brings hbrings).symm.trans hnone
  obtain ⟨-, hindexed, hrepeated⟩ := classifications_are_indexed hts hundotted 1 events hevents
    fun ev hev e hbrings => by rw [hnames ev hev e hbrings]; decide
  refine ⟨?_, ?_⟩
  · let shown := (s.openSnapshot ⟨1, 0⟩ none).2.get (s.openSnapshot ⟨1, 0⟩ none).1
      (RecordRef.entity "e1").docId
    have hlatest : shown.toOption.join.map (fun d => (d.id, d.isProxy, d.classificationNames)) =
        some ((RecordRef.entity "e1").docId, false, ["Tag", "Mark"]) := by decide +kernel
    obtain ⟨d, hd, hfields⟩ := Option.map_eq_some_iff.1 hlatest
    simp only [Prod.mk.injEq] at hfields
    obtain ⟨hid, hfull, hlist⟩ := hfields
    have hvisible : s.Visible d := ⟨⟨1, 0⟩, none, eq_ok_of_toOption (by
      rw [hid]
      exact Option.join_eq_some_iff.1 hd)⟩
    exact ⟨d, hvisible, hlist, hindexed
      (fun ev hev e hbrings => by rw [hnames ev hev e hbrings]; decide) "e1" d hvisible hid hfull⟩
  · let fields (j : Invocation) (x : Entity) :=
      (j.collection.id, x.guid, x.header.collectionId, x.header.typeRef.name, x.classificationNames)
    obtain ⟨j, x, hop, hj, hfields⟩ := Invocation.calls_entityCopy (i := copy "e2" [tagged, tagged])
      rfl fields (b := ("home", "e2", "away", "Thing", ["Tag", "Tag"])) (by decide +kernel)
    simp only [fields, Prod.mk.injEq] at hfields
    obtain ⟨hcollection, hguid, hhome, htype, hlist⟩ := hfields
    have hfree : (s.latest.stored? (RecordRef.entity "e2").docId).toOption.map Option.isNone =
        some true := by decide +kernel
    obtain ⟨stored, hstored, hnone⟩ := Option.map_eq_some_iff.1 hfree
    obtain rfl := Option.isNone_iff_eq_none.1 hnone
    have hreference : x.reference = .entity "e2" := congrArg RecordRef.entity hguid
    obtain ⟨d, hd, -, hnot⟩ := hrepeated ⟨1, 0⟩ _ j x hop hj (by rw [hlist]; decide)
      (htype ▸ ⟨thing, by decide +kernel, rfl⟩) (by rw [hhome, hcollection]; decide)
      ⟨none, hreference ▸ eq_ok_of_toOption hstored, by simp, by simp⟩
    exact ⟨d, hreference ▸ hd, hnot⟩

end MetadataArchive
