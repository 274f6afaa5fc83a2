import MetadataArchive.Proofs.Lifecycle.Catalog
import MetadataArchive.Proofs.Lifecycle.Proxies
import MetadataArchive.Proofs.Store.Latest
import MetadataArchive.Proofs.Store.Snapshot

/-!
# What requests write

Every document that a request writes is that of an entity, of a proxy or of a relationship. Where
these come from is said here once and for all (`Request.written_carryOut`): a record is new, or it
came with the request, or it is a stored one that was read and edited. What is true of all records
that come and is kept by every edit is then true of all records that are ever written, and whoever
wants to show it has these few cases to look at and no request to take apart.
-/

set_option autoImplicit false

namespace MetadataArchive

variable {ts : TypeSystem} {d : Document} {P P' : Entity → Prop} {R R' : Proxy → Prop}
variable {Q Q' : Relationship → Prop}

/-! ## Documents of records -/

/-- A document of an entity, of a proxy or of a relationship of which something holds. -/
inductive Document.Written (ts : TypeSystem) (P : Entity → Prop) (R : Proxy → Prop)
    (Q : Relationship → Prop) (d : Document) : Prop
  | entity {e : Entity} (toDocument : e.toDocument ts = .ok d) (holds : P e)
  | proxy {p : Proxy} (toDocument : p.toDocument ts = .ok d) (holds : R p)
  | relationship {rel : Relationship} (toDocument : rel.toDocument ts = .ok d) (holds : Q rel)

namespace Document.Written

theorem mono (h : d.Written ts P R Q) (hP : ∀ e, P e → P' e) (hR : ∀ p, R p → R' p)
    (hQ : ∀ rel, Q rel → Q' rel) : d.Written ts P' R' Q' := by
  cases h with
  | entity hd he => exact .entity hd (hP _ he)
  | proxy hd hp => exact .proxy hd (hR _ hp)
  | relationship hd hrel => exact .relationship hd (hQ _ hrel)

/-- Under the key of an entity, and not marked as a proxy's, stands the document of an entity. -/
theorem full {guid : String} (h : d.Written ts P R Q) (hid : d.id = (RecordRef.entity guid).docId)
    (hproxy : d.isProxy = false) : ∃ e : Entity, e.guid = guid ∧ e.toDocument ts = .ok d ∧ P e := by
  cases h with
  | @entity e hd he =>
    have hkey : e.reference = .entity guid :=
      RecordRef.docId_injective ((Entity.lays hd).id.symm.trans hid)
    exact ⟨e, congrArg RecordRef.guid hkey, hd, he⟩
  | proxy hd =>
    rw [Proxy.isProxy_toDocument hd] at hproxy
    cases hproxy
  | @relationship rel hd =>
    exact absurd ((Relationship.lays hd).id.symm.trans hid)
      (RecordRef.relationship_ne_entity rel.guid guid)

/-- What is read in full was written as an entity of the same guid. -/
theorem of_ofDocument {e : Entity} (h : d.Written ts P R Q)
    (hread : StoredEntity.ofDocument d = .ok (.full e)) :
    ∃ e₀ : Entity, e₀.guid = e.guid ∧ e₀.toDocument ts = .ok d ∧ P e₀ := by
  obtain ⟨hid, -, hproxy⟩ := StoredEntity.ofDocument_ok hread
  exact h.full hid.symm hproxy.symm

end Document.Written

/-! ## Where a record comes from -/

/-- The proxies that come with a request, as such or as the ends of a relationship. -/
def Request.proxies : Request → List Proxy
  | .createStub p => [p]
  | .createRelationship _ _ _ _ endOne endTwo => [endOne, endTwo]
  | .storeRelationshipCopy rel | .storeHomeRelationship rel => [rel.endOne, rel.endTwo]
  | _ => []

/-- An entity that is written when a request is carried out. -/
inductive Entity.Put (a : Acting) : Request → Entity → Prop
  /-- It is new, and so are its classifications. -/
  | created {guid typeName : String} {ps : Properties} {cs : List NewClassification}
      {status : Option Status} {e : Entity} (guid_eq : e.guid = guid)
      (properties : e.properties = ps)
      (distinct : (e.classifications.map Classification.name).Nodup)
      (classifications : ∀ c ∈ e.classifications, ∃ new ∈ cs, c.name = new.name ∧
        c.properties = new.properties ∧ a.types.get? c.name ≠ none) :
      Put a (.createEntity guid typeName ps cs status) e
  /-- It is an edit of what was stored. -/
  | edited {req : Request} {old e : Entity} (stored : a.stored? req.target = .ok (some (.full old)))
      (edited : old.Edited a.types a.context.time ⟨a.user, a.collection, req⟩ e) : Put a req e
  | copied {e : Entity} : Put a (.storeEntityCopy e) e
  /-- What was stored has taken a classification in. -/
  | received {guid : String} {c : Classification} {old : Entity}
      (stored : a.stored? (.entity guid) = .ok (some (.full old)))
      (valid : a.types.isValidFor c.name old.header.typeRef.name = true) :
      Put a (.storeClassificationCopy guid c) { old with classifications := old.takingIn c }
  /-- A classification was taken away from what was stored. -/
  | withdrawn {guid name home : String} {c : Classification} {old : Entity}
      (stored : a.stored? (.entity guid) = .ok (some (.full old)))
      (found : old.classification? name = some c) :
      Put a (.purgeClassificationCopy guid name home)
        { old with classifications := old.removeFirst name }

/-- A proxy that is written when a request is carried out. -/
inductive Proxy.Put (a : Acting) : Request → Proxy → Prop
  | brought {req : Request} {p : Proxy} (mem : p ∈ req.proxies) : Put a req p
  /-- It stays of an entity that is taken away. -/
  | reduced {guid home : String} {e : Entity}
      (stored : a.stored? (.entity guid) = .ok (some (.full e))) :
      Put a (.purgeEntityCopy guid home) (e.toProxy a.types)

/-- A relationship that is written when a request is carried out. -/
inductive Relationship.Put (a : Acting) : Request → Relationship → Prop
  | created {guid typeName : String} {ps : Properties} {status : Option Status}
      {endOne endTwo : Proxy} {rel : Relationship} (guid_eq : rel.guid = guid)
      (properties : rel.properties = ps) (one : rel.endOne = endOne) (two : rel.endTwo = endTwo) :
      Put a (.createRelationship guid typeName ps status endOne endTwo) rel
  /-- It is an edit of what was stored. -/
  | edited {req : Request} {old rel : Relationship}
      (stored : a.relationship? req.target = .ok (some old))
      (edited : old.Edited a.context.time ⟨a.user, a.collection, req⟩ rel) : Put a req rel
  | copied {rel : Relationship} : Put a (.storeRelationshipCopy rel) rel
  | broughtHome {rel : Relationship} : Put a (.storeHomeRelationship rel) rel

/-- All documents that are written are those of records that a request puts. -/
def Request.Puts (a : Acting) (req : Request) (ws : List Write) : Prop :=
  ∀ d, .put d ∈ ws → d.Written a.types (Entity.Put a req) (Proxy.Put a req) (Relationship.Put a req)

/-! ## Requests one by one -/

namespace Request

variable {a : Acting} {req : Request} {ws ws' : List Write} {w : Write}

theorem puts_nil : req.Puts a [] := by simp [Puts]

theorem Puts.append (h : req.Puts a ws) (h' : req.Puts a ws') : req.Puts a (ws ++ ws') :=
  fun d hd => (List.mem_append.1 hd).elim (h d) (h' d)

theorem puts_evict (ids : List DocId) : req.Puts a (ids.map .evict) := by simp [Puts]

theorem puts_singleton
    (h : d.Written a.types (Entity.Put a req) (Proxy.Put a req) (Relationship.Put a req)) :
    req.Puts a [.put d] := by
  intro d' hd'
  cases List.mem_singleton.1 hd'
  exact h

theorem puts_endProxies {one two : Proxy} {live : Bool} (h : a.endProxies one two live = .ok ws)
    (hone : one ∈ req.proxies) (htwo : two ∈ req.proxies) : req.Puts a ws := by
  have hend {p : Proxy} {needed : Bool} {ws : List Write} (hp : p ∈ req.proxies)
      (h : a.endProxy live p needed = .ok ws) : req.Puts a ws := by
    rcases Acting.endProxy_writes h with rfl | ⟨-, d, hd, rfl⟩
    · exact puts_nil
    · exact puts_singleton (.proxy hd (.brought hp))
  simp only [Acting.endProxies_eq, bind_eq_ok, pure_eq_ok] at h
  obtain ⟨ws₁, h₁, ws₂, h₂, rfl⟩ := h
  exact (hend hone h₁).append (hend htwo h₂)

theorem puts_connects {rel : Relationship} (h : a.Connects rel ws)
    (hone : rel.endOne ∈ req.proxies) (htwo : rel.endTwo ∈ req.proxies)
    (hput : Relationship.Put a req rel) : req.Puts a ws := by
  obtain ⟨proxies, d, live, hproxies, hd, rfl⟩ := h
  exact (puts_endProxies hproxies hone htwo).append (puts_singleton (.relationship hd hput))

/-- New classifications have the names and properties that were asked for, and no name twice. -/
theorem newClassifications_ok {entityType : String} {done cs : List Classification}
    {new : List NewClassification} (h : a.newClassifications entityType done new = .ok cs) :
    ∃ added, cs = done ++ added ∧
      ((done.map Classification.name).Nodup → (cs.map Classification.name).Nodup) ∧
      ∀ c ∈ added, ∃ n ∈ new, c.name = n.name ∧ c.properties = n.properties ∧
        a.types.get? c.name ≠ none := by
  induction new generalizing done with
  | nil =>
    cases h
    exact ⟨[], by simp, id, by simp⟩
  | cons n new ih =>
    unfold Acting.newClassifications at h
    split at h
    · simp only [bind_eq_ok, throw_eq_ok, false_and, exists_false] at h
    next hfresh =>
      simp only [Acting.newClassification, bind_eq_ok, pure_eq_ok, liftM_rejection_eq_ok] at h
      obtain ⟨_, ⟨t, htype, _, -, _, -, rfl⟩, h⟩ := h
      have hknown : a.types.get? n.name ≠ none := by simp [(Rule.typeOf_ok htype).1]
      have hfresh : ∀ c ∈ done, c.name ≠ n.name := by simpa using hfresh
      obtain ⟨added, rfl, hnodup, hadded⟩ := ih h
      refine ⟨[_] ++ added, List.append_assoc _ _ _, fun hdone => hnodup ?_, ?_⟩
      · simpa [List.nodup_append, hdone] using hfresh
      · refine List.forall_mem_cons.2 ⟨⟨n, List.mem_cons_self, rfl, rfl, hknown⟩, fun c hc => ?_⟩
        obtain ⟨n', hn', hc⟩ := hadded c hc
        exact ⟨n', List.mem_cons_of_mem _ hn', hc⟩

theorem puts_createEntity {guid typeName : String} {ps : Properties} {status : Option Status}
    {cs : List NewClassification} (h : a.createEntity guid typeName ps cs status = .ok ws) :
    (createEntity guid typeName ps cs status).Puts a ws := by
  simp only [Acting.createEntity, bind_eq_ok, liftM_rejection_eq_ok] at h
  obtain ⟨t, -, _, -, s, -, stored, -, h⟩ := h
  have hput : ∀ new w, a.newClassifications typeName [] cs = .ok new →
      a.putEntity ⟨guid, { a.newHeader t.typeRef with status := s }, ps, new⟩ = .ok w →
      (createEntity guid typeName ps cs status).Puts a [w] := by
    intro new w hnew hw
    obtain ⟨d, hd, rfl⟩ := Acting.putEntity_ok hw
    obtain ⟨added, rfl, hnodup, hadded⟩ := newClassifications_ok hnew
    exact puts_singleton (.entity hd (.created rfl rfl (hnodup List.nodup_nil) hadded))
  cases stored with
  | none =>
    simp only [bind_eq_ok, pure_eq_ok] at h
    obtain ⟨new, hnew, w, hw, rfl⟩ := h
    exact hput new w hnew hw
  | some existing =>
    dsimp only at h
    split at h
    · simp only [bind_eq_ok, throw_eq_ok, false_and, exists_false] at h
    · simp only [bind_eq_ok, pure_eq_ok] at h
      obtain ⟨new, hnew, w, hw, rfl⟩ := h
      exact hput new w hnew hw

theorem puts_createRelationship {guid typeName : String} {ps : Properties}
    {status : Option Status} {endOne endTwo : Proxy}
    (h : a.createRelationship guid typeName ps status endOne endTwo = .ok ws) :
    (createRelationship guid typeName ps status endOne endTwo).Puts a ws := by
  simp only [Acting.createRelationship, bind_eq_ok, liftM_rejection_eq_ok] at h
  obtain ⟨t, -, _, -, s, -, h⟩ := h
  split at h
  · simp only [bind_eq_ok, throw_eq_ok, false_and, exists_false] at h
  · simp only [bind_eq_ok, pure_eq_ok] at h
    obtain ⟨proxies, hproxies, w, hw, rfl⟩ := h
    obtain ⟨d, hd, rfl⟩ := Acting.putRelationship_ok hw
    exact (puts_endProxies hproxies (by simp [Request.proxies]) (by simp [Request.proxies])).append
      (puts_singleton (.relationship hd (.created rfl rfl rfl rfl)))

theorem puts_edits_entity (hedits : req.editsEntity = true) (h : req.carryOut a = .ok ws) :
    req.Puts a ws := by
  obtain ⟨e, e', d, hstored, hedited, hd, rfl⟩ :=
    Request.edits_entity (i := ⟨a.user, a.collection, req⟩) hedits h
  exact puts_singleton (.entity hd (.edited hstored hedited))

theorem puts_edits_relationship (hedits : req.editsRelationship = true)
    (h : req.carryOut a = .ok ws) : req.Puts a ws := by
  obtain ⟨rel, rel', d, hstored, hedited, hd, rfl⟩ :=
    Request.edits_relationship (i := ⟨a.user, a.collection, req⟩) hedits h
  exact puts_singleton (.relationship hd (.edited hstored hedited))

/-- **Whatever a request writes** is the document of a record that it puts. -/
theorem written_carryOut (h : req.carryOut a = .ok ws) : req.Puts a ws := by
  cases req with
  | createEntity => exact puts_createEntity h
  | createStub p =>
    rcases Acting.createStub_ok h with rfl | ⟨-, d, hd, rfl⟩
    · exact puts_nil
    · exact puts_singleton (.proxy hd (.brought (List.mem_singleton.2 rfl)))
  | changeEntity | classify | declassify => exact puts_edits_entity rfl h
  | changeRelationship => exact puts_edits_relationship rfl h
  | purgeEntity =>
    obtain ⟨ids, -, rfl⟩ := Acting.purgeEntity_ok h
    exact (puts_evict ids).append (puts_evict [_])
  | createRelationship => exact puts_createRelationship h
  | purgeRelationship =>
    rw [Acting.purgeRelationship_ok h]
    exact puts_evict [_]
  | storeEntityCopy e =>
    obtain ⟨-, -, ⟨rfl, -⟩ | ⟨d, hd, rfl, -⟩⟩ := Acting.storeEntityCopy_ok h
    · exact puts_nil
    · exact puts_singleton (.entity hd .copied)
  | purgeEntityCopy =>
    rcases Acting.purgeEntityCopy_ok h with rfl | ⟨-, rfl⟩ | ⟨e, d, he, hd, rfl⟩
    · exact puts_nil
    · exact puts_evict [_]
    · exact puts_singleton (.proxy hd (.reduced he))
  | storeRelationshipCopy rel =>
    obtain ⟨-, -, ⟨rfl, -⟩ | ⟨hconnects, -⟩⟩ := Acting.storeRelationshipCopy_ok h
    · exact puts_nil
    · exact puts_connects hconnects (by simp [Request.proxies]) (by simp [Request.proxies]) .copied
  | storeHomeRelationship rel =>
    exact puts_connects (Acting.storeHomeRelationship_ok h) (by simp [Request.proxies])
      (by simp [Request.proxies]) .broughtHome
  | purgeRelationshipCopy =>
    rcases Acting.purgeRelationshipCopy_ok h with rfl | rfl
    · exact puts_nil
    · exact puts_evict [_]
  | storeClassificationCopy =>
    obtain ⟨e, he, -, hvalid, -, ⟨-, rfl⟩ | ⟨-, d, hd, rfl⟩⟩ :=
      Acting.storeClassificationCopy_eq_ok.1 h
    · exact puts_nil
    · exact puts_singleton (.entity hd (.received (Acting.entity_ok he) hvalid))
  | purgeClassificationCopy =>
    rcases Acting.purgeClassificationCopy_takes h with rfl | ⟨e, c, d, he, hfound, -, -, hd, rfl⟩
    · exact puts_nil
    · exact puts_singleton (.entity hd (.withdrawn he hfound))

end Request

/-! ## All that is ever written -/

section Runs

variable {ok : Document → Prop}

/-- A transaction keeps what holds of all documents, where it holds of those that are put and of
those that any request writes that is called for. -/
theorem StoreEvent.keeps_forall {now : Instant} {ops : List TxOp}
    (hputs : ∀ d, .write (.put d) ∈ ops → ok d)
    (hcalls : ∀ name args, .call name args ∈ ops → ∀ i, Invocation.ofJson? args = some i →
      ∀ ctx : TxContext, (∀ id d, ctx.source.document? id = some d → ok d) →
        ∀ ws, i.request.carryOut ⟨ts, i.user, i.collection, ctx⟩ = .ok ws →
          ∀ d, .put d ∈ ws → ok d) :
    (StoreEvent.submit (Catalog.functions ts) now ops).Keeps
      (fun docs => ∀ id d, docs id = some d → ok d) fun _ => True := by
  refine ⟨fun docs w hw hdocs => ?_,
    fun name args hc f hf _ ctx ws note _ hdocs hrun => ⟨?_, fun _ _ => trivial⟩⟩
  · have hwrite : ∀ id d, writeAll docs [w] id = some d → ok d :=
      forall_writeAll hdocs fun d hd => hputs d (List.mem_singleton.1 hd ▸ hw)
    exact hwrite
  · obtain ⟨i, hi, -, ⟨hok, -⟩ | ⟨_, -, rfl, -⟩⟩ := Catalog.run_writes hf hrun
    · exact forall_writeAll hdocs (hcalls name args hc i hi ctx hdocs ws hok)
    · exact hdocs

/-- **What every operation keeps of all documents** holds of whatever can be seen after a run, in
the present or in the past. -/
theorem Store.forall_visible_of_run (capacity : Nat) {events : List (StoreEvent Failure)}
    (hkeeps : ∀ ev ∈ events, ev.Keeps (fun docs => ∀ id d, docs id = some d → ok d) fun _ => True) :
    ∀ d, ((Store.empty capacity).run events).Visible d → ok d := by
  intro d hd
  obtain ⟨asOf, hshows⟩ := ((Tracks.empty capacity).run events).visible_iff.1 hd
  exact (Ledger.holds_empty.run Ledger.keyed_empty hkeeps).shows hshows

end Runs

end MetadataArchive
