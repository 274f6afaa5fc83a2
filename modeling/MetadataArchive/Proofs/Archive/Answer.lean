import MetadataArchive.Proofs.Archive.Readback
import MetadataArchive.Proofs.Record.RoundTrip

/-!
# Changes that return a record

Whoever creates or changes a record is returned the record as it is stored then. That takes two
steps, a transaction and a reading, and the second may fail after the first was committed: there are
arguments that can be written and not read, such as an empty guid. So a call that fails has left no
trace, unless its request was accepted and the record that was written cannot be read by anyone
(`changes_are_all_or_nothing`). What decides is the record: an entity that can be stored and keeps
all is what its caller is returned.
-/

set_option autoImplicit false

namespace MetadataArchive

/-! ## Requests that return a record -/

namespace Request

def givesEntity : Request → Bool
  | .createEntity .. | .changeEntity .. | .classify .. | .declassify .. => true
  | _ => false

def givesRelationship : Request → Bool
  | .createRelationship .. | .changeRelationship .. => true
  | _ => false

/-- What a request returns is known from its function. -/
theorem gives_of_function (r : Request) :
    (r.givesEntity = ["create-entity", "update-entity-properties", "update-entity-status",
      "delete-entity", "restore-entity", "classify-entity", "declassify-entity"].contains
        r.function) ∧
    (r.givesRelationship = ["create-relationship", "update-relationship-properties",
      "update-relationship-status", "delete-relationship", "restore-relationship"].contains
        r.function) := by
  cases r with
  | changeEntity guid change => cases change <;> exact ⟨rfl, rfl⟩
  | changeRelationship guid change => cases change <;> exact ⟨rfl, rfl⟩
  | _ => exact ⟨rfl, rfl⟩

end Request

namespace Acting

variable {a : Acting} {ws : List Write} {guid : String} {req : Request}

/-- An entity that is touched is written under its key, with the time of the transaction. -/
theorem Touches.writes (hsource : a.context.source.Coherent) (h : a.Touches guid ws) :
    ∃ (e : Entity) (d : Document), e.reference = .entity guid ∧
      e.header.lastChange = a.context.time ∧ e.toDocument a.types = .ok d ∧ ws = [.put d] := by
  obtain ⟨e, e', h, d, he, hguid, -, htouch, hd, rfl⟩ := h
  have hkey : RecordRef.entity e.guid = .entity guid := stored?_reference hsource he
  refine ⟨e', d, ?_, ?_, hd, rfl⟩
  · rw [← hkey, ← hguid]
    rfl
  · rw [htouch]
    rfl

/-- **A request that returns an entity writes it**, at the time of the transaction, and nothing
else. -/
theorem writes_entity (hsource : a.context.source.Coherent) (hreq : req.givesEntity = true)
    (h : req.carryOut a = .ok ws) :
    ∃ (e : Entity) (d : Document), e.reference = req.target ∧
      e.header.lastChange = a.context.time ∧ e.toDocument a.types = .ok d ∧ ws = [.put d] := by
  cases req with
  | createEntity guid =>
    obtain ⟨-, e, d, rfl, htime, hd, rfl⟩ := createEntity_ok h
    exact ⟨e, d, rfl, htime, hd, rfl⟩
  | changeEntity guid change => exact (changeEntity_ok h).writes hsource
  | classify guid => exact (classify_ok h).writes hsource
  | declassify guid => exact (declassify_ok h).writes hsource
  | _ => cases hreq

/-- Where an entity is stored in full, a request that returns it gives it the next version. -/
theorem writes_next_version {v : UInt64} (hsource : a.context.source.Coherent)
    (hreq : req.givesEntity = true) (h : req.carryOut a = .ok ws)
    (hv : storedVersion a.context.source.document? req.target = some v) :
    ∃ d, ws = [.put d] ∧ d.version? = some (keptVersion (v + 1)) := by
  have hnew : req.newVersion v = some (v + 1) := by
    cases req with
    | createEntity guid =>
      -- What is stored in full is not created.
      obtain ⟨⟨stored, hstored, hnot⟩, -⟩ := createEntity_ok h
      obtain ⟨e, rfl, -⟩ := stored?_version hstored hv
      exact absurd rfl (hnot e)
    | changeEntity | classify | declassify => rfl
    | _ => cases hreq
  obtain ⟨e, d, href, -, hd, rfl⟩ := writes_entity hsource hreq h
  obtain ⟨hproxy, hversion⟩ := Entity.storedVersion_toDocument hd
  have hafter : storedVersion (writeAll a.context.source.document? [.put d]) req.target =
      some (keptVersion e.header.version) := by
    refine storedVersion_eq_some.2 ⟨d, ?_, hproxy, hversion⟩
    rw [← href, ← show d.id = e.reference.docId from (Entity.lays hd).id]
    exact Write.on_self (w := .put d)
  have hnext := Request.version_carryOut hsource h hv hafter
  rw [Request.versionAfter_of_some hnew, if_pos rfl] at hnext
  exact ⟨d, rfl, hnext ▸ hversion⟩

/-- **A request that returns a relationship writes it**, after proxies at most. -/
theorem writes_relationship (hsource : a.context.source.Coherent)
    (hreq : req.givesRelationship = true) (h : req.carryOut a = .ok ws) :
    ∃ (rel : Relationship) (d : Document) (proxies : List Write), rel.reference = req.target ∧
      rel.toDocument a.types = .ok d ∧ ws = proxies ++ [.put d] := by
  cases req with
  | createRelationship guid =>
    obtain ⟨-, rel, rfl, proxies, d, -, -, hd, rfl⟩ := createRelationship_ok h
    exact ⟨rel, d, proxies, rfl, hd, rfl⟩
  | changeRelationship guid change =>
    obtain ⟨rel, rel', d, hrel, hguid, -, -, -, hd, rfl⟩ := changeRelationship_ok h
    obtain ⟨d₀, one, two, hd₀, -, hread⟩ := relationship?_some hrel
    have hkey : rel.reference.docId = (RecordRef.relationship guid).docId :=
      (Relationship.ofDocument_ok hread).1.trans (hsource.keyed _ d₀ hd₀)
    refine ⟨rel', d, [], ?_, hd, rfl⟩
    rw [Request.target, ← RecordRef.docId_injective hkey, Relationship.reference, hguid]
    rfl
  | _ => cases hreq

end Acting

/-! ## What happens at an archive -/

/-- Operations are done, and snapshots are opened and released. -/
inductive ArchiveEvent where
  | operate (c : Clock) (op : Operation)
  | openSnapshot (c : Clock) (asOf : Option Instant)
  | release (snap : Snapshot)

namespace Archive

variable {a : Archive} {site : Site} {l : Ledger}

def happen (a : Archive) (site : Site) : ArchiveEvent → Site
  | .operate c op => (op.perform a c site).2
  | .openSnapshot c asOf => (Site.openSnapshot c asOf site).2
  | .release snap => (Site.release snap site).2

/-- The site after all that has happened. -/
def through (a : Archive) (site : Site) (events : List ArchiveEvent) : Site :=
  events.foldl a.happen site

theorem On.through (h : a.On site l) (events : List ArchiveEvent) :
    ∃ l', a.On (a.through site events) l' := by
  induction events generalizing site l with
  | nil => exact ⟨l, h⟩
  | cons ev events ih =>
    have hstep : ∃ l', a.On (a.happen site ev) l' := by
      cases ev with
      | operate c op =>
        obtain ⟨l', h', -⟩ := h.perform c op
        exact ⟨l', h'⟩
      | openSnapshot c asOf => exact ⟨l, h.openSnapshot c asOf⟩
      | release snap => exact ⟨l, h.release snap⟩
    obtain ⟨l', h'⟩ := hstep
    exact ih h'

end Archive

/-! ## All or nothing -/

/-- What a call that returns a record makes of a site, by what it was told of its request, and of
what is read of the record afterwards. -/
structure AllOrNothing {α : Type} (before after : Site) (told : Except Failure Outcome)
    (answer now : Except Failure α) : Prop where
  /-- What is returned is what is stored. -/
  returned : ∀ x, answer = .ok x → now = .ok x
  /-- A failure is that of the request, and then there is no trace of it, or else the request was
  accepted and what it wrote cannot be read. -/
  failed : ∀ failure, answer = .error failure ↔
    (told = .error failure ∧
        after.store.latest.document? = before.store.latest.document?) ∨
      (∃ o, told = .ok o) ∧ now = .error failure

theorem AllOrNothing.of_cases {α : Type} {before after : Site} {told : Except Failure Outcome}
    {answer now : Except Failure α}
    (hrejected : ∀ failure, told = .error failure → answer = .error failure ∧
      after.store.latest.document? = before.store.latest.document?)
    (haccepted : ∀ o, told = .ok o → answer = now) :
    AllOrNothing before after told answer now := by
  cases htold : told with
  | error failure =>
    obtain ⟨hanswer, hdocs⟩ := hrejected failure htold
    subst hanswer
    refine ⟨fun x h => ?_, fun failure' => by simp [hdocs]⟩
    cases h
  | ok o =>
    cases haccepted o htold
    exact ⟨fun x h => h, fun failure => by simp⟩

namespace Archive

variable {a : Archive} {site : Site} {l : Ledger}

/-- **A change and a reading after it.** Whatever is read, the two are all or nothing, as long as
what is read depends on the state that is shown and on nothing else. -/
theorem On.allOrNothing {α : Type} (h : a.On site l)
    (read : Clock → Option Instant → OnSite Failure α) (value : Source → Except Failure α)
    (hread : ∀ {site : Site} {l : Ledger} (c : Clock) (asOf : Option Instant), a.On site l →
      (read c asOf site).1 = value (l.source (l.pinAt asOf)) ∧ a.On (read c asOf site).2 l)
    (c c' : Clock) (user : String) (r : Request) :
    let told := (a.carryOut c user r site).1
    let call := (a.carryOut c user r >>= fun o => read c (some o.time)) site
    AllOrNothing site call.2 told call.1 (read c' none call.2).1 ∧
      ∀ o, told = .ok o → ∃ (i : Invocation) (ws : List Write) (acting : Acting),
        i.request.function = r.function ∧ i.request.target = r.target ∧ acting.types = a.types ∧
        acting.context.source.Coherent ∧ i.request.carryOut acting = .ok ws ∧
        call.2.store.latest.document? = writeAll acting.context.source.document? ws ∧
        call.1 = value call.2.store.latest := by
  intro told call
  rcases hchange : a.carryOut c user r site with ⟨failure | o, site'⟩
  · have hcall : call = (.error failure, site') := by
      show (a.carryOut c user r >>= fun o => read c (some o.time)) site = _
      rw [OnSite.bind_eq, hchange]
    have htold : told = .error failure := congrArg Prod.fst hchange
    obtain ⟨l', hon, ⟨⟨o, ho⟩, -⟩ | ⟨-, hdocs⟩⟩ := h.perform c (.invoke user r)
    · exact absurd (ho.symm.trans htold) (by simp)
    · refine ⟨AllOrNothing.of_cases (fun failure' hf => ?_) (fun o ho => ?_), fun o ho => ?_⟩
      · cases htold.symm.trans hf
        have hsite : (Operation.perform a c (.invoke user r) site).2 = site' :=
          congrArg Prod.snd hchange
        rw [hsite] at hon
        rw [hcall]
        exact ⟨rfl, by rw [hon.tracks.latest_eq, h.tracks.latest_eq, hdocs]⟩
      · cases htold.symm.trans ho
      · cases htold.symm.trans ho
  · have hcall : call = read c (some o.time) site' := by
      show (a.carryOut c user r >>= fun o => read c (some o.time)) site = _
      rw [OnSite.bind_eq, hchange]
    have htold : told = .ok o := congrArg Prod.fst hchange
    obtain ⟨i, ws, hfunction, htarget, hcarried, hon, htime⟩ := h.carryOut_ok htold
    rw [hchange] at hon
    obtain ⟨hanswer, hon'⟩ := hread c (some o.time) hon
    rw [htime, Ledger.source_pinAt_append, ← htime, ← hcall] at hanswer
    rw [← hcall] at hon'
    obtain ⟨hnow, -⟩ := hread c' none hon'
    have hlatest := hon'.tracks.latest_eq
    refine ⟨AllOrNothing.of_cases (fun failure hf => ?_) (fun _ _ => hanswer.trans hnow.symm),
      fun _ _ => ⟨i, ws, _, hfunction, htarget, rfl, Ledger.coherent_latest h.keyed, hcarried, ?_,
        hlatest ▸ hanswer⟩⟩
    · cases htold.symm.trans hf
    · rw [hlatest, Ledger.latest_append, Staged.laidOver_applyAll]
      rfl

/-- An entity that was written is returned if it can be read. -/
theorem On.entityAfter (h : a.On site l) (c c' : Clock) (user : String) {r : Request}
    (hgives : r.givesEntity = true) :
    let told := (a.carryOut c user r site).1
    let call := a.entityAfter c user r site
    let latest := call.2.store.latest
    AllOrNothing site call.2 told call.1 (Archive.entity c' r.target.guid none call.2).1 ∧
      ∀ o, told = .ok o → ∃ (e : Entity) (d : Document), e.reference = r.target ∧
        e.toDocument a.types = .ok d ∧ latest.document? r.target.docId = some d ∧
        (e.Storable a.types → (call.1 = .ok e ↔ e.Keeps a.types)) := by
  intro told call latest
  obtain ⟨hall, haccepted⟩ := h.allOrNothing (fun c => Archive.entity c r.target.guid)
    (fun src => src.entity r.target.guid) (fun c asOf h => h.entity_eq c _ asOf) c c' user r
  refine ⟨hall, fun o ho => ?_⟩
  obtain ⟨i, ws, acting, hfunction, htarget, htypes, hsource, hcarried, hdocs, hanswer⟩ :=
    haccepted o ho
  have hgives' : i.request.givesEntity = true := by
    rw [i.request.gives_of_function.1, hfunction, ← r.gives_of_function.1, hgives]
  obtain ⟨e, d, href, -, hd, rfl⟩ := Acting.writes_entity hsource hgives' hcarried
  rw [htarget] at href
  rw [htypes] at hd
  have hdocs : latest.document? = _ := hdocs
  have hanswer : call.1 = latest.entity r.target.guid := hanswer
  have hid : r.target.docId = d.id := href ▸ (Entity.lays hd).id.symm
  have hstored : latest.document? r.target.docId = some d := by
    rw [hdocs, hid]
    show (Write.put d).on _ (Write.put d).id = some d
    exact Write.on_self
  refine ⟨e, d, href, hd, hstored, fun he => ?_⟩
  rw [hanswer, ← Entity.ofDocument_iff he hd, ← Source.entity_eq_ok]
  rw [← href] at hstored ⊢
  exact hstored

/-- A relationship that was written is returned if it can be read, with the ends that are stored. -/
theorem On.relationshipAfter (h : a.On site l) (c c' : Clock) (user : String) {r : Request}
    (hgives : r.givesRelationship = true) :
    let told := (a.carryOut c user r site).1
    let call := a.relationshipAfter c user r site
    let latest := call.2.store.latest
    let stored (p : Proxy) := (latest.document? p.reference.docId).map (Proxy.ofDocument a.types)
    AllOrNothing site call.2 told call.1 (a.relationship c' r.target.guid none call.2).1 ∧
      ∀ o, told = .ok o → ∃ (rel : Relationship) (d : Document), rel.reference = r.target ∧
        rel.toDocument a.types = .ok d ∧ latest.document? r.target.docId = some d ∧
        (rel.guid ≠ "" → rel.properties.ReadBack → ∀ p q,
          (call.1 = .ok { rel with endOne := p, endTwo := q } ↔
            rel.header.Keeps a.types rel.properties ∧ stored rel.endOne = some (.ok p) ∧
              stored rel.endTwo = some (.ok q))) := by
  intro told call latest stored
  obtain ⟨hall, haccepted⟩ := h.allOrNothing (fun c => a.relationship c r.target.guid)
    (fun src => src.relationship a.types r.target.guid) (fun c asOf h => h.relationship_eq c _ asOf)
    c c' user r
  refine ⟨hall, fun o ho => ?_⟩
  obtain ⟨i, ws, acting, hfunction, htarget, htypes, hsource, hcarried, hdocs, hanswer⟩ :=
    haccepted o ho
  have hgives' : i.request.givesRelationship = true := by
    rw [i.request.gives_of_function.2, hfunction, ← r.gives_of_function.2, hgives]
  obtain ⟨rel, d, proxies, href, hd, rfl⟩ := Acting.writes_relationship hsource hgives' hcarried
  rw [htarget] at href
  rw [htypes] at hd
  have hdocs : latest.document? = _ := hdocs
  have hanswer : call.1 = latest.relationship a.types r.target.guid := hanswer
  have hid : r.target.docId = d.id := href ▸ (Relationship.lays hd).id.symm
  have hstored : latest.document? r.target.docId = some d := by
    rw [hdocs, hid, writeAll_concat]
    exact Write.on_self
  refine ⟨rel, d, href, hd, hstored, fun hguid hback p q => ?_⟩
  have hlinks := Relationship.links_toDocument hd
  rw [hanswer, ← Relationship.ofDocument_ends_iff hguid hback hd, Source.relationship_eq_ok _
    (Relationship.ends_iff.2 ⟨hlinks.one, hlinks.two⟩)]
  · rfl
  · rw [← href] at hstored ⊢
    exact hstored

end Archive

/-- **Changes that return a record are all or nothing.** An archive is set up where nothing has
happened, and then anything happens: operations, each at a time of its own, and snapshots that are
opened and released in any order. After that, a user's request to create or to change a record, with
any arguments, is all or nothing: what is returned is what whoever asks for the record now is
returned, and a failure leaves all documents as they were, except exactly where the request was
accepted and the record cannot be read, so that whoever asks for it now gets the same failure.

An accepted request has stored a record. An entity that can be stored is returned as it was written
exactly if it keeps all, and a relationship that has a guid, and values that read back, is returned
with its ends exactly if it keeps all and the two ends can be read. -/
theorem changes_are_all_or_nothing {ts : TypeSystem} {settings : Settings} {capacity : Nat}
    {a : Archive} {site : Site}
    (hsetUp : Archive.setUp ts settings (.empty capacity) = (.ok a, site))
    (events : List ArchiveEvent) (c c' : Clock) (user : String) (r : Request) :
    let before := a.through site events
    let told := (a.carryOut c user r before).1
    (r.givesEntity = true →
      let call := a.entityAfter c user r before
      let latest := call.2.store.latest
      AllOrNothing before call.2 told call.1 (Archive.entity c' r.target.guid none call.2).1 ∧
      ∀ o, told = .ok o → ∃ (e : Entity) (d : Document), e.reference = r.target ∧
        e.toDocument a.types = .ok d ∧ latest.document? r.target.docId = some d ∧
        (e.Storable a.types → (call.1 = .ok e ↔ e.Keeps a.types))) ∧
    (r.givesRelationship = true →
      let call := a.relationshipAfter c user r before
      let latest := call.2.store.latest
      let stored (p : Proxy) := (latest.document? p.reference.docId).map (Proxy.ofDocument a.types)
      AllOrNothing before call.2 told call.1 (a.relationship c' r.target.guid none call.2).1 ∧
      ∀ o, told = .ok o → ∃ (rel : Relationship) (d : Document), rel.reference = r.target ∧
        rel.toDocument a.types = .ok d ∧ latest.document? r.target.docId = some d ∧
        (rel.guid ≠ "" → rel.properties.ReadBack → ∀ p q,
          (call.1 = .ok { rel with endOne := p, endTwo := q } ↔
            rel.header.Keeps a.types rel.properties ∧ stored rel.endOne = some (.ok p) ∧
              stored rel.endTwo = some (.ok q)))) := by
  intro before told
  obtain ⟨l, hon⟩ := (Archive.setUp_ok hsetUp).2.through events
  exact ⟨hon.entityAfter c c' user, hon.relationshipAfter c c' user⟩

/-- An entity that is created with a guid is returned as it is stored. Of one that is created
without, its caller gets a failure, and so does whoever asks for it, but it is stored. -/
theorem created_without_guid :
    let ts : TypeSystem := ⟨.ofList [("Thing", ⟨"t1", "Thing", .entity, none, [], []⟩)]⟩
    let a : Archive := ⟨ts, .default⟩
    let c : Clock := ⟨⟨0, 0⟩, 0⟩
    let site := (Archive.setUp ts .default (.empty 10)).2
    let call (guid : String) :=
      a.entityAfter c "user" (.createEntity guid "Thing" ∅ [] none) site
    let now (guid : String) := (Archive.entity c guid none (call guid).2).1
    Archive.setUp ts .default (.empty 10) = (.ok a, site) ∧ site.store.documentCount = 0 ∧
      (∃ e, (call "e1").1 = .ok e ∧ now "e1" = .ok e) ∧
      (∃ failure, (call "").1 = .error failure ∧ now "" = .error failure) ∧
        (call "").2.store.documentCount = 1 := by
  intro ts a c site call now
  have hsetUp : Archive.setUp ts .default (.empty 10) = (.ok a, site) :=
    Archive.setUp_of_isOk (by decide +kernel)
  have hbefore : site.store.documentCount = 0 := by decide +kernel
  have hafter : (call "").2.store.documentCount = 1 := by decide +kernel
  have hreturned : (call "e1").1.isOk = true := by decide +kernel
  have hfailed : (call "").1.isOk = false := by decide +kernel
  have htold : (a.carryOut c "user" (.createEntity "" "Thing" ∅ [] none) site).1.isOk = true := by
    decide +kernel
  have hlaw (guid : String) := ((changes_are_all_or_nothing hsetUp [] c c "user"
    (.createEntity guid "Thing" ∅ [] none)).1 rfl).1
  refine ⟨hsetUp, hbefore, ?_, ?_, hafter⟩
  · cases hcall : (call "e1").1 with
    | error failure =>
      rw [hcall] at hreturned
      cases hreturned
    | ok e => exact ⟨e, rfl, (hlaw "e1").returned e hcall⟩
  · cases hcall : (call "").1 with
    | ok e =>
      rw [hcall] at hfailed
      cases hfailed
    | error failure =>
      refine ⟨failure, rfl, ?_⟩
      rcases ((hlaw "").failed failure).1 hcall with ⟨hrejected, -⟩ | ⟨-, hnow⟩
      · have hrejected : (a.carryOut c "user" (.createEntity "" "Thing" ∅ [] none) site).1 =
            .error failure := hrejected
        rw [hrejected] at htold
        cases htold
      · exact hnow

end MetadataArchive
