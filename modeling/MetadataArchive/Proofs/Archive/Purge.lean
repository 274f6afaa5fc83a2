import MetadataArchive.Proofs.Archive.Version

/-!
# What a purge takes away

An entity goes together with all the relationships that have it at an end, in one transaction of
evictions and nothing else. So the latest state lacks these documents and no others
(`purge_takes_relationships_along`). An eviction is passed by every snapshot that is opened later,
which therefore reads the entity, and what went with it, as though nothing had been written before;
the snapshots that were there already are not concerned at all.
-/

set_option autoImplicit false

namespace MetadataArchive

/-- The documents that go with a record: its own, and all that have it at an end. -/
def Source.GoesWith (src : Source) (r : RecordRef) (id : DocId) : Prop :=
  id = r.docId ∨ ∃ d, src.document? id = some d ∧ d.Touches r

/-- What was written under a key after a transaction. -/
def Ledger.writesSince (l : Ledger) (tx : TxId) (id : DocId) : History :=
  (l.writesTo id).filter fun v => tx.number < v.tx

/-! ## Evictions -/

section Evictions

variable {staged : Staged} {ids : List DocId} {id : DocId}

theorem Staged.get?_evictAll (ids : List DocId) :
    ((ids.map Write.evict).foldl Staged.apply staged).get? id =
      if id ∈ ids then some none else staged.get? id := by
  induction ids generalizing staged with
  | nil => simp
  | cons k ids ih =>
    rw [List.map_cons, List.foldl_cons, ih, Staged.get?_apply]
    by_cases hid : id = k <;> simp [hid, Write.id, Write.doc?]

/-- **A purge evicts what goes with its entity**, and writes nothing else. -/
theorem Acting.purgeEntity_evicts {a : Acting} {guid : String} {force : Bool} {ws : List Write}
    (hsource : a.context.source.Coherent) (h : a.purgeEntity guid force = .ok ws) :
    ∃ ids : List DocId, ws = ids.map .evict ∧
      ∀ id, id ∈ ids ↔ a.context.source.GoesWith (.entity guid) id := by
  obtain ⟨ids, hids, rfl⟩ := Acting.purgeEntity_ok h
  refine ⟨ids ++ [(RecordRef.entity guid).docId], by simp, fun id => ?_⟩
  rw [List.mem_append, List.mem_singleton, Acting.mem_touching hids, or_comm]
  refine or_congr_right ⟨?_, ?_⟩
  · rintro ⟨d, hd, rfl, htouches⟩
    exact ⟨d, (hsource.listed d).1 hd, htouches⟩
  · rintro ⟨d, hd, htouches⟩
    have hkey : d.id = id := hsource.keyed id d hd
    exact ⟨d, (hsource.listed d).2 (hkey.symm ▸ hd), hkey, htouches⟩

end Evictions

/-! ## The transaction -/

/-- A purge arrives as it was sent. -/
theorem Request.ofJson?_purgeEntity (guid : String) (force : Bool) :
    Request.ofJson? (Request.purgeEntity guid force).toJson = some (.purgeEntity guid force) := rfl

section Transactions

variable {ts : TypeSystem} {l : Ledger} {now : Instant} {i : Invocation} {guid : String}
variable {force : Bool} {staged : Staged}

/-- What is staged by the time that a purge has been carried out. -/
theorem Ledger.Keyed.purge_stages (h : l.Keyed) (hi : i.request = .purgeEntity guid force)
    (hrun : runOps (Catalog.functions ts) ⟨l.submitted + 1⟩ (l.nextTime now) l.latest ∅ [i.toOp] =
      (.ok staged, [])) (id : DocId) :
    (l.latest.GoesWith (.entity guid) id → staged.get? id = some none) ∧
      (¬ l.latest.GoesWith (.entity guid) id → staged.get? id = none) := by
  rcases Catalog.runOps_invocation ts ⟨l.submitted + 1⟩ (l.nextTime now) l.latest i with
    ⟨i', ws, harrived, hok, hrun'⟩ | ⟨failure, hrun'⟩ | ⟨fault, hrun'⟩ <;> rw [hrun] at hrun'
  · have hrequest := Invocation.ofJson?_request harrived
    rw [hi, Request.ofJson?_purgeEntity, Option.some.injEq] at hrequest
    rw [← hrequest] at hok
    have hcoherent : (Staged.laidOver ∅ l.latest).Coherent :=
      Staged.coherent_laidOver Staged.keyed_empty (Ledger.coherent_latest h)
    obtain ⟨ids, rfl, hids⟩ := Acting.purgeEntity_evicts hcoherent hok
    have hgoes : id ∈ ids ↔ l.latest.GoesWith (.entity guid) id := hids id
    obtain ⟨hstaged, -⟩ := Prod.mk.inj hrun'
    rw [Except.ok.inj hstaged, Staged.get?_evictAll, ← hgoes]
    exact ⟨fun hid => if_pos hid, fun hid => if_neg hid⟩
  · simp at hrun'
  · simp at hrun'

/-- To whoever reads by a pin of the time after an eviction, nothing was written before it. -/
theorem Ledger.shows_evicted {ν : Type} {id : DocId} {pin : Pin} (hev : staged.get? id = some none)
    (hpin : l.submitted + 1 ≤ pin.horizon) (later : List (StoreEvent ν)) :
    ((l.append now staged).run later).shows pin id =
      (((l.append now staged).run later).writesSince ⟨l.submitted + 1⟩ id).visible pin := by
  obtain ⟨new, hnew, hlater⟩ := (l.append now staged).writesTo_run later id
  have hwrites : ((l.append now staged).run later).writesTo id =
      l.writesTo id ++ ⟨l.submitted + 1, none⟩ :: new := by
    rw [hnew, Ledger.writesTo_append, hev]
    simp
  have hsince : ((l.append now staged).run later).writesSince ⟨l.submitted + 1⟩ id = new := by
    have hold : (l.writesTo id).filter (fun v => l.submitted + 1 < v.tx) = [] :=
      List.filter_eq_nil_iff.2 fun v hv => by
        have := Nat.le_trans (l.tx_writesTo_le_last id v hv) l.last_le_submitted
        simp
        omega
    have hall : new.filter (fun v => l.submitted + 1 < v.tx) = new :=
      List.filter_eq_self.2 fun v hv => decide_eq_true (hlater v hv)
    unfold Ledger.writesSince
    rw [hwrites, List.filter_append, List.filter_cons]
    simp [hold, hall]
  have heviction : Version.isEvictionBy pin.horizon ⟨l.submitted + 1, none⟩ = true := by
    simp [Version.isEvictionBy, Version.isEviction, hpin]
  rw [Ledger.shows_eq_visible, hsince, hwrites, History.visible_append_of_evicted heviction]

/-- What a snapshot shows that is opened after a transaction: of the documents that the transaction
evicted, only what was written since. -/
theorem Tracks.shows_opened_after {s opened : Store} {snap : Snapshot} {now' : Instant}
    {asOf : Option Instant} (h : Tracks s (l.append now staged))
    (hkeyed : (l.append now staged).Keyed) (later held : List (StoreEvent Failure))
    (hopened : (s.run later).openSnapshot now' asOf = (snap, opened))
    (hheld : ∀ ev ∈ held, ¬ ev.Releases snap.id) :
    let past := (l.append now staged).run later
    ∃ src : Source, (opened.run held).Shows snap src ∧ src.Coherent ∧
      ∀ id, staged.get? id = some none →
        src.document? id = (past.writesSince ⟨l.submitted + 1⟩ id).visible (past.pinAt asOf) := by
  intro past
  have hlater : Tracks (s.run later) past := h.run later
  have hshows := hlater.shows_opened now' asOf
  have hopen := hlater.openSnapshot now' asOf
  rw [hopened] at hshows hopen
  -- The transaction is numbered within the horizon of whoever comes later.
  have hhorizon : l.submitted + 1 ≤ past.last := by
    rw [← Ledger.last_append l now staged]
    exact Ledger.last_run_le _ later
  exact ⟨_, hopen.shows_run hshows hheld, Ledger.coherent_source (hkeyed.run later) _,
    fun id hev => Ledger.shows_evicted hev hhorizon later⟩

end Transactions

/-! ## Relationships -/

/-- In a store that only archives write to, what has a record at an end is a relationship that
names it as one of its two ends. -/
theorem Linked.touches_iff {docs : DocId → Option Document} (h : Linked docs) {id : DocId}
    {d : Document} (hd : docs id = some d) (r : RecordRef) :
    d.Touches r ↔ (∃ guid, d.id = (RecordRef.relationship guid).docId) ∧
      ∃ one two, Relationship.ends d = .ok (one, two) ∧ (one = r.docId ∨ two = r.docId) := by
  simp only [Relationship.ends_iff]
  constructor
  · intro htouches
    refine ⟨h.id_of_touches hd htouches, ?_⟩
    obtain ⟨side, v, hv, hmem⟩ := htouches
    rcases h id d hd with hentity | ⟨one, two, hlinks, -, -⟩
    · rw [hentity.2 side] at hv
      cases hv
    · refine ⟨_, _, ⟨hlinks.one, hlinks.two⟩, ?_⟩
      cases side with
      | one =>
        rw [hlinks.one] at hv
        cases hv
        exact Or.inl (Eq.symm (by simpa [Value.elements] using hmem))
      | two =>
        rw [hlinks.two] at hv
        cases hv
        exact Or.inr (Eq.symm (by simpa [Value.elements] using hmem))
  · rintro ⟨-, one, two, ⟨hone, htwo⟩, rfl | rfl⟩
    · exact ⟨.one, _, hone, by simp [Value.elements]⟩
    · exact ⟨.two, _, htwo, by simp [Value.elements]⟩

/-! ## The purge -/

/-- **A purge is complete, and touches nothing else.** After any run of a store, let a request to
purge an entity be accepted as a transaction of its own. Then

* the latest state has lost the entity and what has it at an end, and is otherwise the same;
* a snapshot that is opened later, at whatever instant, and after whatever else has happened, shows
  under these keys only what was written after the purge, for as long as it is open;
* a snapshot that was open already shows what it showed before, for as long as it is open;
* and where only archives write to the store, what goes with the entity are the relationships that
  name it as one of their two ends. -/
theorem purge_takes_relationships_along (ts : TypeSystem) (capacity : Nat)
    (before : List (StoreEvent Failure)) (now : Instant) (user : String) (collection : Collection)
    (guid : String) (force : Bool)
    (haccepted : ((Store.empty capacity).run before).accepts (Catalog.functions ts) now
      [Invocation.toOp ⟨user, collection, .purgeEntity guid force⟩] = true) :
    let s := (Store.empty capacity).run before
    let purge := StoreEvent.submit (Catalog.functions ts) now
      [Invocation.toOp ⟨user, collection, .purgeEntity guid force⟩]
    let purged := s.step purge
    let tx : TxId := ⟨purged.lastTx⟩
    let goes := s.latest.GoesWith (.entity guid)
    (purged.latest.Coherent ∧
      (∀ id, goes id → purged.latest.document? id = none) ∧
      ∀ id, ¬ goes id → purged.latest.document? id = s.latest.document? id) ∧
    (∀ (later held : List (StoreEvent Failure)) (now' : Instant) (asOf : Option Instant) snap opened,
      (purged.run later).openSnapshot now' asOf = (snap, opened) →
      (∀ ev ∈ held, ¬ ev.Releases snap.id) →
      let past := Ledger.empty.run (before ++ purge :: later)
      ∃ src : Source, (opened.run held).Shows snap src ∧ src.Coherent ∧
        ∀ id, goes id → src.document? id = (past.writesSince tx id).visible (past.pinAt asOf)) ∧
    (∀ snap src, s.Shows snap src → ∀ later : List (StoreEvent Failure),
      (∀ ev ∈ later, ¬ ev.Releases snap.id) → (purged.run later).Shows snap src) ∧
    ((∀ ev ∈ before, ev.OfArchive ts) → ∀ id d, s.latest.document? id = some d →
      (d.Touches (.entity guid) ↔ (∃ guid', d.id = (RecordRef.relationship guid').docId) ∧
        ∃ one two, Relationship.ends d = .ok (one, two) ∧
          (one = (RecordRef.entity guid).docId ∨ two = (RecordRef.entity guid).docId))) := by
  intro s purge purged tx goes
  let l : Ledger := Ledger.empty.run before
  have htracks : Tracks s l := (Tracks.empty capacity).run before
  have hkeyed : l.Keyed := Ledger.keyed_empty.run before
  obtain ⟨staged, hrun⟩ := (Store.accepts_iff ((Store.KeepsOutcomes.empty capacity).run before)).1
    haccepted
  rw [htracks.number, htracks.nextTime_eq, htracks.latest_eq] at hrun
  have hstaged := hkeyed.purge_stages rfl hrun
  have hlatest : s.latest = l.latest := htracks.latest_eq
  have hstep : l.step purge = l.append now staged := by
    simp only [purge, Ledger.step, Ledger.submit, hrun]
  have hpurged : Tracks purged (l.append now staged) := hstep ▸ htracks.step purge
  have hkeyed' : (l.append now staged).Keyed := hstep ▸ hkeyed.run [purge]
  have htx : tx = ⟨l.submitted + 1⟩ := congrArg TxId.mk hpurged.number
  have hdocs (id : DocId) : purged.latest.document? id =
      (staged.get? id).getD (s.latest.document? id) := by
    rw [hpurged.latest_eq, Ledger.latest_append, hlatest]
    simp only [Staged.laidOver]
    cases staged.get? id <;> rfl
  refine ⟨⟨?_, fun id hid => ?_, fun id hid => ?_⟩, ?_, fun snap src hsnap later hheld => ?_, ?_⟩
  · rw [hpurged.latest_eq]
    exact Ledger.coherent_latest hkeyed'
  · rw [hdocs, (hstaged id).1 (hlatest ▸ hid), Option.getD_some]
  · rw [hdocs, (hstaged id).2 (hlatest ▸ hid), Option.getD_none]
  · intro later held now' asOf snap opened hopened hheld past
    have hpast : past = (l.append now staged).run later := by
      simp only [past, Ledger.run, List.foldl_append, List.foldl_cons]
      exact congrArg (Ledger.run · later) hstep
    obtain ⟨src, hshows, hcoherent, hsince⟩ :=
      hpurged.shows_opened_after hkeyed' later held hopened hheld
    rw [hpast, htx]
    exact ⟨src, hshows, hcoherent, fun id hid => hsince id ((hstaged id).1 (hlatest ▸ hid))⟩
  · have hheld' : ∀ ev ∈ purge :: later, ¬ ev.Releases snap.id :=
      List.forall_mem_cons.2 ⟨id, hheld⟩
    exact htracks.shows_run hsnap hheld'
  · intro harchive id d hd
    have hlinked := (Store.latest_of_run capacity (fun ev hev => (harchive ev hev).keeps)
      linked_none).2
    exact hlinked.touches_iff hd _

/-- An entity is purged that a relationship connects with itself: both are gone. -/
theorem purge_takes_self_relationship_along :
    let ts : TypeSystem := ⟨.ofList [("Thing", ⟨"t1", "Thing", .entity, none, [], []⟩),
      ("Link", ⟨"t2", "Link", .relationship, none, [], []⟩)]⟩
    let thing : Proxy := ⟨"e1", .create ⟨"t1", "Thing"⟩ "home" none "user" ⟨0, 0⟩, ∅⟩
    let ops := [Request.createEntity "e1" "Thing" ∅ [] none,
      .createRelationship "r1" "Link" ∅ none thing thing].map fun r =>
        Invocation.toOp ⟨"user", ⟨"home", none⟩, r⟩
    let before := [StoreEvent.submit (Catalog.functions ts) ⟨0, 0⟩ ops]
    let s := (Store.empty 1).run before
    let purge := [Invocation.toOp ⟨"user", ⟨"home", none⟩, .purgeEntity "e1" true⟩]
    let purged := s.step (.submit (Catalog.functions ts) ⟨0, 0⟩ purge)
    s.accepts (Catalog.functions ts) ⟨0, 0⟩ purge = true ∧
      purged.latest.document? (RecordRef.entity "e1").docId = none ∧
      purged.latest.document? (RecordRef.relationship "r1").docId = none := by
  intro ts thing ops before s purge purged
  have haccepted : s.accepts (Catalog.functions ts) ⟨0, 0⟩ purge = true := by decide +kernel
  have hlaw := purge_takes_relationships_along ts 1 before ⟨0, 0⟩ "user" ⟨"home", none⟩ "e1" true
    haccepted
  have hend : ((s.latest.document? (RecordRef.relationship "r1").docId).bind
      fun d => d.getRef? (Attr.side .one)) = some (RecordRef.entity "e1").docId := by
    decide +kernel
  obtain ⟨d, hd, href⟩ := Option.bind_eq_some_iff.1 hend
  obtain ⟨v, hv, hid⟩ := Option.bind_eq_some_iff.1 href
  have htouches : d.Touches (.entity "e1") := by
    cases v <;> cases hid
    exact ⟨.one, _, hv, by simp [Value.elements]⟩
  exact ⟨haccepted, hlaw.1.2.1 _ (Or.inl rfl), hlaw.1.2.1 _ (Or.inr ⟨d, hd, htouches⟩)⟩

end MetadataArchive
