import MetadataArchive.Proofs.Archive.Integrity
import MetadataArchive.Proofs.Lifecycle.Proxies
import MetadataArchive.Proofs.Store.Growth
import MetadataArchive.Proofs.Store.Sequence

/-!
# Entities and proxies over a run

In a run of calls of the catalog every call, also one behind others in its transaction, finds
relationships linked, and so `Request.fate` says what becomes of the entities that it finds stored
in full. Calls that make proxies stage nothing where a document is stored (`Staged.OnlyAdds`); so
under each key they add one version at most, however many there are and in whatever order they come
(`Store.proxyBound_run_le`).
-/

set_option autoImplicit false

namespace MetadataArchive

variable {ts : TypeSystem} {ctx : TxContext} {args : Json} {ws : List Write}

/-! ## Calls -/

def TxOp.IsCall : TxOp → Prop
  | .call _ _ => True
  | .write _ => False

/-- An event in which the catalog is called and nothing else is done to documents. -/
def StoreEvent.CallsCatalog (ts : TypeSystem) : StoreEvent Failure → Prop
  | .submit functions _ ops => functions = Catalog.functions ts ∧ ∀ op ∈ ops, op.IsCall
  | _ => True

theorem StoreEvent.CallsCatalog.ofArchive {ev : StoreEvent Failure} (h : ev.CallsCatalog ts) :
    ev.OfArchive ts := by
  cases ev with
  | submit functions now ops =>
    refine ⟨h.1, fun op hop => ?_⟩
    cases op with
    | call name args => trivial
    | write w => exact (h.2 _ hop).elim
  | openSnapshot | release | claim => trivial

/-- What becomes of an entity that a call finds stored in full. -/
theorem Catalog.fate_run {f : TxFunction Failure} (hf : f ∈ Catalog.functions ts)
    {note : Option Failure} (h : f.run ctx args = .writes ws note) (hsource : ctx.source.Coherent)
    (hlinked : Linked ctx.source.document?) {guid : String} {d : Document}
    (hd : ctx.source.document? (RecordRef.entity guid).docId = some d)
    (hproxy : d.isProxy = false) :
    ∃ i, Invocation.ofJson? args = some i ∧
      Entity.Fate ts i.collection.id ctx.source.document? guid d i.request
        (writeAll ctx.source.document? ws (RecordRef.entity guid).docId) := by
  obtain ⟨i, hi, -, ⟨hok, -⟩ | ⟨-, -, rfl, -⟩⟩ := Catalog.run_writes hf h
  · exact ⟨i, hi, Request.fate hsource hlinked hok hd hproxy⟩
  · refine ⟨i, hi, ?_⟩
    have hsame : writeAll ctx.source.document? [] (RecordRef.entity guid).docId = some d := hd
    rw [hsame]
    exact .kept hproxy

/-- What a call writes that makes proxies. -/
theorem Catalog.makesNew_run {f : TxFunction Failure} (hf : f ∈ Catalog.functions ts)
    {note : Option Failure} (h : f.run ctx args = .writes ws note) {i : Invocation}
    (hi : Invocation.ofJson? args = some i) (hmakes : i.request.makesProxies = true) :
    i.request.MakesNew ctx.source.document? ws := by
  obtain ⟨i', hi', -, ⟨hok, -⟩ | ⟨-, -, rfl, -⟩⟩ := Catalog.run_writes hf h
  · cases hi.symm.trans hi'
    exact Request.makesNew_carryOut hmakes hok
  · exact ⟨List.nodup_nil, by simp, by simp⟩

/-! ## Making proxies over and over -/

/-- A call that makes proxies, whatever else it is called with. -/
def TxOp.MakesProxies : TxOp → Prop
  | .call _ args => ∀ i, Invocation.ofJson? args = some i → i.request.makesProxies = true
  | .write _ => False

/-- An event in which the catalog is called to make proxies, and nothing else is done to
documents. -/
def StoreEvent.MakesProxies (ts : TypeSystem) : StoreEvent Failure → Prop
  | .submit functions _ ops => functions = Catalog.functions ts ∧ ∀ op ∈ ops, op.MakesProxies
  | _ => True

/-- Under a key nothing is staged where there is a document, and no eviction at all. -/
structure Staged.OnlyAdds (base : Source) (key : DocId) (staged : Staged) : Prop where
  absent : staged.get? key ≠ none → base.document? key = none
  put : staged.get? key ≠ some none

theorem Staged.OnlyAdds.applyAll {base : Source} {key : DocId} {staged : Staged}
    (h : staged.OnlyAdds base key)
    (hws : ∀ w ∈ ws, w.id = key → base.document? key = none ∧ ∃ d, w = .put d) :
    (ws.foldl Staged.apply staged).OnlyAdds base key := by
  induction ws generalizing staged with
  | nil => exact h
  | cons w ws ih =>
    refine ih ?_ fun w' hw' => hws w' (List.mem_cons_of_mem w hw')
    by_cases hid : w.id = key
    · obtain ⟨hnone, d, rfl⟩ := hws w List.mem_cons_self hid
      refine ⟨fun _ => hnone, ?_⟩
      rw [Staged.get?_apply, if_pos hid.symm]
      simp [Write.doc?]
    · have hsame : (staged.apply w).get? key = staged.get? key := by
        rw [Staged.get?_apply, if_neg (Ne.symm hid)]
      exact ⟨hsame ▸ h.absent, hsame ▸ h.put⟩

/-- Calls that make proxies stage nothing for an entity that is stored. -/
theorem Staged.onlyAdds_runOps {base : Source} {tx : TxId} {time : Instant} {ops : List TxOp}
    (hops : ∀ op ∈ ops, op.MakesProxies) (guid : String) {staged : Staged}
    (h : (runOps (Catalog.functions ts) tx time base ∅ ops).1 = .ok staged) :
    staged.OnlyAdds base (RecordRef.entity guid).docId := by
  refine (runOps_preserves (P := fun s => s.OnlyAdds base (RecordRef.entity guid).docId)
    (Q := fun _ => True) ?_ ?_ ⟨fun hne => absurd rfl hne, by simp⟩).1 staged h
  · intro s w hw
    exact (hops _ hw).elim
  · intro name args hc f hf _ s ws note hs hrun
    refine ⟨hs.applyAll fun w hw hid => ?_, by simp⟩
    obtain ⟨i, hi, -⟩ := Catalog.run_writes hf hrun
    have hnew := Catalog.makesNew_run hf hrun hi (hops _ hc i hi)
    obtain ⟨d, rfl, -⟩ := hnew.proxies w hw guid hid
    refine ⟨?_, d, rfl⟩
    -- The call sees nothing under the key, so nothing is stored there either.
    rcases hnew.new _ hw with hnone | ⟨rel, -, hrel⟩
    · rw [hid, Staged.laidOver] at hnone
      cases hget : s.get? (RecordRef.entity guid).docId with
      | none => simpa only [hget] using hnone
      | some staged => exact hs.absent (by simp [hget])
    · exact absurd (hrel.symm.trans hid) (RecordRef.relationship_ne_entity rel.guid guid)

namespace Store

variable {s : Store} {l : Ledger}

/-- How long the history of a record can get by proxies: one version longer than it is, if nothing
is stored of the record. -/
def proxyBound (s : Store) (key : DocId) : Nat :=
  s.historyLength key + if (s.latest.document? key).isSome then 0 else 1

theorem historyLength_le_proxyBound (s : Store) (key : DocId) :
    s.historyLength key ≤ s.proxyBound key := Nat.le_add_right _ _

theorem proxyBound_le (s : Store) (key : DocId) : s.proxyBound key ≤ s.historyLength key + 1 := by
  unfold proxyBound
  split <;> omega

theorem proxyBound_of_some {key : DocId} {d : Document} (h : s.latest.document? key = some d) :
    s.proxyBound key = s.historyLength key := by
  simp [proxyBound, h]

theorem proxyBound_step_of_ne_submit (h : Tracks s l) {ev : StoreEvent Failure}
    (hev : ∀ fs now ops, ev ≠ .submit fs now ops) (key : DocId) :
    (∀ d, s.latest.document? key = some d → (s.step ev).latest.document? key = some d) ∧
      (s.step ev).proxyBound key ≤ s.proxyBound key := by
  have hlatest : (s.step ev).latest = s.latest := by
    rw [(h.step ev).latest_eq, h.latest_eq]
    cases ev with
    | submit fs now ops => exact absurd rfl (hev fs now ops)
    | openSnapshot | release | claim => rfl
  refine ⟨fun d hd => hlatest ▸ hd, ?_⟩
  rw [proxyBound, proxyBound, hlatest]
  exact Nat.add_le_add_right (historyLength_step_le hev key) _

/-- An event in which proxies are made leaves the entities that are stored, and uses up what the
histories of others may grow. -/
theorem proxyBound_step_le (h : Tracks s l) {ev : StoreEvent Failure} (hev : ev.MakesProxies ts)
    (guid : String) :
    (∀ d, s.latest.document? (RecordRef.entity guid).docId = some d →
      (s.step ev).latest.document? (RecordRef.entity guid).docId = some d) ∧
    (s.step ev).proxyBound (RecordRef.entity guid).docId ≤
      s.proxyBound (RecordRef.entity guid).docId := by
  generalize hkey : (RecordRef.entity guid).docId = key
  cases ev with
  | submit functions now ops =>
    obtain ⟨rfl, hops⟩ := hev
    have hlength := historyLength_submit_le (s := s) (Catalog.functions ts) now ops key
    have hstep : s.step (.submit (Catalog.functions ts) now ops) =
        (s.submit (Catalog.functions ts) now ops).2.2 := rfl
    rw [hstep]
    cases hrun : (runOps (Catalog.functions ts) ⟨s.lastTx + 1⟩ (s.nextTime now) s.latest ∅
        ops).1 with
    | error fault =>
      rw [hrun] at hlength
      have hlatest : (s.submit (Catalog.functions ts) now ops).2.2.latest = s.latest := by
        rw [Store.submit_of_error hrun]
        rfl
      refine ⟨fun d hd => hlatest ▸ hd, ?_⟩
      rw [proxyBound, proxyBound, hlatest]
      exact Nat.add_le_add_right hlength _
    | ok staged =>
      rw [hrun] at hlength
      have hadds := Staged.onlyAdds_runOps hops guid hrun
      rw [hkey] at hadds
      have hlatest := congrFun (h.latest_of_commit hrun) key
      simp only [Staged.laidOver] at hlatest
      cases hget : staged.get? key with
      | none =>
        simp only [hget] at hlatest
        simp only [NameMap.contains, hget] at hlength
        refine ⟨fun d hd => hlatest.trans hd, ?_⟩
        rw [proxyBound, proxyBound, hlatest]
        exact Nat.add_le_add_right hlength _
      | some doc =>
        have hnone : s.latest.document? key = none := hadds.absent (by simp [hget])
        cases doc with
        | none => exact absurd hget hadds.put
        | some d' =>
          simp only [hget] at hlatest
          simp only [NameMap.contains, hget] at hlength
          refine ⟨fun d hd => by simp [hnone] at hd, ?_⟩
          rw [proxyBound, proxyBound, hlatest, hnone]
          simpa using hlength
  | openSnapshot | release | claim =>
    exact proxyBound_step_of_ne_submit h (by simp) key

/-- **However many proxies are made**, an entity that is stored stays as it is, and the history of
any other grows by one version at most. -/
theorem proxyBound_run_le (h : Tracks s l) {events : List (StoreEvent Failure)}
    (hevents : ∀ ev ∈ events, ev.MakesProxies ts) (guid : String) :
    (∀ d, s.latest.document? (RecordRef.entity guid).docId = some d →
      (s.run events).latest.document? (RecordRef.entity guid).docId = some d) ∧
    (s.run events).proxyBound (RecordRef.entity guid).docId ≤
      s.proxyBound (RecordRef.entity guid).docId := by
  induction events generalizing s l with
  | nil => exact ⟨fun _ hd => hd, Nat.le_refl _⟩
  | cons ev events ih =>
    obtain ⟨hstays, hle⟩ := proxyBound_step_le h (hevents ev List.mem_cons_self) guid
    obtain ⟨hstays', hle'⟩ := ih (h.step ev) fun ev' hev' => hevents ev' (List.mem_cons_of_mem _ hev')
    exact ⟨fun d hd => hstays' d (hstays d hd), Nat.le_trans hle' hle⟩

end Store

/-- **An entity never turns into a proxy unnoticed.** After any run of transactions that are made of
calls of the catalog, take a further one, and any of its calls. Whatever entity the call finds
stored in full is still so after it, or has been purged by it, or was a copy that it took away and
that left a proxy where a relationship references it. A call that makes proxies writes none where
there is a document, and no key twice; one that replies with no writes aborts its transaction, which
then changes nothing. And over any run of calls that make proxies an entity that is stored stays as
it is, while the history of any other grows by one version at most. -/
theorem entities_stay_full (ts : TypeSystem) (capacity : Nat) (events : List (StoreEvent Failure))
    (hevents : ∀ ev ∈ events, ev.CallsCatalog ts) :
    let s := (Store.empty capacity).run events
    (∀ now ops, (∀ op ∈ ops, TxOp.IsCall op) → ∀ name args ctx f reply,
      s.CallSees (Catalog.functions ts) now ops name args ctx →
      (Catalog.functions ts).find? (fun f => f.name == name) = some f →
      f.run ctx args = reply →
      match reply with
      | .writes ws _ =>
          (∀ guid d, ctx.source.document? (RecordRef.entity guid).docId = some d →
            d.isProxy = false → ∃ i, Invocation.ofJson? args = some i ∧
              Entity.Fate ts i.collection.id ctx.source.document? guid d i.request
                (writeAll ctx.source.document? ws (RecordRef.entity guid).docId)) ∧
          ∀ i, Invocation.ofJson? args = some i → i.request.makesProxies = true →
            i.request.MakesNew ctx.source.document? ws
      | .fault _ | .panic _ => (s.submit (Catalog.functions ts) now ops).2.2.latest = s.latest) ∧
    ∀ more, (∀ ev ∈ more, StoreEvent.MakesProxies ts ev) → ∀ guid,
      (∀ d, s.latest.document? (RecordRef.entity guid).docId = some d →
        (s.run more).latest.document? (RecordRef.entity guid).docId = some d ∧
          (s.run more).historyLength (RecordRef.entity guid).docId ≤
            s.historyLength (RecordRef.entity guid).docId) ∧
      (s.run more).historyLength (RecordRef.entity guid).docId ≤
        s.historyLength (RecordRef.entity guid).docId + 1 := by
  intro s
  have htracks : Tracks s (Ledger.empty.run events) := (Tracks.empty capacity).run events
  obtain ⟨hsource, hlinked⟩ := Store.latest_of_run capacity
    (fun ev hev => (hevents ev hev).ofArchive.keeps) linked_none
  refine ⟨fun now ops hops name args ctx f reply hsees hf hrun => ?_, fun more hmore guid => ?_⟩
  · have hev : (StoreEvent.submit (Catalog.functions ts) now ops).CallsCatalog ts := ⟨rfl, hops⟩
    obtain ⟨hcoherent, hlinked'⟩ := hsees.holds hev.ofArchive.keeps hsource hlinked
    have hmem : f ∈ Catalog.functions ts := List.mem_of_find?_eq_some hf
    cases reply with
    | writes ws note =>
      exact ⟨fun guid d hd hproxy => Catalog.fate_run hmem hrun hcoherent hlinked' hd hproxy,
        fun i hi hmakes => Catalog.makesNew_run hmem hrun hi hmakes⟩
    | fault | panic => exact hsees.aborts hf (by simp [hrun])
  · obtain ⟨hstays, hle⟩ := Store.proxyBound_run_le htracks hmore guid
    refine ⟨fun d hd => ⟨hstays d hd, ?_⟩, ?_⟩
    · rw [Store.proxyBound_of_some hd] at hle
      exact Nat.le_trans (Store.historyLength_le_proxyBound _ _) hle
    · exact Nat.le_trans (Store.historyLength_le_proxyBound _ _)
        (Nat.le_trans hle (Store.proxyBound_le s _))

/-- A copy is taken away that a relationship references, and two users ask for the same proxy. -/
theorem entities_stay_full_of_referenced_copy :
    let ts : TypeSystem := ⟨.ofList [("Thing", ⟨"t1", "Thing", .entity, none, [], []⟩),
      ("Link", ⟨"t2", "Link", .relationship, none, [], []⟩)]⟩
    let header (home : String) : Header := .create ⟨"t1", "Thing"⟩ home none "user" ⟨0, 0⟩
    let call (user : String) (r : Request) : TxOp := (⟨user, ⟨"here", none⟩, r⟩ : Invocation).toOp
    let events := [StoreEvent.submit (Catalog.functions ts) ⟨0, 0⟩
      [call "alice" (.storeEntityCopy ⟨"x", header "there", ∅, []⟩),
        call "alice" (.createRelationship "r" "Link" ∅ none ⟨"x", header "there", ∅⟩
          ⟨"y", header "there", ∅⟩)]]
    let s := (Store.empty 1).run events
    let purge : Invocation := ⟨"bob", ⟨"here", none⟩, .purgeEntityCopy "x" "there"⟩
    let stub := Request.createStub ⟨"z", header "there", ∅⟩
    let more := [StoreEvent.submit (Catalog.functions ts) ⟨0, 0⟩ [call "alice" stub],
      .submit (Catalog.functions ts) ⟨0, 0⟩ [call "bob" stub, call "alice" stub]]
    (∀ ev ∈ events, ev.CallsCatalog ts) ∧
      (∃ ctx d, s.CallSees (Catalog.functions ts) ⟨0, 0⟩ [purge.toOp] purge.request.function
          purge.toJson ctx ∧
        ctx.source.document? (RecordRef.entity "x").docId = some d ∧ d.isProxy = false ∧
        ∃ ws note, (Catalog.function ts purge.request.function).run ctx purge.toJson =
            .writes ws note ∧
          ∃ i, Invocation.ofJson? purge.toJson = some i ∧
            Entity.Fate ts i.collection.id ctx.source.document? "x" d i.request
              (writeAll ctx.source.document? ws (RecordRef.entity "x").docId)) ∧
      (s.run more).historyLength (RecordRef.entity "z").docId ≤ 1 := by
  intro ts header call events s purge stub more
  have hevents : ∀ ev ∈ events, ev.CallsCatalog ts := by
    intro ev hev
    rw [List.mem_singleton.1 hev]
    refine ⟨rfl, fun op hop => ?_⟩
    simp only [List.mem_cons, List.not_mem_nil, or_false] at hop
    rcases hop with rfl | rfl <;> trivial
  have hops : ∀ op ∈ [purge.toOp], op.IsCall := by
    intro op hop
    rw [List.mem_singleton.1 hop]
    trivial
  obtain ⟨hcalls, hproxies⟩ := entities_stay_full ts 1 events hevents
  refine ⟨hevents, ?_, ?_⟩
  · let ctx : TxContext :=
      ⟨⟨s.lastTx + 1⟩, s.nextTime ⟨0, 0⟩, (∅ : Staged).laidOver s.latest⟩
    have hsees : s.CallSees (Catalog.functions ts) ⟨0, 0⟩ [purge.toOp] purge.request.function
        purge.toJson ctx := ⟨[], [], ∅, rfl, rfl, rfl⟩
    have hfull : ((ctx.source.document? (RecordRef.entity "x").docId).map Document.isProxy) =
        some false := by decide +kernel
    obtain ⟨d, hd, hproxy⟩ := Option.map_eq_some_iff.1 hfull
    have hwrites : (match (Catalog.function ts purge.request.function).run ctx purge.toJson with
      | .writes _ _ => true
      | _ => false) = true := by decide +kernel
    cases hrun : (Catalog.function ts purge.request.function).run ctx purge.toJson with
    | fault | panic => simp [hrun] at hwrites
    | writes ws note =>
      have hcall := hcalls ⟨0, 0⟩ [purge.toOp] hops _ _ ctx _ _ hsees
        (Catalog.find?_function ts purge.request) hrun
      exact ⟨ctx, d, hsees, hd, hproxy, ws, note, hrun, hcall.1 "x" d hd hproxy⟩
  · have hstub : ∀ user ∈ ["alice", "bob"],
        ((Invocation.ofJson? (⟨user, ⟨"here", none⟩, stub⟩ : Invocation).toJson).all
          fun i => i.request.makesProxies) = true := by decide +kernel
    have hcall : ∀ user ∈ ["alice", "bob"], (call user stub).MakesProxies := by
      intro user huser i hi
      have hall := hstub user huser
      rwa [hi] at hall
    have hmore : ∀ ev ∈ more, StoreEvent.MakesProxies ts ev := by
      intro ev hev
      simp only [more, List.mem_cons, List.not_mem_nil, or_false] at hev
      have halice := hcall "alice" (by simp)
      have hbob := hcall "bob" (by simp)
      rcases hev with rfl | rfl
      · exact ⟨rfl, List.forall_mem_singleton.2 halice⟩
      · exact ⟨rfl, List.forall_mem_cons.2 ⟨hbob, List.forall_mem_singleton.2 halice⟩⟩
    have hempty : s.historyLength (RecordRef.entity "z").docId = 0 := by decide +kernel
    have hle := (hproxies more hmore "z").2
    rwa [hempty] at hle

end MetadataArchive
