import MetadataArchive.Proofs.Archive.Change
import MetadataArchive.Proofs.Archive.Integrity
import MetadataArchive.Proofs.Lifecycle.Encoding

/-!
# How versions grow

An operation on an archive is a request of a user, or a copy of a record that is saved or purged.
Each is one transaction, so the version of a record after it is known from the version before and
from whether it was accepted (`Archive.version_after_operation`). It is lower exactly where a copy
was saved that is homed here, or where a version was written that no signed integer holds: what is
homed elsewhere never takes the place of anything newer.
-/

set_option autoImplicit false

namespace MetadataArchive

/-! ## Operations -/

/-- What may be asked of an archive by way of change. -/
inductive Operation where
  | invoke (user : String) (request : Request)
  | saveEntityCopy (user : String) (entity : Entity)
  | purgeEntityCopy (user guid home : String)
  | saveRelationshipCopy (user : String) (relationship : Relationship)
  | purgeRelationshipCopy (user guid home : String)
  | saveClassificationCopy (user guid : String) (classification : Classification)
  | purgeClassificationCopy (user guid name home : String)

namespace Operation

/-- Have an operation done by an archive. -/
def perform (a : Archive) (c : Clock) : Operation → OnSite Failure Outcome
  | .invoke user request => a.carryOut c user request
  | .saveEntityCopy user entity => a.saveEntityCopy c user entity
  | .purgeEntityCopy user guid home => a.purgeEntityCopy c user guid home
  | .saveRelationshipCopy user relationship => a.saveRelationshipCopy c user relationship
  | .purgeRelationshipCopy user guid home => a.purgeRelationshipCopy c user guid home
  | .saveClassificationCopy user guid classification =>
      a.saveClassificationCopy c user guid classification
  | .purgeClassificationCopy user guid name home =>
      a.purgeClassificationCopy c user guid name home

/-- What an operation comes down to: an entity that is put as it is, or a user's request. -/
def task (a : Archive) : Operation → Entity ⊕ String × Request
  | .invoke user request => .inr (user, request)
  | .saveEntityCopy user entity =>
      if a.isHome entity.header.collectionId then .inl entity
      else .inr (user, .storeEntityCopy entity)
  | .purgeEntityCopy user guid home =>
      .inr (user, if a.isHome home then .purgeEntity guid true else .purgeEntityCopy guid home)
  | .saveRelationshipCopy user relationship =>
      .inr (user, if a.isHome relationship.header.collectionId then
        .storeHomeRelationship relationship else .storeRelationshipCopy relationship)
  | .purgeRelationshipCopy user guid home =>
      .inr (user, if a.isHome home then .purgeRelationship guid true
        else .purgeRelationshipCopy guid home)
  | .saveClassificationCopy user guid c =>
      .inr (user, if a.isHome c.header.collectionId then .classify guid c.name c.properties .upsert
        else .storeClassificationCopy guid c)
  | .purgeClassificationCopy user guid name home =>
      .inr (user, if a.isHome home then .declassify guid name
        else .purgeClassificationCopy guid name home)

/-- The record that an operation is about. -/
def target (a : Archive) (op : Operation) : RecordRef :=
  match op.task a with
  | .inl entity => entity.reference
  | .inr (_, request) => request.target

/-- The version that an operation writes for its record, where it writes one. -/
def newVersion (a : Archive) (op : Operation) (v : UInt64) : Option UInt64 :=
  match op.task a with
  | .inl entity => some entity.header.version
  | .inr (_, request) => request.newVersion v

/-- The version of a record after an operation that is accepted, by the one before. -/
def versionAfter (a : Archive) (op : Operation) (r : RecordRef) (v : UInt64) : UInt64 :=
  if r = op.target a then ((op.newVersion a v).map keptVersion).getD v else v

/-- Whether an operation saves a copy of a record that is homed here. -/
def bringsHome (a : Archive) (op : Operation) : Bool :=
  match op.task a with
  | .inl _ | .inr (_, .storeHomeRelationship _) => true
  | _ => false

variable {a : Archive} {c : Clock} {op : Operation} {site : Site}

theorem perform_request {user : String} {request : Request}
    (h : op.task a = .inr (user, request)) : op.perform a c = a.carryOut c user request := by
  cases op with
  | saveEntityCopy user' entity =>
    simp only [task] at h
    split at h
    · cases h
    next hhome =>
      cases h
      simp only [perform, Archive.saveEntityCopy, if_neg hhome]
  | _ =>
    cases h
    rfl

theorem perform_put {entity : Entity} (h : op.task a = .inl entity) :
    op.perform a c = (do
      let d : Document ← (do entity.toDocument a.types : Except Failure Document)
      Archive.commit c [.write (.put d)]) := by
  cases op with
  | saveEntityCopy user' entity' =>
    simp only [task] at h
    split at h
    next hhome =>
      cases h
      simp only [perform, Archive.saveEntityCopy, if_pos hhome]
    · cases h
  | _ => cases h

/-- The operations of the one transaction that an operation of an archive is, unless it is an
entity that has no document. -/
def ops (a : Archive) (op : Operation) : Except Failure (List TxOp) :=
  match op.task a with
  | .inl entity => do return [.write (.put (← entity.toDocument a.types))]
  | .inr (user, request) => return [(⟨user, a.settings.collection, request⟩ : Invocation).toOp]

theorem perform_eq (a : Archive) (c : Clock) (op : Operation) (site : Site) :
    op.perform a c site =
      match op.ops a with
      | .ok ops => Archive.commit c ops site
      | .error failure => (.error failure, site) := by
  unfold ops
  cases htask : op.task a with
  | inl entity =>
    dsimp only
    rw [perform_put htask, OnSite.bind_eq]
    cases entity.toDocument a.types <;> rfl
  | inr task =>
    rw [perform_request htask]
    rfl

/-- The ledger after an operation. -/
def ledger (a : Archive) (c : Clock) (op : Operation) (l : Ledger) : Ledger :=
  match op.ops a with
  | .ok ops => (l.submit (Catalog.functions a.types) c.now ops).2.2
  | .error _ => l

end Operation

/-! ## One transaction -/

section Transactions

variable {ν : Type} {ts : TypeSystem} {l : Ledger}

theorem Ledger.latest_submit (functions : List (TxFunction ν)) (now : Instant) (l : Ledger)
    (ops : List TxOp) :
    (l.submit functions now ops).2.2.latest.document? =
      match (runOps functions ⟨l.submitted + 1⟩ (l.nextTime now) l.latest ∅ ops).1 with
      | .ok staged => (staged.laidOver l.latest).document?
      | .error _ => l.latest.document? := by
  cases hrun : (runOps functions ⟨l.submitted + 1⟩ (l.nextTime now) l.latest ∅ ops).1 with
  | ok staged => simp only [Ledger.submit, hrun, Ledger.latest_append]
  | error fault =>
    simp only [Ledger.submit, hrun]
    rfl

theorem Tracks.latest_submit {s : Store} (h : Tracks s l) (functions : List (TxFunction ν))
    (now : Instant) (ops : List TxOp) :
    (s.submit functions now ops).2.2.latest.document? =
      match (runOps functions ⟨s.lastTx + 1⟩ (s.nextTime now) s.latest ∅ ops).1 with
      | .ok staged => (staged.laidOver s.latest).document?
      | .error _ => s.latest.document? := by
  rw [(h.submit functions now ops).2.2.latest_eq, h.number, h.nextTime_eq, h.latest_eq]
  exact Ledger.latest_submit functions now l ops

/-- A transaction of one invocation commits what the request writes that arrives, or else it writes
nothing: a rejection is noted, and what is unreadable aborts it. -/
theorem Catalog.runOps_invocation (ts : TypeSystem) (tx : TxId) (time : Instant) (base : Source)
    (i : Invocation) :
    (∃ i' ws, Invocation.ofJson? i.toJson = some i' ∧
      i'.request.carryOut ⟨ts, i'.user, i'.collection, ⟨tx, time, Staged.laidOver ∅ base⟩⟩ =
        .ok ws ∧
      runOps (Catalog.functions ts) tx time base ∅ [i.toOp] =
        (.ok (ws.foldl Staged.apply ∅), [])) ∨
    (∃ failure, runOps (Catalog.functions ts) tx time base ∅ [i.toOp] = (.ok ∅, [failure])) ∨
    ∃ fault, runOps (Catalog.functions ts) tx time base ∅ [i.toOp] = (.error fault, []) := by
  simp only [Invocation.toOp, runOps]
  split
  · exact Or.inr (Or.inr ⟨_, rfl⟩)
  next f hf =>
    have hmem : f ∈ Catalog.functions ts := List.mem_of_find?_eq_some hf
    split
    · exact Or.inr (Or.inr ⟨_, rfl⟩)
    · exact Or.inr (Or.inr ⟨_, rfl⟩)
    next ws note hrun =>
      obtain ⟨i', hi', -, ⟨hok, rfl⟩ | ⟨failure, -, rfl, rfl⟩⟩ := Catalog.run_writes hmem hrun
      · exact Or.inl ⟨i', ws, hi', hok, rfl⟩
      · exact Or.inr (Or.inl ⟨failure, rfl⟩)

end Transactions

/-! ## One operation -/

namespace Operation

/-- The writes of an operation that is accepted: the entity, or what is written for the request that
arrives. -/
def Writes (a : Archive) (op : Operation) (base : Source) (ws : List Write) : Prop :=
  match op.task a with
  | .inl entity => ∃ d, entity.toDocument a.types = .ok d ∧ ws = [.put d]
  | .inr (_, request) =>
      ∃ (acting : Acting) (arrived : Request), Request.ofJson? request.toJson = some arrived ∧
        acting.context.source.Coherent ∧ acting.context.source.document? = base.document? ∧
        arrived.carryOut acting = .ok ws

variable {a : Archive} {op : Operation} {base : Source} {ws : List Write} {r : RecordRef}
variable {v v' : UInt64}

theorem Writes.version (hw : op.Writes a base ws) (hv : storedVersion base.document? r = some v)
    (hv' : storedVersion (writeAll base.document? ws) r = some v') :
    v' = op.versionAfter a r v := by
  unfold Writes at hw
  unfold versionAfter target newVersion
  cases htask : op.task a with
  | inl entity =>
    rw [htask] at hw
    obtain ⟨d, hd, rfl⟩ := hw
    exact storedVersion_put (Entity.lays hd).id (Entity.storedVersion_toDocument hd) hv hv'
  | inr task =>
    rw [htask] at hw
    obtain ⟨acting, arrived, hj, hsource, hbase, hok⟩ := hw
    rw [← hbase] at hv hv'
    rw [Request.version_carryOut hsource hok hv hv', Request.versionAfter_ofJson? hj]
    rfl

/-- An operation that stores a copy of a record homed elsewhere. -/
def isCopy (a : Archive) (op : Operation) : Bool :=
  match op.task a with
  | .inl _ => false
  | .inr (_, request) => request.isCopy

theorem Writes.stale (hw : op.Writes a base ws) (hcopy : op.isCopy a = true)
    (hstale : op.newVersion a v = none)
    (hv : storedVersion base.document? (op.target a) = some v) : ws = [] := by
  unfold Writes at hw
  unfold isCopy at hcopy
  unfold newVersion at hstale
  unfold target at hv
  cases htask : op.task a with
  | inl entity =>
    rw [htask] at hcopy
    cases hcopy
  | inr task =>
    rw [htask] at hw hcopy hstale hv
    obtain ⟨acting, arrived, hj, -, hbase, hok⟩ := hw
    obtain ⟨htarget, hversion, hkind⟩ := Request.effect_ofJson? hj
    have hnone : arrived.newVersion v = none := by
      rw [hversion]
      exact hstale
    refine Request.stale_carryOut (hkind.trans hcopy) hnone hok ?_
    rw [hbase, htarget]
    exact hv

end Operation

namespace Archive

variable {a : Archive} {site : Site} {l : Ledger}

theorem On.perform_ledger (h : a.On site l) (c : Clock) (op : Operation) :
    a.On (op.perform a c site).2 (op.ledger a c l) := by
  rw [Operation.perform_eq, Operation.ledger]
  cases op.ops a with
  | ok ops => exact (h.commit c ops).1
  | error failure => exact h

/-- **An operation that is accepted** makes its writes, and any other leaves the documents alone. -/
theorem On.perform (h : a.On site l) (c : Clock) (op : Operation) :
    ∃ l', a.On (op.perform a c site).2 l' ∧
      (((∃ o, (op.perform a c site).1 = .ok o) ∧ ∃ ws, op.Writes a l.latest ws ∧
          l'.latest.document? = writeAll l.latest.document? ws) ∨
        (¬ (∃ o, (op.perform a c site).1 = .ok o)) ∧
          l'.latest.document? = l.latest.document?) := by
  have hbase : (Staged.laidOver ∅ l.latest).document? = l.latest.document? := rfl
  have hcoherent : (Staged.laidOver ∅ l.latest).Coherent :=
    Staged.coherent_laidOver Staged.keyed_empty (Ledger.coherent_latest h.keyed)
  cases htask : op.task a with
  | inl entity =>
    -- An entity that is put may have no document, and then no transaction is submitted.
    rw [Operation.perform_put htask, OnSite.bind_eq]
    cases hd : entity.toDocument a.types with
    | error e =>
      refine ⟨l, h, Or.inr ⟨?_, rfl⟩⟩
      rintro ⟨o, ho⟩
      cases ho
    | ok d =>
      obtain ⟨hon, haccepts⟩ := h.commit c [.write (.put d)]
      refine ⟨_, hon, Or.inl ⟨haccepts.2 ⟨_, rfl⟩, [.put d], ?_, ?_⟩⟩
      · unfold Operation.Writes
        rw [htask]
        exact ⟨d, hd, rfl⟩
      · rw [Ledger.latest_submit]
        exact Staged.laidOver_apply ∅ (.put d) l.latest
  | inr task =>
    obtain ⟨user, request⟩ := task
    rw [Operation.perform_request htask]
    obtain ⟨hon, haccepts⟩ :=
      h.commit c [(⟨user, a.settings.collection, request⟩ : Invocation).toOp]
    refine ⟨_, hon, ?_⟩
    rw [Ledger.latest_submit]
    unfold carryOut
    rw [haccepts, Accepts]
    rcases Catalog.runOps_invocation a.types ⟨l.submitted + 1⟩ (l.nextTime c.now) l.latest
      ⟨user, a.settings.collection, request⟩ with
      ⟨i', ws, harrived, hok, hrun⟩ | ⟨failure, hrun⟩ | ⟨fault, hrun⟩
    · rw [hrun]
      refine Or.inl ⟨⟨_, rfl⟩, ws, ?_, ?_⟩
      · unfold Operation.Writes
        rw [htask]
        exact ⟨_, i'.request, Invocation.ofJson?_request harrived, hcoherent, hbase, hok⟩
      · exact Staged.laidOver_applyAll ∅ ws l.latest
    · rw [hrun]
      exact Or.inr ⟨by simp, hbase⟩
    · rw [hrun]
      exact Or.inr ⟨by simp, rfl⟩

/-- The site after operations, each at a time of its own. -/
def after (a : Archive) (site : Site) (ops : List (Clock × Operation)) : Site :=
  ops.foldl (fun site op => (op.2.perform a op.1 site).2) site

theorem On.after (h : a.On site l) (ops : List (Clock × Operation)) :
    ∃ l', a.On (a.after site ops) l' := by
  induction ops generalizing site l with
  | nil => exact ⟨l, h⟩
  | cons op ops ih =>
    obtain ⟨l', h', -⟩ := h.perform op.1 op.2
    exact ih h'

end Archive

/-! ## Versions that go back -/

namespace Operation

variable {a : Archive} {op : Operation} {v w : UInt64}

/-- What is not brought home is newer than what it replaces. -/
theorem newVersion_newer (hforeign : op.bringsHome a = false) (hw : op.newVersion a v = some w)
    (hv : v.toNat < 2 ^ 63) : v < w := by
  have hnext : v < v + 1 := by
    rw [UInt64.lt_iff_toNat_lt, UInt64.toNat_add]
    have hone : (1 : UInt64).toNat = 1 := rfl
    omega
  unfold bringsHome at hforeign
  unfold newVersion at hw
  cases htask : op.task a with
  | inl entity =>
    rw [htask] at hforeign
    cases hforeign
  | inr task =>
    obtain ⟨user, request⟩ := task
    rw [htask] at hforeign hw
    cases request with
    | changeEntity | classify | declassify | changeRelationship =>
      cases hw
      exact hnext
    | storeEntityCopy | storeRelationshipCopy =>
      simp only [Request.newVersion] at hw
      split at hw
      · cases hw
      next hnewer =>
        cases hw
        exact UInt64.not_le.1 hnewer
    | storeHomeRelationship => cases hforeign
    | _ => cases hw

/-- A version goes back for two reasons, and no other. -/
theorem versionAfter_lt {r : RecordRef} (hv : v.toNat < 2 ^ 63) :
    op.versionAfter a r v < v ↔
      r = op.target a ∧ ∃ w, op.newVersion a v = some w ∧
        (op.bringsHome a = true ∧ w < v ∨ 2 ^ 63 ≤ w.toNat ∧ 0 < v) := by
  have hself : ¬ v < v := UInt64.lt_irrefl v
  unfold versionAfter
  by_cases hr : r = op.target a
  · cases hw : op.newVersion a v with
    | none => simp [hr, hself]
    | some w =>
      simp only [hr, if_true, Option.map_some, Option.getD_some, true_and, Option.some.injEq,
        exists_eq_left', keptVersion_eq]
      split
      next hfits =>
        rw [or_iff_left (fun h => absurd h.1 (Nat.not_le.2 hfits))]
        refine ⟨fun hlt => ⟨?_, hlt⟩, And.right⟩
        -- What comes from elsewhere, or is made here, is newer.
        by_contra hforeign
        have hnewer := newVersion_newer (by simpa using hforeign) hw hv
        exact UInt64.lt_irrefl v (UInt64.lt_trans hnewer hlt)
      next hbeyond =>
        have hnot : ¬ w < v := by
          rw [UInt64.lt_iff_toNat_lt]
          omega
        refine ⟨fun hpos => Or.inr ⟨Nat.le_of_not_lt hbeyond, hpos⟩, ?_⟩
        rintro (⟨-, hlt⟩ | ⟨-, hpos⟩)
        · exact absurd hlt hnot
        · exact hpos
  · simp [hr, hself]

end Operation

/-- The version of a record that is stored in full at present. -/
def Site.version? (site : Site) (r : RecordRef) : Option UInt64 :=
  storedVersion site.store.latest.document? r

/-- **What becomes of a version.** An archive is set up where nothing has happened, and any
operations are done, each at any time of day. Then the version of a record that is stored before and
after one more operation is

* the one that `versionAfter` says, where the operation is accepted, and the old one where not;
* lower than before exactly where the operation is accepted and either saves a copy of a record
  homed here with a lower version, or writes a version that no signed integer holds;
* and the record is untouched where the operation stores a copy, homed elsewhere, that is no
  newer. -/
theorem version_after_operation {ts : TypeSystem} {settings : Settings} {capacity : Nat}
    {a : Archive} {site : Site}
    (hsetUp : Archive.setUp ts settings (.empty capacity) = (.ok a, site))
    (ops : List (Clock × Operation)) (c : Clock) (op : Operation) :
    let before := a.after site ops
    let after := (op.perform a c before).2
    let accepted := ∃ o, (op.perform a c before).1 = .ok o
    ∀ r v v', before.version? r = some v → after.version? r = some v' →
      (accepted → v' = op.versionAfter a r v) ∧ (¬ accepted → v' = v) ∧
      (v' < v ↔ accepted ∧ r = op.target a ∧ ∃ w, op.newVersion a v = some w ∧
        (op.bringsHome a = true ∧ w < v ∨ 2 ^ 63 ≤ w.toNat ∧ 0 < v)) ∧
      (op.isCopy a = true → op.newVersion a v = none → r = op.target a →
        after.store.latest.document? r.docId = before.store.latest.document? r.docId) := by
  intro before after accepted r v v' hv hv'
  obtain ⟨l, hon⟩ := (Archive.setUp_ok hsetUp).2.after ops
  obtain ⟨l', hon', heffect⟩ := hon.perform c op
  have hbefore : before.store.latest = l.latest := hon.tracks.latest_eq
  have hafter : after.store.latest = l'.latest := hon'.tracks.latest_eq
  unfold Site.version? at hv hv'
  rw [hbefore] at hv ⊢
  rw [hafter] at hv' ⊢
  -- A version that is stored was read back, so a signed integer holds it.
  have hfits : v.toNat < 2 ^ 63 := by
    obtain ⟨d, -, -, hd⟩ := storedVersion_eq_some.1 hv
    exact Document.version?_lt hd
  rcases heffect with ⟨hok, ws, hwrites, hdocs⟩ | ⟨hfail, hdocs⟩
  · rw [hdocs] at hv'
    have hversion : v' = op.versionAfter a r v := hwrites.version hv hv'
    refine ⟨fun _ => hversion, fun hnot => absurd hok hnot, ?_, fun hcopy hstale hr => ?_⟩
    · rw [hversion, Operation.versionAfter_lt hfits]
      exact (and_iff_right hok).symm
    · rw [hr] at hv ⊢
      rw [hdocs, hwrites.stale hcopy hstale hv]
      rfl
  · rw [hdocs] at hv'
    have hversion : v' = v := Option.some.inj (hv'.symm.trans hv)
    refine ⟨fun hok => absurd hok hfail, fun _ => hversion, ?_, fun _ _ _ => by rw [hdocs]⟩
    rw [hversion]
    exact iff_of_false (fun h => absurd h (by simp)) fun h => hfail h.1

/-- The fifth version of an entity comes home, and then the third: the operation is accepted, and
the version goes back. -/
theorem version_after_stale_homecoming :
    let ts : TypeSystem := ⟨.ofList [("Thing", ⟨"t1", "Thing", .entity, none, [], []⟩)]⟩
    let copy (version : UInt64) : Entity :=
      ⟨"e1", { Header.create ⟨"t1", "Thing"⟩ "local" none "user" ⟨0, 0⟩ with version }, ∅, []⟩
    let a : Archive := ⟨ts, .default⟩
    let c : Clock := ⟨⟨0, 0⟩, 0⟩
    let site := (Archive.setUp ts .default (.empty 1)).2
    let before := a.after site [(c, .saveEntityCopy "user" (copy 5))]
    let op : Operation := .saveEntityCopy "user" (copy 3)
    let after := (op.perform a c before).2
    Archive.setUp ts .default (.empty 1) = (.ok a, site) ∧
      before.version? (.entity "e1") = some 5 ∧ after.version? (.entity "e1") = some 3 ∧
      (∃ o, (op.perform a c before).1 = .ok o) ∧ op.bringsHome a = true := by
  intro ts copy a c site before op after
  have hsetUp : Archive.setUp ts .default (.empty 1) = (.ok a, site) :=
    Archive.setUp_of_isOk (by decide +kernel)
  have hbefore : before.version? (.entity "e1") = some 5 := by decide +kernel
  have hafter : after.version? (.entity "e1") = some 3 := by decide +kernel
  have hlaw := version_after_operation hsetUp [(c, .saveEntityCopy "user" (copy 5))] c op
    (.entity "e1") 5 3 hbefore hafter
  exact ⟨hsetUp, hbefore, hafter, (hlaw.2.2.1.1 (by decide)).1, by decide +kernel⟩

end MetadataArchive
