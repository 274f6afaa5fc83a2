import MetadataArchive.Proofs.Archive.Answer
import MetadataArchive.Proofs.Archive.Callers
import MetadataArchive.Proofs.Lifecycle.Others
import MetadataArchive.Proofs.Store.Entry

/-!
# Between a submission and what comes of it

A request that is submitted runs at once, and its caller learns later what has come of it. What the
ledger says of the transaction is settled by then and stays: the function's reply decides whether it
is entered, and an entity that was written bears the time of the entry (`Submission.Entered`). The
store's outcomes agree with that at any time (`Archive.Confirmed`), so that whoever asks late is
told the same as whoever asks at once.
-/

set_option autoImplicit false

namespace MetadataArchive

/-! ## Submissions -/

/-- A request that was submitted, its transaction, and what its function replied. -/
structure Submission where
  request : Request
  tx : TxId
  reply : Reply Failure

/-- The submission of a request, as it is made on a site. -/
def Archive.submission (a : Archive) (c : Clock) (site : Site) (user : String) (r : Request) :
    Submission :=
  ⟨r, (Site.submit c [a.call user r] site).1, a.replyTo c site.store user r⟩

/-- What was replied is committed. -/
def Reply.commits {ν : Type} : Reply ν → Bool
  | .writes _ _ => true
  | .fault _ | .panic _ => false

/-- What the ledger says of a submission: whether it is entered, and if it has written an entity,
with which document and when. One that was rejected has written nothing. -/
structure Submission.Entered (a : Archive) (l : Ledger) (k : Submission) : Prop where
  number : k.tx.number ≤ l.submitted
  committed : (l.entered? k.tx.number).isSome = k.reply.commits
  rejected : ∀ failure, k.reply.note? = some failure → k.reply = .writes [] (some failure)
  wrote : k.request.givesEntity = true → ∀ ws, k.reply = .writes ws none →
    ∃ (e : Entity) (d : Document) (entry : Ledger.Entry), ws = [.put d] ∧
      e.reference = k.request.target ∧ e.toDocument a.types = .ok d ∧
      l.entered? k.tx.number = some entry ∧ entry.writes.get? d.id = some (some d) ∧
      e.header.lastChange = entry.time

theorem Submission.Entered.step {ν : Type} {a : Archive} {l : Ledger} {k : Submission}
    (h : k.Entered a l) (ev : StoreEvent ν) : k.Entered a (l.step ev) := by
  have hsame : (l.step ev).entered? k.tx.number = l.entered? k.tx.number :=
    Ledger.entered?_step h.number ev
  exact ⟨Nat.le_trans h.number (l.submitted_le_step ev), hsame ▸ h.committed, h.rejected,
    hsame ▸ h.wrote⟩

/-! ## What a function replies -/

namespace Archive

variable {a : Archive} {site : Site} {l : Ledger} {c : Clock} {user : String} {r : Request}

/-- What is written in a reply is written for the request that has arrived, which has the function
and the target of the one that was sent; or it is nothing, and the request is rejected. -/
theorem On.replyTo_writes (h : a.On site l) {ws : List Write} {note : Option Failure}
    (hreply : a.replyTo c site.store user r = .writes ws note) :
    ∃ (acting : Acting) (arrived : Request), arrived.function = r.function ∧
      arrived.target = r.target ∧ acting.types = a.types ∧ acting.context.source = l.latest ∧
      acting.context.time = l.nextTime c.now ∧
      ((arrived.carryOut acting = .ok ws ∧ note = none) ∨ ws = [] ∧ note ≠ none) := by
  unfold replyTo at hreply
  rw [h.tracks.nextTime_eq, h.tracks.latest_eq] at hreply
  obtain ⟨i, hi, hfunction, hwritten⟩ :=
    Catalog.run_writes (List.mem_map_of_mem r.function_mem) hreply
  have htarget := (Request.effect_ofJson? (Invocation.ofJson?_request hi)).1
  refine ⟨_, i.request, hfunction, htarget, rfl, rfl, rfl, hwritten.imp_right ?_⟩
  rintro ⟨failure, -, hws, hnote⟩
  exact ⟨hws, by simp [hnote]⟩

theorem On.replyTo_rejected (h : a.On site l) {ws : List Write} {failure : Failure}
    (hreply : a.replyTo c site.store user r = .writes ws (some failure)) : ws = [] := by
  obtain ⟨-, -, -, -, -, -, -, ⟨-, hnote⟩ | ⟨hws, -⟩⟩ := h.replyTo_writes hreply
  · cases hnote
  · exact hws

/-- An entity that is written for a request that returns it. -/
theorem On.replyTo_entity (h : a.On site l) (hgives : r.givesEntity = true) {ws : List Write}
    (hreply : a.replyTo c site.store user r = .writes ws none) :
    ∃ (e : Entity) (d : Document), ws = [.put d] ∧ e.reference = r.target ∧
      e.toDocument a.types = .ok d ∧ e.header.lastChange = l.nextTime c.now ∧
      ∀ v, storedVersion l.latest.document? r.target = some v →
        d.version? = some (keptVersion (v + 1)) := by
  obtain ⟨acting, arrived, hfunction, htarget, htypes, hsource, htime, ⟨hok, -⟩ | ⟨-, hnote⟩⟩ :=
    h.replyTo_writes hreply
  · have hcoherent : acting.context.source.Coherent := hsource ▸ Ledger.coherent_latest h.keyed
    have hgives' : arrived.givesEntity = true := by
      rw [arrived.gives_of_function.1, hfunction, ← r.gives_of_function.1, hgives]
    obtain ⟨e, d, href, hlast, hd, rfl⟩ := Acting.writes_entity hcoherent hgives' hok
    refine ⟨e, d, rfl, href.trans htarget, htypes ▸ hd, hlast.trans htime, fun v hv => ?_⟩
    rw [← hsource, ← htarget] at hv
    obtain ⟨d', hwrite, hversion⟩ := Acting.writes_next_version hcoherent hgives' hok hv
    cases hwrite
    exact hversion
  · exact absurd rfl hnote

/-- The ledger after a submission, by what the function replies. -/
theorem On.ledger_call (h : a.On site l) (c : Clock) (user : String) (r : Request) :
    (Operation.invoke user r).ledger a c l =
      match a.replyTo c site.store user r with
      | .writes ws _ => l.append c.now (ws.foldl Staged.apply ∅)
      | .fault _ | .panic _ => l.skip := by
  have hops : (Operation.invoke user r).ops a = .ok [a.call user r] := rfl
  simp only [Operation.ledger, hops, Ledger.submit, call, Catalog.runOps_toOp, replyTo,
    h.tracks.number, h.tracks.nextTime_eq, h.tracks.latest_eq]
  cases (Catalog.function a.types r.function).run ⟨⟨l.submitted + 1⟩, l.nextTime c.now, l.latest⟩
    (⟨user, a.settings.collection, r⟩ : Invocation).toJson <;> rfl

theorem On.submission_tx (h : a.On site l) (c : Clock) (user : String) (r : Request) :
    (a.submission c site user r).tx = ⟨l.submitted + 1⟩ :=
  (h.submit_eq c [a.call user r]).1

/-- **A submission is entered** as its function replies. -/
theorem On.entered_submit (h : a.On site l) (c : Clock) (user : String) (r : Request) :
    (a.submission c site user r).Entered a ((Operation.invoke user r).ledger a c l) := by
  have htx : (Site.submit c [a.call user r] site).1 = ⟨l.submitted + 1⟩ :=
    h.submission_tx c user r
  rw [submission, htx, h.ledger_call]
  cases hreply : a.replyTo c site.store user r with
  | fault | panic =>
    refine ⟨Nat.le_refl _, ?_, fun failure hnote => ?_, fun hgives ws hws => ?_⟩
    · rw [Ledger.entered?_skip]
      rfl
    · cases hnote
    · cases hws
  | writes ws note =>
    refine ⟨Nat.le_refl _, ?_, fun failure hnote => ?_, fun hgives ws' hws => ?_⟩
    · rw [Ledger.entered?_append]
      rfl
    · have hnote : note = some failure := hnote
      rw [hnote] at hreply ⊢
      rw [h.replyTo_rejected hreply]
    · cases hws
      obtain ⟨e, d, rfl, href, hd, hlast, -⟩ := h.replyTo_entity hgives hreply
      refine ⟨e, d, _, rfl, href, hd, Ledger.entered?_append, ?_, hlast⟩
      simp [Staged.get?_apply, Write.id, Write.doc?]

end Archive

/-! ## Outcomes that agree with the ledger -/

/-- An archive at work on a site whose unclaimed outcomes say what the ledger says. -/
structure Archive.Confirmed (a : Archive) (site : Site) (l : Ledger) : Prop
    extends Archive.On a site l where
  confirms : ∀ o ∈ site.store.outcomes, l.Confirms o

/-- The ledger after what has happened. -/
def ArchiveEvent.ledger (a : Archive) (l : Ledger) : ArchiveEvent → Ledger
  | .operate c op => op.ledger a c l
  | .openSnapshot _ _ | .release _ => l

/-- To a ledger, an operation is one event; where it submits nothing, one that leaves all as it
is. -/
theorem Operation.ledger_step (a : Archive) (c : Clock) (op : Operation) (l : Ledger) :
    ∃ ev : StoreEvent Failure, op.ledger a c l = l.step ev := by
  unfold Operation.ledger
  cases op.ops a with
  | error failure => exact ⟨.openSnapshot c.now none, rfl⟩
  | ok ops => exact ⟨.submit (Catalog.functions a.types) c.now ops, rfl⟩

theorem ArchiveEvent.ledger_step (a : Archive) (l : Ledger) (ev : ArchiveEvent) :
    ∃ ev' : StoreEvent Failure, ev.ledger a l = l.step ev' := by
  cases ev with
  | operate c op => exact op.ledger_step a c l
  | openSnapshot c asOf => exact ⟨.openSnapshot c.now asOf, rfl⟩
  | release snap => exact ⟨.release snap, rfl⟩

namespace Archive.Confirmed

variable {a : Archive} {site : Site} {l : Ledger}

theorem submit (h : a.Confirmed site l) (c : Clock) (ops : List TxOp) :
    a.Confirmed (Site.submit c ops site).2
      (l.submit (Catalog.functions a.types) c.now ops).2.2 := by
  obtain ⟨-, hstore, -⟩ := h.submit_eq c ops
  obtain ⟨-, -, -, houtcomes⟩ :=
    site.store.submit_outcomes (Catalog.functions a.types) c.now ops
  refine ⟨h.toOn.submit c ops, fun o ho => ?_⟩
  rw [hstore, houtcomes] at ho
  rcases List.mem_append.1 (List.mem_of_mem_drop ho) with ho | ho
  · exact (h.confirms o ho).step (.submit (Catalog.functions a.types) c.now ops)
  · rw [List.mem_singleton.1 ho]
    exact Ledger.confirms_submit h.tracks

theorem resolve (h : a.Confirmed site l) (c : Clock) (tx : TxId) :
    a.Confirmed (Archive.resolve c tx site).2 l := by
  refine ⟨h.toOn.resolve c tx, fun o ho => h.confirms o ?_⟩
  cases hclaim : site.store.claim tx with
  | error e => rwa [resolve_error hclaim] at ho
  | ok r =>
    rw [resolve_eq hclaim] at ho
    exact (Store.claim_ok hclaim).2.2 o ho

theorem perform (h : a.Confirmed site l) (c : Clock) (op : Operation) :
    a.Confirmed (op.perform a c site).2 (op.ledger a c l) := by
  rw [Operation.perform_eq, Operation.ledger]
  cases op.ops a with
  | ok ops => exact (h.submit c ops).resolve c _
  | error failure => exact h

theorem openSnapshot (h : a.Confirmed site l) (c : Clock) (asOf : Option Instant) :
    a.Confirmed (Site.openSnapshot c asOf site).2 l :=
  ⟨h.toOn.openSnapshot c asOf, h.confirms⟩

theorem release (h : a.Confirmed site l) (snap : Snapshot) :
    a.Confirmed (Site.release snap site).2 l := by
  refine ⟨h.toOn.release snap, fun o ho => h.confirms o ?_⟩
  unfold Site.release Store.release at ho
  cases hpin : site.store.pinOf snap with
  | error e => rwa [hpin] at ho
  | ok pin => rwa [hpin] at ho

theorem happen (h : a.Confirmed site l) (ev : ArchiveEvent) :
    a.Confirmed (a.happen site ev) (ev.ledger a l) := by
  cases ev with
  | operate c op => exact h.perform c op
  | openSnapshot c asOf => exact h.openSnapshot c asOf
  | release snap => exact h.release snap

theorem through (h : a.Confirmed site l) (events : List ArchiveEvent) :
    ∃ l', a.Confirmed (a.through site events) l' := by
  induction events generalizing site l with
  | nil => exact ⟨l, h⟩
  | cons ev events ih => exact ih (h.happen ev)

/-! ### Reading -/

theorem reading {α : Type} (h : a.Confirmed site l) (c : Clock) (asOf : Option Instant)
    (read : Store → Snapshot → Except Failure α) :
    a.Confirmed (Archive.reading c asOf read site).2 l := by
  rw [Archive.reading_snd]
  exact (h.openSnapshot c asOf).release _

theorem entity (h : a.Confirmed site l) (c : Clock) (guid : String) (asOf : Option Instant) :
    a.Confirmed (Archive.entity c guid asOf site).2 l := by
  unfold Archive.entity
  rw [OnSite.bind_lift_site]
  exact h.reading c asOf _

theorem relationship (h : a.Confirmed site l) (c : Clock) (guid : String) (asOf : Option Instant) :
    a.Confirmed (a.relationship c guid asOf site).2 l := by
  unfold Archive.relationship
  rw [OnSite.bind_lift_site]
  exact h.reading c asOf _

end Archive.Confirmed

/-! ## What is told -/

namespace Archive

variable {a : Archive} {site : Site} {l : Ledger} {c : Clock} {tx : TxId} {o : Outcome}

/-- **Who is told of an outcome**: it is kept and committed, and no recent failure is kept beside
it. -/
theorem resolve_ok_iff : (Archive.resolve c tx site).1 = .ok o ↔
    site.store.outcomes.find? (fun o => o.tx == tx) = some o ∧ o.committed = true ∧
      (site.rejections.expire c.elapsed).Fresh tx := by
  rw [← Rejections.take_eq_none_iff]
  cases hfind : site.store.outcomes.find? fun o => o.tx == tx with
  | none =>
    have hlacks : Lacks Outcome.tx tx site.store.outcomes := fun o ho => by
      simpa using List.find?_eq_none.1 hfind o ho
    simp [resolve_error (Store.claim_of_lacks hlacks)]
  | some o' =>
    rw [resolve_eq (Store.claim_of_find? hfind), Option.some.injEq]
    cases htake : (site.rejections.take c.elapsed tx).1 with
    | some failure => simp
    | none =>
      cases hresult : o'.result with
      | aborted fault =>
        refine iff_of_false (by simp) ?_
        rintro ⟨rfl, hcommitted, -⟩
        simp [Outcome.committed, hresult] at hcommitted
      | committed n =>
        simp only [Except.ok.injEq]
        refine ⟨?_, fun h => h.1⟩
        rintro rfl
        exact ⟨rfl, by simp [Outcome.committed, hresult], trivial⟩

/-- Who is told of an outcome is told of a transaction that is entered, and its time. -/
theorem Confirmed.time_of_resolve (h : a.Confirmed site l)
    (hok : (Archive.resolve c tx site).1 = .ok o) :
    (l.entered? tx.number).map Ledger.Entry.time = some o.time := by
  obtain ⟨hfind, hcommitted, -⟩ := resolve_ok_iff.1 hok
  have htx : o.tx = tx := by simpa using List.find?_some hfind
  rw [← htx, (h.confirms o (List.mem_of_find?_eq_some hfind)).entry, if_pos hcommitted]

/-- A submission whose reply was committed is told so as long as its outcome is kept, unless a
recent failure is kept beside it. -/
theorem Confirmed.resolve_committed {k : Submission} (h : a.Confirmed site l) (hk : k.Entered a l)
    (hcommits : k.reply.commits = true) :
    (∃ o, (Archive.resolve c k.tx site).1 = .ok o) ↔
      ¬ Lacks Outcome.tx k.tx site.store.outcomes ∧
        (site.rejections.expire c.elapsed).Fresh k.tx := by
  constructor
  · rintro ⟨o, ho⟩
    obtain ⟨hfind, -, hfresh⟩ := resolve_ok_iff.1 ho
    exact ⟨fun hlacks => hlacks o (List.mem_of_find?_eq_some hfind)
      (by simpa using List.find?_some hfind), hfresh⟩
  · rintro ⟨hkept, hfresh⟩
    cases hfind : site.store.outcomes.find? fun o => o.tx == k.tx with
    | none =>
      refine absurd (fun o ho => ?_) hkept
      simpa using List.find?_eq_none.1 hfind o ho
    | some o =>
      have htx : o.tx = k.tx := by simpa using List.find?_some hfind
      have hentry := (h.confirms o (List.mem_of_find?_eq_some hfind)).entry
      have hsome : (l.entered? k.tx.number).isSome := hk.committed.trans hcommits
      refine ⟨o, resolve_ok_iff.2 ⟨hfind, ?_, hfresh⟩⟩
      rw [htx] at hentry
      by_contra hnot
      rw [if_neg hnot, Option.map_eq_none_iff] at hentry
      simp [hentry] at hsome

end Archive

end MetadataArchive
