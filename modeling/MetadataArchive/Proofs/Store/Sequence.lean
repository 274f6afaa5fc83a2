import MetadataArchive.Proofs.Store.Latest
import MetadataArchive.Proofs.Store.Outcome

/-!
# Operations one after another

`RunInOrder` says what a list of operations comes to with no word about staging: each operation
finds the documents as those before it left them, and the first that fails stops the rest. A call
finds them in a source that presents just these documents; a function that only looks documents up
by key cannot tell one such source from another (`ReadsByKey`), and then a list of operations comes
to one thing only (`RunInOrder.unique`).

A transaction comes to the same. What it stages, laid over the latest state, is what the operations
so far have left, and that is all the induction over the operations carries
(`runOps_runs_in_order`). So whatever every operation keeps holds of what each call sees
(`Store.CallSees.holds`), and a call that replies with no writes leaves nothing of its transaction
(`Store.CallSees.aborts`).
-/

set_option autoImplicit false

namespace MetadataArchive

variable {ν : Type}

/-- Under each key the source has this document, and a scan of it meets just these. -/
structure Source.Presents (src : Source) (docs : DocId → Option Document) : Prop where
  coherent : src.Coherent
  shows : src.document? = docs

/-- The function looks documents up by key, and reads them in no other way. -/
def TxFunction.ReadsByKey (f : TxFunction ν) : Prop :=
  ∀ tx time src src' args, src.document? = src'.document? →
    f.run ⟨tx, time, src⟩ args = f.run ⟨tx, time, src'⟩ args

/-- What the reply to a call of `name` makes of the documents. -/
def Reply.onto (name : String) (docs : DocId → Option Document) :
    Reply ν → Except TxFault (DocId → Option Document)
  | .writes ws _ => .ok (writeAll docs ws)
  | .fault reason => .error (.failed name reason)
  | .panic message => .error (.panicked message)

section Order

variable (functions : List (TxFunction ν)) (tx : TxId) (time : Instant)

/-- An operation, where these are the documents, leaves those or fails. -/
inductive TxOp.RunsTo (docs : DocId → Option Document) :
    TxOp → Except TxFault (DocId → Option Document) → Prop
  | write (w : Write) : TxOp.RunsTo docs (.write w) (.ok (w.on docs))
  | unknown {name : String} {args : Json} (hnone : ∀ f ∈ functions, f.name ≠ name) :
      TxOp.RunsTo docs (.call name args) (.error (.unknownFunction name))
  | call {name : String} {args : Json} {f : TxFunction ν} {src : Source}
      (hfind : functions.find? (fun f => f.name == name) = some f) (hsrc : src.Presents docs) :
      TxOp.RunsTo docs (.call name args) ((f.run ⟨tx, time, src⟩ args).onto name docs)

/-- Operations in order, each on what those before it left, up to the first that fails. -/
inductive RunInOrder : (DocId → Option Document) → List TxOp →
    Except TxFault (DocId → Option Document) → Prop
  | done (docs : DocId → Option Document) : RunInOrder docs [] (.ok docs)
  | next {docs docs' : DocId → Option Document} {op : TxOp} {ops : List TxOp}
      {result : Except TxFault (DocId → Option Document)}
      (hop : op.RunsTo functions tx time docs (.ok docs')) (hops : RunInOrder docs' ops result) :
      RunInOrder docs (op :: ops) result
  | stop {docs : DocId → Option Document} {op : TxOp} {ops : List TxOp} {fault : TxFault}
      (hop : op.RunsTo functions tx time docs (.error fault)) :
      RunInOrder docs (op :: ops) (.error fault)

end Order

variable {functions : List (TxFunction ν)} {tx : TxId} {time : Instant}
variable {docs : DocId → Option Document} {op : TxOp} {ops : List TxOp}
variable {result result' : Except TxFault (DocId → Option Document)}

/-! ## One result only -/

theorem TxOp.RunsTo.unique (hkey : ∀ f ∈ functions, f.ReadsByKey)
    (h : op.RunsTo functions tx time docs result)
    (h' : op.RunsTo functions tx time docs result') : result' = result := by
  cases h with
  | write w => cases h'; rfl
  | unknown hnone =>
    cases h' with
    | unknown => rfl
    | call hfind =>
      have hname := List.find?_some hfind
      exact absurd (by simpa using hname) (hnone _ (List.mem_of_find?_eq_some hfind))
  | call hfind hsrc =>
    cases h' with
    | unknown hnone =>
      have hname := List.find?_some hfind
      exact absurd (by simpa using hname) (hnone _ (List.mem_of_find?_eq_some hfind))
    | call hfind' hsrc' =>
      obtain rfl := Option.some.inj (hfind.symm.trans hfind')
      rw [hkey _ (List.mem_of_find?_eq_some hfind) _ _ _ _ _ (hsrc'.shows.trans hsrc.shows.symm)]

/-- Where functions look up by key, the documents before and the operations decide the result. -/
theorem RunInOrder.unique (hkey : ∀ f ∈ functions, f.ReadsByKey)
    (h : RunInOrder functions tx time docs ops result)
    (h' : RunInOrder functions tx time docs ops result') : result' = result := by
  induction h with
  | done docs => cases h'; rfl
  | next hop _ ih =>
    cases h' with
    | next hop' hops' =>
      obtain rfl := Except.ok.inj (hop.unique hkey hop')
      exact ih hops'
    | stop hop' => cases hop.unique hkey hop'
  | stop hop =>
    cases h' with
    | next hop' => cases hop.unique hkey hop'
    | stop hop' => exact hop.unique hkey hop'

/-! ## A transaction comes to the same -/

/-- **What is staged is what the operations leave**: operations that run on staged writes come to
what they come to in order, on the state with these writes laid over it. -/
theorem runOps_runs_in_order {base : Source} {staged : Staged} (hbase : base.Coherent)
    (hs : staged.Keyed) :
    RunInOrder functions tx time (staged.laidOver base).document? ops
      ((runOps functions tx time base staged ops).1.map fun s => (s.laidOver base).document?) := by
  induction ops generalizing staged with
  | nil => exact .done _
  | cons op ops ih =>
    cases op with
    | write w =>
      refine .next (.write w) ?_
      rw [← Staged.laidOver_apply]
      exact ih (hs.apply w)
    | call name args =>
      simp only [runOps]
      cases hfind : functions.find? fun f => f.name == name with
      | none =>
        refine .stop (.unknown fun f hf hname => ?_)
        exact absurd (beq_iff_eq.2 hname) (by simpa using List.find?_eq_none.1 hfind f hf)
      | some f =>
        have hcall : TxOp.RunsTo functions tx time (staged.laidOver base).document?
            (.call name args) _ := .call hfind ⟨Staged.coherent_laidOver hs hbase, rfl⟩
        dsimp only
        cases hrun : f.run ⟨tx, time, staged.laidOver base⟩ args with
        | panic message =>
          rw [hrun] at hcall
          exact .stop hcall
        | fault reason =>
          rw [hrun] at hcall
          exact .stop hcall
        | writes ws note =>
          rw [hrun, Reply.onto, ← Staged.laidOver_applyAll] at hcall
          exact .next hcall (ih (hs.applyAll ws))

section Submission

variable {s : Store} {l : Ledger} {now : Instant}

theorem Store.submit_of_error {fault : TxFault}
    (h : (runOps functions ⟨s.lastTx + 1⟩ (s.nextTime now) s.latest ∅ ops).1 = .error fault) :
    (s.submit functions now ops).2.2 =
      { s with
        lastTx := s.lastTx + 1
        outcomes := (s.submit functions now ops).2.2.outcomes } := by
  simp only [Store.submit, h]
  rfl

theorem Tracks.latest_of_commit {staged : Staged} (h : Tracks s l)
    (hrun : (runOps functions ⟨s.lastTx + 1⟩ (s.nextTime now) s.latest ∅ ops).1 = .ok staged) :
    (s.submit functions now ops).2.2.latest.document? = (staged.laidOver s.latest).document? := by
  rw [h.number, h.nextTime_eq, h.latest_eq] at hrun
  rw [(h.submit functions now ops).2.2.latest_eq, h.latest_eq, ← Ledger.latest_append _ now]
  simp only [Ledger.submit, hrun]

/-- How a transaction ends is what its operations come to in order. -/
theorem Tracks.submit_in_order (h : Tracks s l) (hkeyed : l.Keyed)
    (functions : List (TxFunction ν)) (now : Instant) (ops : List TxOp) :
    ∃ result,
      RunInOrder functions ⟨s.lastTx + 1⟩ (s.nextTime now) s.latest.document? ops result ∧
      match result with
      | .ok docs =>
          (s.outcome functions now ops).committed = true ∧
            (s.submit functions now ops).2.2.latest.Presents docs
      | .error fault =>
          (s.outcome functions now ops).result = .aborted fault ∧
            (s.submit functions now ops).2.2 =
              { s with
                lastTx := s.lastTx + 1
                outcomes := (s.submit functions now ops).2.2.outcomes } := by
  have hbase : s.latest.Coherent := by
    rw [h.latest_eq]
    exact Ledger.coherent_latest hkeyed
  have horder : RunInOrder functions ⟨s.lastTx + 1⟩ (s.nextTime now)
      (Staged.laidOver ∅ s.latest).document? ops _ :=
    runOps_runs_in_order hbase Staged.keyed_empty
  rw [Staged.laidOver_empty] at horder
  refine ⟨_, horder, ?_⟩
  cases hrun : (runOps functions ⟨s.lastTx + 1⟩ (s.nextTime now) s.latest ∅ ops).1 with
  | ok staged =>
    have hcoherent : (s.submit functions now ops).2.2.latest.Coherent := by
      rw [(h.submit functions now ops).2.2.latest_eq]
      exact Ledger.coherent_latest (hkeyed.submit functions now ops)
    refine ⟨?_, hcoherent, h.latest_of_commit hrun⟩
    simp only [Store.outcome, Outcome.committed, hrun, TxResult.ofRun]
  | error fault =>
    refine ⟨?_, Store.submit_of_error hrun⟩
    simp only [Store.outcome, hrun, TxResult.ofRun]

end Submission

/-! ## What a call sees -/

section Calls

variable {base : Source} {before after : List TxOp} {name : String} {args : Json} {now : Instant}

/-- Operations go on from what those before them have staged. -/
theorem runOps_append {staged staged' : Staged}
    (h : (runOps functions tx time base staged before).1 = .ok staged') :
    (runOps functions tx time base staged (before ++ after)).1 =
      (runOps functions tx time base staged' after).1 := by
  induction before generalizing staged with
  | nil =>
    cases h
    rfl
  | cons op before ih =>
    cases op with
    | write w => exact ih h
    | call name args =>
      simp only [List.cons_append, runOps] at h ⊢
      cases hf : functions.find? fun f => f.name == name with
      | none => simp [hf] at h
      | some f =>
        simp only [hf] at h ⊢
        cases hrun : f.run ⟨tx, time, staged.laidOver base⟩ args with
        | panic message => simp [hrun] at h
        | fault reason => simp [hrun] at h
        | writes ws note =>
          simp only [hrun] at h ⊢
          exact ih h

/-- A call of a transaction that is submitted to a store runs in this context. -/
def Store.CallSees (s : Store) (functions : List (TxFunction ν)) (now : Instant)
    (ops : List TxOp) (name : String) (args : Json) (ctx : TxContext) : Prop :=
  ∃ (before after : List TxOp) (staged : Staged), ops = before ++ .call name args :: after ∧
    (runOps functions ⟨s.lastTx + 1⟩ (s.nextTime now) s.latest ∅ before).1 = .ok staged ∧
    ctx = ⟨⟨s.lastTx + 1⟩, s.nextTime now, staged.laidOver s.latest⟩

namespace Store.CallSees

variable {s : Store} {ctx : TxContext}

/-- What every operation keeps holds of the state that a call sees. -/
theorem holds {P : (DocId → Option Document) → Prop} {Q : ν → Prop}
    (h : s.CallSees functions now ops name args ctx)
    (hkeeps : (StoreEvent.submit functions now ops).Keeps P Q) (hbase : s.latest.Coherent)
    (hP : P s.latest.document?) : ctx.source.Coherent ∧ P ctx.source.document? := by
  obtain ⟨before, after, staged, rfl, hstaged, rfl⟩ := h
  have hbefore : (StoreEvent.submit functions now before).Keeps P Q :=
    ⟨fun docs w hw => hkeeps.1 docs w (List.mem_append_left _ hw),
      fun name args hc => hkeeps.2 name args (List.mem_append_left _ hc)⟩
  obtain ⟨hkeyed, hP'⟩ := (hbefore.runOps hbase hP _ _).1 staged hstaged
  exact ⟨Staged.coherent_laidOver hkeyed hbase, hP'⟩

/-- **A call that replies with no writes aborts the transaction**, and the latest state is what it
was. -/
theorem aborts (h : s.CallSees functions now ops name args ctx) {f : TxFunction ν}
    (hf : functions.find? (fun f => f.name == name) = some f)
    (hreply : ∀ ws note, f.run ctx args ≠ .writes ws note) :
    (s.submit functions now ops).2.2.latest = s.latest := by
  obtain ⟨before, after, staged, rfl, hstaged, rfl⟩ := h
  have hrun : ∃ fault, (runOps functions ⟨s.lastTx + 1⟩ (s.nextTime now) s.latest ∅
      (before ++ .call name args :: after)).1 = .error fault := by
    rw [runOps_append hstaged]
    simp only [runOps, hf]
    split
    · exact ⟨_, rfl⟩
    · exact ⟨_, rfl⟩
    next ws note hws => exact absurd hws (hreply ws note)
  obtain ⟨fault, hrun⟩ := hrun
  rw [Store.submit_of_error hrun]
  rfl

end Store.CallSees

end Calls

/-! ## Every run -/

/-- **A transaction is all or nothing, and its operations run in order.** On the state after any
run, operations come to a result when they are run in order on the latest documents, and the
transaction comes to the same. Where that is a fault, nothing changes but the number of the last
transaction and the outcomes that are kept; where it is documents, these are the latest. -/
theorem transaction_runs_in_order (capacity : Nat) (events : List (StoreEvent ν))
    (functions : List (TxFunction ν)) (now : Instant) (ops : List TxOp) :
    let s := (Store.empty capacity).run events
    let s' := (s.submit functions now ops).2.2
    let inOrder := RunInOrder functions ⟨s.lastTx + 1⟩ (s.nextTime now) s.latest.document? ops
    ∃ result o rest,
      inOrder result ∧
      ((∀ f ∈ functions, f.ReadsByKey) → ∀ other, inOrder other → other = result) ∧
      s'.claim (s.submit functions now ops).1 = .ok (o, rest) ∧
      match result with
      | .ok docs => o.committed = true ∧ s'.latest.Presents docs
      | .error fault =>
          o.result = .aborted fault ∧
            s' = { s with lastTx := s.lastTx + 1, outcomes := s'.outcomes } := by
  intro s s' inOrder
  have htracks : Tracks s (Ledger.empty.run events) := (Tracks.empty capacity).run events
  have hkeyed : (Ledger.empty.run events).Keyed := Ledger.keyed_empty.run events
  have hkeeps : s.KeepsOutcomes := (Store.KeepsOutcomes.empty capacity).run events
  obtain ⟨result, horder, hresult⟩ := htracks.submit_in_order hkeyed functions now ops
  obtain ⟨rest, hclaim⟩ := Store.claim_submit hkeeps functions now ops
  exact ⟨result, s.outcome functions now ops, rest, horder,
    fun hkey _ hother => horder.unique hkey hother, hclaim, hresult⟩

/-- A document that is evicted and put again is there for the call behind, which copies it. -/
theorem transaction_copies_what_it_put_again :
    let copy : TxFunction Unit := ⟨"copy", fun ctx _ =>
      match ctx.source.document? "e:1" with
      | some d => .writes [.put { d with id := "e:2" }] none
      | none => .fault "nothing to copy"⟩
    let d := (Document.ofId "e:1").set "n" (.bool true)
    let put : List (StoreEvent Unit) := [.submit [] ⟨0, 0⟩ [.write (.put (.ofId "e:1"))]]
    let ops : List TxOp := [.write (.evict "e:1"), .write (.put d), .call "copy" .null]
    copy.ReadsByKey ∧
      (((Store.empty 1).run put).submit [copy] ⟨0, 0⟩ ops).2.2.latest.document? "e:2" =
        some { d with id := "e:2" } := by
  intro copy d put ops
  have hkey : ∀ f ∈ [copy], f.ReadsByKey := by
    intro f hf tx time src src' args hsrc
    rw [List.mem_singleton.1 hf]
    simp only [copy, hsrc]
  refine ⟨hkey copy (by simp), ?_⟩
  obtain ⟨result, o, rest, -, hunique, -, hresult⟩ :=
    transaction_runs_in_order 1 put [copy] ⟨0, 0⟩ ops
  let docs := (Write.put d).on
    ((Write.evict "e:1").on ((Store.empty 1).run put).latest.document?)
  have hbase : ((Store.empty 1).run put).latest.Coherent :=
    (Store.latest_of_run (P := fun _ => True) (Q := fun _ => True) 1
      (by simp [put, StoreEvent.Keeps]) trivial).1
  let staged : Staged := ((∅ : Staged).apply (.evict "e:1")).apply (.put d)
  have hsrc : (staged.laidOver ((Store.empty 1).run put).latest).Presents docs :=
    ⟨Staged.coherent_laidOver ((Staged.keyed_empty.apply _).apply _) hbase, by
      rw [Staged.laidOver_apply, Staged.laidOver_apply, Staged.laidOver_empty]⟩
  have hcall (tx : TxId) (time : Instant) : TxOp.RunsTo [copy] tx time docs (.call "copy" .null)
      (.ok ((Write.put { d with id := "e:2" }).on docs)) := by
    have hrun : copy.run ⟨tx, time, staged.laidOver ((Store.empty 1).run put).latest⟩ .null =
        .writes [.put { d with id := "e:2" }] none := by
      have hput : docs "e:1" = some d := Write.on_self
      simp only [copy, hsrc.shows, hput]
    have h : TxOp.RunsTo [copy] tx time docs (.call "copy" .null) _ := .call rfl hsrc
    rwa [hrun] at h
  rw [← hunique hkey _ (.next (.write _) (.next (.write _) (.next (hcall _ _) (.done _))))]
    at hresult
  rw [hresult.2.shows]
  rfl

end MetadataArchive
