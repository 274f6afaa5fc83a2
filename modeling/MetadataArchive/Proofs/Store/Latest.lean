import MetadataArchive.Proofs.Store.Run
import MetadataArchive.Proofs.Store.Snapshot
import MetadataArchive.Proofs.Store.Staging

/-!
# How the latest state grows

A commit lays what was staged over the latest state, and nothing else changes it. So whatever holds
before the first transaction, and is kept by each operation of a transaction on the state that the
operation sees, holds of the latest state after any run (`latest_of_run`).
-/

set_option autoImplicit false

namespace MetadataArchive

namespace Ledger

variable {l : Ledger} {id : DocId} {now : Instant} {writes : Staged}

theorem tx_writesTo_le_last (l : Ledger) (id : DocId) : ∀ v ∈ l.writesTo id, v.tx ≤ l.last := by
  intro v hv
  obtain ⟨e, he, hev⟩ := List.mem_filterMap.1 hv
  obtain ⟨_, _, rfl⟩ := Option.map_eq_some_iff.1 hev
  exact le_last he

/-- A reader of the present sees what was written last. -/
theorem shows_present {n : Nat} (hn : l.last ≤ n) :
    l.shows ⟨n, n⟩ id = (l.writesTo id).getLast?.bind Version.doc := by
  rw [shows_eq_visible]
  exact History.visible_of_le (l.tx_writesTo_le_last id) hn hn

/-- **The latest state after a commit** is the one before with the writes laid over it. -/
theorem latest_append (l : Ledger) (now : Instant) (writes : Staged) :
    (l.append now writes).latest.document? = (writes.laidOver l.latest).document? := by
  funext id
  show (l.append now writes).shows _ id = _
  rw [shows_present (Nat.le_refl _), writesTo_append]
  simp only [Staged.laidOver]
  cases writes.get? id with
  | none =>
    rw [Option.map_none, Option.toList_none, List.append_nil]
    exact (shows_present (Nat.le_refl _)).symm
  | some doc => simp

/-- What a reader sees was written once. -/
theorem written_of_shows {pin : Pin} {d : Document} (hd : l.shows pin id = some d) :
    ∃ e ∈ l.entries, e.writes.get? id = some (some d) := by
  obtain ⟨v, hv, hdoc⟩ := Option.bind_eq_some_iff.1 hd
  obtain ⟨e, he, hev⟩ := List.mem_filterMap.1 (List.mem_filter.1 (List.mem_of_getLast? hv)).1
  obtain ⟨doc, hget, rfl⟩ := Option.map_eq_some_iff.1 hev
  exact ⟨e, he, hget.trans (congrArg some hdoc)⟩

/-- Every document was written under its own key. -/
def Keyed (l : Ledger) : Prop := ∀ e ∈ l.entries, e.writes.Keyed

/-- Whoever reads, there is a document of a key under it, and a scan meets just these. -/
theorem coherent_source (h : l.Keyed) (pin : Pin) : (l.source pin).Coherent := by
  have hkeyed : ∀ id d, l.shows pin id = some d → d.id = id := by
    intro id d hd
    obtain ⟨e, he, hget⟩ := written_of_shows hd
    exact h e he id d hget
  refine ⟨hkeyed, fun d => ?_⟩
  show d ∈ l.keys.filterMap (l.shows pin) ↔ l.shows pin d.id = some d
  rw [List.mem_filterMap]
  constructor
  · rintro ⟨id, -, hd⟩
    rw [hkeyed id d hd]
    exact hd
  · intro hd
    exact ⟨d.id, mem_keys_of_shows (by rw [hd]; simp), hd⟩

theorem coherent_latest (h : l.Keyed) : l.latest.Coherent := coherent_source h _

theorem keyed_empty : Keyed .empty := by simp [Keyed, empty]

theorem Keyed.append (h : l.Keyed) (hw : writes.Keyed) : (l.append now writes).Keyed := by
  intro e he
  rcases List.mem_append.1 he with he | he
  · exact h e he
  · rw [List.mem_singleton.1 he]
    exact hw

end Ledger

/-! ## Runs -/

section Runs

variable {ν : Type} {P : (DocId → Option Document) → Prop} {Q : ν → Prop}

/-- The event keeps what holds of the documents by key: each of its operations does, on the state
that the operation sees. What functions note is as it should be. -/
def StoreEvent.Keeps (P : (DocId → Option Document) → Prop) (Q : ν → Prop) : StoreEvent ν → Prop
  | .submit functions _ ops =>
      (∀ docs w, .write w ∈ ops → P docs → P (w.on docs)) ∧
      ∀ name args, .call name args ∈ ops → ∀ f ∈ functions, f.name = name →
        ∀ ctx ws note, ctx.source.Coherent → P ctx.source.document? →
          f.run ctx args = .writes ws note → P (writeAll ctx.source.document? ws) ∧ ∀ n ∈ note, Q n
  | _ => True

variable {functions : List (TxFunction ν)} {now : Instant} {ops : List TxOp} {l : Ledger}
variable {events : List (StoreEvent ν)}

/-- What a transaction has staged is under its own keys, and what is kept holds of the state with it
laid over. -/
theorem StoreEvent.Keeps.runOps {base : Source}
    (hkeeps : (StoreEvent.submit functions now ops).Keeps P Q) (hbase : base.Coherent)
    (hP : P base.document?) (tx : TxId) (time : Instant) :
    (∀ staged, (runOps functions tx time base ∅ ops).1 = .ok staged →
        staged.Keyed ∧ P (staged.laidOver base).document?) ∧
      ∀ n ∈ (runOps functions tx time base ∅ ops).2, Q n := by
  refine runOps_preserves (P := fun s => s.Keyed ∧ P (s.laidOver base).document?) ?_ ?_
    ⟨Staged.keyed_empty, hP⟩
  · rintro s w hw ⟨hs, hPs⟩
    rw [Staged.laidOver_apply]
    exact ⟨hs.apply w, hkeeps.1 _ w hw hPs⟩
  · rintro name args hc f hf hname s ws note ⟨hs, hPs⟩ hrun
    have hsource := Staged.coherent_laidOver hs hbase
    obtain ⟨hP', hQ⟩ := hkeeps.2 name args hc f hf hname _ ws note hsource hPs hrun
    rw [Staged.laidOver_applyAll]
    exact ⟨⟨hs.applyAll ws, hP'⟩, hQ⟩

theorem Ledger.keeps_submit (hkeeps : (StoreEvent.submit functions now ops).Keeps P Q)
    (hkeyed : l.Keyed) (hP : P l.latest.document?) :
    (l.submit functions now ops).2.2.Keyed ∧ P (l.submit functions now ops).2.2.latest.document? ∧
      ∀ n ∈ (l.submit functions now ops).2.1, Q n := by
  obtain ⟨hresult, hnotes⟩ := hkeeps.runOps (Ledger.coherent_latest hkeyed) hP ⟨l.submitted + 1⟩
    (l.nextTime now)
  simp only [Ledger.submit]
  split
  next staged hstaged =>
    obtain ⟨hs, hPs⟩ := hresult staged hstaged
    exact ⟨hkeyed.append hs, by rw [Ledger.latest_append]; exact hPs, hnotes⟩
  next => exact ⟨hkeyed, hP, hnotes⟩

theorem Ledger.keeps_run (hkeeps : ∀ ev ∈ events, ev.Keeps P Q) (hkeyed : l.Keyed)
    (hP : P l.latest.document?) : (l.run events).Keyed ∧ P (l.run events).latest.document? := by
  induction events generalizing l with
  | nil => exact ⟨hkeyed, hP⟩
  | cons ev events ih =>
    have ih {l} := ih (l := l) fun e he => hkeeps e (List.mem_cons_of_mem _ he)
    cases ev with
    | submit functions now ops =>
      have hev := hkeeps (.submit functions now ops) (by simp)
      obtain ⟨hkeyed', hP', -⟩ := Ledger.keeps_submit hev hkeyed hP
      exact ih hkeyed' hP'
    | openSnapshot | release | claim => exact ih hkeyed hP

/-- That documents are under their keys asks nothing of the functions that are called. -/
theorem Ledger.Keyed.submit (h : l.Keyed) (functions : List (TxFunction ν)) (now : Instant)
    (ops : List TxOp) : (l.submit functions now ops).2.2.Keyed := by
  refine (Ledger.keeps_submit (P := fun _ => True) (Q := fun _ => True) ?_ h trivial).1
  exact ⟨fun _ _ _ _ => trivial, fun _ _ _ _ _ _ _ _ _ _ _ _ => ⟨trivial, by simp⟩⟩

theorem Ledger.Keyed.run (h : l.Keyed) (events : List (StoreEvent ν)) : (l.run events).Keyed := by
  induction events generalizing l with
  | nil => exact h
  | cons ev events ih =>
    cases ev with
    | submit functions now ops => exact ih (h.submit functions now ops)
    | openSnapshot | release | claim => exact ih h

/-! ### All that was ever written -/

/-- Every document that was ever written is as it should be, whether it is still there or not. -/
def Ledger.Holds (l : Ledger) (ok : Document → Prop) : Prop :=
  ∀ e ∈ l.entries, ∀ id d, e.writes.get? id = some (some d) → ok d

variable {ok : Document → Prop}

theorem Ledger.holds_empty : Ledger.empty.Holds ok := by simp [Holds, empty]

theorem Ledger.Holds.shows {pin : Pin} {id : DocId} {d : Document} (h : l.Holds ok)
    (hd : l.shows pin id = some d) : ok d := by
  obtain ⟨e, he, hget⟩ := written_of_shows hd
  exact h e he id d hget

/-- What every operation keeps of each document holds of all that is ever written: what a
transaction writes is there at least until the next one. -/
theorem Ledger.Holds.submit (h : l.Holds ok) (hkeyed : l.Keyed)
    (hkeeps : (StoreEvent.submit functions now ops).Keeps
      (fun docs => ∀ id d, docs id = some d → ok d) Q) :
    (l.submit functions now ops).2.2.Holds ok := by
  obtain ⟨-, hlatest, -⟩ := Ledger.keeps_submit hkeeps hkeyed fun id d hd => h.shows hd
  simp only [Ledger.submit] at hlatest ⊢
  split at hlatest
  next staged hstaged =>
    intro e he id d hd
    rcases List.mem_append.1 he with he | he
    · exact h e he id d hd
    · rw [List.mem_singleton.1 he] at hd
      have hstaged : staged.get? id = some (some d) := hd
      refine hlatest id d ?_
      rw [Ledger.latest_append]
      simp only [Staged.laidOver, hstaged]
  next => exact h

theorem Ledger.Holds.run (h : l.Holds ok) (hkeyed : l.Keyed)
    (hkeeps : ∀ ev ∈ events, ev.Keeps (fun docs => ∀ id d, docs id = some d → ok d) Q) :
    (l.run events).Holds ok := by
  induction events generalizing l with
  | nil => exact h
  | cons ev events ih =>
    have hrest := fun ev' hev => hkeeps ev' (List.mem_cons_of_mem _ hev)
    cases ev with
    | submit functions now ops =>
      have hev := hkeeps (.submit functions now ops) List.mem_cons_self
      exact ih (h.submit hkeyed hev) (hkeyed.submit functions now ops) hrest
    | openSnapshot | release | claim => exact ih h hkeyed hrest

/-! ### What comes later -/

/-- An event leaves a ledger as it is, passes a number over, or adds a commit. -/
theorem Ledger.step_cases (l : Ledger) (ev : StoreEvent ν) :
    l.step ev = l ∨ l.step ev = l.skip ∨ ∃ now writes, l.step ev = l.append now writes := by
  cases ev with
  | submit functions now ops =>
    simp only [Ledger.step, Ledger.submit]
    split
    · exact Or.inr (Or.inr ⟨_, _, rfl⟩)
    · exact Or.inr (Or.inl rfl)
  | openSnapshot | release | claim => exact Or.inl rfl

theorem Ledger.last_run_le (l : Ledger) (events : List (StoreEvent ν)) :
    l.last ≤ (l.run events).last := by
  induction events generalizing l with
  | nil => exact Nat.le_refl _
  | cons ev events ih =>
    refine Nat.le_trans ?_ (ih (l.step ev))
    rcases l.step_cases ev with h | h | ⟨now, writes, h⟩ <;> rw [h]
    · exact Nat.le_refl _
    · rw [last_append]
      exact Nat.le_succ_of_le l.last_le_submitted

/-- What is written later comes after all that was written before, under higher numbers. -/
theorem Ledger.writesTo_run (l : Ledger) (events : List (StoreEvent ν)) (id : DocId) :
    ∃ new, (l.run events).writesTo id = l.writesTo id ++ new ∧ ∀ v ∈ new, l.submitted < v.tx := by
  induction events generalizing l with
  | nil => exact ⟨[], (List.append_nil _).symm, by simp⟩
  | cons ev events ih =>
    obtain ⟨new, hnew, hlater⟩ := ih (l.step ev)
    have hrun : l.run (ev :: events) = (l.step ev).run events := rfl
    rw [hrun, hnew]
    rcases l.step_cases ev with h | h | ⟨now, writes, h⟩ <;> rw [h] at hlater ⊢
    · exact ⟨new, rfl, hlater⟩
    · exact ⟨new, rfl, fun v hv => Nat.lt_of_succ_lt (hlater v hv)⟩
    · rw [writesTo_append, List.append_assoc]
      refine ⟨_, rfl, fun v hv => ?_⟩
      rcases List.mem_append.1 hv with hv | hv
      · obtain ⟨doc, -, rfl⟩ := Option.map_eq_some_iff.1 (Option.mem_toList.1 hv)
        exact Nat.lt_succ_self _
      · exact Nat.lt_of_succ_lt (hlater v hv)

/-- **What every operation keeps holds of the latest state after any run.** -/
theorem Store.latest_of_run (capacity : Nat) (hkeeps : ∀ ev ∈ events, ev.Keeps P Q)
    (hP : P fun _ => none) :
    ((Store.empty capacity).run events).latest.Coherent ∧
      P ((Store.empty capacity).run events).latest.document? := by
  obtain ⟨hkeyed, hP'⟩ := Ledger.keeps_run hkeeps Ledger.keyed_empty hP
  rw [((Tracks.empty capacity).run events).latest_eq]
  exact ⟨Ledger.coherent_latest hkeyed, hP'⟩

/-- Who opens a snapshot after a transaction of writes is shown what was there before it with the
writes done to it. -/
theorem Store.shows_writes (capacity : Nat) (events : List (StoreEvent ν))
    (functions : List (TxFunction ν)) (now now' : Instant) (ws : List Write) :
    let s := (Store.empty capacity).run events
    let s' := (s.submit functions now (ws.map .write)).2.2
    ∃ src, (s'.openSnapshot now' none).2.Shows (s'.openSnapshot now' none).1 src ∧
      src.document? = writeAll s.latest.document? ws := by
  have htracks := (Tracks.empty capacity).run events
  refine ⟨_, (htracks.submit functions now (ws.map .write)).2.2.shows_opened now' none, ?_⟩
  show (Ledger.submit functions now _ _).2.2.latest.document? = _
  rw [Ledger.submit, runOps_writes]
  show (Ledger.append _ now _).latest.document? = _
  rw [Ledger.latest_append, Staged.laidOver_applyAll, Staged.laidOver_empty, htracks.latest_eq]

/-- Whatever happened, a snapshot shows documents under their keys, and a scan meets just these. -/
theorem Store.Shows.coherent {capacity : Nat} {snap : Snapshot} {src : Source}
    (h : ((Store.empty capacity).run events).Shows snap src) : src.Coherent := by
  obtain ⟨pin, rfl⟩ := ((Tracks.empty capacity).run events).source_of_shows h
  exact Ledger.coherent_source (Ledger.keyed_empty.run events) pin

/-- What holds of each call's note holds of all notes of a transaction after any run. -/
theorem Store.notes_of_run (capacity : Nat) (hkeeps : ∀ ev ∈ events, ev.Keeps P Q)
    (hP : P fun _ => none) (hsubmit : (StoreEvent.submit functions now ops).Keeps P Q) :
    ∀ n ∈ (((Store.empty capacity).run events).submit functions now ops).2.1, Q n := by
  obtain ⟨hkeyed, hP'⟩ := Ledger.keeps_run hkeeps Ledger.keyed_empty hP
  rw [(((Tracks.empty capacity).run events).submit functions now ops).2.1]
  exact (Ledger.keeps_submit hsubmit hkeyed hP').2.2

end Runs

end MetadataArchive
