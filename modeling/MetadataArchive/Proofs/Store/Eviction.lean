import MetadataArchive.Proofs.Store.Outcome
import MetadataArchive.Proofs.Store.Past
import MetadataArchive.Proofs.Store.Snapshot

/-!
# What an eviction takes away

An eviction cuts a history for all who come later, but only the last write of a transaction under a
key is ever entered. Where a document is evicted and put again in one transaction, nothing is cut:
those who come later to read the past see it as though nothing had been evicted, until some
transaction ends with the document evicted (`evicted_history_returns_iff`).
-/

set_option autoImplicit false

namespace MetadataArchive

variable {ν : Type}

/-! ## The writes of a transaction -/

section Writes

variable (functions : List (TxFunction ν)) (tx : TxId) (time : Instant) (base : Source)

/-- What operations write, in order, as far as they come. -/
def opWrites : Staged → List TxOp → List Write
  | _, [] => []
  | staged, .write w :: rest => w :: opWrites (staged.apply w) rest
  | staged, .call name args :: rest =>
      match functions.find? fun f => f.name == name with
      | none => []
      | some f =>
          match f.run ⟨tx, time, staged.laidOver base⟩ args with
          | .writes ws _ => ws ++ opWrites (ws.foldl Staged.apply staged) rest
          | .fault _ => []
          | .panic _ => []

/-- What a transaction writes, in order. -/
def Store.writesOf (s : Store) (functions : List (TxFunction ν)) (now : Instant)
    (ops : List TxOp) : List Write :=
  opWrites functions ⟨s.lastTx + 1⟩ (s.nextTime now) s.latest ∅ ops

variable {functions tx time base}
variable {staged result : Staged} {ops : List TxOp} {docs : DocId → Option Document}
variable {ws front back : List Write} {id : DocId}

/-- All that operations write is staged where they come to an end. -/
theorem runOps_eq_of_ok (h : (runOps functions tx time base staged ops).1 = .ok result) :
    result = (opWrites functions tx time base staged ops).foldl Staged.apply staged := by
  induction ops generalizing staged with
  | nil => exact (Except.ok.inj h).symm
  | cons op ops ih =>
    cases op with
    | write w => exact ih h
    | call name args =>
      simp only [runOps, opWrites] at h ⊢
      cases hfind : functions.find? fun f => f.name == name with
      | none => simp [hfind] at h
      | some f =>
        simp only [hfind] at h ⊢
        cases hrun : f.run ⟨tx, time, staged.laidOver base⟩ args with
        | panic message => simp [hrun] at h
        | fault reason => simp [hrun] at h
        | writes ws note =>
          simp only [hrun] at h ⊢
          rw [List.foldl_append]
          exact ih h

theorem Staged.get?_applyAll_ne_none (h : ∃ w ∈ ws, w.id = id) :
    (ws.foldl Staged.apply staged).get? id ≠ none := by
  obtain ⟨w, hw, hid⟩ := h
  obtain ⟨front, back, rfl⟩ := List.append_of_mem hw
  have hkept (back : List Write) (s : Staged) (hs : s.get? id ≠ none) :
      (back.foldl Staged.apply s).get? id ≠ none := by
    induction back generalizing s with
    | nil => exact hs
    | cons v back ih =>
      refine ih _ ?_
      rw [Staged.get?_apply]
      split
      · simp
      · exact hs
  rw [List.foldl_append, List.foldl_cons]
  refine hkept back _ ?_
  rw [Staged.get?_apply, if_pos hid.symm]
  simp

/-- Where nothing evicts it, a document is there in the end if it was there or is put. -/
theorem writeAll_ne_none_iff (h : .evict id ∉ ws) :
    writeAll docs ws id ≠ none ↔ docs id ≠ none ∨ ∃ d, .put d ∈ ws ∧ d.id = id := by
  induction ws using List.reverseRecOn with
  | nil => simp [writeAll]
  | append_singleton ws w ih =>
    obtain ⟨hws, hw⟩ : .evict id ∉ ws ∧ .evict id ≠ w := by simpa using h
    rw [writeAll_concat]
    by_cases hid : id = w.id
    · cases w with
      | evict k => exact absurd (congrArg Write.evict hid) hw
      | put d =>
        refine iff_of_true ?_ (Or.inr ⟨d, by simp, hid.symm⟩)
        rw [hid, Write.on_self]
        simp [Write.doc?]
    · have hnew (d : Document) (hd : d.id = id) : .put d ∈ ws ++ [w] ↔ .put d ∈ ws := by
        have hne : .put d ≠ w := fun heq => hid (heq ▸ hd.symm)
        simp [hne]
      rw [Write.on_of_ne hid, ih hws]
      exact or_congr_right (exists_congr fun d => and_congr_left fun hd => (hnew d hd).symm)

/-- After its last eviction a document is there where it is put again, and only there. -/
theorem writeAll_evicted_ne_none_iff (h : .evict id ∉ back) :
    writeAll docs (front ++ .evict id :: back) id ≠ none ↔ ∃ d, .put d ∈ back ∧ d.id = id := by
  have hevicted : (Write.evict id).on (writeAll docs front) id = none := Write.on_self
  rw [writeAll_append, writeAll, List.foldl_cons, ← writeAll, writeAll_ne_none_iff h, hevicted]
  simp

end Writes

/-! ## The version that is seen -/

namespace Ledger

variable {l : Ledger} {pin : Pin} {id : DocId} {d : Document} {v : Version}

/-- The version that a pinned reader sees under a key: the last by the basis, of those after the
last eviction by the horizon. -/
def versionShown (l : Ledger) (pin : Pin) (id : DocId) : Option Version :=
  ((l.writesTo id).filter fun v =>
    (l.writesTo id).evictedAt pin.horizon < v.tx && v.tx ≤ pin.basis).getLast?

theorem shows_eq_versionShown (l : Ledger) (pin : Pin) (id : DocId) :
    l.shows pin id = (l.versionShown pin id).bind Version.doc := rfl

/-- Who reads as of a transaction that wrote a document, or of a later time, does not see a version
of it from before. -/
theorem versionShown_lt_iff {n : Nat} (hwritten : ∃ w ∈ l.writesTo id, w.tx = n)
    (hv : l.versionShown pin id = some v) : v.tx < n ↔ pin.basis < n := by
  have hmem := List.mem_filter.1 (List.mem_of_getLast? hv)
  simp only [Bool.and_eq_true, decide_eq_true_eq] at hmem
  obtain ⟨-, hcut, hbasis⟩ := hmem
  refine ⟨fun hlt => ?_, fun hlt => Nat.lt_of_le_of_lt hbasis hlt⟩
  obtain ⟨w, hw, rfl⟩ := hwritten
  rw [← Nat.not_le]
  intro hle
  have hshown : w.tx ≤ v.tx := by
    refine ((l.numbered_writesTo id).filter _).le_getLast hv (List.mem_filter.2 ⟨hw, ?_⟩)
    simp only [Bool.and_eq_true, decide_eq_true_eq]
    exact ⟨Nat.lt_trans hcut hlt, hle⟩
  exact absurd hlt (Nat.not_lt.2 hshown)

/-- **What is seen of the time before a commit.** After a commit that wrote a document, a reader
sees a version of it from before the commit, if the reader's instant is before the commit, one who
came before it would have seen the same, and the document has been there ever since. -/
theorem versionShown_before_iff {ev : StoreEvent ν} {now : Instant} {writes : Staged}
    (hev : l.step ev = l.append now writes) (hwritten : writes.get? id ≠ none)
    (later : List (StoreEvent ν)) (asOf : Option Instant) :
    let past := l.run (ev :: later)
    (∃ n, n ≤ l.submitted ∧ past.versionShown (past.pinAt asOf) id = some ⟨n, some d⟩) ↔
      (past.pinAt asOf).basis ≤ l.submitted ∧ l.shows (l.pinAt asOf) id = some d ∧
        ∀ part, part <+: later → ((l.step ev).run part).latest.document? id ≠ none := by
  intro past
  have hlast : (l.step ev).last ≤ past.last := (l.step ev).last_run_le later
  have hentered : ∃ w ∈ past.writesTo id, w.tx = l.submitted + 1 := by
    obtain ⟨new, hnew, -⟩ := (l.step ev).writesTo_run later id
    obtain ⟨doc, hdoc⟩ := Option.ne_none_iff_exists'.1 hwritten
    have hpast : past.writesTo id = (l.step ev).writesTo id ++ new := hnew
    refine ⟨⟨l.submitted + 1, doc⟩, ?_, rfl⟩
    rw [hpast, hev, writesTo_append, hdoc]
    simp
  have hshown : (∃ n, n ≤ l.submitted ∧
        past.versionShown (past.pinAt asOf) id = some ⟨n, some d⟩) ↔
      (past.pinAt asOf).basis ≤ l.submitted ∧ past.shows (past.pinAt asOf) id = some d := by
    rw [shows_eq_versionShown]
    constructor
    · rintro ⟨n, hn, hv⟩
      have hbasis := (versionShown_lt_iff hentered hv).1 (Nat.lt_succ_of_le hn)
      exact ⟨Nat.le_of_lt_succ hbasis, by rw [hv]; rfl⟩
    · rintro ⟨hbasis, hdoc⟩
      obtain ⟨⟨n, doc⟩, hv, rfl⟩ := Option.bind_eq_some_iff.1 hdoc
      have hn := (versionShown_lt_iff hentered hv).2 (Nat.lt_succ_of_le hbasis)
      exact ⟨n, Nat.le_of_lt_succ hn, hv⟩
  rw [hshown]
  refine and_congr_right fun hbasis => ?_
  have hsubmitted : l.submitted ≤ (l.step ev).submitted := l.submitted_le_step ev
  refine (shows_run_iff later (Nat.le_trans hbasis hsubmitted) (Nat.le_refl _)).trans ?_
  refine and_congr_left fun hall => ?_
  rw [shows_step_iff hbasis hlast (hall [] List.nil_prefix),
    shows_of_last_le (l.last_run_le (ev :: later))]
  -- What the reader's instant finds, it found before the commit.
  have hpin : (⟨(past.pinAt asOf).basis, l.last⟩ : Pin) = l.pinAt asOf := by
    cases asOf with
    | none =>
      have hcommit : (l.step ev).last = l.submitted + 1 := by rw [hev, last_append]
      have hpresent : (past.pinAt none).basis = past.last := rfl
      omega
    | some t => exact congrArg (Pin.mk · l.last) (lastBy_run (ev :: later) hbasis)
  rw [hpin]

end Ledger

/-! ## Evictions -/

/-- A transaction that is committed enters what it writes. -/
theorem Tracks.step_of_committed {s : Store} {l : Ledger} (h : Tracks s l)
    {functions : List (TxFunction ν)} {now : Instant} {ops : List TxOp}
    (hcommitted : (s.outcome functions now ops).committed = true) :
    l.step (.submit functions now ops) =
      l.append now ((s.writesOf functions now ops).foldl Staged.apply ∅) := by
  simp only [Store.outcome, Outcome.committed] at hcommitted
  cases hrun : (runOps functions ⟨s.lastTx + 1⟩ (s.nextTime now) s.latest ∅ ops).1 with
  | error fault => simp [hrun, TxResult.ofRun] at hcommitted
  | ok staged =>
    have hstaged : staged = (s.writesOf functions now ops).foldl Staged.apply ∅ :=
      runOps_eq_of_ok hrun
    rw [h.number, h.nextTime_eq, h.latest_eq] at hrun
    simp only [Ledger.step, Ledger.submit, hrun, hstaged]

/-- **The past of an evicted document comes back where the transaction puts it again.** After any
run of a store, let a transaction be committed that evicts a document, by itself or through a
function, and take what it writes behind its last eviction of that document. Then a snapshot that
is opened later, for as long as it is open, sees a version of the document from before the
transaction if and only if

* behind its eviction the transaction puts the document again,
* the document has been there ever since, between any two of the transactions that followed,
* the instant of the snapshot is before the transaction, and
* a snapshot of this instant that was opened just before the transaction saw this very version.

So where the eviction is the last that is written of the document, nobody who comes later sees what
was before it. -/
theorem evicted_history_returns_iff (capacity : Nat) (before : List (StoreEvent ν))
    (functions : List (TxFunction ν)) (now : Instant) (ops : List TxOp) (id : DocId)
    (front back : List Write)
    (hcommitted :
      (((Store.empty capacity).run before).outcome functions now ops).committed = true)
    (hevicts : ((Store.empty capacity).run before).writesOf functions now ops =
      front ++ .evict id :: back)
    (hlast : .evict id ∉ back) :
    let s := (Store.empty capacity).run before
    let submission := StoreEvent.submit functions now ops
    let evicted := s.step submission
    ∀ (later held : List (StoreEvent ν)) (now' : Instant) (asOf : Option Instant) snap opened,
      (evicted.run later).openSnapshot now' asOf = (snap, opened) →
      (∀ ev ∈ held, ¬ ev.Releases snap.id) →
      let past := Ledger.empty.run (before ++ submission :: later)
      let seen := past.versionShown (past.pinAt asOf) id
      (opened.run held).get snap id = .ok (seen.bind Version.doc) ∧
      ∀ d, (∃ n, n < evicted.lastTx ∧ seen = some ⟨n, some d⟩) ↔
        (∃ d', .put d' ∈ back ∧ d'.id = id) ∧
        (∀ part, part <+: later → (evicted.run part).latest.document? id ≠ none) ∧
        snap.basis < evicted.lastTx ∧
        (s.openSnapshot now' asOf).2.get (s.openSnapshot now' asOf).1 id = .ok (some d) := by
  intro s submission evicted later held now' asOf snap opened hopened hheld past seen
  let l : Ledger := Ledger.empty.run before
  have htracks : Tracks s l := (Tracks.empty capacity).run before
  have hevicted : Tracks evicted (l.step submission) := htracks.step submission
  have hpast : past = l.run (submission :: later) := by
    simp only [past, l, Ledger.run, List.foldl_append]
  have hlater : Tracks (evicted.run later) past := hpast ▸ hevicted.run later
  have hstep : l.step submission =
      l.append now ((front ++ .evict id :: back).foldl Staged.apply ∅) :=
    (htracks.step_of_committed hcommitted).trans (by rw [← hevicts])
  have hnumber : evicted.lastTx = l.submitted + 1 := by rw [hevicted.number, hstep]; rfl
  have hopen := hlater.shows_opened now' asOf
  have hopened' := hlater.openSnapshot now' asOf
  have hbasis : snap.basis = (past.pinAt asOf).basis := by
    rw [hlater.openSnapshot_eq] at hopened
    rw [← (Prod.mk.inj hopened).1]
  rw [hopened] at hopen hopened'
  refine ⟨(hopened'.shows_run hopen hheld).get id, fun d => ?_⟩
  have hwritten : ((front ++ .evict id :: back).foldl Staged.apply ∅).get? id ≠ none :=
    Staged.get?_applyAll_ne_none ⟨.evict id, by simp, rfl⟩
  have hagain : (l.step submission).latest.document? id ≠ none ↔
      ∃ d', .put d' ∈ back ∧ d'.id = id := by
    rw [hstep, Ledger.latest_append, Staged.laidOver_applyAll, Staged.laidOver_empty]
    exact writeAll_evicted_ne_none_iff hlast
  have hthere (part : List (StoreEvent ν)) :
      (evicted.run part).latest = ((l.step submission).run part).latest :=
    (hevicted.run part).latest_eq
  have hold : (s.openSnapshot now' asOf).2.get (s.openSnapshot now' asOf).1 id =
      .ok (l.shows (l.pinAt asOf) id) :=
    (htracks.shows_opened now' asOf).get id
  simp only [seen, hnumber, hbasis, hold, hthere, Nat.lt_succ_iff, Except.ok.injEq, hpast]
  refine (Ledger.versionShown_before_iff hstep hwritten later asOf).trans ?_
  constructor
  · rintro ⟨hpin, hshows, hall⟩
    exact ⟨hagain.1 (hall [] List.nil_prefix), hall, hpin, hshows⟩
  · rintro ⟨-, hall, hpin, hshows⟩
    exact ⟨hpin, hshows, hall⟩

/-- A document is evicted and put again, and whoever reads its past still finds it. -/
theorem evicted_history_returns_to_reader :
    let d (n : Bool) : Document := (Document.ofId "e:1").set "n" (.bool n)
    let functions : List (TxFunction Unit) := []
    let s := (Store.empty 1).run [.submit functions ⟨0, 0⟩ [.write (.put (d false))]]
    let ops : List TxOp := [.write (.evict "e:1"), .write (.put (d true))]
    let evicted := s.step (.submit functions ⟨0, 0⟩ ops)
    let (snap, opened) := evicted.openSnapshot ⟨0, 0⟩ (some ⟨0, 0⟩)
    (s.outcome functions ⟨0, 0⟩ ops).committed = true ∧
      opened.get snap "e:1" = .ok (some (d false)) := by
  intro d functions s ops evicted
  have hcommitted : (s.outcome functions ⟨0, 0⟩ ops).committed = true := by decide +kernel
  have hlaw := evicted_history_returns_iff 1
    [.submit functions ⟨0, 0⟩ [.write (.put (d false))]] functions ⟨0, 0⟩ ops "e:1" []
    [.put (d true)] hcommitted rfl (by simp) [] [] ⟨0, 0⟩ (some ⟨0, 0⟩) _ _ rfl (by simp)
  obtain ⟨n, -, hseen⟩ := (hlaw.2 (d false)).2 ⟨⟨d true, by simp, rfl⟩, by
    rintro part hpart
    rw [List.prefix_nil.1 hpart]
    exact Option.isSome_iff_ne_none.1 (by decide +kernel), by decide +kernel, rfl⟩
  refine ⟨hcommitted, hlaw.1.trans ?_⟩
  rw [hseen]
  rfl

end MetadataArchive
