import MetadataArchive.Proofs.Store.Ledger

/-!
# A store answers as its ledger does

A store drops history as soon as no open snapshot can see it, leaves evictions of absent documents
out, and keeps two numbers for each snapshot. `Tracks` says in what sense it nevertheless holds the
whole ledger: for every reader that is still there, or that is pinned to the present, each history
shows what the ledger's writes show.

Every operation keeps `Tracks`, one lemma each. A transaction runs on the latest state, which store
and ledger agree on, so both write the same.
-/

set_option autoImplicit false

namespace MetadataArchive

namespace Store

/-! ## Histories -/

/-- The versions of a document that are kept; none where there is no history. -/
def historyOf (s : Store) (id : DocId) : History := (s.histories.get? id).getD []

variable {s : Store} {id k : DocId} {pin : Pin} {tx : Nat} {doc : Option Document} {v : Version}

theorem get?_bind_visible (s : Store) (id : DocId) (pin : Pin) :
    (s.histories.get? id).bind (History.visible pin) = (s.historyOf id).visible pin := by
  unfold historyOf
  cases s.histories.get? id <;> rfl

theorem historyOf_insert {s' : Store} {h : History} (hs : s'.histories = s.histories.insert k h) :
    s'.historyOf id = if id = k then h else s.historyOf id := by
  unfold historyOf
  rw [hs, NameMap.get?_insert]
  split <;> rfl

theorem historyOf_record (s : Store) (tx : Nat) (k : DocId) (doc : Option Document) (id : DocId) :
    (s.record tx k doc).historyOf id =
      if id = k then (s.historyOf k).recorded ⟨tx, doc⟩ else s.historyOf id := by
  have hk : (s.histories.get? k).getD [] = s.historyOf k := rfl
  cases doc with
  | some d => exact historyOf_insert (by simp [record, hk, History.recorded])
  | none =>
    by_cases hl : (s.historyOf k).isLive = true
    · exact historyOf_insert (by simp [record, hk, History.recorded, hl])
    · -- What is not there is not evicted.
      have hs : s.record tx k none = s := by simp [record, hk, hl]
      rw [hs]
      split
      next h => simp [h, History.recorded, hl]
      next => rfl

/-- Recording touches the histories only. -/
theorem record_frame (s : Store) (tx : Nat) (k : DocId) (doc : Option Document) :
    ∃ hs ev, s.record tx k doc = { s with histories := hs, evicted := ev } := by
  cases doc with
  | some d => exact ⟨_, _, rfl⟩
  | none =>
    simp only [record]
    split
    · exact ⟨_, _, rfl⟩
    · exact ⟨_, _, rfl⟩

/-- Record all that a transaction wrote. -/
def recordAll (s : Store) (tx : Nat) (es : List (DocId × Option Document)) : Store :=
  es.foldl (fun (s : Store) e => s.record tx e.1 e.2) s

theorem recordAll_frame (s : Store) (tx : Nat) (es : List (DocId × Option Document)) :
    ∃ hs ev, s.recordAll tx es = { s with histories := hs, evicted := ev } := by
  induction es generalizing s with
  | nil => exact ⟨_, _, rfl⟩
  | cons e es ih =>
    obtain ⟨hs, ev, he⟩ := s.record_frame tx e.1 e.2
    obtain ⟨hs', ev', hes⟩ := ih (s.record tx e.1 e.2)
    exact ⟨hs', ev', by rw [recordAll, List.foldl_cons, ← recordAll, hes, he]⟩

theorem historyOf_recordAll (s : Store) (tx : Nat) {es : List (DocId × Option Document)}
    (hes : Entries.Ascending es) (id : DocId) :
    (s.recordAll tx es).historyOf id =
      match es.lookup id with
      | some doc => (s.historyOf id).recorded ⟨tx, doc⟩
      | none => s.historyOf id := by
  induction es generalizing s with
  | nil => rfl
  | cons e es ih =>
    obtain ⟨k, doc⟩ := e
    obtain ⟨hk, hrest⟩ := List.pairwise_cons.1 hes
    rw [recordAll, List.foldl_cons, ← recordAll, ih _ hrest, Entries.lookup_cons,
      historyOf_record]
    by_cases h : id = k
    · subst h
      -- The key is not written twice.
      have hnone : es.lookup id = none := by
        cases hl : es.lookup id with
        | none => rfl
        | some d =>
          have hm := (Entries.lookup_eq_some_iff hrest).1 hl
          exact absurd (hk id (List.mem_map.2 ⟨_, hm, rfl⟩)) (String.lt_irrefl id)
      simp [hnone]
    · simp [h]

/-- The store with a commit added, before it is pruned. -/
def logged (s : Store) (tx : Nat) (time : Instant) (writes : Staged) : Store :=
  { s.recordAll tx writes.toList with log := (s.recordAll tx writes.toList).log ++ [⟨tx, time⟩] }

theorem commit_eq (s : Store) (tx : Nat) (time : Instant) (writes : Staged) :
    s.commit tx time writes = (s.logged tx time writes).prune := rfl

theorem logged_frame (s : Store) (tx : Nat) (time : Instant) (writes : Staged) :
    (s.logged tx time writes).lastTx = s.lastTx ∧
      (s.logged tx time writes).log = s.log ++ [⟨tx, time⟩] ∧
      (s.logged tx time writes).pins = s.pins ∧
      (s.logged tx time writes).lastSnapshot = s.lastSnapshot := by
  obtain ⟨hs, ev, h⟩ := s.recordAll_frame tx writes.toList
  rw [logged, h]
  exact ⟨rfl, rfl, rfl, rfl⟩

theorem historyOf_logged (s : Store) (tx : Nat) (time : Instant) (writes : Staged) (id : DocId) :
    (s.logged tx time writes).historyOf id =
      match writes.get? id with
      | some doc => (s.historyOf id).recorded ⟨tx, doc⟩
      | none => s.historyOf id :=
  s.historyOf_recordAll tx writes.ascending id

theorem commit_pins (s : Store) (tx : Nat) (time : Instant) (writes : Staged) :
    (s.commit tx time writes).pins = s.pins :=
  (s.logged_frame tx time writes).2.2.1

/-! ## Pruning -/

theorem historyOf_prune (s : Store) (id : DocId) :
    s.prune.historyOf id = s.historyOf id ∨
      s.prune.historyOf id = (s.historyOf id).prune s.oldestHorizon := by
  simp only [historyOf, prune, NameMap.get?_filterMap]
  cases s.histories.get? id with
  | none => exact Or.inl rfl
  | some h =>
    by_cases hc : s.evicted.contains id = true
    · right
      simp only [Option.bind_some, hc, if_true, Option.getD_some]
      cases h.prune s.oldestHorizon <;> simp
    · left
      simp only [Option.bind_some, hc, Option.getD_some]
      rfl

theorem mem_historyOf_of_prune (hv : v ∈ s.prune.historyOf id) : v ∈ s.historyOf id := by
  rcases s.historyOf_prune id with h | h <;> rw [h] at hv
  · exact hv
  · exact History.mem_of_mem_prune hv

theorem visible_historyOf_prune
    (hnone : s.oldestHorizon = none → ∀ v ∈ s.historyOf id, v.tx ≤ pin.horizon)
    (hsome : ∀ n, s.oldestHorizon = some n → n ≤ pin.horizon) :
    (s.prune.historyOf id).visible pin = (s.historyOf id).visible pin := by
  rcases s.historyOf_prune id with h | h <;> rw [h]
  exact History.visible_prune hnone hsome

end Store

/-! ## A store beside its ledger -/

/-- A reader that a store has to serve: one of the present, or one with an open snapshot. -/
def Serves (s : Store) (l : Ledger) (pin : Pin) : Prop :=
  pin.basis ≤ pin.horizon ∧ (l.last ≤ pin.horizon ∨ ∃ n, (n, pin) ∈ s.pins)

/-- A store holds what it has to of a ledger. -/
structure Tracks (s : Store) (l : Ledger) : Prop where
  number : s.lastTx = l.submitted
  log : s.log = l.entries.map Ledger.Entry.commit
  versions : ∀ id, ∀ v ∈ s.historyOf id, v.tx ≤ l.last
  pins : ∀ p ∈ s.pins, p.1 ≤ s.lastSnapshot ∧ p.2.basis ≤ p.2.horizon ∧ p.2.horizon ≤ l.last
  seen : ∀ pin, Serves s l pin → ∀ id, (s.historyOf id).visible pin = (l.writesTo id).visible pin

namespace Tracks

variable {s s' : Store} {l : Ledger} {pin : Pin} {asOf : Option Instant} {now : Instant}

theorem lastCommitted_eq (h : Tracks s l) : s.lastCommitted = l.last := by
  rw [Store.lastCommitted, h.log, List.getLast?_map, Option.map_map]
  rfl

/-- The times of a log ascend, so the commits by an instant are those before the first that is
later. -/
theorem takeWhile_le {es : List Ledger.Entry} (t : Instant)
    (hes : es.Pairwise fun e f => e.tx < f.tx ∧ f.time.le e.time = false) :
    (es.takeWhile fun e => e.time.le t) = es.filter fun e => e.time.le t := by
  induction es with
  | nil => rfl
  | cons e es ih =>
    obtain ⟨he, hrest⟩ := List.pairwise_cons.1 hes
    rw [List.takeWhile_cons, List.filter_cons]
    split
    · rw [ih hrest]
    next hlater =>
      refine (List.filter_eq_nil_iff.2 fun f hf hle => ?_).symm
      exact hlater (Instant.le_trans (Instant.le_of_not_le (he f hf).2) hle)

theorem basisAsOf_eq (h : Tracks s l) (t : Instant) : s.basisAsOf t = l.lastBy t := by
  have hwhile : (l.entries.map Ledger.Entry.commit).takeWhile (fun c => c.time.le t) =
      (l.entries.filter fun e => e.time.le t).map Ledger.Entry.commit := by
    rw [List.takeWhile_map, ← takeWhile_le t l.ascending]
    rfl
  rw [Store.basisAsOf, h.log, hwhile, List.getLast?_map, Option.map_map]
  rfl

theorem nextTime_eq (h : Tracks s l) (now : Instant) : s.nextTime now = l.nextTime now := by
  rw [Store.nextTime, Ledger.nextTime, h.log, List.getLast?_map]
  cases l.entries.getLast? <;> rfl

/-- A reader that is served sees the ledger. -/
theorem view_eq (h : Tracks s l) (hpin : Serves s l pin) : s.view pin = l.source pin := by
  have hshows : (fun id => (s.histories.get? id).bind (History.visible pin)) = l.shows pin :=
    funext fun id => by
      rw [Store.get?_bind_visible, h.seen pin hpin, Ledger.shows_eq_visible]
  have hdocs : s.histories.values.filterMap (History.visible pin) =
      l.keys.filterMap (l.shows pin) := by
    rw [NameMap.filterMap_values, hshows]
    refine Entries.filterMap_eq_of_ascending (NameMap.names_ascending _)
      (NameMap.names_ascending _) fun x hx => ⟨fun _ => Ledger.mem_keys_of_shows hx, fun _ => ?_⟩
    rw [← hshows] at hx
    rw [NameMap.mem_names]
    cases hg : s.histories.get? x with
    | none => simp [hg] at hx
    | some _ => rfl
  unfold Store.view Ledger.source
  rw [hshows, hdocs]

theorem latest_eq (h : Tracks s l) : s.latest = l.latest := by
  have hserves : Serves s l ⟨l.last, l.last⟩ := ⟨Nat.le_refl _, Or.inl (Nat.le_refl _)⟩
  rw [Store.latest, Store.latestPin, h.lastCommitted_eq, h.view_eq hserves]
  rfl

/-! ### What each operation keeps -/

theorem empty (capacity : Nat) : Tracks (.empty capacity) .empty where
  number := rfl
  log := rfl
  versions id v hv := by simp [Store.historyOf, Store.empty] at hv
  pins p hp := by simp [Store.empty] at hp
  seen _ _ _ := rfl

theorem prune (h : Tracks s l) : Tracks s.prune l where
  number := h.number
  log := h.log
  versions id v hv := h.versions id v (Store.mem_historyOf_of_prune hv)
  pins := h.pins
  seen pin hpin id := by
    rw [Store.visible_historyOf_prune, h.seen pin hpin]
    · intro hnone v hv
      have hnil : s.pins = [] := by simpa [Store.oldestHorizon] using hnone
      have hlast : l.last ≤ pin.horizon :=
        hpin.2.resolve_right fun ⟨n, hn⟩ => by simp [Store.prune, hnil] at hn
      exact Nat.le_trans (h.versions id v hv) hlast
    · intro n hsome
      obtain ⟨hmem, hmin⟩ := List.min?_eq_some_iff.1 hsome
      rcases hpin.2 with hlast | ⟨m, hm⟩
      · obtain ⟨p, hp, rfl⟩ := List.mem_map.1 hmem
        exact Nat.le_trans (h.pins p hp).2.2 hlast
      · exact hmin _ (List.mem_map.2 ⟨_, hm, rfl⟩)

theorem openSnapshot_eq (h : Tracks s l) (now : Instant) (asOf : Option Instant) :
    s.openSnapshot now asOf =
      (⟨s.lastSnapshot + 1, (l.pinAt asOf).basis, asOf.getD now⟩,
        { s with
          pins := s.pins ++ [(s.lastSnapshot + 1, l.pinAt asOf)]
          lastSnapshot := s.lastSnapshot + 1 }) := by
  simp only [Store.openSnapshot, Ledger.pinAt, h.lastCommitted_eq]
  cases asOf with
  | none => rfl
  | some t => simp [h.basisAsOf_eq, Nat.min_eq_left (l.lastBy_le_last t)]

theorem openSnapshot (h : Tracks s l) (now : Instant) (asOf : Option Instant) :
    Tracks (s.openSnapshot now asOf).2 l := by
  rw [h.openSnapshot_eq]
  refine ⟨h.number, h.log, h.versions, fun p hp => ?_, fun pin hpin => h.seen pin ?_⟩
  · rcases List.mem_append.1 hp with hp | hp
    · obtain ⟨hid, hpin⟩ := h.pins p hp
      exact ⟨Nat.le_succ_of_le hid, hpin⟩
    · rw [List.mem_singleton.1 hp]
      exact ⟨Nat.le_refl _, l.pinAt_basis_le asOf, Nat.le_refl _⟩
  · obtain ⟨hb, hlast | ⟨n, hn⟩⟩ := hpin
    · exact ⟨hb, Or.inl hlast⟩
    · rcases List.mem_append.1 hn with hn | hn
      · exact ⟨hb, Or.inr ⟨n, hn⟩⟩
      · -- The new reader has come at the last commit.
        obtain ⟨-, rfl⟩ := Prod.mk.inj (List.mem_singleton.1 hn)
        exact ⟨hb, Or.inl (Nat.le_refl _)⟩

theorem release {snap : Snapshot} (h : Tracks s l) (hs : s.release snap = .ok s') :
    Tracks s' l := by
  unfold Store.release at hs
  cases hp : s.pinOf snap with
  | error e => simp [hp, bind, Except.bind] at hs
  | ok pin =>
    rw [hp] at hs
    cases hs
    refine prune ⟨h.number, h.log, h.versions, fun p hp => h.pins p (List.mem_filter.1 hp).1, ?_⟩
    rintro pin ⟨hb, hlast | ⟨n, hn⟩⟩
    · exact h.seen pin ⟨hb, Or.inl hlast⟩
    · exact h.seen pin ⟨hb, Or.inr ⟨n, (List.mem_filter.1 hn).1⟩⟩

theorem claim {tx : TxId} {o : Outcome} (h : Tracks s l) (hs : s.claim tx = .ok (o, s')) :
    Tracks s' l := by
  unfold Store.claim at hs
  split at hs
  · cases hs
    exact ⟨h.number, h.log, h.versions, h.pins, h.seen⟩
  · cases hs

theorem keepOutcome (h : Tracks s l) (o : Outcome) : Tracks (s.keepOutcome o) l :=
  ⟨h.number, h.log, h.versions, h.pins, h.seen⟩

theorem skip (h : Tracks s l) : Tracks { s with lastTx := s.lastTx + 1 } l.skip :=
  ⟨by rw [h.number]; rfl, h.log, h.versions, h.pins, h.seen⟩

theorem append {r : Store} (h : Tracks s l) (hr : r = { s with lastTx := s.lastTx + 1 })
    (now : Instant) (writes : Staged) :
    Tracks (r.commit (s.lastTx + 1) (s.nextTime now) writes) (l.append now writes) := by
  have hhist (id : DocId) : r.historyOf id = s.historyOf id := by rw [hr]; rfl
  obtain ⟨htx, hlog, hpins, hsnap⟩ := r.logged_frame (s.lastTx + 1) (s.nextTime now) writes
  have hlast : l.last ≤ l.submitted + 1 := Nat.le_succ_of_le l.last_le_submitted
  have hnew (id : DocId) : ∀ w ∈ s.historyOf id, w.tx ≤ l.submitted := fun w hw =>
    Nat.le_trans (h.versions id w hw) l.last_le_submitted
  rw [Store.commit_eq]
  refine prune ⟨?_, ?_, fun id v hv => ?_, fun p hp => ?_, fun pin hpin id => ?_⟩
  · rw [htx, hr]
    exact congrArg (· + 1) h.number
  · rw [hlog, hr, Ledger.append, List.map_append, ← h.log, h.nextTime_eq, h.number]
    rfl
  · rw [Ledger.last_append]
    rw [Store.historyOf_logged, hhist] at hv
    cases hw : writes.get? id with
    | none =>
      rw [hw] at hv
      exact Nat.le_succ_of_le (hnew id v hv)
    | some doc =>
      rw [hw] at hv
      rcases History.mem_of_mem_recorded hv with hv | rfl
      · exact Nat.le_succ_of_le (hnew id v hv)
      · rw [h.number]
  · rw [hpins, hr] at hp
    obtain ⟨hid, hb, hh⟩ := h.pins p hp
    rw [hsnap, hr, Ledger.last_append]
    exact ⟨hid, hb, Nat.le_trans hh hlast⟩
  · obtain ⟨hb, hserved⟩ := hpin
    rw [Ledger.last_append, hpins, hr] at hserved
    -- A reader that is served afterwards was served before.
    have hold := h.seen pin ⟨hb, hserved.imp_left (Nat.le_trans hlast)⟩ id
    rw [Store.historyOf_logged, hhist, Ledger.writesTo_append]
    cases writes.get? id with
    | none => simpa using hold
    | some doc =>
      rw [h.number]
      simp only [Option.map_some, Option.toList_some]
      rw [History.visible_recorded (hnew id) (Nat.lt_succ_self _) hb, History.visible_concat,
        History.visible_concat, hold]

/-- A transaction runs alike on both, and leaves them alike. -/
theorem submit {ν : Type} (h : Tracks s l) (functions : List (TxFunction ν)) (now : Instant)
    (ops : List TxOp) :
    (s.submit functions now ops).1 = (l.submit functions now ops).1 ∧
      (s.submit functions now ops).2.1 = (l.submit functions now ops).2.1 ∧
      Tracks (s.submit functions now ops).2.2 (l.submit functions now ops).2.2 := by
  simp only [Store.submit, Ledger.submit, h.nextTime_eq, h.latest_eq, h.number]
  cases runOps functions ⟨l.submitted + 1⟩ (l.nextTime now) l.latest ∅ ops with
  | mk result notes =>
    cases result with
    | ok writes =>
      have happend := h.append rfl now writes
      rw [h.nextTime_eq, h.number] at happend
      exact ⟨rfl, rfl, happend.keepOutcome _⟩
    | error fault =>
      have hskip := h.skip
      rw [h.number] at hskip
      exact ⟨rfl, rfl, hskip.keepOutcome _⟩

end Tracks

end MetadataArchive
