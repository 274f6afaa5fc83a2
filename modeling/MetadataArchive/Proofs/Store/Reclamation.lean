import Mathlib.Data.List.DropRight
import MetadataArchive.Proofs.Store.Latest

/-!
# Evicted history is reclaimed

A history holds what was written of a document after the last eviction that every open snapshot has
passed, and nothing from before. That is an equation between a store and its ledger
(`Reclaims.held`), and all that is said about what a store still holds follows from it: an eviction
is kept only for the sake of a snapshot that was opened before it, and without open snapshots no
eviction is kept at all (`evicted_history_is_reclaimed`).

A store prunes only the histories that it has marked as evicted, so the equation depends on its
marks. While a transaction is entered every history with an eviction is marked (`Marked`), perhaps
others as well; pruning leaves just the right ones marked.
-/

set_option autoImplicit false

namespace MetadataArchive

variable {ν : Type}

/-! ## Histories -/

namespace Version

/-- An eviction that has been passed by every reader, where `oldest` is the least horizon of the
readers there are. -/
def isPassed : Option Nat → Version → Bool
  | none => isEviction
  | some n => isEvictionBy n

variable {v : Version} {oldest : Option Nat}

theorem isEviction_of_isPassed (h : v.isPassed oldest = true) : v.isEviction = true := by
  cases oldest with
  | none => exact h
  | some n => exact (Bool.and_eq_true_iff.1 h).1

end Version

namespace History

variable {h ws : History} {v : Version} {test : Version → Bool} {oldest : Option Nat}

theorem prune_eq (oldest : Option Nat) (h : History) :
    h.prune oldest = afterLast (Version.isPassed oldest) h := by
  cases oldest <;> rfl

theorem not_of_mem_afterLast (hv : v ∈ afterLast test h) : test v = false := by
  simpa using List.mem_rtakeWhile_imp hv

theorem afterLast_of_forall_not (hnot : ∀ v ∈ h, test v = false) : afterLast test h = h :=
  List.rtakeWhile_eq_self_iff.2 fun v hv => by simp [hnot v hv]

/-- What is cut away at evictions leaves a document as it is in the end. -/
theorem isLive_afterLast (htest : ∀ v, test v = true → v.isEviction = true) (h : History) :
    (afterLast test h).isLive = h.isLive := by
  induction h using List.reverseRecOn with
  | nil => rfl
  | append_singleton h v _ =>
    rw [afterLast_concat]
    split
    next hv => simp [isLive, htest v hv]
    next => simp [isLive]

/-- To cut before a version is added is to cut afterwards. -/
theorem afterLast_recorded (htest : ∀ v, test v = true → v.isEviction = true) (h : History)
    (v : Version) :
    afterLast test ((afterLast test h).recorded v) = afterLast test (h.recorded v) := by
  have hsame : afterLast test (afterLast test h) = afterLast test h :=
    afterLast_afterLast fun _ _ => id
  unfold recorded
  rw [isLive_afterLast htest]
  split
  · rw [afterLast_concat, afterLast_concat, hsame]
  · exact hsame

/-- What is entered of all that was written: evictions of what is not there are left out. -/
def entered (ws : History) : History := ws.foldl recorded []

theorem entered_concat (ws : History) (v : Version) :
    entered (ws ++ [v]) = (entered ws).recorded v := by
  rw [entered, List.foldl_append]
  rfl

theorem entered_sublist (ws : History) : (entered ws).Sublist ws := by
  induction ws using List.reverseRecOn with
  | nil => exact List.Sublist.slnil
  | append_singleton ws v ih =>
    rw [entered_concat, recorded]
    split
    · exact ih.append_right [v]
    · exact ih.trans (List.sublist_append_left ws [v])

theorem afterLast_eviction_of_not_isLive (hdead : h.isLive = false) :
    afterLast Version.isEviction h = [] := by
  induction h using List.reverseRecOn with
  | nil => rfl
  | append_singleton h v _ => rw [afterLast_concat, if_pos (by simpa [isLive] using hdead)]

/-- After its last eviction it does not matter what was not entered of a document. -/
theorem afterLast_entered (ws : History) :
    afterLast Version.isEviction (entered ws) = afterLast Version.isEviction ws := by
  induction ws using List.reverseRecOn with
  | nil => rfl
  | append_singleton ws v ih =>
    rw [entered_concat, recorded, afterLast_concat, ← ih]
    split
    · exact afterLast_concat _ _ _
    next hleft =>
      simp only [Bool.or_eq_true, not_or, Bool.not_eq_true] at hleft
      have hv : v.isEviction = true := by simpa [Version.isEviction] using hleft.1
      rw [if_pos hv]
      exact afterLast_eviction_of_not_isLive hleft.2

/-- Readers that go and readers that come have passed all that was passed before. -/
theorem prune_prune {oldest' : Option Nat}
    (himp : ∀ v ∈ h, v.isPassed oldest = true → v.isPassed oldest' = true) :
    (h.prune oldest).prune oldest' = h.prune oldest' := by
  rw [prune_eq, prune_eq, prune_eq]
  exact afterLast_afterLast himp

end History

/-! ## Marks -/

namespace Store

variable {s s' : Store} {id k : DocId} {tx : Nat} {doc : Option Document} {v : Version}

/-- Every history with an eviction is marked, none is marked twice, and none is empty. -/
structure Marked (s : Store) : Prop where
  marks : ∀ id, ∀ v ∈ s.historyOf id, v.isEviction = true → id ∈ s.evicted
  nodup : s.evicted.Nodup
  nonempty : ∀ id, s.histories.get? id ≠ some []

theorem Marked.congr (h : s.Marked) (hhistories : s'.histories = s.histories)
    (hevicted : s'.evicted = s.evicted) : s'.Marked where
  marks id v hv hev := by
    rw [historyOf, hhistories] at hv
    exact hevicted ▸ h.marks id v hv hev
  nodup := hevicted ▸ h.nodup
  nonempty := hhistories ▸ h.nonempty

/-- A history is marked where an eviction is entered in it. -/
theorem evicted_record (hnodup : s.evicted.Nodup) (tx : Nat) (k : DocId) (doc : Option Document) :
    (s.record tx k doc).evicted.Nodup ∧ ∀ id, id ∈ (s.record tx k doc).evicted ↔
      id ∈ s.evicted ∨ id = k ∧ doc = none ∧ (s.historyOf k).isLive = true := by
  cases doc with
  | some d => exact ⟨hnodup, fun id => by simp [Store.record]⟩
  | none =>
    by_cases hlive : ((s.histories.get? k).getD []).isLive = true
    · have hrecord : (s.record tx k none).evicted =
          if s.evicted.contains k then s.evicted else s.evicted ++ [k] := by
        rw [Store.record, if_pos hlive]
      simp only [hrecord, historyOf, hlive, and_true]
      by_cases hk : k ∈ s.evicted
      · rw [if_pos (List.contains_iff_mem.2 hk)]
        exact ⟨hnodup, fun id => (or_iff_left_of_imp fun h => h ▸ hk).symm⟩
      · rw [if_neg fun h => hk (List.contains_iff_mem.1 h)]
        refine ⟨List.nodup_append.2 ⟨hnodup, by simp, ?_⟩, fun id => by simp⟩
        rintro id hid _ hmem rfl
        exact hk (List.mem_singleton.1 hmem ▸ hid)
    · have hrecord : s.record tx k none = s := by rw [Store.record, if_neg hlive]
      simp only [hrecord, historyOf, hlive]
      exact ⟨hnodup, fun id => by simp⟩

theorem histories_record (s : Store) (tx : Nat) (k : DocId) (doc : Option Document) :
    (s.record tx k doc).histories = s.histories ∨
      ∃ h v, (s.record tx k doc).histories = s.histories.insert k (h ++ [v]) := by
  cases doc with
  | some d => exact Or.inr ⟨_, _, rfl⟩
  | none =>
    rw [Store.record]
    split
    · exact Or.inr ⟨_, _, rfl⟩
    · exact Or.inl rfl

theorem Marked.record (h : s.Marked) (tx : Nat) (k : DocId) (doc : Option Document) :
    (s.record tx k doc).Marked := by
  obtain ⟨hnodup, hmarked⟩ := evicted_record h.nodup tx k doc
  refine ⟨fun id v hv hev => (hmarked id).2 ?_, hnodup, fun id => ?_⟩
  · rw [historyOf_record] at hv
    split at hv
    next heq =>
      subst heq
      unfold History.recorded at hv
      split at hv
      next hentered =>
        rcases List.mem_append.1 hv with hv | hv
        · exact Or.inl (h.marks id v hv hev)
        · obtain rfl := List.mem_singleton.1 hv
          have hdoc : doc = none := by simpa [Version.isEviction] using hev
          exact Or.inr ⟨rfl, hdoc, by simpa [hdoc] using hentered⟩
      next => exact Or.inl (h.marks id v hv hev)
    next => exact Or.inl (h.marks id v hv hev)
  · rcases s.histories_record tx k doc with heq | ⟨old, v, heq⟩
    · rw [heq]
      exact h.nonempty id
    · rw [heq, NameMap.get?_insert]
      split
      · simp
      · exact h.nonempty id

theorem Marked.recordAll (h : s.Marked) (tx : Nat) (es : List (DocId × Option Document)) :
    (s.recordAll tx es).Marked := by
  induction es generalizing s with
  | nil => exact h
  | cons e es ih => exact ih (h.record tx e.1 e.2)

theorem Marked.logged (h : s.Marked) (tx : Nat) (time : Instant) (writes : Staged) :
    (s.logged tx time writes).Marked :=
  (h.recordAll tx writes.toList).congr rfl rfl

/-! ## Pruning -/

theorem isPassed_iff : v.isPassed s.oldestHorizon = true ↔
    v.isEviction = true ∧ ∀ p ∈ s.pins, v.tx ≤ p.2.horizon := by
  cases holdest : s.oldestHorizon with
  | none =>
    have hnil : s.pins = [] := by simpa [oldestHorizon] using holdest
    simp [Version.isPassed, hnil]
  | some n =>
    obtain ⟨hmem, hleast⟩ := List.min?_eq_some_iff.1 holdest
    simp only [List.mem_map, forall_exists_index, and_imp, forall_apply_eq_imp_iff₂] at hmem hleast
    simp only [Version.isPassed, Version.isEvictionBy, Bool.and_eq_true, decide_eq_true_eq]
    refine and_congr_right fun _ => ⟨fun hle p hp => hle.trans (hleast p hp), fun hall => ?_⟩
    obtain ⟨p, hp, rfl⟩ := hmem
    exact hall p hp

theorem get?_prune (s : Store) (id : DocId) :
    s.prune.histories.get? id = (s.histories.get? id).bind fun h =>
      if s.evicted.contains id then
        if (h.prune s.oldestHorizon).isEmpty then none else some (h.prune s.oldestHorizon)
      else some h :=
  NameMap.get?_filterMap _ _ _

/-- **All histories are pruned** where all that hold an eviction are marked. -/
theorem Marked.historyOf_prune (h : s.Marked) (id : DocId) :
    s.prune.historyOf id = (s.historyOf id).prune s.oldestHorizon := by
  by_cases hid : s.evicted.contains id = true
  · simp only [historyOf, get?_prune, hid, if_true]
    cases s.histories.get? id with
    | none => rfl
    | some old => cases hold : old.prune s.oldestHorizon <;> simp [hold]
  · have hsame : s.prune.historyOf id = s.historyOf id := by
      simp only [historyOf, get?_prune, hid]
      cases s.histories.get? id <;> rfl
    rw [hsame, History.prune_eq, History.afterLast_of_forall_not]
    intro v hv
    by_contra hpassed
    have hev := Version.isEviction_of_isPassed (Bool.not_eq_false _ ▸ hpassed)
    exact hid (List.contains_iff_mem.2 (h.marks id v hv hev))

theorem mem_evicted_prune (s : Store) (id : DocId) :
    id ∈ s.prune.evicted ↔ id ∈ s.evicted ∧ ∃ v ∈ s.prune.historyOf id, v.isEviction = true := by
  show id ∈ s.evicted.filter (fun id => (s.prune.histories.get? id).any fun h =>
    h.any Version.isEviction) ↔ _
  rw [List.mem_filter, historyOf]
  cases s.prune.histories.get? id <;> simp

theorem Marked.prune (h : s.Marked) : s.prune.Marked where
  marks id v hv hev := (s.mem_evicted_prune id).2
    ⟨h.marks id v (mem_historyOf_of_prune hv) hev, v, hv, hev⟩
  nodup := h.nodup.filter _
  nonempty id := by
    rw [get?_prune]
    cases hget : s.histories.get? id with
    | none => simp
    | some old =>
      have hold : old ≠ [] := fun hnil => h.nonempty id (hnil ▸ hget)
      simp only [Option.bind_some]
      split
      · split
        · simp
        next hkept => simpa using hkept
      · simpa using hold

end Store

/-! ## What is held of a ledger -/

/-- A store holds of its ledger what follows the last evictions that all open snapshots have passed,
and marks just the histories that hold evictions. -/
structure Reclaims (s : Store) (l : Ledger) : Prop where
  marked : s.Marked
  exact : ∀ id ∈ s.evicted, ∃ v ∈ s.historyOf id, v.isEviction = true
  held : ∀ id, s.historyOf id = (History.entered (l.writesTo id)).prune s.oldestHorizon

namespace Reclaims

variable {s s' : Store} {l l' : Ledger} {id : DocId} {v : Version} {snap : Snapshot}

theorem empty (capacity : Nat) : Reclaims (.empty capacity) .empty where
  marked := ⟨fun _ _ hv => by simp [Store.historyOf, Store.empty] at hv, List.nodup_nil,
    fun id => by simp [Store.empty]⟩
  exact _ hid := by simp [Store.empty] at hid
  held _ := rfl

/-- Numbers, the log and outcomes have no part in it. -/
theorem congr (h : Reclaims s l) (hhistories : s'.histories = s.histories)
    (hevicted : s'.evicted = s.evicted) (hpins : s'.pins = s.pins)
    (hwrites : ∀ id, l'.writesTo id = l.writesTo id) : Reclaims s' l' where
  marked := h.marked.congr hhistories hevicted
  exact id hid := by
    rw [Store.historyOf, hhistories]
    exact h.exact id (hevicted ▸ hid)
  held id := by
    rw [Store.historyOf, hhistories, Store.oldestHorizon, hpins, hwrites]
    exact h.held id

/-- Pruning brings everything in order, where no more was dropped than is to be dropped. -/
theorem prune (hmarked : s.Marked)
    (hheld : ∀ id, (s.historyOf id).prune s.oldestHorizon =
      (History.entered (l.writesTo id)).prune s.oldestHorizon) : Reclaims s.prune l where
  marked := hmarked.prune
  exact id hid := ((s.mem_evicted_prune id).1 hid).2
  held id := (hmarked.historyOf_prune id).trans (hheld id)

theorem commit {r : Store} (h : Reclaims s l) (ht : Tracks s l)
    (hr : r = { s with lastTx := s.lastTx + 1 }) (now : Instant) (writes : Staged) :
    Reclaims (r.commit (s.lastTx + 1) (s.nextTime now) writes) (l.append now writes) := by
  have hmarked : r.Marked := hr ▸ h.marked.congr rfl rfl
  have hpins := (r.logged_frame (s.lastTx + 1) (s.nextTime now) writes).2.2.1
  have holdest : (r.logged (s.lastTx + 1) (s.nextTime now) writes).oldestHorizon =
      s.oldestHorizon := by
    rw [Store.oldestHorizon, hpins, hr]
    rfl
  have hhist (id : DocId) : r.historyOf id =
      History.afterLast (Version.isPassed s.oldestHorizon) (History.entered (l.writesTo id)) := by
    rw [← History.prune_eq, ← h.held id, hr]
    rfl
  rw [Store.commit_eq]
  refine prune (hmarked.logged _ _ _) fun id => ?_
  rw [holdest, Store.historyOf_logged, hhist, Ledger.writesTo_append, History.prune_eq,
    History.prune_eq]
  cases writes.get? id with
  | none => simpa using History.afterLast_afterLast fun _ _ hv => hv
  | some doc =>
    rw [Option.map_some, Option.toList_some, History.entered_concat, ht.number]
    exact History.afterLast_recorded (fun _ => Version.isEviction_of_isPassed) _ _

theorem submit (h : Reclaims s l) (ht : Tracks s l) (functions : List (TxFunction ν))
    (now : Instant) (ops : List TxOp) :
    Reclaims (s.submit functions now ops).2.2 (l.submit functions now ops).2.2 := by
  simp only [Store.submit, Ledger.submit, ← ht.nextTime_eq, ← ht.latest_eq, ← ht.number]
  cases runOps functions ⟨s.lastTx + 1⟩ (s.nextTime now) s.latest ∅ ops with
  | mk result notes =>
    cases result with
    | ok writes => exact (h.commit ht rfl now writes).congr rfl rfl rfl fun _ => rfl
    | error fault => exact h.congr rfl rfl rfl fun _ => rfl

/-- What is held for the readers of a store is enough for those of another, if each eviction that
the former have passed was passed by the latter as well. -/
theorem held_of_passed (h : Reclaims s l) (id : DocId)
    (hpassed : ∀ v ∈ l.writesTo id, v.isPassed s.oldestHorizon = true →
      v.isPassed s'.oldestHorizon = true) :
    (s.historyOf id).prune s'.oldestHorizon =
      (History.entered (l.writesTo id)).prune s'.oldestHorizon := by
  rw [h.held]
  exact History.prune_prune fun v hv => hpassed v ((History.entered_sublist _).subset hv)

/-- A reader that comes now has passed all evictions there are. -/
theorem openSnapshot (h : Reclaims s l) (ht : Tracks s l) (now : Instant)
    (asOf : Option Instant) : Reclaims (s.openSnapshot now asOf).2 l := by
  let s' := (s.openSnapshot now asOf).2
  have hpins : s'.pins = s.pins ++ [(s.lastSnapshot + 1, l.pinAt asOf)] := by
    simp only [s', ht.openSnapshot_eq]
  refine ⟨h.marked.congr rfl rfl, h.exact, fun id => ?_⟩
  have hkept : (s.historyOf id).prune s'.oldestHorizon = s.historyOf id := by
    rw [History.prune_eq, History.afterLast_of_forall_not]
    intro v hv
    rw [h.held, History.prune_eq] at hv
    have hnot := History.not_of_mem_afterLast hv
    rw [← Bool.not_eq_true, Store.isPassed_iff] at hnot ⊢
    exact fun hpassed => hnot ⟨hpassed.1, fun p hp =>
      hpassed.2 p (hpins ▸ List.mem_append_left _ hp)⟩
  have hpruned : (s.historyOf id).prune s'.oldestHorizon =
      (History.entered (l.writesTo id)).prune s'.oldestHorizon := by
    refine h.held_of_passed id fun v hv hpassed => ?_
    rw [Store.isPassed_iff, hpins] at *
    refine ⟨hpassed.1, fun p hp => ?_⟩
    rcases List.mem_append.1 hp with hp | hp
    · exact hpassed.2 p hp
    · rw [List.mem_singleton.1 hp]
      exact l.tx_writesTo_le_last id v hv
  exact hkept.symm.trans hpruned

theorem release (h : Reclaims s l) (hs : s.release snap = .ok s') : Reclaims s' l := by
  unfold Store.release at hs
  cases hpin : s.pinOf snap with
  | error e =>
    rw [hpin] at hs
    cases hs
  | ok pin =>
    rw [hpin] at hs
    cases hs
    refine prune (h.marked.congr rfl rfl) fun id => h.held_of_passed id fun v _ hpassed => ?_
    rw [Store.isPassed_iff] at hpassed ⊢
    exact ⟨hpassed.1, fun p hp => hpassed.2 p (List.mem_filter.1 hp).1⟩

theorem claim {tx : TxId} {o : Outcome} (h : Reclaims s l) (hs : s.claim tx = .ok (o, s')) :
    Reclaims s' l := by
  unfold Store.claim at hs
  split at hs
  · cases hs
    exact h.congr rfl rfl rfl fun _ => rfl
  · cases hs

theorem step (h : Reclaims s l) (ht : Tracks s l) (ev : StoreEvent ν) :
    Reclaims (s.step ev) (l.step ev) := by
  cases ev with
  | submit functions now ops => exact h.submit ht functions now ops
  | openSnapshot now asOf => exact h.openSnapshot ht now asOf
  | release snap =>
    simp only [Store.step, Ledger.step]
    cases hs : s.release snap with
    | ok s' => exact h.release hs
    | error e => exact h
  | claim tx =>
    simp only [Store.step, Ledger.step]
    cases hs : s.claim tx with
    | ok r => exact h.claim hs
    | error e => exact h

theorem run (h : Reclaims s l) (ht : Tracks s l) (events : List (StoreEvent ν)) :
    Reclaims (s.run events) (l.run events) := by
  induction events generalizing s l with
  | nil => exact h
  | cons ev events ih => exact ih (h.step ht ev) (ht.step ev)

theorem mem_evicted_iff (h : Reclaims s l) (id : DocId) :
    id ∈ s.evicted ↔ ∃ v ∈ s.historyOf id, v.isEviction = true :=
  ⟨h.exact id, fun ⟨v, hv, hev⟩ => h.marked.marks id v hv hev⟩

theorem numbered_historyOf (h : Reclaims s l) (id : DocId) : (s.historyOf id).Numbered := by
  have hsub : (s.historyOf id).Sublist (l.writesTo id) := by
    rw [h.held, History.prune_eq]
    exact (History.afterLast_sublist _ _).trans (History.entered_sublist _)
  obtain ⟨hascending, hpositive⟩ := l.numbered_writesTo id
  exact ⟨hascending.sublist hsub, fun v hv => hpositive v (hsub.subset hv)⟩

/-- An eviction is held for the sake of some snapshot. -/
theorem exists_pin_of_isEviction (h : Reclaims s l) (hv : v ∈ s.historyOf id)
    (hev : v.isEviction = true) : ∃ p ∈ s.pins, p.2.horizon < v.tx := by
  rw [h.held, History.prune_eq] at hv
  have hnot := History.not_of_mem_afterLast hv
  rw [← Bool.not_eq_true, Store.isPassed_iff] at hnot
  by_contra hall
  exact hnot ⟨hev, fun p hp => Nat.le_of_not_lt fun hlt => hall ⟨p, hp, hlt⟩⟩

/-- Without readers a history is what was written since the last eviction. -/
theorem historyOf_of_no_pins (h : Reclaims s l) (hpins : s.pins = []) (id : DocId) :
    s.historyOf id = History.afterLast Version.isEviction (l.writesTo id) := by
  have holdest : s.oldestHorizon = none := by simp [Store.oldestHorizon, hpins]
  rw [h.held, holdest, ← History.afterLast_entered]
  rfl

theorem evicted_of_no_pins (h : Reclaims s l) (hpins : s.pins = []) : s.evicted = [] := by
  refine List.eq_nil_iff_forall_not_mem.2 fun id hid => ?_
  obtain ⟨v, hv, hev⟩ := h.exact id hid
  obtain ⟨p, hp, -⟩ := h.exists_pin_of_isEviction hv hev
  simp [hpins] at hp

end Reclaims

/-- **Evicted history is reclaimed.** After any run of a store,

* just the documents are marked whose histories hold evictions, each once,
* a history holds versions whose numbers ascend, and at least one: of all that was ever entered of
  the document, those after the last eviction that every open snapshot has passed,
* each eviction that is held comes after the horizon of some open snapshot, and
* where no snapshot is open no document is marked, and of each document there is left what was
  written since its last eviction. -/
theorem evicted_history_is_reclaimed (capacity : Nat) (events : List (StoreEvent ν)) :
    let s := (Store.empty capacity).run events
    let ledger := Ledger.empty.run events
    (s.evicted.Nodup ∧
      ∀ id, id ∈ s.evicted ↔ ∃ v ∈ s.historyOf id, v.isEviction = true) ∧
    (∀ id h, s.histories.get? id = some h → h ≠ [] ∧ h.Numbered ∧
      h = (History.entered (ledger.writesTo id)).prune s.oldestHorizon) ∧
    (∀ id, ∀ v ∈ s.historyOf id, v.isEviction = true → ∃ p ∈ s.pins, p.2.horizon < v.tx) ∧
    (s.pins = [] → s.evicted = [] ∧
      ∀ id, s.historyOf id = History.afterLast Version.isEviction (ledger.writesTo id)) := by
  intro s ledger
  have h : Reclaims s ledger := (Reclaims.empty capacity).run (Tracks.empty capacity) events
  refine ⟨⟨h.marked.nodup, h.mem_evicted_iff⟩, fun id old hold => ?_, fun id v hv hev =>
    h.exists_pin_of_isEviction hv hev, fun hpins =>
      ⟨h.evicted_of_no_pins hpins, h.historyOf_of_no_pins hpins⟩⟩
  have hhistory : s.historyOf id = old := by rw [Store.historyOf, hold, Option.getD_some]
  refine ⟨fun hnil => h.marked.nonempty id (hnil ▸ hold), ?_, ?_⟩
  · exact hhistory ▸ h.numbered_historyOf id
  · exact hhistory ▸ h.held id

/-- What was evicted is held for a reader that came before, and is gone when the reader goes. -/
theorem evicted_history_goes_with_its_reader :
    let put : StoreEvent Unit := .submit [] ⟨0, 0⟩ [.write (.put (.ofId "e:1"))]
    let evict : StoreEvent Unit := .submit [] ⟨0, 0⟩ [.write (.evict "e:1")]
    let held := (Store.empty 1).run [put, .openSnapshot ⟨0, 0⟩ none, evict]
    let freed := (Store.empty 1).run
      [put, .openSnapshot ⟨0, 0⟩ none, evict, .release ⟨1, 1, ⟨0, 0⟩⟩]
    (∃ v ∈ held.historyOf "e:1", v.isEviction = true) ∧ "e:1" ∈ held.evicted ∧
      freed.pins = [] ∧ freed.historyOf "e:1" = [] := by
  intro put evict held freed
  have hmarked : "e:1" ∈ held.evicted := by decide +kernel
  have hpins : freed.pins = [] := by decide +kernel
  obtain ⟨⟨-, hheld⟩, -⟩ :=
    evicted_history_is_reclaimed 1 [put, .openSnapshot ⟨0, 0⟩ none, evict]
  obtain ⟨-, -, -, hfreed⟩ := evicted_history_is_reclaimed 1
    [put, .openSnapshot ⟨0, 0⟩ none, evict, .release ⟨1, 1, ⟨0, 0⟩⟩]
  exact ⟨(hheld "e:1").1 hmarked, hmarked, hpins, (hfreed hpins).2 "e:1"⟩

end MetadataArchive
