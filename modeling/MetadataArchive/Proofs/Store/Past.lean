import MetadataArchive.Proofs.Store.Latest
import MetadataArchive.Proofs.Store.Snapshot

/-!
# The past, seen from later on

Commits are entered behind all that are there. So a commit is found by its own time, whatever came
after it (`lastBy_time`), and an instant before a commit finds what it found before that commit was
there (`lastBy_run`). What a reader of the past sees of a document can still change, in one way
only: it goes as soon as the document is missing from the latest state (`shows_run_iff`).
-/

set_option autoImplicit false

namespace MetadataArchive

namespace History

variable {pin : Pin} {h new : History} {v w : Version}

theorem Numbered.le_getLast (hnum : Numbered h) (hv : h.getLast? = some v) (hw : w ∈ h) :
    w.tx ≤ v.tx := by
  obtain ⟨front, rfl⟩ := List.getLast?_eq_some_iff.1 hv
  rcases List.mem_append.1 hw with hw | hw
  · exact Nat.le_of_lt ((numbered_concat.1 hnum).2.1 w hw)
  · rw [List.mem_singleton.1 hw]

theorem Numbered.filter (hnum : Numbered h) (test : Version → Bool) : Numbered (h.filter test) :=
  ⟨hnum.1.filter test, fun v hv => hnum.2 v (List.mem_filter.1 hv).1⟩

/-- Versions beyond a reader's basis are overlooked, if none of them is an eviction. -/
theorem visible_append_of_kept (hkept : ∀ v ∈ new, pin.basis < v.tx ∧ v.doc ≠ none) :
    visible pin (h ++ new) = visible pin h := by
  induction new using List.reverseRecOn with
  | nil => rw [List.append_nil]
  | append_singleton new v ih =>
    obtain ⟨hv, hdoc⟩ := hkept v (by simp)
    have hev : v.isEvictionBy pin.horizon = false := by
      simp [Version.isEvictionBy, Version.isEviction, hdoc]
    rw [← List.append_assoc, visible_concat, hev, if_neg (by simp), if_neg (Nat.not_le.2 hv)]
    exact ih fun w hw => hkept w (by simp [hw])

end History

namespace Ledger

variable {ν : Type} {l : Ledger} {e : Entry} {pin : Pin} {id : DocId} {d : Document} {t : Instant}

/-! ## Finding a commit by its time -/

theorem entries_run (l : Ledger) (events : List (StoreEvent ν)) :
    ∃ new, (l.run events).entries = l.entries ++ new ∧ ∀ e ∈ new, l.submitted < e.tx := by
  induction events generalizing l with
  | nil => exact ⟨[], (List.append_nil _).symm, by simp⟩
  | cons ev events ih =>
    obtain ⟨new, hnew, hlater⟩ := ih (l.step ev)
    have hrun : l.run (ev :: events) = (l.step ev).run events := rfl
    rw [hrun, hnew]
    rcases l.step_cases ev with h | h | ⟨now, writes, h⟩ <;> rw [h] at hlater ⊢
    · exact ⟨new, rfl, hlater⟩
    · exact ⟨new, rfl, fun e he => Nat.lt_of_succ_lt (hlater e he)⟩
    · refine ⟨⟨l.submitted + 1, l.nextTime now, writes⟩ :: new, by simp [append], ?_⟩
      rintro e (_ | ⟨_, he⟩)
      · exact Nat.lt_succ_self _
      · exact Nat.lt_of_succ_lt (hlater e he)

/-- As of its own time, a commit is the last. -/
theorem lastBy_time (he : e ∈ l.entries) : l.lastBy e.time = e.tx := by
  obtain ⟨before, after, hsplit⟩ := List.append_of_mem he
  have hord := l.ascending
  rw [hsplit] at hord
  have hafter : after.filter (fun f => f.time.le e.time) = [] := by
    refine List.filter_eq_nil_iff.2 fun f hf => ?_
    have hlater := (List.pairwise_cons.1 (List.pairwise_append.1 hord).2.1).1 f hf
    simp [hlater.2]
  have hself : e.time.le e.time = true := Instant.le_refl _
  simp [lastBy, hsplit, hafter, hself]

/-- An instant that finds no commit of a run finds what it found before the run. -/
theorem lastBy_run (events : List (StoreEvent ν)) (hle : (l.run events).lastBy t ≤ l.submitted) :
    (l.run events).lastBy t = l.lastBy t := by
  obtain ⟨new, hnew, hlater⟩ := l.entries_run events
  unfold lastBy at hle ⊢
  rw [hnew, List.filter_append] at hle ⊢
  cases hlast : (new.filter fun e => e.time.le t).getLast? with
  | none => rw [List.getLast?_eq_none_iff.1 hlast, List.append_nil]
  | some e =>
    have hmem : e ∈ new := (List.mem_filter.1 (List.mem_of_getLast? hlast)).1
    have htx := hlater e hmem
    rw [List.getLast?_append, hlast] at hle
    simp only [Option.some_or, Option.map_some, Option.getD_some] at hle
    omega

/-! ## What is left of the past -/

/-- A reader of the present has passed every eviction there is. -/
theorem shows_of_last_le (hpin : l.last ≤ pin.horizon) (id : DocId) :
    l.shows pin id = l.shows ⟨pin.basis, l.last⟩ id := by
  have hevicted : (l.writesTo id).evictedAt pin.horizon = (l.writesTo id).evictedAt l.last := by
    unfold History.evictedAt
    congr 3
    refine List.filter_congr fun v hv => ?_
    have hlast := l.tx_writesTo_le_last id v hv
    simp [hlast, Nat.le_trans hlast hpin]
  unfold shows
  rw [hevicted]

/-- Of what is missing, a reader who comes now sees nothing. -/
theorem shows_of_missing (hpin : l.last ≤ pin.horizon) (hmissing : l.latest.document? id = none) :
    l.shows pin id = none := by
  have hlast : (l.writesTo id).getLast?.bind Version.doc = none :=
    (shows_present (Nat.le_refl _)).symm.trans hmissing
  rw [shows_eq_visible]
  rcases List.eq_nil_or_concat (l.writesTo id) with hnil | ⟨vs, v, hvs⟩
  · rw [hnil, History.visible_nil]
  · rw [List.concat_eq_append] at hvs
    have hv : v.tx ≤ pin.horizon :=
      Nat.le_trans (l.tx_writesTo_le_last id v (by simp [hvs])) hpin
    have hdoc : v.doc = none := by simpa [hvs] using hlast
    rw [hvs, History.visible_concat, if_pos]
    simp [Version.isEvictionBy, Version.isEviction, hdoc, hv]

/-- A commit beyond a reader's basis takes a document away where it evicts it, and has otherwise
no bearing on what the reader sees. -/
theorem shows_append_iff {now : Instant} {writes : Staged} (hbasis : pin.basis ≤ l.submitted)
    (hpin : l.submitted + 1 ≤ pin.horizon) :
    (l.append now writes).shows pin id = some d ↔
      l.shows pin id = some d ∧ writes.get? id ≠ some none := by
  rw [shows_eq_visible, shows_eq_visible, writesTo_append]
  match writes.get? id with
  | none => simp
  | some none =>
    simp [History.visible_concat, Version.isEvictionBy, Version.isEviction, hpin]
  | some (some _) =>
    rw [History.visible_append_of_kept]
    · simp
    · simpa using Nat.lt_succ_of_le hbasis

/-- What an event leaves there, it leaves to readers of the past. -/
theorem shows_step_iff {ev : StoreEvent ν} (hbasis : pin.basis ≤ l.submitted)
    (hpin : (l.step ev).last ≤ pin.horizon) (hthere : (l.step ev).latest.document? id ≠ none) :
    (l.step ev).shows pin id = some d ↔ l.shows pin id = some d := by
  rcases l.step_cases ev with h | h | ⟨now, writes, h⟩ <;> rw [h] at hpin hthere ⊢
  · rfl
  · rw [last_append] at hpin
    rw [shows_append_iff hbasis hpin, and_iff_left]
    intro hev
    rw [latest_append] at hthere
    simp [Staged.laidOver, hev] at hthere

theorem submitted_le_step (l : Ledger) (ev : StoreEvent ν) :
    l.submitted ≤ (l.step ev).submitted := by
  rcases l.step_cases ev with h | h | ⟨now, writes, h⟩ <;> rw [h]
  · exact Nat.le_succ _
  · exact Nat.le_succ _

/-- **The past of a document is seen as long as the document is there.** A reader of the past who
comes after a run sees the document that one who came before it would have seen, if the latest
state has had some document under the key all along, and nothing otherwise. -/
theorem shows_run_iff (events : List (StoreEvent ν)) (hbasis : pin.basis ≤ l.submitted)
    (hpin : (l.run events).last ≤ pin.horizon) :
    (l.run events).shows pin id = some d ↔
      l.shows pin id = some d ∧
        ∀ part, part <+: events → (l.run part).latest.document? id ≠ none := by
  have hthere (l : Ledger) (hlast : l.last ≤ pin.horizon) (hshows : l.shows pin id = some d) :
      l.latest.document? id ≠ none := by
    intro hmissing
    rw [shows_of_missing hlast hmissing] at hshows
    cases hshows
  induction events generalizing l with
  | nil =>
    simp only [List.prefix_nil, forall_eq]
    exact ⟨fun h => ⟨h, hthere l hpin h⟩, And.left⟩
  | cons ev events ih =>
    have hstep : (l.step ev).last ≤ pin.horizon :=
      Nat.le_trans ((l.step ev).last_run_le events) hpin
    have hfirst : l.last ≤ pin.horizon :=
      Nat.le_trans (l.last_run_le [ev]) hstep
    refine (ih (Nat.le_trans hbasis (l.submitted_le_step ev)) hpin).trans ?_
    constructor
    · rintro ⟨hshows, hall⟩
      have hpast : l.shows pin id = some d :=
        (shows_step_iff hbasis hstep (hall [] List.nil_prefix)).1 hshows
      refine ⟨hpast, fun part hpart => ?_⟩
      rcases List.prefix_cons_iff.1 hpart with rfl | ⟨rest, rfl, hrest⟩
      · exact hthere l hfirst hpast
      · exact hall rest hrest
    · rintro ⟨hshows, hall⟩
      have hall' (part : List (StoreEvent ν)) (hpart : part <+: events) :
          ((l.step ev).run part).latest.document? id ≠ none :=
        hall (ev :: part) (List.cons_prefix_cons.2 ⟨rfl, hpart⟩)
      exact ⟨(shows_step_iff hbasis hstep (hall' [] List.nil_prefix)).2 hshows, hall'⟩

/-! ## The run up to an instant -/

/-- The commits up to an instant; all of them for the present. -/
def entriesBy (l : Ledger) : Option Instant → List Entry
  | none => l.entries
  | some t => l.entries.filter fun e => e.time.le t

theorem pinAt_eq (l : Ledger) (asOf : Option Instant) :
    l.pinAt asOf = ⟨((l.entriesBy asOf).getLast?.map Entry.tx).getD 0, l.last⟩ := by
  cases asOf <;> rfl

theorem run_concat (l : Ledger) (events : List (StoreEvent ν)) (ev : StoreEvent ν) :
    l.run (events ++ [ev]) = (l.run events).step ev :=
  List.foldl_concat ..

/-- Some part of a run has entered just the commits up to an instant: they are the first ones. -/
theorem exists_entriesBy (events : List (StoreEvent ν)) (asOf : Option Instant) :
    ∃ before, before <+: events ∧
      (empty.run before).entries = (empty.run events).entriesBy asOf := by
  cases asOf with
  | none => exact ⟨events, List.prefix_rfl, rfl⟩
  | some t =>
    induction events using List.reverseRecOn with
    | nil => exact ⟨[], List.prefix_rfl, rfl⟩
    | append_singleton events ev ih =>
      obtain ⟨before, hbefore, hentries⟩ := ih
      have hshort : before <+: events ++ [ev] := hbefore.trans (List.prefix_append events [ev])
      rw [run_concat]
      rcases (empty.run events).step_cases ev with h | h | ⟨now, writes, h⟩ <;> rw [h]
      · exact ⟨before, hshort, hentries⟩
      · exact ⟨before, hshort, hentries⟩
      · let e : Entry := ⟨(empty.run events).submitted + 1, (empty.run events).nextTime now, writes⟩
        have happend : ((empty.run events).append now writes).entries =
            (empty.run events).entries ++ [e] := rfl
        by_cases hle : e.time.le t = true
        · -- The last commit is by the instant, and so are all others.
          refine ⟨events ++ [ev], List.prefix_rfl, ?_⟩
          rw [run_concat, h]
          refine (List.filter_eq_self.2 fun f hf => ?_).symm
          rw [happend] at hf
          rcases List.mem_append.1 hf with hf | hf
          · have hlater := (empty.run events).nextTime_later now hf
            exact Instant.le_trans (Instant.le_of_not_le hlater) hle
          · rw [List.mem_singleton.1 hf]
            exact hle
        · refine ⟨before, hshort, ?_⟩
          rw [hentries, entriesBy, entriesBy, happend, List.filter_append]
          simp [hle]

end Ledger

/-- The commits up to an instant; all of them for the present. -/
def Store.logBy (s : Store) : Option Instant → List Commit
  | none => s.log
  | some t => s.log.filter fun c => c.time.le t

section Instants

variable {ν : Type} {s s₀ : Store} {l l₀ : Ledger} {asOf : Option Instant}

theorem Tracks.logBy_eq (h : Tracks s l) (asOf : Option Instant) :
    s.logBy asOf = (l.entriesBy asOf).map Ledger.Entry.commit := by
  cases asOf with
  | none => exact h.log
  | some t =>
    rw [Store.logBy, h.log, List.filter_map]
    rfl

/-- A reader of an instant is pinned to the last commit by then. -/
theorem Tracks.pinAt_eq (h : Tracks s l) (h₀ : Tracks s₀ l₀) (hlog : s₀.log = s.logBy asOf) :
    l.pinAt asOf = ⟨l₀.last, l.last⟩ := by
  rw [Ledger.pinAt_eq, ← h₀.lastCommitted_eq, Store.lastCommitted, hlog, h.logBy_eq,
    List.getLast?_map, Option.map_map]
  rfl

/-- Some part of a run has logged just the commits up to an instant. -/
theorem Store.exists_logBy (capacity : Nat) (events : List (StoreEvent ν))
    (asOf : Option Instant) :
    ∃ before, before <+: events ∧
      ((Store.empty capacity).run before).log =
        ((Store.empty capacity).run events).logBy asOf := by
  obtain ⟨before, hbefore, hentries⟩ := Ledger.exists_entriesBy events asOf
  refine ⟨before, hbefore, ?_⟩
  rw [((Tracks.empty capacity).run events).logBy_eq, ← hentries]
  exact ((Tracks.empty capacity).run before).log

/-- **The past as it is seen later.** Whoever opens a snapshot as of an instant is shown, of the
state that the run had come to by then, the documents that have been there ever since. -/
theorem Store.shows_past_iff (capacity : Nat) {before after : List (StoreEvent ν)}
    (hlog : ((Store.empty capacity).run before).log =
      ((Store.empty capacity).run (before ++ after)).logBy asOf) :
    ∃ src, ((Store.empty capacity).run (before ++ after)).ShowsAsOf asOf src ∧ src.Coherent ∧
      ∀ id d, src.document? id = some d ↔
        ((Store.empty capacity).run before).latest.document? id = some d ∧
          ∀ part, part <+: after →
            ((Store.empty capacity).run (before ++ part)).latest.document? id ≠ none := by
  let l : Ledger := Ledger.empty.run before
  have hrun (part : List (StoreEvent ν)) :
      Tracks ((Store.empty capacity).run (before ++ part)) (l.run part) := by
    have h := (Tracks.empty capacity).run (before ++ part)
    rwa [Ledger.run, List.foldl_append] at h
  have hbefore : Tracks ((Store.empty capacity).run before) l := (Tracks.empty capacity).run before
  have hpin : (l.run after).pinAt asOf = ⟨l.last, (l.run after).last⟩ :=
    (hrun after).pinAt_eq hbefore hlog
  have hkeyed : (l.run after).Keyed := (Ledger.keyed_empty.run before).run after
  refine ⟨_, (hrun after).showsAsOf asOf, Ledger.coherent_source hkeyed _, fun id d => ?_⟩
  have hthere (part : List (StoreEvent ν)) :
      ((Store.empty capacity).run (before ++ part)).latest = (l.run part).latest :=
    (hrun part).latest_eq
  simp only [hthere, hbefore.latest_eq]
  show (l.run after).shows _ id = some d ↔ _
  rw [hpin, Ledger.shows_run_iff after l.last_le_submitted (Nat.le_refl _),
    Ledger.shows_of_last_le (l.last_run_le after)]
  rfl

end Instants

end MetadataArchive
