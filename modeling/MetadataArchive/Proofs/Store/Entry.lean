import MetadataArchive.Proofs.Store.Outcome
import MetadataArchive.Proofs.Store.Past

/-!
# Transactions by their numbers

A transaction is entered under its number when it is committed, and never entered otherwise. So an
outcome that waits to be claimed says what the ledger says, however late it is claimed: whether the
transaction was committed, and when (`Ledger.Confirms`). And whoever reads as of a transaction that
wrote a document reads that document, or nothing (`shows_of_entry`).
-/

set_option autoImplicit false

namespace MetadataArchive

/-- Versions beyond a reader's basis show nothing of their own; at most they take away what is
there. -/
theorem History.visible_of_append {pin : Pin} {h new : History} {d : Document}
    (hlater : ∀ v ∈ new, pin.basis < v.tx) (hd : visible pin (h ++ new) = some d) :
    visible pin h = some d := by
  induction new using List.reverseRecOn with
  | nil => rwa [List.append_nil] at hd
  | append_singleton new v ih =>
    rw [← List.append_assoc, visible_concat] at hd
    split at hd
    · cases hd
    · rw [if_neg (Nat.not_le.2 (hlater v (by simp)))] at hd
      exact ih (fun w hw => hlater w (by simp [hw])) hd

namespace Ledger

variable {ν : Type} {l : Ledger} {e : Entry} {tx : Nat} {id : DocId} {d d' : Document} {n : Nat}
variable {functions : List (TxFunction ν)} {now : Instant} {ops : List TxOp} {writes : Staged}

/-! ## Entries -/

/-- What is entered under a number. -/
def entered? (l : Ledger) (tx : Nat) : Option Entry := l.entries.find? fun e => e.tx == tx

theorem of_entered? (h : l.entered? tx = some e) : e ∈ l.entries ∧ e.tx = tx :=
  ⟨List.mem_of_find?_eq_some h, by simpa using List.find?_some h⟩

/-- Numbers that were used are not used again. -/
theorem entered?_step (htx : tx ≤ l.submitted) (ev : StoreEvent ν) :
    (l.step ev).entered? tx = l.entered? tx := by
  obtain ⟨new, hnew, hlater⟩ := l.entries_run [ev]
  have hnone : new.find? (fun e => e.tx == tx) = none := by
    refine List.find?_eq_none.2 fun e he => ?_
    have := hlater e he
    simp
    omega
  have hentries : (l.step ev).entries = l.entries ++ new := hnew
  rw [entered?, hentries, List.find?_append, hnone, Option.or_none]
  rfl

theorem entered?_of_lt (htx : l.submitted < tx) : l.entered? tx = none := by
  refine List.find?_eq_none.2 fun e he => ?_
  have := (l.numbered e he).2
  simp
  omega

theorem entered?_append : (l.append now writes).entered? (l.submitted + 1) =
    some ⟨l.submitted + 1, l.nextTime now, writes⟩ := by
  have hnone : l.entries.find? (fun e => e.tx == l.submitted + 1) = none :=
    entered?_of_lt (Nat.lt_succ_self _)
  rw [entered?, append, List.find?_append, hnone]
  simp

theorem entered?_skip : l.skip.entered? (l.submitted + 1) = none :=
  entered?_of_lt (l := l) (Nat.lt_succ_self _)

/-- As of a transaction, a document is seen that it wrote, if any is. -/
theorem shows_of_entry (he : l.entered? tx = some e) (hd : e.writes.get? id = some (some d))
    (hd' : l.shows ⟨tx, n⟩ id = some d') : d' = d := by
  obtain ⟨hmem, rfl⟩ := of_entered? he
  obtain ⟨before, after, hsplit⟩ := List.append_of_mem hmem
  have hord := l.ascending
  rw [hsplit] at hord
  have hafter := (List.pairwise_cons.1 (List.pairwise_append.1 hord).2.1).1
  let written (es : List Entry) : History :=
    es.filterMap fun e => (e.writes.get? id).map fun doc => ⟨e.tx, doc⟩
  have hlater : ∀ v ∈ written after, e.tx < v.tx := by
    intro v hv
    obtain ⟨f, hf, hv⟩ := List.mem_filterMap.1 hv
    obtain ⟨doc, -, rfl⟩ := Option.map_eq_some_iff.1 hv
    exact (hafter f hf).1
  have hwrites : l.writesTo id = (written before ++ [⟨e.tx, some d⟩]) ++ written after := by
    simp [writesTo, written, hsplit, hd]
  rw [shows_eq_visible, hwrites] at hd'
  have hseen := History.visible_of_append hlater hd'
  rw [History.visible_concat] at hseen
  simpa [Version.isEvictionBy, Version.isEviction, eq_comm] using hseen

/-- Who is not behind the last commit sees the latest state. -/
theorem shows_eq_latest {pin : Pin} (hbasis : l.last ≤ pin.basis) (hpin : l.last ≤ pin.horizon) :
    l.shows pin id = l.latest.document? id := by
  have hle := l.tx_writesTo_le_last id
  show l.shows pin id = l.shows ⟨l.last, l.last⟩ id
  rw [shows_eq_visible, shows_eq_visible, History.visible_of_le hle hbasis hpin,
    History.visible_of_le hle (Nat.le_refl _) (Nat.le_refl _)]

/-! ## Outcomes -/

/-- An outcome is that of a transaction that was, and says whether it is entered, and when. -/
structure Confirms (l : Ledger) (o : Outcome) : Prop where
  number : o.tx.number ≤ l.submitted
  entry : (l.entered? o.tx.number).map Entry.time = if o.committed then some o.time else none

theorem Confirms.step {o : Outcome} (h : l.Confirms o) (ev : StoreEvent ν) :
    (l.step ev).Confirms o :=
  ⟨Nat.le_trans h.number (l.submitted_le_step ev), by rw [entered?_step h.number, h.entry]⟩

/-- The outcome of a transaction that is submitted now. -/
theorem confirms_submit {s : Store} (h : Tracks s l) :
    (l.submit functions now ops).2.2.Confirms (s.outcome functions now ops) := by
  simp only [submit, Store.outcome, h.number, h.nextTime_eq, h.latest_eq]
  cases (runOps functions ⟨l.submitted + 1⟩ (l.nextTime now) l.latest ∅ ops).1 with
  | ok staged => exact ⟨Nat.le_refl _, by rw [entered?_append]; rfl⟩
  | error fault => exact ⟨Nat.le_refl _, by rw [entered?_skip]; rfl⟩

end Ledger

end MetadataArchive
