import MetadataArchive.Proofs.Store.Run

/-!
# How histories grow

A commit adds at most one version to the history of a document, and none where nothing was staged
under its key. All else that happens to a store leaves histories as they are, or drops evicted
versions of them.
-/

set_option autoImplicit false

namespace MetadataArchive

variable {ν : Type} {s : Store} {id : DocId}

namespace History

theorem documentCount_afterLast_le (test : Version → Bool) (h : History) :
    documentCount (afterLast test h) ≤ documentCount h :=
  ((afterLast_sublist test h).filter _).length_le

theorem documentCount_recorded_le (h : History) (v : Version) :
    documentCount (h.recorded v) ≤ documentCount h + 1 := by
  unfold recorded
  split
  · rw [documentCount, List.filter_append, List.length_append]
    exact Nat.add_le_add_left (List.length_filter_le _ [v]) _
  · exact Nat.le_succ _

end History

namespace Store

theorem historyLength_eq (s : Store) (id : DocId) :
    s.historyLength id = (s.historyOf id).documentCount := by
  unfold historyLength historyOf
  cases s.histories.get? id <;> rfl

theorem historyLength_prune_le (s : Store) (id : DocId) :
    s.prune.historyLength id ≤ s.historyLength id := by
  rw [historyLength_eq, historyLength_eq]
  rcases s.historyOf_prune id with h | h <;> rw [h]
  exact History.documentCount_afterLast_le _ _

/-- A commit adds at most one version under a key, and only where something is staged. -/
theorem historyLength_commit_le (s : Store) (tx : Nat) (time : Instant) (staged : Staged)
    (id : DocId) : (s.commit tx time staged).historyLength id ≤
      s.historyLength id + if staged.contains id then 1 else 0 := by
  rw [commit_eq]
  refine Nat.le_trans (historyLength_prune_le _ id) ?_
  rw [historyLength_eq, historyLength_eq, historyOf_logged, NameMap.contains]
  cases staged.get? id with
  | none => exact Nat.le_refl _
  | some doc => exact History.documentCount_recorded_le _ _

theorem historyLength_submit_le (functions : List (TxFunction ν)) (now : Instant)
    (ops : List TxOp) (id : DocId) :
    (s.submit functions now ops).2.2.historyLength id ≤ s.historyLength id +
      match (runOps functions ⟨s.lastTx + 1⟩ (s.nextTime now) s.latest ∅ ops).1 with
      | .ok staged => if staged.contains id then 1 else 0
      | .error _ => 0 := by
  cases h : (runOps functions ⟨s.lastTx + 1⟩ (s.nextTime now) s.latest ∅ ops).1 with
  | ok staged =>
    simp only [submit, h]
    exact historyLength_commit_le { s with lastTx := s.lastTx + 1 } _ _ staged id
  | error fault =>
    simp only [submit, h]
    exact Nat.le_refl _

/-- All but transactions leave histories as they are, or drop versions. -/
theorem historyLength_step_le {ev : StoreEvent ν} (hev : ∀ fs now ops, ev ≠ .submit fs now ops)
    (id : DocId) : (s.step ev).historyLength id ≤ s.historyLength id := by
  cases ev with
  | submit fs now ops => exact absurd rfl (hev fs now ops)
  | openSnapshot now asOf => exact Nat.le_refl _
  | release snap =>
    simp only [step, release]
    cases s.pinOf snap with
    | error e => exact Nat.le_refl _
    | ok pin => exact historyLength_prune_le _ id
  | claim tx =>
    simp only [step, claim]
    cases s.outcomes.find? fun o => o.tx == tx <;> exact Nat.le_refl _

end Store

end MetadataArchive
