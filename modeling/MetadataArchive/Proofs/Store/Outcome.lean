import MetadataArchive.Proofs.Collection.Bounded
import MetadataArchive.Proofs.Store.Run

/-!
# Outcomes until they are claimed

Every transaction leaves one outcome, under a number that was never used before. It stays until it
is claimed, or until so many came after it that there is no more room; so whoever claims at once
finds it (`Store.claim_submit`).
-/

set_option autoImplicit false

namespace MetadataArchive

variable {ν : Type}

/-- How a transaction ends, by what its operations come to. -/
def TxResult.ofRun : Except TxFault Staged → TxResult
  | .ok staged => .committed staged.size
  | .error fault => .aborted fault

namespace Store

variable {s s' : Store} {o : Outcome} {functions : List (TxFunction ν)} {now : Instant}
variable {ops : List TxOp} {tx : TxId}

/-! ## What a transaction leaves -/

/-- The outcome of a transaction. -/
def outcome (s : Store) (functions : List (TxFunction ν)) (now : Instant) (ops : List TxOp) :
    Outcome where
  tx := ⟨s.lastTx + 1⟩
  time := s.nextTime now
  result := .ofRun (runOps functions ⟨s.lastTx + 1⟩ (s.nextTime now) s.latest ∅ ops).1

theorem commit_outcomes (s : Store) (tx : Nat) (time : Instant) (writes : Staged) :
    (s.commit tx time writes).outcomes = s.outcomes ∧
      (s.commit tx time writes).capacity = s.capacity ∧
      (s.commit tx time writes).lastTx = s.lastTx := by
  obtain ⟨hs, ev, h⟩ := s.recordAll_frame tx writes.toList
  rw [commit_eq, logged, h]
  exact ⟨rfl, rfl, rfl⟩

/-- Committed or aborted, a transaction leaves its outcome behind all that are kept. -/
theorem submit_outcomes (s : Store) (functions : List (TxFunction ν)) (now : Instant)
    (ops : List TxOp) :
    (s.submit functions now ops).1 = ⟨s.lastTx + 1⟩ ∧
      (s.submit functions now ops).2.2.lastTx = s.lastTx + 1 ∧
      (s.submit functions now ops).2.2.capacity = s.capacity ∧
      (s.submit functions now ops).2.2.outcomes =
        (s.keepOutcome (s.outcome functions now ops)).outcomes := by
  simp only [submit, outcome]
  cases (runOps functions ⟨s.lastTx + 1⟩ (s.nextTime now) s.latest ∅ ops).1 with
  | ok staged =>
    obtain ⟨houtcomes, hcapacity, hlast⟩ := commit_outcomes { s with lastTx := s.lastTx + 1 }
      (s.lastTx + 1) (s.nextTime now) staged
    refine ⟨rfl, hlast, hcapacity, ?_⟩
    simp only [keepOutcome, houtcomes, hcapacity, TxResult.ofRun]
  | error fault => exact ⟨rfl, rfl, rfl, rfl⟩

theorem claim_of_find? (h : s.outcomes.find? (fun o => o.tx == tx) = some o) :
    s.claim tx =
      .ok (o, { s with outcomes := s.outcomes.filter fun o => o.tx != tx }) := by
  unfold claim
  rw [h]

theorem claim_of_lacks (h : Lacks Outcome.tx tx s.outcomes) :
    s.claim tx = .error (.unknownTransaction tx) := by
  have hfind : s.outcomes.find? (fun o => o.tx == tx) = none :=
    List.find?_eq_none.2 fun o ho => by simpa using h o ho
  unfold claim
  rw [hfind]

theorem claim_ok (h : s.claim tx = .ok (o, s')) :
    s'.lastTx = s.lastTx ∧ s'.capacity = s.capacity ∧ ∀ o' ∈ s'.outcomes, o' ∈ s.outcomes := by
  unfold claim at h
  split at h
  · cases h
    exact ⟨rfl, rfl, fun o' ho => (List.mem_filter.1 ho).1⟩
  · cases h

/-! ## Numbers -/

/-- Outcomes are those of transactions that were, and there is room for one. -/
structure KeepsOutcomes (s : Store) : Prop where
  numbered : ∀ o ∈ s.outcomes, o.tx.number ≤ s.lastTx
  room : 0 < s.capacity

namespace KeepsOutcomes

theorem empty (capacity : Nat) : (Store.empty capacity).KeepsOutcomes :=
  ⟨by simp [Store.empty], Nat.le_max_right _ _⟩

theorem submit (h : s.KeepsOutcomes) (functions : List (TxFunction ν)) (now : Instant)
    (ops : List TxOp) : (s.submit functions now ops).2.2.KeepsOutcomes := by
  obtain ⟨-, hlast, hcapacity, houtcomes⟩ := s.submit_outcomes functions now ops
  refine ⟨fun o ho => ?_, hcapacity ▸ h.room⟩
  rw [hlast]
  rw [houtcomes] at ho
  rcases List.mem_append.1 (List.mem_of_mem_drop ho) with ho | ho
  · exact Nat.le_succ_of_le (h.numbered o ho)
  · rw [List.mem_singleton.1 ho]
    exact Nat.le_refl _

theorem claim (h : s.KeepsOutcomes) (hs : s.claim tx = .ok (o, s')) : s'.KeepsOutcomes := by
  obtain ⟨hlast, hcapacity, hsub⟩ := claim_ok hs
  exact ⟨fun o ho => hlast ▸ h.numbered o (hsub o ho), hcapacity ▸ h.room⟩

theorem step (h : s.KeepsOutcomes) (ev : StoreEvent ν) : (s.step ev).KeepsOutcomes := by
  cases ev with
  | submit functions now ops => exact h.submit functions now ops
  | openSnapshot now asOf => exact ⟨h.numbered, h.room⟩
  | release snap =>
    simp only [Store.step, Store.release]
    cases s.pinOf snap with
    | ok pin => exact ⟨h.numbered, h.room⟩
    | error e => exact h
  | claim tx =>
    simp only [Store.step]
    cases hs : s.claim tx with
    | ok r => exact h.claim hs
    | error e => exact h

theorem run (h : s.KeepsOutcomes) (events : List (StoreEvent ν)) :
    (s.run events).KeepsOutcomes := by
  induction events generalizing s with
  | nil => exact h
  | cons ev events ih => exact ih (h.step ev)

/-- Nothing is kept under the number of the next transaction. -/
theorem lacks_next (h : s.KeepsOutcomes) : Lacks Outcome.tx ⟨s.lastTx + 1⟩ s.outcomes := by
  intro o ho heq
  have hle := h.numbered o ho
  rw [heq] at hle
  exact absurd hle (Nat.not_succ_le_self _)

end KeepsOutcomes

/-! ## Claims -/

/-- **Who submits a transaction claims its outcome.** -/
theorem claim_submit (h : s.KeepsOutcomes) (functions : List (TxFunction ν)) (now : Instant)
    (ops : List TxOp) :
    ∃ s', (s.submit functions now ops).2.2.claim (s.submit functions now ops).1 =
      .ok (s.outcome functions now ops, s') := by
  obtain ⟨htx, -, -, houtcomes⟩ := s.submit_outcomes functions now ops
  have hkept : KeptBefore Outcome.tx (s.outcome functions now ops) []
      (s.submit functions now ops).2.2.outcomes := by
    rw [houtcomes]
    exact KeptBefore.new h.lacks_next h.room
  rw [htx]
  exact ⟨_, claim_of_find? hkept.find?⟩

/-- A transaction is accepted: it is committed, and no function notes anything. -/
def accepts (s : Store) (functions : List (TxFunction ν)) (now : Instant) (ops : List TxOp) :
    Bool :=
  let (tx, notes, s') := s.submit functions now ops
  notes.isEmpty &&
    match s'.claim tx with
    | .ok (o, _) => o.committed
    | .error _ => false

theorem accepts_iff (h : s.KeepsOutcomes) :
    s.accepts functions now ops = true ↔
      ∃ staged, runOps functions ⟨s.lastTx + 1⟩ (s.nextTime now) s.latest ∅ ops =
        (.ok staged, []) := by
  obtain ⟨s', hclaim⟩ := claim_submit h functions now ops
  have hnotes : (s.submit functions now ops).2.1 =
      (runOps functions ⟨s.lastTx + 1⟩ (s.nextTime now) s.latest ∅ ops).2 := by
    simp only [submit]
    split <;> rfl
  simp only [accepts, hclaim, hnotes, outcome, Outcome.committed, Bool.and_eq_true,
    List.isEmpty_iff]
  rcases runOps functions ⟨s.lastTx + 1⟩ (s.nextTime now) s.latest ∅ ops with ⟨_ | staged, notes⟩
  · simp [TxResult.ofRun]
  · simp [TxResult.ofRun]

end Store

end MetadataArchive
