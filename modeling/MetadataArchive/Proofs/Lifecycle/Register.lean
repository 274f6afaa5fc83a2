import Mathlib.Data.Finmap
import MetadataArchive.Lifecycle.Rejections

/-!
# A register of rejections

Rejections may be kept in two places: the failures in a map, under the numbers of their
transactions, and the numbers in a queue, in the order in which they came. A failure is then found
without going through the others, but whatever is put down or dropped has to be put down or dropped
in both. What is too old, and what is too much, is dropped in a loop that takes one number after the
other from the front of the queue, and looks each of them up in the map.

Nothing about a register says that map and queue agree. The loops stop all the same: each turn
shortens the queue (`Loop.ends`).
-/

set_option autoImplicit false

namespace MetadataArchive

/-! ## Loops -/

/-- The loop comes to its end after so many turns. A turn that gives nothing is the end. -/
inductive EndsAfter {σ : Type} (turn : σ → Option σ) : Nat → σ → σ → Prop
  | stop {s : σ} (h : turn s = none) : EndsAfter turn 0 s s
  | turn {n : Nat} {s s' s'' : σ} (h : turn s = some s') (h' : EndsAfter turn n s' s'') :
      EndsAfter turn (n + 1) s s''

/-- A turn of a loop, with a measure that gets less with each. -/
structure Loop (σ : Type) where
  turn : σ → Option σ
  measure : σ → Nat
  less : ∀ {s s' : σ}, turn s = some s' → measure s' < measure s

namespace Loop

variable {σ : Type}

def run (l : Loop σ) (s : σ) : σ :=
  match h : l.turn s with
  | none => s
  | some s' =>
      have := l.less h
      l.run s'
termination_by l.measure s

variable {l : Loop σ} {s s' : σ} {P : σ → Prop}

theorem run_of_none (h : l.turn s = none) : l.run s = s := by
  rw [run]
  split
  · rfl
  next h' => cases h.symm.trans h'

theorem run_of_some (h : l.turn s = some s') : l.run s = l.run s' := by
  rw [run]
  split
  next h' => cases h.symm.trans h'
  next h' => rw [Option.some.inj (h.symm.trans h')]

/-- **A loop comes to its end**, after no more turns than its measure. -/
theorem ends (l : Loop σ) (s : σ) : ∃ n ≤ l.measure s, EndsAfter l.turn n s (l.run s) := by
  induction hm : l.measure s using Nat.strong_induction_on generalizing s with
  | _ m ih =>
    cases h : l.turn s with
    | none =>
      rw [run_of_none h]
      exact ⟨0, Nat.zero_le _, .stop h⟩
    | some s' =>
      have hless : l.measure s' < m := hm ▸ l.less h
      obtain ⟨n, hn, hends⟩ := ih _ hless s' rfl
      rw [run_of_some h]
      exact ⟨n + 1, Nat.succ_le_of_lt (Nat.lt_of_le_of_lt hn hless), .turn h hends⟩

/-- What each turn keeps holds in the end, where there is no more turn. -/
theorem run_spec (hturn : ∀ s s', P s → l.turn s = some s' → P s') (h : P s) :
    P (l.run s) ∧ l.turn (l.run s) = none := by
  obtain ⟨n, -, hends⟩ := l.ends s
  generalize l.run s = t at hends
  induction hends with
  | stop hnone => exact ⟨h, hnone⟩
  | turn hsome _ ih => exact ih (hturn _ _ h hsome)

end Loop

/-! ## The register -/

/-- The failures that nobody has taken, by transaction and in their order. -/
structure Register where
  limits : RejectionLimits
  /-- Each with the time when it was recorded, in microseconds. -/
  entries : Finmap fun _ : TxId => Failure × Nat
  order : List TxId
  counts : RejectionCounts

namespace Register

def empty (limits : RejectionLimits) : Register := ⟨limits, ∅, [], ⟨0, 0, 0, 0⟩⟩

def size (r : Register) : Nat := r.entries.keys.card

/-- A turn of the loop that drops what is too old. -/
def expireTurn (now : Nat) (r : Register) : Option Register :=
  match r.order with
  | [] => none
  | tx :: rest =>
      match r.entries.lookup tx with
      | none => some { r with order := rest }
      | some (_, time) =>
          if now - time < r.limits.ttlMs * 1000 then none
          else some { r with
            entries := r.entries.erase tx
            order := rest
            counts := { r.counts with expired := r.counts.expired + 1 } }

/-- A turn of the loop that drops what is too much. -/
def overflowTurn (r : Register) : Option Register :=
  if r.limits.maxEntries < r.size then
    match r.order with
    | [] => none
    | tx :: rest =>
        if tx ∈ r.entries then
          some { r with
            entries := r.entries.erase tx
            order := rest
            counts := { r.counts with overflowed := r.counts.overflowed + 1 } }
        else some { r with order := rest }
  else none

variable {r r' : Register} {now : Nat} {tx : TxId} {failure : Failure} {n : Nat}

theorem expireTurn_shortens (h : expireTurn now r = some r') :
    r'.order.length < r.order.length := by
  unfold expireTurn at h
  split at h
  · cases h
  next horder =>
    rw [horder]
    split at h
    · cases h
      exact Nat.lt_succ_self _
    · split at h
      · cases h
      · cases h
        exact Nat.lt_succ_self _

theorem overflowTurn_shortens (h : overflowTurn r = some r') :
    r'.order.length < r.order.length := by
  unfold overflowTurn at h
  split at h
  · split at h
    · cases h
    next horder =>
      rw [horder]
      split at h <;> cases h <;> exact Nat.lt_succ_self _
  · cases h

def expireLoop (now : Nat) : Loop Register := ⟨expireTurn now, fun r => r.order.length,
  expireTurn_shortens⟩

def overflowLoop : Loop Register := ⟨overflowTurn, fun r => r.order.length, overflowTurn_shortens⟩

def expire (r : Register) (now : Nat) : Register := (expireLoop now).run r

def overflow (r : Register) : Register := overflowLoop.run r

/-- Put a failure into the map, and its transaction at the end of the queue unless it is there. -/
def put (r : Register) (now : Nat) (tx : TxId) (failure : Failure) : Register :=
  { r with
    entries := r.entries.insert tx (failure, now)
    order := if tx ∈ r.entries then r.order else r.order ++ [tx]
    counts := { r.counts with recorded := r.counts.recorded + 1 } }

def record (r : Register) (now : Nat) (tx : TxId) (failure : Failure) : Register :=
  ((r.expire now).put now tx failure).overflow

def take (r : Register) (now : Nat) (tx : TxId) : Option Failure × Register :=
  let r := r.expire now
  match r.entries.lookup tx with
  | none => (none, r)
  | some (failure, _) =>
      (some failure,
        { r with
          entries := r.entries.erase tx
          order := r.order.filter (· != tx)
          counts := { r.counts with taken := r.counts.taken + 1 } })

end Register

end MetadataArchive
