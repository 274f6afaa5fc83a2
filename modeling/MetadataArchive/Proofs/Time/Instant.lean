import MetadataArchive.Time.Instant

/-!
# The order of instants

Instants are totally ordered, and adding a microsecond always leads to a later one. No more than
that is asked of time: commits in a log get times that ascend, however the clock is moved.
-/

set_option autoImplicit false

namespace MetadataArchive.Instant

variable {a b c : Instant}

theorem le_iff : a.le b = true ↔
    a.second < b.second ∨ (a.second = b.second ∧ a.nano ≤ b.nano) := by
  unfold le compare
  rcases Int.lt_trichotomy a.second b.second with h | h | h
  · simp [Int.compare_eq_lt.2 h, h, Ordering.then]
  · rcases Nat.lt_trichotomy a.nano b.nano with hn | hn | hn
    · simp [h, Nat.compare_eq_lt.2 hn, Ordering.then, Nat.le_of_lt hn]
    · simp [h, hn, Ordering.then]
    · simp [h, Nat.compare_eq_gt.2 hn, Ordering.then, Nat.not_le.2 hn]
  · simp [Int.compare_eq_gt.2 h, Ordering.then]
    omega

theorem not_le_iff : a.le b = false ↔
    b.second < a.second ∨ (a.second = b.second ∧ b.nano < a.nano) := by
  rw [← Bool.not_eq_true, le_iff]
  omega

theorem le_of_not_le (h : a.le b = false) : b.le a = true := by
  rw [not_le_iff] at h
  rw [le_iff]
  omega

theorem le_refl (a : Instant) : a.le a = true :=
  (a.le a).eq_false_or_eq_true.elim id le_of_not_le

theorem le_trans (hab : a.le b = true) (hbc : b.le c = true) : a.le c = true := by
  rw [le_iff] at *
  omega

theorem le_antisymm (hab : a.le b = true) (hba : b.le a = true) : a = b := by
  rw [le_iff] at hab hba
  obtain ⟨second, nano⟩ := a
  obtain ⟨second', nano'⟩ := b
  dsimp only at hab hba
  obtain rfl : second = second' := by omega
  obtain rfl : nano = nano' := by omega
  rfl

/-- A microsecond more is later, whatever the nanoseconds are. -/
theorem not_addMicrosecond_le (t : Instant) : (t.addMicroseconds 1).le t = false := by
  rw [not_le_iff]
  simp only [addMicroseconds, Int.fdiv_eq_ediv_of_nonneg _ (show (0 : Int) ≤ 1000000000 by decide),
    Int.fmod_eq_emod_of_nonneg _ (show (0 : Int) ≤ 1000000000 by decide)]
  omega

end MetadataArchive.Instant
