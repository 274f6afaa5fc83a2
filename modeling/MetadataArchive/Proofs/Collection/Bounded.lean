import Mathlib.Data.List.DropRight

/-!
# Lists with room for so many

What is put at the end of a list with room for `n` pushes out what stands at its front, so what is
there stays until `n` others stand behind it. Elements are known by their keys, and those that are
taken out make room: what decides is how many stand behind an element at a time, and not how many
were ever put there (`KeptBefore.push`).
-/

set_option autoImplicit false

namespace MetadataArchive

variable {α κ : Type} {key : α → κ} {x y : α} {l : List α} {behind : List κ} {n : Nat}

/-- An element is in a list, the only one with its key, and those behind it have the given keys. -/
def KeptBefore (key : α → κ) (x : α) (behind : List κ) (l : List α) : Prop :=
  ∃ front back, l = front ++ x :: back ∧ back.map key = behind ∧
    ∀ y ∈ front ++ back, key y ≠ key x

/-- Nothing in a list has a key. -/
def Lacks (key : α → κ) (k : κ) (l : List α) : Prop := ∀ y ∈ l, key y ≠ k

namespace Lacks

variable {k : κ}

theorem push (h : Lacks key k l) (hy : key y ≠ k) : Lacks key k ((l ++ [y]).rtake n) := by
  intro z hz
  rcases List.mem_append.1 (List.mem_of_mem_drop hz) with hz | hz
  · exact h z hz
  · rwa [List.mem_singleton.1 hz]

theorem filter (h : Lacks key k l) (p : α → Bool) : Lacks key k (l.filter p) := fun z hz =>
  h z (List.mem_filter.1 hz).1

end Lacks

namespace KeptBefore

theorem new (hl : Lacks key (key x) l) (hn : 0 < n) :
    KeptBefore key x [] ((l ++ [x]).rtake n) := by
  obtain ⟨m, rfl⟩ := Nat.exists_eq_succ_of_ne_zero hn.ne'
  rw [List.rtake_concat_succ]
  refine ⟨l.rtake m, [], rfl, rfl, fun y hy => ?_⟩
  rw [List.append_nil] at hy
  exact hl y (List.mem_of_mem_drop hy)

/-- One more behind an element: either there is room for all of them, or the element is gone. -/
theorem push (h : KeptBefore key x behind l) (hy : key y ≠ key x) :
    (behind.length + 1 < n → KeptBefore key x (behind ++ [key y]) ((l ++ [y]).rtake n)) ∧
      (n ≤ behind.length + 1 → Lacks key (key x) ((l ++ [y]).rtake n)) := by
  obtain ⟨front, back, rfl, rfl, hother⟩ := h
  have hpushed : (front ++ x :: back) ++ [y] = front ++ x :: (back ++ [y]) := by simp
  have hback : ∀ z ∈ back ++ [y], key z ≠ key x := by
    intro z hz
    rcases List.mem_append.1 hz with hz | hz
    · exact hother z (List.mem_append_right _ hz)
    · rwa [List.mem_singleton.1 hz]
  rw [hpushed, List.length_map, List.rtake]
  constructor
  · intro hroom
    have hle : (front ++ x :: (back ++ [y])).length - n ≤ front.length := by
      simp
      omega
    rw [List.drop_append_of_le_length hle]
    refine ⟨_, back ++ [y], rfl, by simp, fun z hz => ?_⟩
    rcases List.mem_append.1 hz with hz | hz
    · exact hother z (List.mem_append_left _ (List.mem_of_mem_drop hz))
    · exact hback z hz
  · intro hfull
    obtain ⟨m, hm⟩ : ∃ m, (front ++ x :: (back ++ [y])).length - n = front.length + (m + 1) := by
      refine ⟨back.length + 1 - n, ?_⟩
      simp
      omega
    rw [hm, List.drop_append, List.drop_of_length_le (by omega), List.nil_append,
      Nat.add_sub_cancel_left, List.drop_succ_cons]
    exact fun z hz => hback z (List.mem_of_mem_drop hz)

theorem mem (h : KeptBefore key x behind l) : x ∈ l := by
  obtain ⟨front, back, rfl, -, -⟩ := h
  simp

/-- What is kept behind an element is in the list. -/
theorem exists_of_mem {k : κ} (h : KeptBefore key x behind l) (hk : k ∈ behind) : ∃ y ∈ l, key y = k := by
  obtain ⟨front, back, rfl, rfl, -⟩ := h
  obtain ⟨y, hy, rfl⟩ := List.mem_map.1 hk
  exact ⟨y, by simp [hy], rfl⟩

variable [DecidableEq κ] {k : κ}

/-- To take out others is to take them out from behind. -/
theorem filter (h : KeptBefore key x behind l) (hk : key x ≠ k) :
    KeptBefore key x (behind.filter (· != k)) (l.filter (key · != k)) := by
  obtain ⟨front, back, rfl, rfl, hother⟩ := h
  refine ⟨front.filter (key · != k), back.filter (key · != k), ?_, ?_, fun y hy => ?_⟩
  · simp [hk]
  · rw [List.filter_map]
    rfl
  · rw [← List.filter_append] at hy
    exact hother y (List.mem_filter.1 hy).1

theorem find? (h : KeptBefore key x behind l) : l.find? (key · == key x) = some x := by
  obtain ⟨front, back, rfl, -, hother⟩ := h
  have hfront : front.find? (key · == key x) = none :=
    List.find?_eq_none.2 fun y hy => by simpa using hother y (List.mem_append_left _ hy)
  rw [List.find?_append, hfront]
  simp

end KeptBefore

end MetadataArchive
