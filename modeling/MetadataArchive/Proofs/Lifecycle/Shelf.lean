import Mathlib.Data.List.Infix
import Mathlib.Data.List.Nodup
import MetadataArchive.Proofs.Lifecycle.Rejections

/-!
# A shelf of rejections

Failures are recorded and taken while time passes. What is found of them follows from what was found
before (`Shelf.found_step`): a step leaves some of it, in the same order, what is recorded comes to
the end or takes the place of a failure of the same transaction, and then what is too old is dropped
from the front. Where there is room for one failure at all, at most one has to go for another
(`Shelf.Orderly.pushesOut_record`).
-/

set_option autoImplicit false

namespace MetadataArchive

/-! ## Dropping from the front -/

section Lists

variable {α : Type} {p q : α → Bool} {xs : List α} {x : α}

theorem mem_takeWhile_or_dropWhile (p : α → Bool) (hx : x ∈ xs) :
    x ∈ xs.takeWhile p ∨ x ∈ xs.dropWhile p := by
  rw [← List.mem_append, List.takeWhile_append_dropWhile]
  exact hx

theorem mem_dropWhile_of_not (hx : x ∈ xs) (hp : p x = false) : x ∈ xs.dropWhile p := by
  refine (mem_takeWhile_or_dropWhile p hx).resolve_left fun htaken => ?_
  have hdropped := List.mem_takeWhile_imp htaken
  simp [hp] at hdropped

theorem dropWhile_dropWhile (himp : ∀ x, p x = true → q x = true) (xs : List α) :
    (xs.dropWhile p).dropWhile q = xs.dropWhile q := by
  induction xs with
  | nil => rfl
  | cons x xs ih =>
    by_cases hp : p x = true
    · rw [List.dropWhile_cons_of_pos hp, List.dropWhile_cons_of_pos (himp x hp), ih]
    · rw [List.dropWhile_cons_of_neg hp]

end Lists

/-! ## Steps -/

/-- The failures that are kept, and the time. -/
structure Shelf where
  kept : Rejections
  now : Nat

inductive ShelfStep where
  | record (tx : TxId) (failure : Failure)
  | take (tx : TxId)
  | advance (us : Nat)

/-- The failure of the transaction is recorded or taken. -/
def ShelfStep.Names (tx : TxId) : ShelfStep → Prop
  | .record tx' _ | .take tx' => tx' = tx
  | .advance _ => False

namespace Shelf

def empty (limits : RejectionLimits) (start : Nat) : Shelf := ⟨.empty limits, start⟩

def step (k : Shelf) : ShelfStep → Shelf
  | .record tx failure => ⟨k.kept.record k.now tx failure, k.now⟩
  | .take tx => ⟨(k.kept.take k.now tx).2, k.now⟩
  | .advance us => ⟨k.kept, k.now + us⟩

def run (k : Shelf) (steps : List ShelfStep) : Shelf := steps.foldl step k

/-- What is found by whoever takes the failure of the transaction now. -/
def answer (k : Shelf) (tx : TxId) : Option Failure := (k.kept.take k.now tx).1

def Finds (k : Shelf) (tx : TxId) : Prop := ∃ failure, k.answer tx = some failure

/-- The failures that are found, in their order. -/
def found (k : Shelf) : List Recorded := (k.kept.expire k.now).entries

/-- The failures that are found, and that of a transaction in its place. -/
def placed (k : Shelf) (tx : TxId) (failure : Failure) : List Recorded :=
  Rejections.place ⟨tx, failure, k.now⟩ k.found

/-- How many have to go where a failure is recorded. -/
def excess (k : Shelf) (tx : TxId) (failure : Failure) : Nat :=
  (k.placed tx failure).length - k.kept.limits.maxEntries

/-- The transactions whose failures go for want of room. -/
def pushesOut (k : Shelf) : ShelfStep → List TxId
  | .record tx failure => ((k.placed tx failure).take (k.excess tx failure)).map Recorded.tx
  | _ => []

/-- What is left of the failures that are found, before any more are dropped for their age. -/
def left (k : Shelf) : ShelfStep → List Recorded
  | .record tx failure => (k.placed tx failure).drop (k.excess tx failure)
  | .take tx => k.found.filter fun e => e.tx != tx
  | .advance _ => k.found

variable {k : Shelf} {s : ShelfStep} {tx : TxId} {failure : Failure} {e : Recorded}

theorem run_concat (k : Shelf) (steps : List ShelfStep) (s : ShelfStep) :
    k.run (steps ++ [s]) = (k.run steps).step s := by
  simp [run]

@[simp] theorem limits_step (k : Shelf) (s : ShelfStep) :
    (k.step s).kept.limits = k.kept.limits := by
  cases s with
  | record => rfl
  | take => exact Rejections.take_limits
  | advance => rfl

@[simp] theorem limits_run (k : Shelf) (steps : List ShelfStep) :
    (k.run steps).kept.limits = k.kept.limits := by
  induction steps using List.reverseRecOn with
  | nil => rfl
  | append_singleton steps s ih => rw [run_concat, limits_step, ih]

theorem now_le_step (k : Shelf) (s : ShelfStep) : k.now ≤ (k.step s).now := by
  cases s with
  | record | take => exact Nat.le_refl _
  | advance us => exact Nat.le_add_right _ _

theorem now_mono {p steps : List ShelfStep} (h : p <+: steps) :
    (k.run p).now ≤ (k.run steps).now := by
  induction steps using List.reverseRecOn with
  | nil => rw [List.prefix_nil.1 h]
  | append_singleton steps s ih =>
    rcases List.prefix_concat_iff.1 h with rfl | h
    · exact Nat.le_refl _
    · rw [run_concat]
      exact (ih h).trans (now_le_step _ s)

/-! ## What one step does -/

theorem map_placed (k : Shelf) (tx : TxId) (failure : Failure) :
    (k.placed tx failure).map Recorded.tx =
      k.pushesOut (.record tx failure) ++ (k.left (.record tx failure)).map Recorded.tx := by
  rw [pushesOut, left, ← List.map_append, List.take_append_drop]

theorem mem_pushesOut_or_left (h : e ∈ k.placed tx failure) :
    e.tx ∈ k.pushesOut (.record tx failure) ∨ e ∈ k.left (.record tx failure) := by
  rw [← List.take_append_drop (k.excess tx failure) (k.placed tx failure), List.mem_append] at h
  exact h.imp_left fun htaken => List.mem_map_of_mem htaken

theorem length_placed (k : Shelf) (tx : TxId) (failure : Failure) :
    (k.placed tx failure).length =
      if tx ∈ k.found.map Recorded.tx then k.found.length else k.found.length + 1 := by
  rw [← List.length_map Recorded.tx, placed, Rejections.map_place]
  split <;> simp

theorem answer_eq (k : Shelf) (tx : TxId) :
    k.answer tx = (k.found.find? fun e => e.tx == tx).map Recorded.failure := by
  unfold answer Rejections.take found
  dsimp only
  cases (k.kept.expire k.now).entries.find? fun e => e.tx == tx <;> rfl

theorem finds_iff : k.Finds tx ↔ tx ∈ k.found.map Recorded.tx := by
  simp only [Finds, answer_eq, Option.map_eq_some_iff, List.mem_map]
  constructor
  · rintro ⟨_, e, he, -⟩
    exact ⟨e, List.mem_of_find?_eq_some he, by simpa using List.find?_some he⟩
  · rintro ⟨e, he, rfl⟩
    cases hfind : k.found.find? fun d => d.tx == e.tx with
    | some d => exact ⟨_, d, rfl, rfl⟩
    | none => simpa using List.find?_eq_none.1 hfind e he

theorem Finds.of_mem (h : e ∈ k.found) : k.Finds e.tx := finds_iff.2 (List.mem_map_of_mem h)

/-- **After a step** what is too old by then is dropped from the front of what is left. -/
theorem found_step (k : Shelf) (s : ShelfStep) :
    (k.step s).found = (k.left s).dropWhile (Rejections.isStale k.kept.limits (k.step s).now) := by
  have hstale : ∀ us, ∀ e, Rejections.isStale k.kept.limits k.now e = true →
      Rejections.isStale k.kept.limits (k.now + us) e = true := fun us _ =>
    Rejections.isStale_mono (Nat.le_add_right _ _)
  cases s with
  | record tx failure => rfl
  | take tx =>
    have hentries : (k.kept.take k.now tx).2.entries = k.left (.take tx) := by
      unfold Rejections.take left found
      dsimp only
      cases hfind : (k.kept.expire k.now).entries.find? fun e => e.tx == tx with
      | some e => rfl
      | none =>
        refine (List.filter_eq_self.2 fun e he => ?_).symm
        simpa using List.find?_eq_none.1 hfind e he
    show (k.kept.take k.now tx).2.entries.dropWhile
      (Rejections.isStale (k.kept.take k.now tx).2.limits _) = _
    rw [hentries, Rejections.take_limits]
  | advance us => exact (dropWhile_dropWhile (hstale us) k.kept.entries).symm

theorem mem_left_of_found_step (h : e ∈ (k.step s).found) : e ∈ k.left s :=
  List.dropWhile_subset _ (k.found_step s ▸ h)

/-- Nothing is found but behind what is not too old. -/
theorem head_recent {es : List Recorded} (h : k.found = e :: es) :
    Rejections.isStale k.kept.limits k.now e = false := by
  have hhead := List.head?_dropWhile_not (Rejections.isStale k.kept.limits k.now) k.kept.entries
  have hfound : k.kept.entries.dropWhile (Rejections.isStale k.kept.limits k.now) = e :: es := h
  simpa [hfound] using hhead

/-- Nobody overtakes: who is found after a step was found in this order, or came now. -/
theorem left_sublist (k : Shelf) (s : ShelfStep) :
    ∃ new : List TxId, (∀ tx ∈ new, tx ∉ k.found.map Recorded.tx) ∧ new.length ≤ 1 ∧
      ((k.left s).map Recorded.tx).Sublist (k.found.map Recorded.tx ++ new) := by
  cases s with
  | record tx failure =>
    have hsub : ((k.left (.record tx failure)).map Recorded.tx).Sublist
        ((k.placed tx failure).map Recorded.tx) := (List.drop_sublist _ _).map _
    have hplace := Rejections.map_place ⟨tx, failure, k.now⟩ k.found
    by_cases htx : tx ∈ k.found.map Recorded.tx
    · refine ⟨[], by simp, by simp, ?_⟩
      rw [if_pos htx] at hplace
      rw [List.append_nil, ← hplace]
      exact hsub
    · refine ⟨[tx], by simpa using htx, by simp, ?_⟩
      rw [if_neg htx] at hplace
      rw [← hplace]
      exact hsub
  | take tx =>
    refine ⟨[], by simp, by simp, ?_⟩
    rw [List.append_nil]
    exact List.filter_sublist.map _
  | advance us => exact ⟨[], by simp, by simp, by simp [left]⟩

/-- No transaction is found twice, nor are there too many. -/
structure Orderly (k : Shelf) : Prop where
  nodup : (k.found.map Recorded.tx).Nodup
  room : k.found.length ≤ k.kept.limits.maxEntries

namespace Orderly

theorem nodup_placed (h : k.Orderly) (tx : TxId) (failure : Failure) :
    ((k.placed tx failure).map Recorded.tx).Nodup := by
  rw [placed, Rejections.map_place]
  split
  · exact h.nodup
  next htx =>
    refine List.nodup_append.2 ⟨h.nodup, List.nodup_singleton _, ?_⟩
    rintro a ha b hb rfl
    exact htx (List.mem_singleton.1 hb ▸ ha)

theorem nodup_left (h : k.Orderly) (s : ShelfStep) : ((k.left s).map Recorded.tx).Nodup := by
  cases s with
  | record tx failure => exact (h.nodup_placed tx failure).sublist ((List.drop_sublist _ _).map _)
  | take tx => exact h.nodup.sublist (List.filter_sublist.map _)
  | advance us => exact h.nodup

theorem length_left_le (h : k.Orderly) (s : ShelfStep) :
    (k.left s).length ≤ k.kept.limits.maxEntries := by
  cases s with
  | record tx failure =>
    simp only [left, List.length_drop, excess]
    omega
  | take tx => exact (List.length_filter_le _ _).trans h.room
  | advance us => exact h.room

theorem step (h : k.Orderly) (s : ShelfStep) : (k.step s).Orderly where
  nodup := by
    rw [found_step]
    exact (h.nodup_left s).sublist ((List.dropWhile_sublist _).map _)
  room := by
    rw [found_step, limits_step]
    exact (List.dropWhile_sublist _).length_le.trans (h.length_left_le s)

end Orderly

/-- What is left after a step was found before and the step does not concern it, or is new. -/
theorem Orderly.mem_left (h : k.Orderly) (he : e ∈ k.left s) :
    (e ∈ k.found ∧ ¬ s.Names e.tx ∧ e.tx ∉ k.pushesOut s) ∨
      s = .record e.tx e.failure ∧ e.time = k.now := by
  cases s with
  | record tx failure =>
    have hplaced := h.nodup_placed tx failure
    have hmem : e ∈ k.placed tx failure := List.mem_of_mem_drop he
    by_cases htx : e.tx = tx
    · right
      obtain rfl : e = ⟨tx, failure, k.now⟩ :=
        List.inj_on_of_nodup_map hplaced hmem (Rejections.mem_place_self _ _) htx
      exact ⟨rfl, rfl⟩
    · left
      refine ⟨(Rejections.mem_place hmem).resolve_right fun heq => htx (heq ▸ rfl),
        fun hnames => htx hnames.symm, fun hpushed => ?_⟩
      rw [map_placed, List.nodup_append] at hplaced
      exact hplaced.2.2 _ hpushed _ (List.mem_map_of_mem he) rfl
  | take tx =>
    obtain ⟨hfound, htx⟩ := List.mem_filter.1 he
    refine Or.inl ⟨hfound, fun hnames => ?_, List.not_mem_nil⟩
    simp [show tx = e.tx from hnames] at htx
  | advance us => exact Or.inl ⟨he, id, List.not_mem_nil⟩

theorem mem_left_of_found (he : e ∈ k.found) (hnames : ¬ s.Names e.tx)
    (hpushed : e.tx ∉ k.pushesOut s) : e ∈ k.left s := by
  cases s with
  | record tx failure =>
    have hmem : e ∈ k.placed tx failure := Rejections.mem_place_of_ne he fun heq => hnames heq.symm
    exact (mem_pushesOut_or_left hmem).resolve_left hpushed
  | take tx =>
    refine List.mem_filter.2 ⟨he, ?_⟩
    simpa using fun heq : e.tx = tx => hnames heq.symm
  | advance us => exact he

/-- Where a failure is recorded of a transaction that is not found, and all places are taken, the
first has to go; otherwise nobody has. -/
theorem Orderly.pushesOut_record (h : k.Orderly) (hroom : 0 < k.kept.limits.maxEntries)
    (tx : TxId) (failure : Failure) :
    (k.pushesOut (.record tx failure) = [] ∧
      (k.Finds tx ∨ k.found.length < k.kept.limits.maxEntries)) ∨
    ∃ e es, k.found = e :: es ∧ k.pushesOut (.record tx failure) = [e.tx] ∧ ¬ k.Finds tx ∧
      k.found.length = k.kept.limits.maxEntries := by
  have hbound := h.room
  have hlength := k.length_placed tx failure
  rw [finds_iff]
  by_cases hfree : tx ∈ k.found.map Recorded.tx ∨ k.found.length < k.kept.limits.maxEntries
  · have hnone : k.excess tx failure = 0 := by
      rw [excess, hlength]
      rcases hfree with htx | hlt
      · rw [if_pos htx]
        omega
      · split <;> omega
    exact Or.inl ⟨by simp [pushesOut, hnone], hfree⟩
  · obtain ⟨htx, hfull⟩ := not_or.1 hfree
    obtain ⟨e, es, hfound⟩ : ∃ e es, k.found = e :: es :=
      List.exists_cons_of_length_pos (by omega)
    have hone : k.excess tx failure = 1 := by
      rw [excess, hlength, if_neg htx]
      omega
    have hhead : (k.placed tx failure).take 1 = [e] := by
      have hne : e.tx ≠ tx := fun heq => htx (by simp [hfound, heq])
      rw [placed, hfound, Rejections.place, if_neg hne]
      rfl
    refine Or.inr ⟨e, es, hfound, ?_, htx, by omega⟩
    rw [pushesOut, hone, hhead]
    rfl

/-- There is room for what is recorded. -/
theorem Orderly.mem_left_record (h : k.Orderly) (hroom : 0 < k.kept.limits.maxEntries)
    (tx : TxId) (failure : Failure) :
    (⟨tx, failure, k.now⟩ : Recorded) ∈ k.left (.record tx failure) := by
  refine (mem_pushesOut_or_left (Rejections.mem_place_self _ _)).resolve_left fun hpushed => ?_
  rcases h.pushesOut_record hroom tx failure with ⟨hnone, -⟩ | ⟨e, es, hfound, hfirst, htx, -⟩
  · rw [hnone] at hpushed
    cases hpushed
  · rw [hfirst, List.mem_singleton] at hpushed
    exact htx (finds_iff.2 (by simp [hfound, hpushed.symm]))

/-- Those that have to go are counted. -/
theorem overflowed_step (k : Shelf) (s : ShelfStep) :
    (k.step s).kept.counts.overflowed = k.kept.counts.overflowed + (k.pushesOut s).length := by
  cases s with
  | record tx failure =>
    have hle : k.excess tx failure ≤ (k.placed tx failure).length := Nat.sub_le _ _
    rw [pushesOut, List.length_map, List.length_take, Nat.min_eq_left hle]
    rfl
  | take tx =>
    show (k.kept.take k.now tx).2.counts.overflowed = _
    unfold Rejections.take
    dsimp only
    cases (k.kept.expire k.now).entries.find? fun e => e.tx == tx <;> rfl
  | advance us => rfl

end Shelf

end MetadataArchive
