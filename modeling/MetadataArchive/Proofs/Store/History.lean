import Mathlib.Data.List.Induction
import MetadataArchive.Store.History

/-!
# What a pinned reader sees of a history

Histories grow at the end and are cut at the front. `visible_concat` says how one more version
changes what a reader sees, and with it everything here goes by induction on the versions, the last
one first. Cutting a history at an eviction that a reader has passed changes nothing for that reader
(`visible_afterLast`), which is all that pruning relies on.

`visible_eq_lastBetween` is the second description of the same view: by transaction numbers alone,
with no word about positions in a list.
-/

set_option autoImplicit false

namespace MetadataArchive

namespace History

variable {test test' : Version → Bool} {pin : Pin} {h : History} {v : Version}

@[simp] theorem afterLast_nil (test : Version → Bool) : afterLast test [] = [] := rfl

theorem afterLast_concat (test : Version → Bool) (h : History) (v : Version) :
    afterLast test (h ++ [v]) = if test v then [] else afterLast test h ++ [v] := by
  unfold afterLast
  rw [List.reverse_append, List.reverse_singleton, List.singleton_append, List.takeWhile_cons]
  cases test v <;> simp

theorem afterLast_sublist (test : Version → Bool) (h : History) : (afterLast test h).Sublist h := by
  have hsub := (List.takeWhile_sublist (fun v => !test v) (l := h.reverse)).reverse
  rwa [List.reverse_reverse] at hsub

theorem mem_of_mem_afterLast (hv : v ∈ afterLast test h) : v ∈ h :=
  (afterLast_sublist test h).subset hv

/-- Cutting twice is cutting once, where the first cut is at no other versions than the second. -/
theorem afterLast_afterLast (himp : ∀ v ∈ h, test' v = true → test v = true) :
    afterLast test (afterLast test' h) = afterLast test h := by
  induction h using List.reverseRecOn with
  | nil => rfl
  | append_singleton h v ih =>
    have hv := himp v (by simp)
    have ih := ih fun w hw => himp w (by simp [hw])
    rw [afterLast_concat test', afterLast_concat test]
    split
    next ht' => rw [if_pos (hv ht'), afterLast_nil]
    next => rw [afterLast_concat, ih]

@[simp] theorem visible_nil (pin : Pin) : visible pin [] = none := rfl

/-- One more version hides everything where it is an eviction by the reader's horizon, shows itself
where it is within the reader's basis, and is overlooked otherwise. -/
theorem visible_concat (pin : Pin) (h : History) (v : Version) :
    visible pin (h ++ [v]) =
      if v.isEvictionBy pin.horizon then none
      else if v.tx ≤ pin.basis then v.doc
      else visible pin h := by
  unfold visible
  rw [afterLast_concat]
  split
  · rfl
  · rw [List.reverse_append, List.reverse_singleton, List.singleton_append, List.find?_cons]
    by_cases hb : v.tx ≤ pin.basis <;> simp [hb]

/-- To a reader that has passed an eviction it is as though nothing had been written before. -/
theorem visible_append_of_evicted {new : History} (hv : v.isEvictionBy pin.horizon = true) :
    visible pin (h ++ v :: new) = visible pin new := by
  induction new using List.reverseRecOn with
  | nil => rw [visible_concat, if_pos hv, visible_nil]
  | append_singleton new w ih =>
    rw [← List.cons_append, ← List.append_assoc, visible_concat, visible_concat, ih]

theorem visible_afterLast (himp : ∀ v ∈ h, test v = true → v.isEvictionBy pin.horizon = true) :
    visible pin (afterLast test h) = visible pin h := by
  unfold visible
  rw [afterLast_afterLast himp]

/-- Pruning is invisible to a reader that has passed every eviction it cuts at. -/
theorem visible_prune {oldest : Option Nat} (hall : oldest = none → ∀ v ∈ h, v.tx ≤ pin.horizon)
    (hsome : ∀ n, oldest = some n → n ≤ pin.horizon) :
    visible pin (h.prune oldest) = visible pin h := by
  apply visible_afterLast
  intro v hv ht
  cases oldest with
  | none => simpa [Version.isEvictionBy, hall rfl v hv] using ht
  | some n =>
    simp only [Version.isEvictionBy, Bool.and_eq_true, decide_eq_true_eq] at ht ⊢
    exact ⟨ht.1, Nat.le_trans ht.2 (hsome n rfl)⟩

theorem mem_of_mem_prune {oldest : Option Nat} (hv : v ∈ h.prune oldest) : v ∈ h :=
  mem_of_mem_afterLast hv

/-- A reader that is past all versions sees what the last one holds. -/
theorem visible_of_le {b : Nat} (hle : ∀ v ∈ h, v.tx ≤ b) (hb : b ≤ pin.basis)
    (hh : b ≤ pin.horizon) : visible pin h = h.getLast?.bind Version.doc := by
  induction h using List.reverseRecOn with
  | nil => rfl
  | append_singleton h v _ =>
    have hv : v.tx ≤ b := hle v (by simp)
    rw [visible_concat, List.getLast?_concat, if_pos (Nat.le_trans hv hb)]
    cases hd : v.doc <;>
      simp [Version.isEvictionBy, Version.isEviction, hd, Nat.le_trans hv hh]

theorem isLive_eq (h : History) : h.isLive = (h.getLast?.bind Version.doc).isSome := by
  unfold isLive
  cases h.getLast? with
  | none => rfl
  | some v => cases hd : v.doc <;> simp [Version.isEviction, hd]

/-- The versions with a document added, or with an eviction where there is something to evict. -/
def recorded (h : History) (v : Version) : History :=
  if v.doc.isSome || h.isLive then h ++ [v] else h

theorem mem_of_mem_recorded {w : Version} (hw : w ∈ h.recorded v) : w ∈ h ∨ w = v := by
  unfold recorded at hw
  split at hw
  · exact (List.mem_append.1 hw).imp_right List.mem_singleton.1
  · exact Or.inl hw

/-- An eviction of what is not there shows no more than its absence. -/
theorem visible_recorded {b : Nat} (hle : ∀ w ∈ h, w.tx ≤ b) (hb : b < v.tx)
    (hpin : pin.basis ≤ pin.horizon) :
    visible pin (h.recorded v) = visible pin (h ++ [v]) := by
  unfold recorded
  split
  · rfl
  next hc =>
    simp only [Bool.or_eq_true, not_or, Bool.not_eq_true, Option.isSome_eq_false_iff,
      Option.isNone_iff_eq_none] at hc
    obtain ⟨hdoc, hlive⟩ := hc
    rw [visible_concat]
    by_cases hh : v.tx ≤ pin.horizon
    · have hev : v.isEvictionBy pin.horizon = true := by
        simp [Version.isEvictionBy, Version.isEviction, hdoc, hh]
      rw [if_pos hev]
      -- The history ends with an eviction that the reader has passed as well.
      induction h using List.reverseRecOn with
      | nil => rfl
      | append_singleton h w _ =>
        have hw : w.tx ≤ pin.horizon := by
          have := hle w (by simp)
          omega
        have hwdoc : w.doc = none := by simpa [isLive_eq] using hlive
        rw [visible_concat, if_pos (by simp [Version.isEvictionBy, Version.isEviction, hwdoc, hw])]
    · have hev : v.isEvictionBy pin.horizon = false := by
        simp [Version.isEvictionBy, hh]
      rw [hev, if_neg (by simp), if_neg (by omega)]

/-! ## The view by transaction numbers -/

/-- The number of the last eviction at or before a horizon; zero where there is none. -/
def evictedAt (horizon : Nat) (h : History) : Nat :=
  ((h.filter fun v => v.doc.isNone && v.tx ≤ horizon).getLast?.map Version.tx).getD 0

/-- What the last version wrote that is numbered above `low` and not above `high`. -/
def lastBetween (low high : Nat) (h : History) : Option Document :=
  (h.filter fun v => low < v.tx && v.tx ≤ high).getLast?.bind Version.doc

/-- The numbers of the versions ascend from one. -/
def Numbered (h : History) : Prop := h.Pairwise (fun v w => v.tx < w.tx) ∧ ∀ v ∈ h, 0 < v.tx

theorem numbered_concat :
    Numbered (h ++ [v]) ↔ Numbered h ∧ (∀ w ∈ h, w.tx < v.tx) ∧ 0 < v.tx := by
  simp only [Numbered, List.pairwise_append, List.mem_append, List.mem_singleton]
  constructor
  · rintro ⟨⟨hp, -, hlt⟩, hpos⟩
    exact ⟨⟨hp, fun w hw => hpos w (Or.inl hw)⟩, fun w hw => hlt w hw v rfl, hpos v (Or.inr rfl)⟩
  · rintro ⟨⟨hp, hpos⟩, hlt, hv⟩
    refine ⟨⟨hp, List.pairwise_singleton _ _, fun w hw u hu => hu ▸ hlt w hw⟩, ?_⟩
    rintro w (hw | rfl)
    · exact hpos w hw
    · exact hv

theorem evictedAt_lt {horizon n : Nat} (hn : 0 < n) (hlt : ∀ w ∈ h, w.tx < n) :
    evictedAt horizon h < n := by
  unfold evictedAt
  cases hl : (h.filter fun v => v.doc.isNone && v.tx ≤ horizon).getLast? with
  | none => simpa using hn
  | some w => simpa using hlt w (List.mem_filter.1 (List.mem_of_getLast? hl)).1

theorem evictedAt_concat (horizon : Nat) (h : History) (v : Version) :
    evictedAt horizon (h ++ [v]) =
      if v.isEvictionBy horizon then v.tx else evictedAt horizon h := by
  have hev : (v.doc.isNone && decide (v.tx ≤ horizon)) = v.isEvictionBy horizon := rfl
  unfold evictedAt
  rw [List.filter_append, List.filter_cons, List.filter_nil, hev]
  cases v.isEvictionBy horizon <;> simp

/-- **What a reader sees, by numbers**: of the versions above the last eviction by its horizon, the
last one by its basis. -/
theorem visible_eq_lastBetween (hnum : Numbered h) :
    visible pin h = lastBetween (evictedAt pin.horizon h) pin.basis h := by
  induction h using List.reverseRecOn with
  | nil => rfl
  | append_singleton h v ih =>
    obtain ⟨hh, hlt, hpos⟩ := numbered_concat.1 hnum
    rw [visible_concat, evictedAt_concat]
    split
    · -- No version is numbered above the last.
      have hnone : (h ++ [v]).filter
          (fun w => decide (v.tx < w.tx) && decide (w.tx ≤ pin.basis)) = [] := by
        refine List.filter_eq_nil_iff.2 fun w hw => ?_
        rcases List.mem_append.1 hw with hw | hw
        · have := hlt w hw
          simp; omega
        · rw [List.mem_singleton.1 hw]
          simp
      unfold lastBetween
      rw [hnone]
      rfl
    · have hcut : evictedAt pin.horizon h < v.tx := evictedAt_lt hpos hlt
      unfold lastBetween
      rw [List.filter_append]
      split
      next hb => simp [hcut, hb]
      next hb =>
        rw [ih hh]
        simp [hb, lastBetween]

end History

end MetadataArchive
