import MetadataArchive.Lifecycle.Rejections
import MetadataArchive.Proofs.Collection.Bounded

/-!
# Who was rejected hears of it

A failure that was recorded is the last of all, and what is dropped for age or for want of room is
dropped from the front. So whoever takes the failure of a transaction at once gets one, if any was
recorded under its number, as long as there is room for one and failures do not age in no time.
While the clock stands still nothing is dropped for age, and the failures are a list with room for
so many (`record_entries`, `take_entries`).
-/

set_option autoImplicit false

namespace MetadataArchive.Rejections

variable {r : Rejections} {now : Nat} {tx : TxId} {failure : Failure} {e : Recorded}

/-- Nothing is kept under a number. -/
def Fresh (tx : TxId) (r : Rejections) : Prop := ∀ e ∈ r.entries, e.tx ≠ tx

/-- The last failure of all was recorded just now, and it is the only one of its transaction. -/
def Held (now : Nat) (tx : TxId) (r : Rejections) : Prop :=
  ∃ es e, r.entries = es ++ [e] ∧ e.tx = tx ∧ e.time = now ∧ ∀ d ∈ es, d.tx ≠ tx

/-! ## What is kept -/

theorem place_append {es ds : List Recorded} (h : ∀ d ∈ es, d.tx ≠ e.tx) :
    place e (es ++ ds) = es ++ place e ds := by
  induction es with
  | nil => rfl
  | cons d es ih =>
    rw [List.cons_append, place, if_neg (h d (by simp)),
      ih fun d' hd => h d' (List.mem_cons_of_mem _ hd), List.cons_append]

theorem mem_place {d : Recorded} {ds : List Recorded} (h : d ∈ place e ds) : d ∈ ds ∨ d = e := by
  induction ds with
  | nil => exact Or.inr (List.mem_singleton.1 h)
  | cons d' ds ih =>
    unfold place at h
    split at h
    · rcases List.mem_cons.1 h with rfl | h
      · exact Or.inr rfl
      · exact Or.inl (List.mem_cons_of_mem _ h)
    · rcases List.mem_cons.1 h with rfl | h
      · exact Or.inl (by simp)
      · exact (ih h).imp_left (List.mem_cons_of_mem _)

theorem mem_place_self (e : Recorded) (es : List Recorded) : e ∈ place e es := by
  induction es with
  | nil => exact List.mem_singleton.2 rfl
  | cons d es ih =>
    unfold place
    split
    · exact List.mem_cons_self
    · exact List.mem_cons_of_mem _ ih

theorem mem_place_of_ne {d : Recorded} {es : List Recorded} (he : e ∈ es) (htx : e.tx ≠ d.tx) :
    e ∈ place d es := by
  induction es with
  | nil => cases he
  | cons d' es ih =>
    unfold place
    rcases List.mem_cons.1 he with rfl | he
    · rw [if_neg htx]
      exact List.mem_cons_self
    · split
      · exact List.mem_cons_of_mem _ he
      · exact List.mem_cons_of_mem _ (ih he)

theorem map_place (e : Recorded) (es : List Recorded) :
    (place e es).map Recorded.tx =
      if e.tx ∈ es.map Recorded.tx then es.map Recorded.tx else es.map Recorded.tx ++ [e.tx] := by
  induction es with
  | nil => rfl
  | cons d es ih =>
    unfold place
    by_cases hd : d.tx = e.tx
    · simp [hd]
    · rw [if_neg hd, List.map_cons, ih, List.map_cons]
      simp only [List.mem_cons, Ne.symm hd, false_or]
      split <;> rfl

theorem isStale_mono {limits : RejectionLimits} {now now' : Nat} (hle : now ≤ now')
    (h : isStale limits now e = true) : isStale limits now' e = true := by
  simp only [isStale, decide_eq_true_eq] at h ⊢
  omega

theorem mem_expire (h : e ∈ (r.expire now).entries) : e ∈ r.entries :=
  List.dropWhile_subset _ h

theorem mem_record (h : e ∈ (r.record now tx failure).entries) : e ∈ r.entries ∨ e.tx = tx := by
  rcases mem_place (List.mem_of_mem_drop h) with h | rfl
  · exact Or.inl (mem_expire h)
  · exact Or.inr rfl

theorem mem_take (h : e ∈ (r.take now tx).2.entries) : e ∈ r.entries := by
  unfold take at h
  dsimp only at h
  split at h
  · exact mem_expire h
  · exact mem_expire (List.mem_filter.1 h).1

@[simp] theorem record_limits : (r.record now tx failure).limits = r.limits := rfl

@[simp] theorem take_limits : (r.take now tx).2.limits = r.limits := by
  unfold take
  dsimp only
  split <;> rfl

theorem foldl_record_limits (failures : List Failure) (r : Rejections) :
    (failures.foldl (fun r failure => r.record now tx failure) r).limits = r.limits := by
  induction failures generalizing r with
  | nil => rfl
  | cons failure failures ih => rw [List.foldl_cons, ih, record_limits]

theorem mem_foldl_record {failures : List Failure}
    (h : e ∈ (failures.foldl (fun r failure => r.record now tx failure) r).entries) :
    e ∈ r.entries ∨ e.tx = tx := by
  induction failures generalizing r with
  | nil => exact Or.inl h
  | cons failure failures ih =>
    rcases ih h with h | h
    · exact mem_record h
    · exact Or.inr h

/-! ## What is taken -/

theorem Held.expire (h : r.Held now tx) (httl : 0 < r.limits.ttlMs) :
    (r.expire now).Held now tx := by
  obtain ⟨es, e, hentries, htx, htime, hothers⟩ := h
  have hstale : isStale r.limits now e = false := by
    simp [isStale, htime]
    omega
  have hlast : [e].dropWhile (isStale r.limits now) = [e] := by simp [hstale]
  refine ⟨es.dropWhile (isStale r.limits now), e, ?_, htx, htime, fun d hd => ?_⟩
  · show r.entries.dropWhile _ = _
    rw [hentries, List.dropWhile_append, hlast]
    split
    next hnil => simp [List.isEmpty_iff.1 hnil]
    next => rfl
  · exact hothers d (List.dropWhile_subset _ hd)

theorem Held.overflow (h : r.Held now tx) (hmax : 0 < r.limits.maxEntries) :
    r.overflow.Held now tx := by
  obtain ⟨es, e, hentries, htx, htime, hothers⟩ := h
  refine ⟨es.drop (r.entries.length - r.limits.maxEntries), e, ?_, htx, htime, fun d hd => ?_⟩
  · have hroom : (es ++ [e]).length - r.limits.maxEntries ≤ es.length := by
      simp
      omega
    show r.entries.drop _ = _
    rw [hentries, List.drop_append_of_le_length hroom]
  · exact hothers d (List.mem_of_mem_drop hd)

theorem held_record (h : r.Fresh tx ∨ r.Held now tx) (httl : 0 < r.limits.ttlMs)
    (hmax : 0 < r.limits.maxEntries) : (r.record now tx failure).Held now tx := by
  refine Held.overflow ?_ hmax
  rcases h with hfresh | hheld
  · have hothers : ∀ d ∈ (r.expire now).entries, d.tx ≠ tx := fun d hd => hfresh d (mem_expire hd)
    refine ⟨(r.expire now).entries, ⟨tx, failure, now⟩, ?_, rfl, rfl, hothers⟩
    have hplace : place ⟨tx, failure, now⟩ ((r.expire now).entries ++ []) = _ :=
      place_append hothers
    rwa [List.append_nil] at hplace
  · obtain ⟨es, e, hentries, htx, -, hothers⟩ := hheld.expire httl
    refine ⟨es, ⟨tx, failure, now⟩, ?_, rfl, rfl, hothers⟩
    show place _ (r.expire now).entries = _
    rw [hentries, place_append hothers, place, if_pos htx]

/-- Of all failures of a transaction that are recorded at one time, one is kept. -/
theorem held_foldl_record {failures : List Failure} (h : r.Fresh tx ∨ r.Held now tx)
    (hne : failures ≠ [] ∨ r.Held now tx) (httl : 0 < r.limits.ttlMs)
    (hmax : 0 < r.limits.maxEntries) :
    (failures.foldl (fun r failure => r.record now tx failure) r).Held now tx := by
  induction failures generalizing r with
  | nil => exact hne.resolve_left (by simp)
  | cons failure failures ih =>
    have hheld : (r.record now tx failure).Held now tx := held_record h httl hmax
    exact ih (Or.inr hheld) (Or.inr hheld) httl hmax

theorem take_of_held (h : r.Held now tx) (httl : 0 < r.limits.ttlMs) :
    ∃ failure, (r.take now tx).1 = some failure := by
  obtain ⟨es, e, hentries, htx, -, hothers⟩ := h.expire httl
  have hfind : (r.expire now).entries.find? (fun e => e.tx == tx) = some e := by
    rw [hentries, List.find?_append, List.find?_eq_none.2 (by simpa using hothers)]
    simp [htx]
  refine ⟨e.failure, ?_⟩
  unfold take
  simp only [hfind]

/-- There is nothing to take exactly where nothing that is recent enough is kept. -/
theorem take_eq_none_iff : (r.take now tx).1 = none ↔ (r.expire now).Fresh tx := by
  unfold take Fresh
  dsimp only
  cases hfind : (r.expire now).entries.find? fun e => e.tx == tx with
  | none =>
    refine iff_of_true rfl fun e he => ?_
    simpa using List.find?_eq_none.1 hfind e he
  | some e =>
    refine iff_of_false (by simp) fun hfresh => ?_
    exact hfresh e (List.mem_of_find?_eq_some hfind) (by simpa using List.find?_some hfind)

theorem take_of_fresh (h : r.Fresh tx) : (r.take now tx).1 = none :=
  take_eq_none_iff.2 fun e he => h e (mem_expire he)

/-! ## While the clock stands still -/

/-- All that is kept was recorded at one time. -/
def Recent (now : Nat) (r : Rejections) : Prop := ∀ e ∈ r.entries, e.time = now

theorem expire_recent (h : r.Recent now) (httl : 0 < r.limits.ttlMs) :
    (r.expire now).entries = r.entries := by
  refine List.dropWhile_eq_self_iff.2 fun hlt => ?_
  have htime : r.entries[0].time = now := h _ (List.getElem_mem hlt)
  simp [isStale, htime]
  omega

theorem record_entries (h : r.Recent now) (httl : 0 < r.limits.ttlMs) (hfresh : r.Fresh tx) :
    (r.record now tx failure).entries =
      (r.entries ++ [(⟨tx, failure, now⟩ : Recorded)]).rtake r.limits.maxEntries := by
  have hplace : place ⟨tx, failure, now⟩ (r.entries ++ []) = _ := place_append hfresh
  rw [List.append_nil] at hplace
  show List.rtake (place ⟨tx, failure, now⟩ (r.expire now).entries) r.limits.maxEntries = _
  rw [expire_recent h httl, hplace]
  rfl

theorem Recent.record (h : r.Recent now) : (r.record now tx failure).Recent now := by
  intro e he
  rcases mem_place (List.mem_of_mem_drop he) with he | rfl
  · exact h e (mem_expire he)
  · rfl

theorem Recent.take (h : r.Recent now) : (r.take now tx).2.Recent now := fun e he =>
  h e (mem_take he)

theorem take_entries (h : r.Recent now) (httl : 0 < r.limits.ttlMs) :
    (r.take now tx).1 = (r.entries.find? fun e => e.tx == tx).map Recorded.failure ∧
      (r.take now tx).2.entries = r.entries.filter fun e => e.tx != tx := by
  unfold take
  dsimp only
  rw [expire_recent h httl]
  cases hfind : r.entries.find? fun e => e.tx == tx with
  | some e => exact ⟨rfl, rfl⟩
  | none =>
    refine ⟨rfl, ?_⟩
    dsimp only
    rw [expire_recent h httl, List.filter_eq_self.2]
    exact fun e he => by simpa using List.find?_eq_none.1 hfind e he

end MetadataArchive.Rejections
