import MetadataArchive.Proofs.Lifecycle.Register
import MetadataArchive.Proofs.Lifecycle.Shelf

/-!
# Every rejection is accounted for

A register keeps rejections in a map and in a queue, and counts what becomes of them. Whatever is
recorded and taken, and however much time passes, the queue lists the transactions of the map, each
once, there are no more of them than there may be, and every rejection that was recorded is in one
of the counts, still held, or was replaced while it was held (`rejections_are_accounted_for`).

The invariant is `Register.InStep`, and it is kept by each turn of the two loops, which is why they
are looked at turn by turn. In step, a register shows a list of rejections (`Register.view`), and
what is done to the register is done to the list.
-/

set_option autoImplicit false

namespace MetadataArchive

namespace Register

variable {r r' : Register} {now : Nat} {tx : TxId} {failure : Failure} {n : Nat}

/-! ## In step -/

/-- The queue lists the transactions of the map, each once, and no others. -/
structure InStep (r : Register) : Prop where
  nodup : r.order.Nodup
  mem_iff : ∀ tx, tx ∈ r.order ↔ tx ∈ r.entries

theorem InStep.count_order (h : r.InStep) (tx : TxId) :
    r.order.count tx = if tx ∈ r.entries then 1 else 0 := by
  rw [List.Nodup.count h.nodup]
  simp only [h.mem_iff]

theorem InStep.size_eq (h : r.InStep) : r.size = r.order.length := by
  have hkeys : r.entries.keys = r.order.toFinset := by
    ext tx
    rw [Finmap.mem_keys, List.mem_toFinset, h.mem_iff]
  rw [size, hkeys, List.toFinset_card_of_nodup h.nodup]

theorem InStep.exists_lookup (h : r.InStep) (htx : tx ∈ r.order) :
    ∃ failure time, r.entries.lookup tx = some (failure, time) := by
  obtain ⟨⟨failure, time⟩, hlookup⟩ := Finmap.mem_iff.1 ((h.mem_iff tx).1 htx)
  exact ⟨failure, time, hlookup⟩

/-- A transaction is dropped from both. -/
structure Drops (tx : TxId) (r r' : Register) : Prop where
  entries : r'.entries = r.entries.erase tx
  order : r'.order = r.order.filter (· != tx)
  limits : r'.limits = r.limits

theorem InStep.drops (h : r.InStep) (hdrops : Drops tx r r') : r'.InStep where
  nodup := hdrops.order ▸ h.nodup.sublist List.filter_sublist
  mem_iff tx' := by
    rw [hdrops.entries, hdrops.order, Finmap.mem_erase, ← h.mem_iff, List.mem_filter, bne_iff_ne,
      and_comm]

/-- Where the queue has it once, the first transaction is dropped with the head of the queue. -/
theorem InStep.drops_head (h : r.InStep) (hentries : r'.entries = r.entries.erase tx)
    (horder : r.order = tx :: r'.order) (hlimits : r'.limits = r.limits) : Drops tx r r' := by
  refine ⟨hentries, ?_, hlimits⟩
  have hnodup := h.nodup
  rw [horder, List.nodup_cons] at hnodup
  rw [horder, List.filter_cons_of_neg (by simp), List.filter_eq_self.2]
  exact fun tx' htx' => bne_iff_ne.2 fun heq => hnodup.1 (heq ▸ htx')

theorem InStep.put (h : r.InStep) (now : Nat) (tx : TxId) (failure : Failure) :
    (r.put now tx failure).InStep := by
  unfold Register.put
  by_cases htx : tx ∈ r.entries
  · rw [if_pos htx]
    refine ⟨h.nodup, fun tx' => ?_⟩
    rw [Finmap.mem_insert, h.mem_iff]
    exact ⟨Or.inr, fun hmem => hmem.elim (fun heq => heq ▸ htx) id⟩
  · rw [if_neg htx]
    refine ⟨?_, fun tx' => ?_⟩
    · have hnew : tx ∉ r.order := fun hmem => htx ((h.mem_iff tx).1 hmem)
      exact List.nodup_append.2 ⟨h.nodup, List.nodup_singleton tx, fun a ha b hb heq =>
        hnew (List.mem_singleton.1 hb ▸ heq ▸ ha)⟩
    · rw [Finmap.mem_insert, ← h.mem_iff, List.mem_append, List.mem_singleton, or_comm]

/-! ## Turns -/

/-- A turn drops the first transaction, which is too old. -/
theorem InStep.expireTurn_eq_some (h : r.InStep) (hturn : expireTurn now r = some r') :
    ∃ tx failure time, r.order = tx :: r'.order ∧ Drops tx r r' ∧
      r.entries.lookup tx = some (failure, time) ∧ r.limits.ttlMs * 1000 ≤ now - time ∧
      r'.counts = { r.counts with expired := r.counts.expired + 1 } := by
  unfold expireTurn at hturn
  split at hturn
  · cases hturn
  next tx rest horder =>
    have hfirst : tx ∈ r.order := by simp [horder]
    obtain ⟨failure, time, hlookup⟩ := h.exists_lookup hfirst
    simp only [hlookup] at hturn
    split at hturn
    · cases hturn
    next hold =>
      obtain rfl := Option.some.inj hturn
      exact ⟨tx, failure, time, horder, h.drops_head rfl horder rfl, hlookup,
        Nat.not_lt.1 hold, rfl⟩

/-- There is no turn where the first transaction is recent. -/
theorem InStep.expireTurn_eq_none (h : r.InStep) (hturn : expireTurn now r = none) :
    r.order = [] ∨ ∃ tx rest failure time, r.order = tx :: rest ∧
      r.entries.lookup tx = some (failure, time) ∧ now - time < r.limits.ttlMs * 1000 := by
  cases horder : r.order with
  | nil => exact Or.inl rfl
  | cons tx rest =>
    have hfirst : tx ∈ r.order := by simp [horder]
    obtain ⟨failure, time, hlookup⟩ := h.exists_lookup hfirst
    refine Or.inr ⟨tx, rest, failure, time, rfl, hlookup, ?_⟩
    by_contra hold
    simp [expireTurn, horder, hlookup, hold] at hturn

/-- A turn drops the first transaction of too many. -/
theorem InStep.overflowTurn_eq_some (h : r.InStep) (hturn : overflowTurn r = some r') :
    r.limits.maxEntries < r.size ∧ ∃ tx, r.order = tx :: r'.order ∧ Drops tx r r' ∧
      r'.counts = { r.counts with overflowed := r.counts.overflowed + 1 } := by
  unfold overflowTurn at hturn
  split at hturn
  next hmany =>
    split at hturn
    · cases hturn
    next tx rest horder =>
      have hmem : tx ∈ r.entries := (h.mem_iff tx).1 (by simp [horder])
      rw [if_pos hmem] at hturn
      obtain rfl := Option.some.inj hturn
      exact ⟨hmany, tx, horder, h.drops_head rfl horder rfl, rfl⟩
  · cases hturn

/-- There is no turn where there is room for all. -/
theorem InStep.overflowTurn_eq_none (h : r.InStep) (hturn : overflowTurn r = none) :
    r.size ≤ r.limits.maxEntries := by
  by_contra hmany
  rw [h.size_eq] at hmany
  obtain ⟨tx, rest, horder⟩ : ∃ tx rest, r.order = tx :: rest :=
    List.exists_cons_of_length_pos (by omega)
  rw [← h.size_eq, Nat.not_le] at hmany
  rw [overflowTurn, if_pos hmany, horder] at hturn
  dsimp only at hturn
  split at hturn <;> cases hturn

/-! ## The list that a register shows -/

/-- The rejection of a transaction. -/
def recorded? (r : Register) (tx : TxId) : Option Recorded :=
  (r.entries.lookup tx).map fun e => ⟨tx, e.1, e.2⟩

def view (r : Register) : Rejections := ⟨r.limits, r.order.filterMap r.recorded?, r.counts⟩

theorem recorded?_eq_some {time : Nat} (hlookup : r.entries.lookup tx = some (failure, time)) :
    r.recorded? tx = some ⟨tx, failure, time⟩ := by
  rw [recorded?, hlookup, Option.map_some]

theorem tx_of_recorded? {e : Recorded} (h : r.recorded? tx = some e) : e.tx = tx := by
  obtain ⟨_, -, rfl⟩ := Option.map_eq_some_iff.1 h
  rfl

theorem tx_mem_of_mem_filterMap {e : Recorded} {txs : List TxId}
    (h : e ∈ txs.filterMap r.recorded?) : e.tx ∈ txs := by
  obtain ⟨tx, htx, he⟩ := List.mem_filterMap.1 h
  exact tx_of_recorded? he ▸ htx

theorem Drops.recorded? {tx' : TxId} (hdrops : Drops tx r r') (hne : tx' ≠ tx) :
    r'.recorded? tx' = r.recorded? tx' := by
  rw [Register.recorded?, Register.recorded?, hdrops.entries, Finmap.lookup_erase_ne hne]

theorem recorded?_put {tx' : TxId} (hne : tx' ≠ tx) :
    (r.put now tx failure).recorded? tx' = r.recorded? tx' := by
  rw [recorded?, recorded?, put, Finmap.lookup_insert_of_ne _ hne]

theorem recorded?_put_self : (r.put now tx failure).recorded? tx = some ⟨tx, failure, now⟩ := by
  rw [recorded?, put, Finmap.lookup_insert]
  rfl

theorem filterMap_recorded?_put {txs : List TxId} (htx : tx ∉ txs) :
    txs.filterMap (r.put now tx failure).recorded? = txs.filterMap r.recorded? :=
  List.filterMap_congr fun _ htx' => recorded?_put fun heq => htx (heq ▸ htx')

/-- In step, all of the queue is shown. -/
theorem InStep.map_view (h : r.InStep) : r.view.entries.map Recorded.tx = r.order := by
  have hshown : ∀ txs : List TxId, (∀ tx ∈ txs, tx ∈ r.order) →
      (txs.filterMap r.recorded?).map Recorded.tx = txs := by
    intro txs htxs
    induction txs with
    | nil => rfl
    | cons tx txs ih =>
      obtain ⟨htx, htxs⟩ := List.forall_mem_cons.1 htxs
      obtain ⟨failure, time, hlookup⟩ := h.exists_lookup htx
      rw [List.filterMap_cons_some (recorded?_eq_some hlookup), List.map_cons, ih htxs]
  exact hshown r.order fun _ h => h

theorem InStep.length_view (h : r.InStep) : r.view.entries.length = r.size := by
  rw [← List.length_map Recorded.tx, h.map_view, h.size_eq]

/-- Without a transaction a register shows the same without its rejection. -/
theorem Drops.view (hdrops : Drops tx r r') :
    r'.view.entries = r.view.entries.filter fun e => e.tx != tx := by
  rw [Register.view, Register.view, hdrops.order, List.filterMap_filter, List.filter_filterMap]
  refine List.filterMap_congr fun tx' _ => ?_
  by_cases htx : tx' = tx
  · rw [if_neg (by simp [htx])]
    refine (Option.filter_eq_none_iff.2 fun e he => ?_).symm
    simp [tx_of_recorded? he, htx]
  · rw [if_pos (bne_iff_ne.2 htx), hdrops.recorded? htx]
    cases hrecorded : r.recorded? tx' with
    | none => rfl
    | some e =>
      refine (Option.filter_some_pos ?_).symm
      rw [tx_of_recorded? hrecorded]
      exact bne_iff_ne.2 htx

/-- Before all others the rejection of the first transaction is shown. -/
theorem view_eq_cons {rest : List TxId} {time : Nat}
    (horder : r.order = tx :: rest) (hlookup : r.entries.lookup tx = some (failure, time)) :
    r.view.entries = ⟨tx, failure, time⟩ :: rest.filterMap r.recorded? := by
  rw [view, horder, List.filterMap_cons_some (recorded?_eq_some hlookup)]

/-- Behind it are those that are shown without it. -/
theorem InStep.view_eq_cons_of_drops (h : r.InStep) {time : Nat}
    (horder : r.order = tx :: r'.order) (hdrops : Drops tx r r')
    (hlookup : r.entries.lookup tx = some (failure, time)) :
    r.view.entries = ⟨tx, failure, time⟩ :: r'.view.entries := by
  rw [view_eq_cons horder hlookup, view]
  have hnodup := h.nodup
  rw [horder, List.nodup_cons] at hnodup
  refine congrArg _ (List.filterMap_congr fun tx' htx' => ?_)
  exact (hdrops.recorded? fun heq => hnodup.1 (heq ▸ htx')).symm

end Register

namespace Rejections

variable {s s' : Rejections} {now : Nat} {e : Recorded}

/-- To drop what is too old is to drop the first, if that is, and then the others. -/
theorem expire_eq_of_cons (hentries : s.entries = e :: s'.entries) (hlimits : s'.limits = s.limits)
    (hcounts : s'.counts = { s.counts with expired := s.counts.expired + 1 })
    (hstale : isStale s.limits now e = true) : s.expire now = s'.expire now := by
  have hle := (List.dropWhile_sublist (isStale s.limits now) (l := s'.entries)).length_le
  have hdrop : s.entries.dropWhile (isStale s.limits now) =
      s'.entries.dropWhile (isStale s.limits now) := by
    rw [hentries, List.dropWhile_cons_of_pos hstale]
  simp only [expire, hlimits, hcounts, hdrop, mk.injEq, RejectionCounts.mk.injEq, true_and,
    and_true]
  rw [hentries, List.length_cons]
  omega

theorem expire_eq_self (h : ∀ e ∈ s.entries.head?, isStale s.limits now e = false) :
    s.expire now = s := by
  have hdrop : s.entries.dropWhile (isStale s.limits now) = s.entries := by
    cases hentries : s.entries with
    | nil => rfl
    | cons e es =>
      rw [hentries] at h
      exact List.dropWhile_cons_of_neg (by simp [h e rfl])
  simp [expire, hdrop]

/-- To drop what is too much is to drop the first of too many, and then the others. -/
theorem overflow_eq_of_cons (hentries : s.entries = e :: s'.entries)
    (hlimits : s'.limits = s.limits)
    (hcounts : s'.counts = { s.counts with overflowed := s.counts.overflowed + 1 })
    (hmany : s.limits.maxEntries < s.entries.length) : s.overflow = s'.overflow := by
  have hexcess : s.entries.length - s.limits.maxEntries =
      s'.entries.length - s.limits.maxEntries + 1 := by
    rw [hentries, List.length_cons] at hmany ⊢
    omega
  simp only [overflow, hlimits, hcounts, hexcess, mk.injEq, RejectionCounts.mk.injEq, true_and]
  rw [hentries]
  exact ⟨rfl, by omega⟩

theorem overflow_eq_self (h : s.entries.length ≤ s.limits.maxEntries) : s.overflow = s := by
  simp [overflow, Nat.sub_eq_zero_of_le h]

end Rejections

namespace Register

variable {r r' : Register} {now : Nat} {tx : TxId} {failure : Failure} {n : Nat}

/-! ## Accounts -/

/-- The rejections that are held, and those that are gone other than by being replaced. -/
def accounted (r : Register) : Nat :=
  r.counts.taken + r.counts.expired + r.counts.overflowed + r.size

theorem Drops.size (hdrops : Drops tx r r') (htx : tx ∈ r.entries) : r'.size + 1 = r.size := by
  rw [Register.size, Register.size, hdrops.entries, Finmap.keys_erase]
  exact Finset.card_erase_add_one (Finmap.mem_keys.2 htx)

/-- What the turns of a loop keep of a register. -/
structure Keeps (r r' : Register) : Prop where
  inStep : r'.InStep
  limits : r'.limits = r.limits
  size_le : r'.size ≤ r.size
  recorded : r'.counts.recorded = r.counts.recorded
  accounted : r'.accounted = r.accounted

theorem Keeps.trans {r'' : Register} (h : Keeps r r') (h' : Keeps r' r'') : Keeps r r'' :=
  ⟨h'.inStep, h'.limits.trans h.limits, h'.size_le.trans h.size_le, h'.recorded.trans h.recorded,
    h'.accounted.trans h.accounted⟩

theorem InStep.keeps_self (h : r.InStep) : Keeps r r :=
  ⟨h, rfl, Nat.le_refl _, rfl, rfl⟩

/-- A transaction is dropped from both, and counted. -/
theorem InStep.keeps (h : r.InStep) (hdrops : Drops tx r r') (htx : tx ∈ r.entries)
    (hrecorded : r'.counts.recorded = r.counts.recorded)
    (hcounts : r'.counts.taken + r'.counts.expired + r'.counts.overflowed =
      r.counts.taken + r.counts.expired + r.counts.overflowed + 1) : Keeps r r' := by
  have hsize := hdrops.size htx
  refine ⟨h.drops hdrops, hdrops.limits, by omega, hrecorded, ?_⟩
  rw [accounted, accounted, hcounts]
  omega

/-- **What is too old is dropped** from the list, and the accounts stay as they are. -/
theorem InStep.expire (h : r.InStep) (now : Nat) :
    Keeps r (r.expire now) ∧ (r.expire now).view = r.view.expire now := by
  -- What the list comes to is the same after each turn, and after the last there is no more to do.
  have hturn : ∀ r₁ r₂, (Keeps r r₁ ∧ r₁.view.expire now = r.view.expire now) →
      expireTurn now r₁ = some r₂ → Keeps r r₂ ∧ r₂.view.expire now = r.view.expire now := by
    rintro r₁ r₂ ⟨hkeeps, hview⟩ hsome
    obtain ⟨tx, failure, time, horder, hdrops, hlookup, hold, hcounts⟩ :=
      hkeeps.inStep.expireTurn_eq_some hsome
    have hmem : tx ∈ r₁.entries := Finmap.mem_of_lookup_eq_some hlookup
    refine ⟨hkeeps.trans (hkeeps.inStep.keeps hdrops hmem (by rw [hcounts]) ?_), ?_⟩
    · simp only [hcounts]
      omega
    · rw [← hview]
      exact (Rejections.expire_eq_of_cons
        (hkeeps.inStep.view_eq_cons_of_drops horder hdrops hlookup)
        hdrops.limits hcounts (decide_eq_true hold)).symm
  have hrun := (expireLoop now).run_spec hturn ⟨h.keeps_self, rfl⟩
  change (Keeps r (r.expire now) ∧ (r.expire now).view.expire now = r.view.expire now) ∧
    expireTurn now (r.expire now) = none at hrun
  generalize r.expire now = r₁ at hrun
  obtain ⟨⟨hkeeps, hview⟩, hend⟩ := hrun
  refine ⟨hkeeps, (Rejections.expire_eq_self fun e he => ?_).symm.trans hview⟩
  rcases hkeeps.inStep.expireTurn_eq_none hend with
    hnil | ⟨tx, rest, failure, time, horder, hlookup, hrecent⟩
  · rw [view, hnil] at he
    cases he
  · rw [view_eq_cons horder hlookup] at he
    obtain rfl : _ = e := Option.some.inj he
    exact decide_eq_false (Nat.not_le.2 hrecent)

/-- **What is too much is dropped** from the list, and there is room for what stays. -/
theorem InStep.overflow (h : r.InStep) :
    Keeps r r.overflow ∧ r.overflow.view = r.view.overflow ∧
      r.overflow.size ≤ r.limits.maxEntries := by
  have hturn : ∀ r₁ r₂, (Keeps r r₁ ∧ r₁.view.overflow = r.view.overflow) →
      overflowTurn r₁ = some r₂ → Keeps r r₂ ∧ r₂.view.overflow = r.view.overflow := by
    rintro r₁ r₂ ⟨hkeeps, hview⟩ hsome
    obtain ⟨hmany, tx, horder, hdrops, hcounts⟩ := hkeeps.inStep.overflowTurn_eq_some hsome
    have hfirst : tx ∈ r₁.order := by simp [horder]
    obtain ⟨failure, time, hlookup⟩ := hkeeps.inStep.exists_lookup hfirst
    have hmem : tx ∈ r₁.entries := Finmap.mem_of_lookup_eq_some hlookup
    refine ⟨hkeeps.trans (hkeeps.inStep.keeps hdrops hmem (by rw [hcounts]) ?_), ?_⟩
    · simp only [hcounts]
      omega
    · rw [← hview]
      refine (Rejections.overflow_eq_of_cons
        (hkeeps.inStep.view_eq_cons_of_drops horder hdrops hlookup)
        hdrops.limits hcounts ?_).symm
      rw [hkeeps.inStep.length_view]
      exact hmany
  have hrun := overflowLoop.run_spec hturn ⟨h.keeps_self, rfl⟩
  change (Keeps r r.overflow ∧ r.overflow.view.overflow = r.view.overflow) ∧
    overflowTurn r.overflow = none at hrun
  generalize r.overflow = r₁ at hrun ⊢
  obtain ⟨⟨hkeeps, hview⟩, hend⟩ := hrun
  have hsize := hkeeps.inStep.overflowTurn_eq_none hend
  refine ⟨hkeeps, (Rejections.overflow_eq_self ?_).symm.trans hview, hkeeps.limits ▸ hsize⟩
  rw [hkeeps.inStep.length_view]
  exact hsize

/-! ## What is put down and what is taken -/

/-- A failure is put into the list where its transaction stands in the queue. -/
theorem InStep.view_put (h : r.InStep) (now : Nat) (tx : TxId) (failure : Failure) :
    (r.put now tx failure).view = { r.view with
      entries := Rejections.place ⟨tx, failure, now⟩ r.view.entries
      counts := { r.view.counts with recorded := r.view.counts.recorded + 1 } } := by
  have hothers : ∀ txs : List TxId, tx ∉ txs → ∀ e ∈ txs.filterMap r.recorded?, e.tx ≠ tx :=
    fun txs htx e he heq => htx (heq ▸ tx_mem_of_mem_filterMap he)
  suffices hplaced : (r.put now tx failure).view.entries =
      Rejections.place ⟨tx, failure, now⟩ r.view.entries by
    rw [← hplaced]
    rfl
  by_cases htx : tx ∈ r.entries
  -- The transaction stands in the queue once, so nothing before or behind it changes.
  · have hmem := (h.mem_iff tx).2 htx
    have horder : (r.put now tx failure).order = r.order := if_pos htx
    obtain ⟨failure', time, hlookup⟩ := h.exists_lookup hmem
    obtain ⟨before, after, hsplit⟩ := List.append_of_mem hmem
    have hnodup := h.nodup
    rw [hsplit, List.nodup_middle, List.nodup_cons, List.mem_append, not_or] at hnodup
    obtain ⟨⟨hbefore, hafter⟩, -⟩ := hnodup
    rw [view, view, horder, hsplit, List.filterMap_append, List.filterMap_append,
      List.filterMap_cons_some (recorded?_eq_some hlookup),
      List.filterMap_cons_some recorded?_put_self,
      filterMap_recorded?_put hbefore, filterMap_recorded?_put hafter,
      Rejections.place_append (hothers before hbefore), Rejections.place, if_pos rfl]
  · have hnew : tx ∉ r.order := fun hmem => htx ((h.mem_iff tx).1 hmem)
    have horder : (r.put now tx failure).order = r.order ++ [tx] := if_neg htx
    have hplace : Rejections.place ⟨tx, failure, now⟩ (r.view.entries ++ []) = _ :=
      Rejections.place_append (hothers r.order hnew)
    rw [List.append_nil] at hplace
    rw [hplace, view, horder, List.filterMap_append, filterMap_recorded?_put hnew,
      List.filterMap_cons_some recorded?_put_self]
    rfl

/-- What is put down is one more, unless it replaces another. -/
theorem InStep.accounted_put (h : r.InStep) (now : Nat) (tx : TxId) (failure : Failure) :
    (r.put now tx failure).accounted + (if tx ∈ r.entries then 1 else 0) = r.accounted + 1 := by
  have hcounts : (r.put now tx failure).accounted = r.counts.taken + r.counts.expired +
      r.counts.overflowed + (r.put now tx failure).size := rfl
  rw [hcounts, accounted, (h.put now tx failure).size_eq, h.size_eq, Register.put]
  dsimp only
  split
  · rfl
  · rw [List.length_append, List.length_singleton]
    omega

theorem InStep.find_view (h : r.InStep) (tx : TxId) :
    (r.view.entries.find? fun e => e.tx == tx) = r.recorded? tx := by
  have hnodup : (r.view.entries.map Recorded.tx).Nodup := h.map_view ▸ h.nodup
  cases hrecorded : r.recorded? tx with
  | none =>
    refine List.find?_eq_none.2 fun e he heq => ?_
    obtain ⟨tx', -, he⟩ := List.mem_filterMap.1 he
    obtain rfl : tx' = tx := (tx_of_recorded? he).symm.trans (beq_iff_eq.1 heq)
    cases hrecorded.symm.trans he
  | some e =>
    have htx := tx_of_recorded? hrecorded
    have hmem : e ∈ r.view.entries := by
      obtain ⟨_, hlookup, -⟩ := Option.map_eq_some_iff.1 hrecorded
      exact List.mem_filterMap.2
        ⟨tx, (h.mem_iff tx).2 (Finmap.mem_of_lookup_eq_some hlookup), hrecorded⟩
    cases hfind : r.view.entries.find? fun e => e.tx == tx with
    | none => exact absurd (beq_iff_eq.2 htx) (List.find?_eq_none.1 hfind e hmem)
    | some d =>
      have hd : d.tx = tx := by simpa using List.find?_some hfind
      rw [List.inj_on_of_nodup_map hnodup (List.mem_of_find?_eq_some hfind) hmem
        (hd.trans htx.symm)]

/-- **What is recorded** comes into the list, and is one more unless it replaces another. -/
theorem InStep.record (h : r.InStep) (now : Nat) (tx : TxId) (failure : Failure) :
    (r.record now tx failure).InStep ∧
      (r.record now tx failure).size ≤ (r.record now tx failure).limits.maxEntries ∧
      (r.record now tx failure).view = r.view.record now tx failure ∧
      (r.record now tx failure).counts.recorded = r.counts.recorded + 1 ∧
      (r.record now tx failure).accounted + (if tx ∈ (r.expire now).entries then 1 else 0) =
        r.accounted + 1 := by
  obtain ⟨hexpired, hexpire⟩ := h.expire now
  obtain ⟨hkeeps, hoverflow, hroom⟩ := (hexpired.inStep.put now tx failure).overflow
  refine ⟨hkeeps.inStep, hroom.trans_eq (congrArg _ hkeeps.limits).symm, ?_, ?_, ?_⟩
  · rw [hexpired.inStep.view_put, hexpire] at hoverflow
    exact hoverflow
  · exact hkeeps.recorded.trans (congrArg (· + 1) hexpired.recorded)
  · have haccounted := hexpired.inStep.accounted_put now tx failure
    rw [← hkeeps.accounted, hexpired.accounted] at haccounted
    exact haccounted

/-- **What is taken** is the failure of the list, and both go on without it. -/
theorem InStep.take (h : r.InStep) (now : Nat) (tx : TxId) :
    Keeps r (r.take now tx).2 ∧ (r.take now tx).2.view = (r.view.take now tx).2 ∧
      (r.take now tx).1 = (r.view.take now tx).1 := by
  obtain ⟨hkeeps, hview⟩ := h.expire now
  have hfind := hkeeps.inStep.find_view tx
  unfold Register.take Rejections.take
  rw [← hview]
  generalize r.expire now = r₁ at hkeeps hfind
  dsimp only
  rw [hfind, recorded?]
  cases hlookup : r₁.entries.lookup tx with
  | none => exact ⟨hkeeps, rfl, rfl⟩
  | some e =>
    have hmem : tx ∈ r₁.entries := Finmap.mem_of_lookup_eq_some hlookup
    have hdrops : Drops tx r₁ { r₁ with
        entries := r₁.entries.erase tx
        order := r₁.order.filter (· != tx)
        counts := { r₁.counts with taken := r₁.counts.taken + 1 } } := ⟨rfl, rfl, rfl⟩
    refine ⟨hkeeps.trans (hkeeps.inStep.keeps hdrops hmem rfl ?_), ?_, rfl⟩
    · dsimp only
      omega
    · dsimp only [Option.map]
      rw [← hdrops.view]
      rfl

end Register

/-! ## Keepers -/

/-- A register, and the time. -/
structure Keeper where
  register : Register
  now : Nat

namespace Keeper

def empty (limits : RejectionLimits) (start : Nat) : Keeper := ⟨.empty limits, start⟩

def step (k : Keeper) : ShelfStep → Keeper
  | .record tx failure => ⟨k.register.record k.now tx failure, k.now⟩
  | .take tx => ⟨(k.register.take k.now tx).2, k.now⟩
  | .advance us => ⟨k.register, k.now + us⟩

def run (k : Keeper) (steps : List ShelfStep) : Keeper := steps.foldl step k

/-- What whoever takes the failure of the transaction now gets. -/
def answer (k : Keeper) (tx : TxId) : Option Failure := (k.register.take k.now tx).1

/-- How many failures that are still held, and not too old, are replaced. -/
def replaced (k : Keeper) : ShelfStep → Nat
  | .record tx _ => if tx ∈ (k.register.expire k.now).entries then 1 else 0
  | _ => 0

def replacements (k : Keeper) : List ShelfStep → Nat
  | [] => 0
  | s :: steps => k.replaced s + (k.step s).replacements steps

/-- Map and queue are in step, the register shows what is on the shelf, and all that was recorded is
accounted for but for so many. -/
structure Keeps (k : Keeper) (shelf : Shelf) (n : Nat) : Prop where
  inStep : k.register.InStep
  room : k.register.size ≤ k.register.limits.maxEntries
  balance : k.register.counts.recorded = k.register.accounted + n
  view : k.register.view = shelf.kept
  now : k.now = shelf.now

variable {k : Keeper} {shelf : Shelf} {n : Nat}

theorem keeps_empty (limits : RejectionLimits) (start : Nat) :
    (empty limits start).Keeps (.empty limits start) 0 where
  inStep := ⟨List.nodup_nil, fun _ => ⟨fun h => absurd h List.not_mem_nil,
    fun h => absurd h Finmap.notMem_empty⟩⟩
  room := Nat.zero_le _
  balance := rfl
  view := rfl
  now := rfl

theorem Keeps.step (h : k.Keeps shelf n) (s : ShelfStep) :
    (k.step s).Keeps (shelf.step s) (n + k.replaced s) := by
  obtain ⟨hinStep, hroom, hbalance, hview, hnow⟩ := h
  cases s with
  | record tx failure =>
    obtain ⟨hinStep', hroom', hview', hrecorded, haccounted⟩ :=
      hinStep.record k.now tx failure
    refine ⟨hinStep', hroom', ?_, ?_, hnow⟩
    · show _ = _ + (n + if tx ∈ (k.register.expire k.now).entries then 1 else 0)
      have hone : (k.step (.record tx failure)).register.counts.recorded =
        k.register.counts.recorded + 1 := hrecorded
      rw [hone, hbalance]
      change (k.step (.record tx failure)).register.accounted + _ = _ at haccounted
      omega
    · rw [Shelf.step, ← hview, ← hnow]
      exact hview'
  | take tx =>
    obtain ⟨hkeeps, htake, -⟩ := hinStep.take k.now tx
    refine ⟨hkeeps.inStep, ?_, ?_, ?_, hnow⟩
    · exact (hkeeps.size_le.trans hroom).trans_eq (congrArg _ hkeeps.limits).symm
    · exact hkeeps.recorded.trans (hbalance.trans (congrArg (· + n) hkeeps.accounted.symm))
    · rw [Shelf.step, ← hview, ← hnow]
      exact htake
  | advance us => exact ⟨hinStep, hroom, hbalance, hview, congrArg (· + us) hnow⟩

theorem Keeps.run (h : k.Keeps shelf n) (steps : List ShelfStep) :
    (k.run steps).Keeps (shelf.run steps) (n + k.replacements steps) := by
  induction steps generalizing k shelf n with
  | nil => exact h
  | cons s steps ih =>
    have hrest := ih (h.step s)
    rw [Nat.add_assoc] at hrest
    exact hrest

end Keeper

/-- **Every rejection is accounted for.** Whatever is recorded and taken while time passes, the
queue has each transaction of the map once, and nothing else, there are no more than there may be,
and whatever was recorded was taken, expired, gave way, is still held, or was replaced while it was
held. The register shows the failures that are kept, with the same counts, and answers alike. The
loops that drop failures come to their end on any register, in step or not. -/
theorem rejections_are_accounted_for (limits : RejectionLimits) (start : Nat)
    (steps : List ShelfStep) :
    let k := (Keeper.empty limits start).run steps
    let shelf := (Shelf.empty limits start).run steps
    (∀ tx, k.register.order.count tx = if tx ∈ k.register.entries then 1 else 0) ∧
      k.register.size ≤ limits.maxEntries ∧
      k.register.counts.recorded = k.register.counts.taken + k.register.counts.expired +
        k.register.counts.overflowed + k.register.size +
        (Keeper.empty limits start).replacements steps ∧
      (k.register.view = shelf.kept ∧ ∀ tx, k.answer tx = shelf.answer tx) ∧
      ∀ (r : Register) (now : Nat),
        (∃ n ≤ r.order.length, EndsAfter (Register.expireTurn now) n r (r.expire now)) ∧
        ∃ n ≤ r.order.length, EndsAfter Register.overflowTurn n r r.overflow := by
  intro k shelf
  have hkeeps : k.Keeps shelf (0 + (Keeper.empty limits start).replacements steps) :=
    (Keeper.keeps_empty limits start).run steps
  have hlimits : k.register.limits = limits := by
    rw [show k.register.limits = shelf.kept.limits from congrArg Rejections.limits hkeeps.view]
    exact Shelf.limits_run _ steps
  refine ⟨hkeeps.inStep.count_order, hlimits ▸ hkeeps.room, ?_, ⟨hkeeps.view, fun tx => ?_⟩,
    fun r now => ⟨?_, ?_⟩⟩
  · rw [hkeeps.balance, Register.accounted, Nat.zero_add]
  · rw [Keeper.answer, (hkeeps.inStep.take k.now tx).2.2, hkeeps.view, hkeeps.now]
    rfl
  · exact (Register.expireLoop now).ends r
  · exact Register.overflowLoop.ends r

end MetadataArchive
