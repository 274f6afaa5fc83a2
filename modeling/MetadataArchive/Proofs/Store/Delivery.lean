import MetadataArchive.Proofs.Store.Outcome

/-!
# Outcomes are delivered once

An outcome waits until it is claimed, and whoever claims it takes it away. The only other way for it
to go is that there is no more room: a store keeps the newest outcomes, and those that were claimed
make room for others. So whether an outcome is still there is a question of how many transactions
that came later were unclaimed at one time, and not of how many came
(`outcomes_are_delivered_once`).

What carries the induction over a run is `KeptBefore`: as long as an outcome is kept, the outcomes
behind it are those of the later transactions that nobody has claimed, all of them. For they are
dropped in the order in which they came, and so never before it.
-/

set_option autoImplicit false

namespace MetadataArchive

variable {ν : Type}

/-- Either an outcome is there, and is taken away, or it is not known and nothing is changed. -/
theorem Store.claim_cases (s : Store) (tx : TxId) :
    (∃ o, o ∈ s.outcomes ∧ o.tx = tx ∧ s.claim tx =
      .ok (o, { s with outcomes := s.outcomes.filter fun o => o.tx != tx })) ∨
    Lacks Outcome.tx tx s.outcomes ∧ s.claim tx = .error (.unknownTransaction tx) := by
  cases hfind : s.outcomes.find? fun o => o.tx == tx with
  | some o =>
    exact Or.inl ⟨o, List.mem_of_find?_eq_some hfind, by simpa using List.find?_some hfind,
      Store.claim_of_find? hfind⟩
  | none =>
    have hlacks : Lacks Outcome.tx tx s.outcomes := fun o ho => by
      simpa using List.find?_eq_none.1 hfind o ho
    exact Or.inr ⟨hlacks, Store.claim_of_lacks hlacks⟩

/-- A store, and the transactions whose outcomes nobody has claimed, also those that are lost. -/
structure Counter where
  store : Store
  unclaimed : List TxId

namespace Counter

def empty (capacity : Nat) : Counter := ⟨.empty capacity, []⟩

def step (k : Counter) (ev : StoreEvent ν) : Counter where
  store := k.store.step ev
  unclaimed :=
    match ev with
    | .submit functions now ops => k.unclaimed ++ [(k.store.submit functions now ops).1]
    | .claim tx => if (k.store.claim tx).isOk then k.unclaimed.filter (· != tx) else k.unclaimed
    | .openSnapshot _ _ | .release _ => k.unclaimed

def run (k : Counter) (events : List (StoreEvent ν)) : Counter := events.foldl step k

/-- How many of the transactions behind one are unclaimed. -/
def behind (k : Counter) (tx : TxId) : Nat := k.unclaimed.countP fun t => tx.number < t.number

/-- By `past` the transaction was submitted as the last event of all, and came to this outcome. -/
def Submitted (k : Counter) (past : List (StoreEvent ν)) (tx : TxId) (o : Outcome) : Prop :=
  ∃ before functions now ops, past = before ++ [.submit functions now ops] ∧
    ((k.run before).store.submit functions now ops).1 = tx ∧
    (k.run before).store.outcome functions now ops = o

/-- The event is a claim of the transaction, and its outcome is handed out. -/
def HandsOut (tx : TxId) (k : Counter) (ev : StoreEvent ν) : Prop :=
  ev = .claim tx ∧ (k.store.claim tx).isOk = true

/-- The event is a submission, and with it so many of the transactions behind one are unclaimed. -/
def Overfills (tx : TxId) (n : Nat) (k : Counter) (ev : StoreEvent ν) : Prop :=
  (∃ functions now ops, ev = .submit functions now ops) ∧ n ≤ (k.step ev).behind tx

/-- After `past` there was an event of a kind. -/
def Since (k : Counter) (P : Counter → StoreEvent ν → Prop) (past events : List (StoreEvent ν)) :
    Prop :=
  ∃ q ev, past <+: q ∧ q ++ [ev] <+: events ∧ P (k.run q) ev

variable {k k' : Counter} {ev : StoreEvent ν} {events past : List (StoreEvent ν)}
variable {tx : TxId} {o : Outcome} {n : Nat}

theorem run_concat (k : Counter) (events : List (StoreEvent ν)) (ev : StoreEvent ν) :
    k.run (events ++ [ev]) = (k.run events).step ev := by
  simp [run]

theorem store_run (k : Counter) (events : List (StoreEvent ν)) :
    (k.run events).store = k.store.run events := by
  induction events using List.reverseRecOn with
  | nil => rfl
  | append_singleton events ev ih =>
    rw [run_concat, Store.run, List.foldl_concat, ← Store.run, ← ih]
    rfl

theorem since_concat {P : Counter → StoreEvent ν → Prop} (hpast : past <+: events) :
    k.Since P past (events ++ [ev]) ↔ k.Since P past events ∨ P (k.run events) ev := by
  constructor
  · rintro ⟨q, ev', hq, hprefix, hP⟩
    rcases List.prefix_concat_iff.1 hprefix with hsame | hprefix
    · obtain ⟨rfl, heq⟩ := List.append_inj' hsame rfl
      cases heq
      exact Or.inr hP
    · exact Or.inl ⟨q, ev', hq, hprefix, hP⟩
  · rintro (⟨q, ev', hq, hprefix, hP⟩ | hP)
    · exact ⟨q, ev', hq, hprefix.trans (List.prefix_append _ _), hP⟩
    · exact ⟨events, ev, hpast, List.prefix_refl _, hP⟩

/-! ## What one event does -/

/-- An event leaves an outcome behind all others, hands one out, or does nothing to them. -/
inductive Does (k : Counter) : StoreEvent ν → Counter → Prop
  | leaves {k' : Counter} {functions : List (TxFunction ν)} {now : Instant} {ops : List TxOp}
      (houtcomes : k'.store.outcomes =
        (k.store.outcomes ++ [k.store.outcome functions now ops]).rtake k.store.capacity)
      (hlast : k'.store.lastTx = k.store.lastTx + 1)
      (hunclaimed : k'.unclaimed = k.unclaimed ++ [⟨k.store.lastTx + 1⟩]) :
      Does k (.submit functions now ops) k'
  | handsOut {k' : Counter} (tx : TxId) (hok : (k.store.claim tx).isOk = true)
      (houtcomes : k'.store.outcomes = k.store.outcomes.filter fun o => o.tx != tx)
      (hlast : k'.store.lastTx = k.store.lastTx)
      (hunclaimed : k'.unclaimed = k.unclaimed.filter (· != tx)) : Does k (.claim tx) k'
  | nothing {k' : Counter} {ev : StoreEvent ν}
      (hsubmit : ∀ functions now ops, ev ≠ .submit functions now ops)
      (hclaim : ∀ tx, ev = .claim tx → Lacks Outcome.tx tx k.store.outcomes)
      (houtcomes : k'.store.outcomes = k.store.outcomes)
      (hlast : k'.store.lastTx = k.store.lastTx) (hunclaimed : k'.unclaimed = k.unclaimed) :
      Does k ev k'

theorem step_claim (k : Counter) (tx : TxId) : k.step (.claim tx : StoreEvent ν) =
    match k.store.claim tx with
    | .ok (_, s') => ⟨s', k.unclaimed.filter (· != tx)⟩
    | .error _ => k := by
  simp only [step, Store.step]
  cases k.store.claim tx <;> rfl

theorem does_step (k : Counter) (ev : StoreEvent ν) : k.Does ev (k.step ev) := by
  cases ev with
  | submit functions now ops =>
    obtain ⟨htx, hlast, -, houtcomes⟩ := k.store.submit_outcomes functions now ops
    exact .leaves houtcomes hlast (by rw [← htx]; rfl)
  | openSnapshot now asOf => exact .nothing (by simp) (by simp) rfl rfl rfl
  | release snap =>
    have hstore : (k.store.step (.release snap : StoreEvent ν)).outcomes = k.store.outcomes ∧
        (k.store.step (.release snap : StoreEvent ν)).lastTx = k.store.lastTx := by
      simp only [Store.step, Store.release]
      cases k.store.pinOf snap <;> exact ⟨rfl, rfl⟩
    exact .nothing (by simp) (by simp) hstore.1 hstore.2 rfl
  | claim tx =>
    rw [step_claim]
    rcases Store.claim_cases k.store tx with ⟨o, -, -, hclaim⟩ | ⟨hlacks, hclaim⟩
    · rw [hclaim]
      exact .handsOut tx (by rw [hclaim]; rfl) rfl rfl rfl
    · rw [hclaim]
      refine .nothing (by simp) (fun tx' h => ?_) rfl rfl rfl
      cases h
      exact hlacks

theorem capacity_step (k : Counter) (ev : StoreEvent ν) :
    (k.step ev).store.capacity = k.store.capacity := by
  cases ev with
  | submit functions now ops => exact (k.store.submit_outcomes functions now ops).2.2.1
  | openSnapshot now asOf => rfl
  | release snap =>
    simp only [step, Store.step, Store.release]
    cases k.store.pinOf snap <;> rfl
  | claim tx =>
    simp only [step, Store.step]
    cases hs : k.store.claim tx with
    | ok r => exact (Store.claim_ok hs).2.1
    | error e => rfl

@[simp] theorem capacity_run (k : Counter) (events : List (StoreEvent ν)) :
    (k.run events).store.capacity = k.store.capacity := by
  induction events using List.reverseRecOn with
  | nil => rfl
  | append_singleton events ev ih => rw [run_concat, capacity_step, ih]

theorem lastTx_le_step (k : Counter) (ev : StoreEvent ν) :
    k.store.lastTx ≤ (k.step ev).store.lastTx := by
  cases k.does_step ev with
  | leaves _ hlast => exact hlast ▸ Nat.le_succ _
  | handsOut _ _ _ hlast | nothing _ _ _ hlast => exact hlast.ge

theorem next_ne (h : tx.number ≤ k.store.lastTx) : (⟨k.store.lastTx + 1⟩ : TxId) ≠ tx := fun heq =>
  absurd (heq ▸ h) (Nat.not_succ_le_self _)

/-- What is gone never comes back. -/
theorem lacks_step (h : Lacks Outcome.tx tx k.store.outcomes) (hlast : tx.number ≤ k.store.lastTx)
    (ev : StoreEvent ν) : Lacks Outcome.tx tx (k.step ev).store.outcomes := by
  cases k.does_step ev with
  | leaves houtcomes => exact houtcomes ▸ h.push (next_ne hlast)
  | handsOut _ _ houtcomes => exact houtcomes ▸ h.filter _
  | nothing _ _ houtcomes => exact houtcomes ▸ h

/-! ## While an outcome is kept -/

/-- The outcome is kept, and behind it those of all later transactions that are unclaimed. -/
def Keeps (k : Counter) (o : Outcome) : Prop :=
  KeptBefore Outcome.tx o (k.unclaimed.filter fun t => o.tx.number < t.number) k.store.outcomes

theorem behind_eq (k : Counter) (tx : TxId) :
    k.behind tx = (k.unclaimed.filter fun t => tx.number < t.number).length :=
  List.countP_eq_length_filter

/-- **An outcome is kept** until it is handed out, or until there is no more room for it. -/
theorem Keeps.step (h : k.Keeps o) (hk : k.store.KeepsOutcomes) (ev : StoreEvent ν) :
    ((k.step ev).Keeps o ∧ ¬ HandsOut o.tx k ev ∧ ¬ Overfills o.tx k.store.capacity k ev) ∨
    Lacks Outcome.tx o.tx (k.step ev).store.outcomes ∧
      (HandsOut o.tx k ev ∨ Overfills o.tx k.store.capacity k ev) := by
  have hlast : o.tx.number ≤ k.store.lastTx := hk.numbered o h.mem
  cases k.does_step ev with
  | @leaves _ functions now ops houtcomes _ hunclaimed =>
    have hnew : o.tx.number < k.store.lastTx + 1 := Nat.lt_succ_of_le hlast
    have hwaiting : ((k.step (.submit functions now ops)).unclaimed.filter
        fun t => o.tx.number < t.number) =
        (k.unclaimed.filter fun t => o.tx.number < t.number) ++ [⟨k.store.lastTx + 1⟩] := by
      simp [hunclaimed, hnew]
    obtain ⟨hroom, hfull⟩ := KeptBefore.push (n := k.store.capacity) h
      (y := k.store.outcome functions now ops) (next_ne hlast)
    rw [← houtcomes, ← behind_eq] at hroom hfull
    have hbehind : (k.step (.submit functions now ops)).behind o.tx = k.behind o.tx + 1 := by
      rw [behind_eq, behind_eq, hwaiting, List.length_append, List.length_singleton]
    rcases Nat.lt_or_ge (k.behind o.tx + 1) k.store.capacity with hlt | hge
    · refine Or.inl ⟨?_, fun ⟨heq, _⟩ => (by cases heq), fun ⟨_, hn⟩ => ?_⟩
      · rw [Keeps, hwaiting]
        exact hroom hlt
      · omega
    · exact Or.inr ⟨hfull hge, Or.inr ⟨⟨functions, now, ops, rfl⟩, hbehind ▸ hge⟩⟩
  | handsOut tx hok houtcomes _ hunclaimed =>
    by_cases htx : o.tx = tx
    · subst htx
      refine Or.inr ⟨houtcomes ▸ fun o' ho' => ?_, Or.inl ⟨rfl, hok⟩⟩
      simpa using (List.mem_filter.1 ho').2
    · refine Or.inl ⟨?_, fun ⟨heq, _⟩ => ?_, fun ⟨⟨_, _, _, heq⟩, _⟩ => by cases heq⟩
      · rw [Keeps, houtcomes, hunclaimed, List.filter_comm]
        exact KeptBefore.filter h htx
      · cases heq
        exact htx rfl
  | nothing hsubmit hclaim houtcomes _ hunclaimed =>
    refine Or.inl ⟨?_, fun ⟨heq, _⟩ => ?_, fun ⟨⟨_, _, _, heq⟩, _⟩ => hsubmit _ _ _ heq⟩
    · rwa [Keeps, houtcomes, hunclaimed]
    · exact hclaim _ heq o h.mem rfl

/-! ## From its submission on -/

/-- A store and the transactions of its runs: what is kept and what is unclaimed was submitted. -/
structure Numbered (k : Counter) : Prop where
  outcomes : k.store.KeepsOutcomes
  room : k.store.outcomes.length ≤ k.store.capacity
  unclaimed : ∀ t ∈ k.unclaimed, t.number ≤ k.store.lastTx

theorem Numbered.step (h : k.Numbered) (ev : StoreEvent ν) : (k.step ev).Numbered where
  outcomes := h.outcomes.step ev
  room := by
    rw [capacity_step]
    cases k.does_step ev with
    | leaves houtcomes =>
      rw [houtcomes, List.rtake, List.length_drop]
      omega
    | handsOut _ _ houtcomes => exact houtcomes ▸ (List.length_filter_le _ _).trans h.room
    | nothing _ _ houtcomes => exact houtcomes ▸ h.room
  unclaimed t ht := by
    cases k.does_step ev with
    | leaves _ hlast hunclaimed =>
      rw [hlast]
      rcases List.mem_append.1 (hunclaimed ▸ ht) with ht | ht
      · exact Nat.le_succ_of_le (h.unclaimed t ht)
      · rw [List.mem_singleton.1 ht]
    | handsOut _ _ _ hlast hunclaimed =>
      exact hlast ▸ h.unclaimed t (List.mem_filter.1 (hunclaimed ▸ ht)).1
    | nothing _ _ _ hlast hunclaimed => exact hlast ▸ h.unclaimed t (hunclaimed ▸ ht)

theorem Numbered.run (h : k.Numbered) (events : List (StoreEvent ν)) : (k.run events).Numbered := by
  induction events using List.reverseRecOn with
  | nil => exact h
  | append_singleton events ev ih =>
    rw [run_concat]
    exact ih.step ev

theorem numbered_empty (capacity : Nat) : (empty capacity).Numbered :=
  ⟨.empty capacity, Nat.zero_le _, fun _ h => by cases h⟩

theorem lastTx_mono {p : List (StoreEvent ν)} (hp : p <+: events) :
    (k.run p).store.lastTx ≤ (k.run events).store.lastTx := by
  induction events using List.reverseRecOn with
  | nil => rw [List.prefix_nil.1 hp]
  | append_singleton events ev ih =>
    rcases List.prefix_concat_iff.1 hp with rfl | hp
    · exact Nat.le_refl _
    · rw [run_concat]
      exact (ih hp).trans (lastTx_le_step _ ev)

/-- When it is submitted an outcome is kept, as the last of all, and nobody has asked for it. -/
theorem Submitted.keeps (h : k.Submitted past tx o) (hk : k.Numbered) :
    o.tx = tx ∧ (k.run past).Keeps o ∧ ¬ k.Since (HandsOut tx) [] past := by
  obtain ⟨before, functions, now, ops, rfl, htx, rfl⟩ := h
  have hbefore := hk.run before
  obtain ⟨hid, hlast, -, houtcomes⟩ := (k.run before).store.submit_outcomes functions now ops
  obtain rfl := hid.symm.trans htx
  refine ⟨rfl, ?_, ?_⟩
  · have hnone : (((k.run before).step (.submit functions now ops)).unclaimed.filter fun t =>
        (k.run before).store.lastTx + 1 < t.number) = [] := by
      refine List.filter_eq_nil_iff.2 fun t ht => ?_
      have hle : t.number ≤ ((k.run before).store.submit functions now ops).2.2.lastTx :=
        (hbefore.step (.submit functions now ops)).unclaimed t ht
      simp only [decide_eq_true_eq]
      omega
    have hnew : KeptBefore Outcome.tx ((k.run before).store.outcome functions now ops) []
        ((k.run before).store.submit functions now ops).2.2.outcomes :=
      houtcomes ▸ KeptBefore.new hbefore.outcomes.lacks_next hbefore.outcomes.room
    rw [← hnone] at hnew
    rw [run_concat]
    exact hnew
  · rintro ⟨q, ev, -, hq, rfl, hok⟩
    -- Before that no outcome had this number, or a greater one.
    have hprefix : q ++ [.claim ⟨(k.run before).store.lastTx + 1⟩] <+: before := by
      refine (List.prefix_concat_iff.1 hq).resolve_left fun heq => ?_
      cases (List.append_inj' heq rfl).2
    have hmono := lastTx_mono (k := k) ((List.prefix_append q _).trans hprefix)
    rcases Store.claim_cases (k.run q).store ⟨(k.run before).store.lastTx + 1⟩ with
      ⟨o, ho, htx, -⟩ | ⟨-, hclaim⟩
    · have hle := (hk.run q).outcomes.numbered o ho
      rw [htx] at hle
      exact Nat.not_succ_le_self _ (hle.trans hmono)
    · rw [hclaim] at hok
      cases hok

/-- **From its submission on** an outcome is kept until it is handed out or there were too many
behind it, and is gone from then on. -/
theorem Submitted.fate (h : k.Submitted past tx o) (hk : k.Numbered) (hpast : past <+: events) :
    ((k.run events).Keeps o ∧ ¬ k.Since (HandsOut tx) [] events ∧
      ¬ k.Since (Overfills tx k.store.capacity) past events) ∨
    Lacks Outcome.tx tx (k.run events).store.outcomes ∧
      (k.Since (HandsOut tx) [] events ∨ k.Since (Overfills tx k.store.capacity) past events) := by
  obtain ⟨rfl, hkeeps, hunclaimed⟩ := h.keeps hk
  obtain ⟨after, rfl⟩ := hpast
  induction after using List.reverseRecOn with
  | nil =>
    rw [List.append_nil]
    refine Or.inl ⟨hkeeps, hunclaimed, fun ⟨q, ev, hq, hprefix, _⟩ => ?_⟩
    have hle := hq.length_le
    have hle' := hprefix.length_le
    simp only [List.length_append, List.length_singleton] at hle'
    omega
  | append_singleton after ev ih =>
    rw [← List.append_assoc, since_concat (List.nil_prefix), since_concat (List.prefix_append _ _),
      run_concat]
    rcases ih with ⟨hkept, hnone, hroom⟩ | ⟨hlacks, hgone⟩
    · have hstep := hkept.step (hk.run (past ++ after)).outcomes ev
      rw [capacity_run] at hstep
      rcases hstep with ⟨hkept', hnone', hroom'⟩ | ⟨hlacks', hgone'⟩
      · exact Or.inl ⟨hkept', not_or.2 ⟨hnone, hnone'⟩, not_or.2 ⟨hroom, hroom'⟩⟩
      · exact Or.inr ⟨hlacks', hgone'.imp Or.inr Or.inr⟩
    · refine Or.inr ⟨lacks_step hlacks ?_ ev, hgone.imp Or.inl Or.inl⟩
      exact ((hk.run past).outcomes.numbered o hkeeps.mem).trans
        (lastTx_mono (List.prefix_append _ _))

/-- What is kept was submitted. -/
theorem exists_submitted (hk : k.store.outcomes = []) (ho : o ∈ (k.run events).store.outcomes) :
    ∃ past, past <+: events ∧ k.Submitted past o.tx o := by
  induction events using List.reverseRecOn with
  | nil =>
    rw [show k.run [] = k from rfl, hk] at ho
    cases ho
  | append_singleton events ev ih =>
    have hbefore (h : o ∈ (k.run events).store.outcomes) :
        ∃ past, past <+: events ++ [ev] ∧ k.Submitted past o.tx o := by
      obtain ⟨past, hpast, hsubmitted⟩ := ih h
      exact ⟨past, hpast.trans (List.prefix_append _ _), hsubmitted⟩
    rw [run_concat] at ho
    cases (k.run events).does_step ev with
    | @leaves _ functions now ops houtcomes =>
      rcases List.mem_append.1 (List.mem_of_mem_drop (houtcomes ▸ ho)) with ho | ho
      · exact hbefore ho
      · rw [List.mem_singleton.1 ho]
        exact ⟨_, List.prefix_refl _, events, functions, now, ops, rfl,
          ((k.run events).store.submit_outcomes functions now ops).1, rfl⟩
    | handsOut _ _ houtcomes => exact hbefore (List.mem_filter.1 (houtcomes ▸ ho)).1
    | nothing _ _ houtcomes => exact hbefore (houtcomes ▸ ho)

end Counter

/-- **An outcome is delivered at most once, and is dropped for want of room only.** However
transactions are submitted and outcomes claimed, under whatever numbers,

* no more outcomes wait than there is room for, and there is room for one at least;
* whoever claims the outcome of a transaction gets what it came to when it was submitted, exactly if
  it was submitted, was not claimed before, and at no submission since were there so many
  transactions behind it, unclaimed, as there is room for;
* and otherwise it hears that the transaction is not known, and nothing is changed. -/
theorem outcomes_are_delivered_once (capacity : Nat) (events : List (StoreEvent ν)) :
    let k := Counter.empty capacity
    let s := (Store.empty capacity).run events
    s.outcomes.length ≤ max capacity 1 ∧
    ∀ tx,
      (∀ o, (∃ s', s.claim tx = .ok (o, s')) ↔
        ∃ past, past <+: events ∧ k.Submitted past tx o ∧
          ¬ k.Since (Counter.HandsOut tx) [] events ∧
          ¬ k.Since (Counter.Overfills tx (max capacity 1)) past events) ∧
      ((¬ ∃ o s', s.claim tx = .ok (o, s')) →
        s.claim tx = .error (.unknownTransaction tx) ∧ s.step (.claim tx : StoreEvent ν) = s) := by
  intro k s
  have hk : k.Numbered := Counter.numbered_empty capacity
  have hs : (k.run events).store = s := k.store_run events
  have hroom := (hk.run events).room
  rw [Counter.capacity_run, hs] at hroom
  refine ⟨hroom, fun tx => ⟨fun o => ⟨?_, ?_⟩, fun hnone => ?_⟩⟩
  · rintro ⟨s', hclaim⟩
    rcases Store.claim_cases s tx with ⟨o', ho, rfl, hfound⟩ | ⟨-, hunknown⟩
    · obtain ⟨rfl, -⟩ := Prod.mk.inj (Except.ok.inj (hfound.symm.trans hclaim))
      rw [← hs] at ho
      obtain ⟨past, hpast, hsubmitted⟩ := Counter.exists_submitted rfl ho
      rcases hsubmitted.fate hk hpast with ⟨-, hfree⟩ | ⟨hlacks, -⟩
      · exact ⟨past, hpast, hsubmitted, hfree⟩
      · exact absurd rfl (hlacks o' ho)
    · cases hunknown.symm.trans hclaim
  · rintro ⟨past, hpast, hsubmitted, hunclaimed, hfree⟩
    rcases hsubmitted.fate hk hpast with ⟨hkept, -⟩ | ⟨-, hgone⟩
    · obtain ⟨rfl, -⟩ := hsubmitted.keeps hk
      rw [Counter.Keeps, hs] at hkept
      exact ⟨_, Store.claim_of_find? hkept.find?⟩
    · exact absurd hgone (not_or.2 ⟨hunclaimed, hfree⟩)
  · rcases Store.claim_cases s tx with ⟨o, -, -, hfound⟩ | ⟨-, hunknown⟩
    · exact absurd ⟨o, _, hfound⟩ hnone
    · refine ⟨hunknown, ?_⟩
      simp only [Store.step, hunknown]

/-- Where there is room for two outcomes, the first is still there when of two behind it one was
claimed, and is lost when none was. -/
theorem first_outcome_is_lost_behind_two :
    let k := Counter.empty 2
    let submit : StoreEvent Unit := .submit [] ⟨0, 0⟩ []
    let o : Outcome := ⟨⟨1⟩, ⟨0, 0⟩, .committed 0⟩
    let claimed : List (StoreEvent Unit) := [submit, submit, .claim ⟨2⟩, submit]
    (∃ s', ((Store.empty 2).run claimed).claim ⟨1⟩ = .ok (o, s')) ∧
      (∃ past, past <+: claimed ∧ k.Submitted past ⟨1⟩ o ∧
        ¬ k.Since (Counter.HandsOut ⟨1⟩) [] claimed ∧
        ¬ k.Since (Counter.Overfills ⟨1⟩ 2) past claimed) ∧
      k.Since (Counter.Overfills ⟨1⟩ 2) [submit] [submit, submit, submit] ∧
      ((Store.empty 2).run [submit, submit, submit]).claim ⟨1⟩ =
        .error (.unknownTransaction ⟨1⟩) := by
  intro k submit o claimed
  have hclaim : ∃ s', ((Store.empty 2).run claimed).claim ⟨1⟩ = .ok (o, s') := ⟨_, rfl⟩
  have hlost : ((Store.empty 2).run [submit, submit, submit]).claim ⟨1⟩ =
      .error (.unknownTransaction ⟨1⟩) := rfl
  refine ⟨hclaim, ((outcomes_are_delivered_once 2 claimed).2 ⟨1⟩).1 o |>.1 hclaim, ?_, hlost⟩
  exact ⟨[submit, submit], submit, ⟨[submit], rfl⟩, List.prefix_refl _, ⟨_, _, _, rfl⟩, by decide⟩

end MetadataArchive
