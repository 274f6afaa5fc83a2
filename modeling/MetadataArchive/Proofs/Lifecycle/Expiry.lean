import MetadataArchive.Proofs.Lifecycle.Shelf

/-!
# How long a rejection waits

Failures wait in the order in which their transactions came, and what is too old is dropped from the
front, up to the first that is not. So a failure is found as long as it is recent, and longer behind
one that came before it and is recorded again and again (`rejections_age_in_order_of_arrival`): a
transaction keeps its place when its failure is recorded anew, and whoever is behind it keeps
waiting with it. For want of room the first has to go, again by its place and not by its age. Where
nobody is recorded anew but who came last, places and ages agree.
-/

set_option autoImplicit false

namespace MetadataArchive

namespace Shelf

variable {k : Shelf} {s : ShelfStep} {tx : TxId} {failure : Failure} {e : Recorded}

/-! ## Steps of the past -/

/-- The transaction is found after these steps, and after each of those that follow. -/
def StaysFrom (k : Shelf) (past steps : List ShelfStep) (tx : TxId) : Prop :=
  ∀ q, past <+: q → q <+: steps → (k.run q).Finds tx

/-- At some time the one transaction was found and the other was not, and the one has been found
ever since. -/
def CameBefore (k : Shelf) (steps : List ShelfStep) (one two : TxId) : Prop :=
  ∃ past, past <+: steps ∧ ¬ (k.run past).Finds two ∧ k.StaysFrom past steps one

/-- The failure was recorded after the steps before, and is the last that was recorded for the
transaction; it has not been taken since, and was not pushed out for want of room. -/
structure Waits (k : Shelf) (steps : List ShelfStep) (tx : TxId) (failure : Failure)
    (before : List ShelfStep) : Prop where
  recorded : before ++ [.record tx failure] <+: steps
  since : ∀ q s, before ++ [.record tx failure] <+: q → q ++ [s] <+: steps →
    ¬ s.Names tx ∧ tx ∉ (k.run q).pushesOut s

variable {steps before p : List ShelfStep} {one two : TxId}

theorem StaysFrom.concat (h : k.StaysFrom p steps tx) (htx : (k.run (steps ++ [s])).Finds tx) :
    k.StaysFrom p (steps ++ [s]) tx := by
  intro q hp hq
  rcases List.prefix_concat_iff.1 hq with rfl | hq
  · exact htx
  · exact h q hp hq

theorem StaysFrom.mono {q : List ShelfStep} (h : k.StaysFrom p steps tx) (hq : q <+: steps) :
    k.StaysFrom p q tx := fun r hp hr => h r hp (hr.trans hq)

theorem CameBefore.concat (h : k.CameBefore steps one two)
    (hone : (k.run (steps ++ [s])).Finds one) : k.CameBefore (steps ++ [s]) one two := by
  obtain ⟨p, hp, htwo, hstays⟩ := h
  exact ⟨p, hp.trans (List.prefix_append _ _), htwo, hstays.concat hone⟩

theorem CameBefore.extend {q : List ShelfStep} (h : k.CameBefore before one two)
    (hq : before <+: q) (hstays : k.StaysFrom before q one) : k.CameBefore q one two := by
  obtain ⟨past, hpast, htwo, hone⟩ := h
  refine ⟨past, hpast.trans hq, htwo, fun r hr hrq => ?_⟩
  rcases List.prefix_or_prefix_of_prefix hrq hq with hle | hge
  · exact hone r hr hle
  · exact hstays r hge hrq

theorem CameBefore.asymm (h : k.CameBefore steps one two) : ¬ k.CameBefore steps two one := by
  obtain ⟨p, hp, htwo, hone⟩ := h
  rintro ⟨q, hq, hone', htwo'⟩
  rcases List.prefix_or_prefix_of_prefix hp hq with hpq | hqp
  · exact hone' (hone q hpq hq)
  · exact htwo (htwo' p hqp hp)

theorem Waits.concat (h : k.Waits steps tx failure before) (hnames : ¬ s.Names tx)
    (hpushed : tx ∉ (k.run steps).pushesOut s) : k.Waits (steps ++ [s]) tx failure before where
  recorded := h.recorded.trans (List.prefix_append _ _)
  since q s' hq hs' := by
    rcases List.prefix_concat_iff.1 hs' with hsame | hs'
    · obtain ⟨rfl, heq⟩ := List.append_inj' hsame rfl
      cases heq
      exact ⟨hnames, hpushed⟩
    · exact h.since q s' hq hs'

theorem waits_recorded (k : Shelf) (steps : List ShelfStep) (tx : TxId) (failure : Failure) :
    k.Waits (steps ++ [.record tx failure]) tx failure steps where
  recorded := List.prefix_refl _
  since q s hq hs := by
    have hle := (hq.trans (List.prefix_append q [s])).length_le
    have hle' := hq.length_le
    have hle'' := hs.length_le
    simp only [List.length_append, List.length_singleton] at hle hle' hle''
    omega

/-- How what is found came to be found. -/
structure Traced (k : Shelf) (steps : List ShelfStep) : Prop where
  orderly : (k.run steps).Orderly
  waits : ∀ e ∈ (k.run steps).found, ∃ before, k.Waits steps e.tx e.failure before ∧
    e.time = (k.run before).now ∧
    k.StaysFrom (before ++ [.record e.tx e.failure]) steps e.tx
  order : ((k.run steps).found.map Recorded.tx).Pairwise (k.CameBefore steps)

namespace Traced

/-- **A step keeps the order** in which they came. -/
theorem pairwise_left (h : k.Traced steps) (s : ShelfStep) :
    (((k.run steps).left s).map Recorded.tx).Pairwise (k.CameBefore steps) := by
  obtain ⟨new, hnew, hone, hsub⟩ := (k.run steps).left_sublist s
  refine List.Pairwise.sublist hsub (List.pairwise_append.2 ⟨h.order, ?_, fun a ha b hb => ?_⟩)
  · match new, hone with
    | [], _ => exact List.Pairwise.nil
    | [tx], _ => exact List.pairwise_singleton _ _
  · refine ⟨steps, List.prefix_refl _, fun hfinds => hnew b hb (finds_iff.1 hfinds), ?_⟩
    intro q hq hq'
    rw [hq'.sublist.antisymm hq.sublist]
    exact finds_iff.2 ha

theorem concat (h : k.Traced steps) (s : ShelfStep) : k.Traced (steps ++ [s]) where
  orderly := by
    rw [run_concat]
    exact h.orderly.step s
  waits e he := by
    have hfinds : (k.run (steps ++ [s])).Finds e.tx := .of_mem he
    rw [run_concat] at he
    rcases h.orderly.mem_left (mem_left_of_found_step he) with ⟨hfound, hnames, hpushed⟩ | ⟨rfl, ht⟩
    · obtain ⟨before, hwaits, htime, hstays⟩ := h.waits e hfound
      exact ⟨before, hwaits.concat hnames hpushed, htime, hstays.concat hfinds⟩
    · refine ⟨steps, k.waits_recorded steps e.tx e.failure, ht, fun q hq hq' => ?_⟩
      rw [hq'.sublist.antisymm hq.sublist]
      exact hfinds
  order := by
    have hsub : (((k.run (steps ++ [s])).found).map Recorded.tx).Sublist
        (((k.run steps).left s).map Recorded.tx) := by
      rw [run_concat, found_step]
      exact (List.dropWhile_sublist _).map _
    refine ((h.pairwise_left s).sublist hsub).imp_of_mem fun hone _ hbefore => ?_
    exact hbefore.concat (finds_iff.2 hone)

end Traced

theorem traced (limits : RejectionLimits) (start : Nat) (steps : List ShelfStep) :
    (empty limits start).Traced steps := by
  induction steps using List.reverseRecOn with
  | nil =>
    exact ⟨⟨List.nodup_nil, Nat.zero_le _⟩, fun e he => absurd he List.not_mem_nil,
      List.Pairwise.nil⟩
  | append_singleton steps s ih => exact ih.concat s

/-! ## Who is found -/

/-- Less time has passed since the steps before than a failure may wait. -/
def Young (k : Shelf) (steps before : List ShelfStep) : Prop :=
  (k.run steps).now - (k.run before).now < k.kept.limits.ttlMs * 1000

/-- When the failure was recorded, after the steps before, another transaction had come ahead of this
one. It has been found ever since, and its failure was recorded lately. -/
def Sheltered (k : Shelf) (steps : List ShelfStep) (tx : TxId) (before : List ShelfStep) : Prop :=
  ∃ other failure again, k.CameBefore before other tx ∧ k.StaysFrom before steps other ∧
    again ++ [.record other failure] <+: steps ∧ k.Young steps again

/-- The failure of a transaction is recorded anew while another is found that came after it. -/
def Renews (k : Shelf) (steps : List ShelfStep) : Prop :=
  ∃ past tx failure other, past ++ [.record tx failure] <+: steps ∧ (k.run past).Finds other ∧
    k.CameBefore past tx other

theorem isStale_eq_false_iff (htime : e.time = (k.run before).now) :
    Rejections.isStale (k.run steps).kept.limits (k.run steps).now e = false ↔
      k.Young steps before := by
  rw [limits_run, Rejections.isStale, decide_eq_false_iff_not, Nat.not_le, htime, Young]

namespace Traced

/-- What is left after a step is found if it is recent, or behind another that is found. -/
theorem found_of_left (h : k.Traced steps) (he : e ∈ (k.run steps).left s)
    (hold : Rejections.isStale k.kept.limits (k.run (steps ++ [s])).now e = false ∨
      ∃ other, k.CameBefore steps other e.tx ∧ (k.run (steps ++ [s])).Finds other) :
    e ∈ (k.run (steps ++ [s])).found := by
  rw [run_concat, found_step, limits_run]
  rw [run_concat] at hold
  rcases hold with hrecent | ⟨other, hbefore, hother⟩
  · exact mem_dropWhile_of_not he hrecent
  · refine (mem_takeWhile_or_dropWhile _ he).resolve_left fun htaken => ?_
    -- What is dropped came before all that is found.
    have hpairs := h.pairwise_left s
    rw [← List.takeWhile_append_dropWhile (p := Rejections.isStale k.kept.limits
      ((k.run steps).step s).now) (l := (k.run steps).left s), List.map_append,
      List.pairwise_append] at hpairs
    rw [finds_iff, found_step, limits_run] at hother
    exact hbefore.asymm (hpairs.2.2 _ (List.mem_map_of_mem htaken) _ hother)

/-- Who is behind the first came after it. -/
theorem cameBefore_of_cons {es : List Recorded} (h : k.Traced steps)
    (hfound : (k.run steps).found = e :: es) {d : Recorded} (hd : d ∈ es) :
    k.CameBefore steps e.tx d.tx := by
  have hpairs := h.order
  rw [hfound, List.map_cons, List.pairwise_cons] at hpairs
  exact hpairs.1 _ (List.mem_map_of_mem hd)

/-- **What is found** is recent or sheltered. -/
theorem young_or_sheltered (h : k.Traced steps) (he : e ∈ (k.run steps).found) :
    ∃ before, k.Waits steps e.tx e.failure before ∧
      (k.Young steps before ∨ k.Sheltered steps e.tx before) := by
  obtain ⟨before, hwaits, htime, hstays⟩ := h.waits e he
  refine ⟨before, hwaits, or_iff_not_imp_left.2 fun hold => ?_⟩
  obtain ⟨first, es, hfound⟩ := List.exists_cons_of_ne_nil (List.ne_nil_of_mem he)
  have hrecent := head_recent hfound
  obtain ⟨again, hagain, hagainTime, -⟩ := h.waits first (by simp [hfound])
  have hbehind : e ∈ es := by
    rw [hfound] at he
    refine (List.mem_cons.1 he).resolve_left fun heq => hold ?_
    exact (isStale_eq_false_iff htime).1 (heq ▸ hrecent)
  obtain ⟨past, hpast, hnot, hfirst⟩ := h.cameBefore_of_cons hfound hbehind
  -- Since it was recorded the transaction has been found, so the other came before that.
  have hearlier : past <+: before := by
    rcases List.prefix_or_prefix_of_prefix hpast hwaits.recorded with hle | hge
    · refine (List.prefix_concat_iff.1 hle).resolve_left fun heq => hnot ?_
      exact hstays past (heq ▸ List.prefix_refl _) hpast
    · exact absurd (hstays past hge hpast) hnot
  have hbefore : before <+: steps := (List.prefix_append _ _).trans hwaits.recorded
  exact ⟨first.tx, first.failure, again, ⟨past, hearlier, hnot, hfirst.mono hbefore⟩,
    fun q hq => hfirst q (hearlier.trans hq), hagain.recorded,
    (isStale_eq_false_iff hagainTime).1 hrecent⟩

end Traced

/-- **What waits** and is recent or sheltered has been found ever since it was recorded. -/
theorem Waits.mem_found (htraced : ∀ q, k.Traced q) (hroom : 0 < k.kept.limits.maxEntries)
    (h : k.Waits steps tx failure before)
    (hold : k.Young steps before ∨ k.Sheltered steps tx before) {q : List ShelfStep}
    (hq : before ++ [.record tx failure] <+: q) (hsteps : q <+: steps) :
    (⟨tx, failure, (k.run before).now⟩ : Recorded) ∈ (k.run q).found := by
  have hsurvives : ∀ q s, before <+: q → q ++ [s] <+: steps →
      (⟨tx, failure, (k.run before).now⟩ : Recorded) ∈ (k.run q).left s →
      (⟨tx, failure, (k.run before).now⟩ : Recorded) ∈ (k.run (q ++ [s])).found := by
    intro q s hq hs hleft
    refine (htraced q).found_of_left hleft ?_
    rcases hold with hyoung | ⟨other, _, _, hbefore, hstays, -⟩
    · left
      rw [← Bool.not_eq_true]
      intro hstale
      have hend := Rejections.isStale_mono (now_mono hs) hstale
      rw [← limits_run k steps, ← Bool.not_eq_false, isStale_eq_false_iff rfl] at hend
      exact hend hyoung
    · have hqs : q <+: steps := (List.prefix_append q [s]).trans hs
      exact Or.inr ⟨other, hbefore.extend hq (hstays.mono hqs),
        hstays _ (hq.trans (List.prefix_append q [s])) hs⟩
  induction q using List.reverseRecOn with
  | nil => simp at hq
  | append_singleton q s ih =>
    rcases List.prefix_concat_iff.1 hq with heq | hq
    · obtain ⟨rfl, hs⟩ := List.append_inj' heq rfl
      cases hs
      refine hsurvives _ _ (List.prefix_refl _) hsteps ?_
      exact (htraced before).orderly.mem_left_record (by simpa using hroom) tx failure
    · have hqs : q <+: steps := (List.prefix_append q [s]).trans hsteps
      obtain ⟨hnames, hpushed⟩ := h.since q s hq hsteps
      exact hsurvives q s ((List.prefix_append _ _).trans hq) hsteps
        (mem_left_of_found (ih hq hqs) hnames hpushed)

/-- **Who is answered**: whose failure waits, and is recent or sheltered. -/
theorem answer_iff (htraced : ∀ q, k.Traced q) (hroom : 0 < k.kept.limits.maxEntries) :
    (k.run steps).answer tx = some failure ↔ ∃ before, k.Waits steps tx failure before ∧
      (k.Young steps before ∨ k.Sheltered steps tx before) := by
  rw [answer_eq, Option.map_eq_some_iff]
  constructor
  · rintro ⟨e, he, rfl⟩
    obtain rfl : e.tx = tx := by simpa using List.find?_some he
    exact (htraced steps).young_or_sheltered (List.mem_of_find?_eq_some he)
  · rintro ⟨before, hwaits, hold⟩
    have hmem := hwaits.mem_found htraced hroom hold hwaits.recorded (List.prefix_refl _)
    cases hfind : (k.run steps).found.find? fun e => e.tx == tx with
    | none => simpa using List.find?_eq_none.1 hfind _ hmem
    | some e =>
      have hsame := List.inj_on_of_nodup_map (htraced steps).orderly.nodup
        (List.mem_of_find?_eq_some hfind) hmem (by simpa using List.find?_some hfind)
      exact ⟨e, rfl, congrArg Recorded.failure hsame⟩

/-! ## Who has to go -/

/-- **Who has to go** for want of room came before all others. -/
theorem Traced.pushesOut_record (h : k.Traced steps) (hroom : 0 < k.kept.limits.maxEntries)
    (tx : TxId) (failure : Failure) :
    ((k.run steps).pushesOut (.record tx failure) = [] ∧
      ((k.run steps).Finds tx ∨ (k.run steps).found.length < k.kept.limits.maxEntries)) ∨
    ∃ first, (k.run steps).pushesOut (.record tx failure) = [first] ∧
      ¬ (k.run steps).Finds tx ∧ (k.run steps).found.length = k.kept.limits.maxEntries ∧
      (k.run steps).Finds first ∧
      ∀ other, (k.run steps).Finds other → other ≠ first → k.CameBefore steps first other := by
  have hrecord := h.orderly.pushesOut_record (by simpa using hroom) tx failure
  rw [limits_run] at hrecord
  refine hrecord.imp id ?_
  rintro ⟨e, es, hfound, hfirst, htx, hfull⟩
  refine ⟨e.tx, hfirst, htx, hfull, .of_mem (by simp [hfound]), fun other hother hne => ?_⟩
  rw [finds_iff, hfound] at hother
  obtain ⟨d, hd, rfl⟩ := List.mem_map.1 hother
  refine h.cameBefore_of_cons hfound ((List.mem_cons.1 hd).resolve_left fun heq => ?_)
  exact hne (congrArg Recorded.tx heq)

/-! ## Where places and ages agree -/

theorem Renews.concat (h : k.Renews steps) (s : ShelfStep) : k.Renews (steps ++ [s]) := by
  obtain ⟨past, tx, failure, other, hpast, hother⟩ := h
  exact ⟨past, tx, failure, other, hpast.trans (List.prefix_append _ _), hother⟩

/-- A failure is recorded at the end, or anew for who came last. -/
theorem Traced.placed_eq (h : k.Traced steps)
    (hkeeps : ¬ k.Renews (steps ++ [.record tx failure])) :
    ∃ es, es <+: (k.run steps).found ∧
      (k.run steps).placed tx failure = es ++ [⟨tx, failure, (k.run steps).now⟩] := by
  by_cases htx : tx ∈ (k.run steps).found.map Recorded.tx
  · obtain ⟨d, hd, rfl⟩ := List.mem_map.1 htx
    obtain ⟨es, ds, hfound⟩ := List.append_of_mem hd
    have hnodup := h.orderly.nodup
    have hpairs := h.order
    rw [hfound, List.map_append, List.map_cons] at hnodup hpairs
    have hlast : ds = [] := by
      refine List.eq_nil_iff_forall_not_mem.2 fun o ho => hkeeps ?_
      refine ⟨steps, d.tx, failure, o.tx, List.prefix_refl _, .of_mem (by simp [hfound, ho]), ?_⟩
      exact (List.pairwise_cons.1 (List.pairwise_append.1 hpairs).2.1).1 _ (List.mem_map_of_mem ho)
    subst hlast
    refine ⟨es, ⟨[d], hfound.symm⟩, ?_⟩
    have hothers : ∀ o ∈ es, o.tx ≠ d.tx := fun o ho =>
      (List.nodup_append.1 hnodup).2.2 _ (List.mem_map_of_mem ho) _ (by simp)
    rw [placed, hfound, Rejections.place_append (e := ⟨d.tx, failure, _⟩) hothers,
      Rejections.place, if_pos rfl]
  · refine ⟨(k.run steps).found, List.prefix_refl _, ?_⟩
    have hothers : ∀ o ∈ (k.run steps).found, o.tx ≠ tx := fun o ho heq =>
      htx (heq ▸ List.mem_map_of_mem ho)
    have hplace : Rejections.place ⟨tx, failure, (k.run steps).now⟩
        ((k.run steps).found ++ []) = _ := Rejections.place_append hothers
    rwa [List.append_nil] at hplace

theorem Traced.time_le (h : k.Traced steps) (he : e ∈ (k.run steps).found) :
    e.time ≤ (k.run steps).now := by
  obtain ⟨before, hwaits, htime, -⟩ := h.waits e he
  rw [htime]
  exact now_mono ((List.prefix_append _ _).trans hwaits.recorded)

/-- **Places and ages agree** unless a failure is recorded anew before another. -/
theorem pairwise_time_le (htraced : ∀ q, k.Traced q) (hkept : k.found = [])
    (hkeeps : ¬ k.Renews steps) :
    (k.run steps).found.Pairwise fun d e => d.time ≤ e.time := by
  induction steps using List.reverseRecOn with
  | nil =>
    rw [show k.run [] = k from rfl, hkept]
    exact List.Pairwise.nil
  | append_singleton steps s ih =>
    have hpairs := ih fun hrenews => hkeeps (hrenews.concat s)
    rw [run_concat, found_step]
    refine List.Pairwise.sublist (List.dropWhile_sublist _) ?_
    cases s with
    | record tx failure =>
      obtain ⟨es, hes, hplaced⟩ := (htraced steps).placed_eq hkeeps
      refine List.Pairwise.sublist (List.drop_sublist _ _) ?_
      rw [hplaced]
      refine List.pairwise_append.2 ⟨hpairs.sublist hes.sublist, List.pairwise_singleton _ _, ?_⟩
      intro d hd e he
      rw [List.mem_singleton.1 he]
      exact (htraced steps).time_le (hes.subset hd)
    | take tx => exact hpairs.sublist List.filter_sublist
    | advance us => exact hpairs

theorem Waits.unique {failure' : Failure} {before' : List ShelfStep}
    (h : k.Waits steps tx failure before) (h' : k.Waits steps tx failure' before') :
    before = before' := by
  -- Of two records the earlier is not the last.
  have hlast : ∀ {one two : Failure} {p q : List ShelfStep}, k.Waits steps tx one p →
      k.Waits steps tx two q → p ++ [.record tx one] <+: q ++ [.record tx two] → p = q := by
    intro one two p q hp hq hle
    rcases List.prefix_concat_iff.1 hle with heq | hlt
    · exact (List.append_inj' heq rfl).1
    · exact absurd rfl (hp.since q _ hlt hq.recorded).1
  rcases List.prefix_or_prefix_of_prefix h.recorded h'.recorded with hle | hge
  · exact hlast h h' hle
  · exact (hlast h' h hge).symm

/-- Who is found was last recorded when the failure that is found was. -/
theorem Traced.exists_time (h : k.Traced steps) (htx : (k.run steps).Finds tx)
    (hwaits : k.Waits steps tx failure before) :
    ∃ e ∈ (k.run steps).found, e.tx = tx ∧ e.time = (k.run before).now := by
  obtain ⟨e, he, rfl⟩ := List.mem_map.1 (finds_iff.1 htx)
  obtain ⟨before', hwaits', htime, -⟩ := h.waits e he
  exact ⟨e, he, rfl, hwaits.unique hwaits' ▸ htime⟩

theorem Traced.young_of_pairwise (h : k.Traced steps)
    (hages : (k.run steps).found.Pairwise fun d e => d.time ≤ e.time)
    (htx : (k.run steps).Finds tx) (hwaits : k.Waits steps tx failure before) :
    k.Young steps before := by
  obtain ⟨e, he, -, htime⟩ := h.exists_time htx hwaits
  obtain ⟨first, es, hfound⟩ := List.exists_cons_of_ne_nil (List.ne_nil_of_mem he)
  have hrecent := head_recent hfound
  rw [hfound] at he hages
  refine (isStale_eq_false_iff htime).1 ?_
  rw [← Bool.not_eq_true] at hrecent ⊢
  refine fun hstale => hrecent ?_
  rcases List.mem_cons.1 he with rfl | he
  · exact hstale
  · have hle : first.time ≤ e.time := (List.pairwise_cons.1 hages).1 e he
    simp only [Rejections.isStale, decide_eq_true_eq] at hstale ⊢
    omega

theorem Traced.oldest_pushed_out {again : List ShelfStep} {failure₁ failure₂ : Failure}
    (h : k.Traced steps) (hroom : 0 < k.kept.limits.maxEntries)
    (hages : (k.run steps).found.Pairwise fun d e => d.time ≤ e.time)
    (hfirst : (k.run steps).pushesOut (.record tx failure) = [one])
    (hfinds : (k.run steps).Finds two) (hone : k.Waits steps one failure₁ before)
    (htwo : k.Waits steps two failure₂ again) : (k.run before).now ≤ (k.run again).now := by
  rcases h.orderly.pushesOut_record (by simpa using hroom) tx failure with
    ⟨hnone, -⟩ | ⟨e, es, hfound, hpushed, -⟩
  · rw [hnone] at hfirst
    cases hfirst
  · obtain rfl : e.tx = one := List.singleton_inj.1 (hpushed.symm.trans hfirst)
    obtain ⟨e', he', hsame, htime⟩ := h.exists_time (.of_mem (by simp [hfound])) hone
    obtain ⟨d, hd, -, htime'⟩ := h.exists_time hfinds htwo
    obtain rfl : e' = e :=
      List.inj_on_of_nodup_map h.orderly.nodup he' (by simp [hfound]) hsame
    rw [← htime, ← htime']
    rw [hfound] at hd hages
    rcases List.mem_cons.1 hd with rfl | hd
    · exact Nat.le_refl _
    · exact (List.pairwise_cons.1 hages).1 d hd

end Shelf

/-- **Rejections age in the order of their arrival.** Whatever was recorded and taken, and however
much time has passed,

* a failure is found for a transaction exactly if it is the last that was recorded of it, was
  neither taken since nor pushed out for want of room, and is either young enough itself or behind
  one that is: that of a transaction that came before and has been found ever since;
* a failure has to go exactly if another is recorded of a transaction that is not found where there
  are as many as there may be, and it is that of the transaction that came before all others;
* and so where no failure is recorded anew before another, just those are found that are young
  enough, and the one that has to go was recorded no later than any other. -/
theorem rejections_age_in_order_of_arrival (limits : RejectionLimits)
    (hroom : 0 < limits.maxEntries) (start : Nat) (steps : List ShelfStep) :
    let k := Shelf.empty limits start
    (∀ tx failure, (k.run steps).answer tx = some failure ↔
      ∃ before, k.Waits steps tx failure before ∧
        (k.Young steps before ∨ k.Sheltered steps tx before)) ∧
    (∀ tx failure,
      ((k.run steps).pushesOut (.record tx failure) = [] ∧
        ((k.run steps).Finds tx ∨ (k.run steps).found.length < limits.maxEntries)) ∨
      ∃ first, (k.run steps).pushesOut (.record tx failure) = [first] ∧
        ¬ (k.run steps).Finds tx ∧ (k.run steps).found.length = limits.maxEntries ∧
        (k.run steps).Finds first ∧
        ∀ other, (k.run steps).Finds other → other ≠ first →
          k.CameBefore steps first other) ∧
    (¬ k.Renews steps →
      (∀ tx failure, (k.run steps).answer tx = some failure ↔
        ∃ before, k.Waits steps tx failure before ∧ k.Young steps before) ∧
      ∀ tx failure first, (k.run steps).pushesOut (.record tx failure) = [first] →
        ∀ other, (k.run steps).Finds other →
          ∀ one before two again, k.Waits steps first one before → k.Waits steps other two again →
            (k.run before).now ≤ (k.run again).now) := by
  intro k
  have htraced : ∀ q, k.Traced q := Shelf.traced limits start
  have hpushes := (htraced steps).pushesOut_record hroom
  refine ⟨fun tx failure => Shelf.answer_iff htraced hroom, hpushes, fun hkeeps => ?_⟩
  have hages := Shelf.pairwise_time_le htraced rfl hkeeps
  refine ⟨fun tx failure => ?_, fun tx failure first hfirst other hother one before two again
    hone htwo => ?_⟩
  · rw [Shelf.answer_iff htraced hroom]
    refine exists_congr fun before => and_congr_right fun hwaits =>
      ⟨fun hold => ?_, Or.inl⟩
    have hfinds : (k.run steps).Finds tx :=
      ⟨failure, (Shelf.answer_iff htraced hroom).2 ⟨before, hwaits, hold⟩⟩
    exact (htraced steps).young_of_pairwise hages hfinds hwaits
  · exact (htraced steps).oldest_pushed_out hroom hages hfirst hother hone htwo

/-- A failure that is too old is found behind one that was recorded anew, and for a third it is the
one recorded anew that has to go. -/
theorem old_rejection_waits_behind_renewed :
    let failure (message : String) : Failure := ⟨.notKnown, message⟩
    let steps : List ShelfStep :=
      [.record ⟨1⟩ (failure "one"), .record ⟨2⟩ (failure "two"), .advance 700,
        .record ⟨1⟩ (failure "again"), .advance 500]
    let k := Shelf.empty ⟨2, 1⟩ 0
    0 < k.kept.limits.maxEntries ∧ ¬ k.Young steps [.record ⟨1⟩ (failure "one")] ∧
      (k.run steps).answer ⟨2⟩ = some (failure "two") ∧
      (∃ before, k.Waits steps ⟨2⟩ (failure "two") before ∧
        (k.Young steps before ∨ k.Sheltered steps ⟨2⟩ before)) ∧
      (k.run steps).pushesOut (.record ⟨3⟩ (failure "three")) = [⟨1⟩] ∧
      k.CameBefore steps ⟨1⟩ ⟨2⟩ := by
  intro failure steps k
  have hroom : 0 < k.kept.limits.maxEntries := by decide
  have hold : ¬ k.Young steps [.record ⟨1⟩ (failure "one")] := by
    unfold Shelf.Young
    decide
  have hanswer : (k.run steps).answer ⟨2⟩ = some (failure "two") := by decide
  have hpushed : (k.run steps).pushesOut (.record ⟨3⟩ (failure "three")) = [⟨1⟩] := by decide
  obtain ⟨hfound, hpushes, -⟩ := rejections_age_in_order_of_arrival ⟨2, 1⟩ hroom 0 steps
  refine ⟨hroom, hold, hanswer, (hfound _ _).1 hanswer, hpushed, ?_⟩
  rcases hpushes ⟨3⟩ (failure "three") with ⟨hnone, -⟩ | ⟨first, hfirst, -, -, -, hothers⟩
  · exact absurd (hpushed.symm.trans hnone) (by simp)
  · obtain rfl := List.singleton_inj.1 (hpushed.symm.trans hfirst)
    exact hothers ⟨2⟩ ⟨_, hanswer⟩ (by decide)

end MetadataArchive
