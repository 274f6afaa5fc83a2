import MetadataArchive.Proofs.Archive.Change
import MetadataArchive.Proofs.Lifecycle.Catalog

/-!
# Callers between question and answer

Whoever wants a change submits a transaction and asks later what became of it. In between the
outcome waits in the store, and the failure of a request that was rejected waits beside it, each
among those of other callers, in a list with room for so many. While the clock stands still nothing
else is lost, so what a caller hears is what the function said to its own request, except where too
many others came behind it and waited at one time (`callers_hear_of_their_own`): behind too many
outcomes it hears that its transaction is not known, and behind too many rejections it does not hear
that it was rejected.
-/

set_option autoImplicit false

namespace MetadataArchive

/-! ## Callers -/

namespace Archive

/-- The call of the function that a request is for. -/
def call (a : Archive) (user : String) (r : Request) : TxOp :=
  (⟨user, a.settings.collection, r⟩ : Invocation).toOp

/-- What the function of a request replies in the next transaction of a store. -/
def replyTo (a : Archive) (c : Clock) (s : Store) (user : String) (r : Request) : Reply Failure :=
  (Catalog.function a.types r.function).run ⟨⟨s.lastTx + 1⟩, s.nextTime c.now, s.latest⟩
    (⟨user, a.settings.collection, r⟩ : Invocation).toJson

end Archive

/-- What a reply has to say to whoever sent the request, if the transaction had the outcome. -/
def Reply.answer (name : String) (o : Outcome) : Reply Failure → Except Failure Outcome
  | .writes _ (some failure) => .error failure
  | .writes _ none => .ok o
  | .fault reason => .error ⟨.functionFault, (TxFault.failed name reason).message⟩
  | .panic message => .error ⟨.functionFault, (TxFault.panicked message).message⟩

theorem Reply.answer_of_note {reply : Reply Failure} {failure : Failure} {name : String}
    {o : Outcome} (h : reply.note? = some failure) : reply.answer name o = .error failure := by
  cases reply with
  | writes ws note =>
    cases h
    rfl
  | fault | panic => cases h

/-- What callers do. -/
inductive CallerStep where
  | submit (user : String) (request : Request)
  | resolve (tx : TxId)

/-- A caller that has submitted a request and has not asked what became of it. -/
structure Waiting where
  tx : TxId
  rejected : Bool
  deriving DecidableEq, Repr

/-- A site, and those who came to it and wait there. -/
structure Desk where
  site : Site
  waiting : List Waiting

namespace Desk

variable (a : Archive) (c : Clock)

def step (d : Desk) : CallerStep → Desk
  | .submit user r =>
      let submitted := Site.submit c [a.call user r] d.site
      let rejected := (a.replyTo c d.site.store user r).note?.isSome
      ⟨submitted.2, d.waiting ++ [⟨submitted.1, rejected⟩]⟩
  | .resolve tx => ⟨(Archive.resolve c tx d.site).2, d.waiting.filter fun w => w.tx != tx⟩

def run (d : Desk) (steps : List CallerStep) : Desk := steps.foldl (step a c) d

/-- At some time of a run, at least so many of those who came in it waited. -/
def Crowded (d : Desk) (n : Nat) (who : Waiting → Bool) (steps : List CallerStep) : Prop :=
  ∃ p, p <+: steps ∧ n ≤ (d.run a c p).waiting.countP who

variable {a c} {d : Desk} {n : Nat} {who : Waiting → Bool} {steps : List CallerStep}
variable {s : CallerStep}

theorem run_concat : d.run a c (steps ++ [s]) = (d.run a c steps).step a c s := by
  simp [run]

theorem crowded_concat : d.Crowded a c n who (steps ++ [s]) ↔
    d.Crowded a c n who steps ∨ n ≤ ((d.run a c steps).step a c s).waiting.countP who := by
  simp only [Crowded, List.prefix_concat_iff]
  constructor
  · rintro ⟨p, rfl | hp, hn⟩
    · exact Or.inr (run_concat ▸ hn)
    · exact Or.inl ⟨p, hp, hn⟩
  · rintro (⟨p, hp, hn⟩ | hn)
    · exact ⟨p, Or.inr hp, hn⟩
    · exact ⟨_, Or.inl rfl, run_concat ▸ hn⟩

/-- What is kept as long as it is not crowded, and lost from then on, is lost in a run exactly where
it was crowded. -/
theorem crowded_or (Kept Lost : Desk → Prop) (hkept : Kept d) (hroom : d.waiting.countP who < n)
    (hstep : ∀ p s, p ++ [s] <+: steps → Kept (d.run a c p) →
      (d.run a c p).waiting.countP who < n →
      (((d.run a c p).step a c s).waiting.countP who < n ∧ Kept ((d.run a c p).step a c s)) ∨
        (n ≤ ((d.run a c p).step a c s).waiting.countP who ∧ Lost ((d.run a c p).step a c s)))
    (hlost : ∀ p s, p ++ [s] <+: steps → Lost (d.run a c p) → Lost ((d.run a c p).step a c s)) :
    (d.Crowded a c n who steps ∧ Lost (d.run a c steps)) ∨
      (¬ d.Crowded a c n who steps ∧ Kept (d.run a c steps)) := by
  induction steps using List.reverseRecOn with
  | nil =>
    refine Or.inr ⟨?_, hkept⟩
    rintro ⟨p, hp, hn⟩
    rw [List.prefix_nil.1 hp] at hn
    exact absurd hn (Nat.not_le.2 hroom)
  | append_singleton steps s ih =>
    have hpre : ∀ p s', p ++ [s'] <+: steps → p ++ [s'] <+: steps ++ [s] := fun p s' hp =>
      hp.trans (List.prefix_append _ _)
    rw [crowded_concat, run_concat]
    rcases ih (fun p s' hp => hstep p s' (hpre p s' hp)) (fun p s' hp => hlost p s' (hpre p s' hp))
      with ⟨hcrowded, hl⟩ | ⟨hfree, hk⟩
    · exact Or.inl ⟨Or.inl hcrowded, hlost steps s (List.prefix_refl _) hl⟩
    · have hn : (d.run a c steps).waiting.countP who < n :=
        Nat.lt_of_not_le fun hn => hfree ⟨steps, List.prefix_refl _, hn⟩
      rcases hstep steps s (List.prefix_refl _) hk hn with ⟨hn', hk'⟩ | ⟨hn', hl'⟩
      · exact Or.inr ⟨not_or.2 ⟨hfree, Nat.not_le.2 hn'⟩, hk'⟩
      · exact Or.inl ⟨Or.inr hn', hl'⟩

end Desk

/-! ## What a step changes -/

/-- An archive at work on a site, while the clock stands still. -/
structure Archive.Steady (a : Archive) (c : Clock) (capacity : Nat) (site : Site) : Prop where
  on : ∃ l, a.On site l
  capacity : site.store.capacity = capacity
  limits : site.rejections.limits = a.settings.rejections
  recent : site.rejections.Recent c.elapsed

namespace Archive.Steady

variable {a : Archive} {c : Clock} {capacity : Nat} {site : Site} {user : String} {r : Request}

theorem numbered (h : a.Steady c capacity site) :
    (∀ o ∈ site.store.outcomes, o.tx.number ≤ site.store.lastTx) ∧
      ∀ e ∈ site.rejections.entries, e.tx.number ≤ site.store.lastTx := by
  obtain ⟨l, hl⟩ := h.on
  rw [hl.tracks.number]
  exact ⟨hl.outcomes, hl.rejected⟩

/-- Nothing is kept under the number of the next transaction. -/
theorem lacks_next (h : a.Steady c capacity site) :
    Lacks Outcome.tx ⟨site.store.lastTx + 1⟩ site.store.outcomes ∧
      site.rejections.Fresh ⟨site.store.lastTx + 1⟩ := by
  obtain ⟨l, hl⟩ := h.on
  refine ⟨hl.keepsOutcomes.lacks_next, fun e he heq => ?_⟩
  have hle := h.numbered.2 e he
  rw [heq] at hle
  exact absurd hle (Nat.not_succ_le_self _)

/-- What a submission leaves: an outcome, and a failure where the request was rejected. -/
theorem submit (h : a.Steady c capacity site) (user : String) (r : Request) :
    (Site.submit c [a.call user r] site).1 = ⟨site.store.lastTx + 1⟩ ∧
    a.Steady c capacity (Site.submit c [a.call user r] site).2 ∧
    (Site.submit c [a.call user r] site).2.store.lastTx = site.store.lastTx + 1 ∧
    (Site.submit c [a.call user r] site).2.store.outcomes = (site.store.outcomes ++
      [site.store.outcome (Catalog.functions a.types) c.now [a.call user r]]).rtake capacity ∧
    (Site.submit c [a.call user r] site).2.rejections.entries =
      match (a.replyTo c site.store user r).note? with
      | none => site.rejections.entries
      | some failure => (site.rejections.entries ++
          [(⟨⟨site.store.lastTx + 1⟩, failure, c.elapsed⟩ : Recorded)]).rtake
            a.settings.rejections.maxEntries := by
  obtain ⟨l, hl⟩ := h.on
  obtain ⟨htx, hstore, hrejections⟩ := hl.submit_eq c [a.call user r]
  obtain ⟨-, hlast, hcapacity, houtcomes⟩ :=
    site.store.submit_outcomes (Catalog.functions a.types) c.now [a.call user r]
  have hnotes : (l.submit (Catalog.functions a.types) c.now [a.call user r]).2.1 =
      (a.replyTo c site.store user r).note?.toList := by
    rw [(submit_frame _ _ _ _).2.1, call, Catalog.runOps_toOp, replyTo, hl.tracks.number,
      hl.tracks.nextTime_eq, hl.tracks.latest_eq]
    cases (Catalog.function a.types r.function).run ⟨⟨l.submitted + 1⟩, l.nextTime c.now, l.latest⟩
      (⟨user, a.settings.collection, r⟩ : Invocation).toJson <;> rfl
  rw [hnotes, noted, ← hl.tracks.number] at hrejections
  have httl : 0 < site.rejections.limits.ttlMs := hl.ttl
  refine ⟨htx.trans (by rw [hl.tracks.number]), ⟨⟨_, hl.submit c _⟩, ?_, ?_, ?_⟩, ?_, ?_, ?_⟩
  · rw [hstore, hcapacity, h.capacity]
  · rw [hrejections, Rejections.foldl_record_limits, h.limits]
  · rw [hrejections]
    cases (a.replyTo c site.store user r).note? with
    | none => exact h.recent
    | some failure => exact h.recent.record
  · rw [hstore, hlast]
  · rw [hstore, houtcomes, ← h.capacity]
    rfl
  · rw [hrejections]
    cases (a.replyTo c site.store user r).note? with
    | none => rfl
    | some failure =>
      rw [← h.limits]
      exact Rejections.record_entries h.recent httl h.lacks_next.2

/-- Who asks for an outcome that is not there is told so; otherwise the outcome and the failure are
taken. -/
theorem resolve (h : a.Steady c capacity site) (tx : TxId) :
    a.Steady c capacity (Archive.resolve c tx site).2 ∧
    (Archive.resolve c tx site).2.store.lastTx = site.store.lastTx ∧
    (Archive.resolve c tx site).2.store.outcomes =
      site.store.outcomes.filter (fun o => o.tx != tx) ∧
    ((Lacks Outcome.tx tx site.store.outcomes ∧
        Archive.resolve c tx site = (.error (.ofStore (.unknownTransaction tx)), site)) ∨
      ¬ Lacks Outcome.tx tx site.store.outcomes ∧
        (Archive.resolve c tx site).2.rejections.entries =
          site.rejections.entries.filter fun e => e.tx != tx) := by
  obtain ⟨l, hl⟩ := h.on
  cases hfind : site.store.outcomes.find? fun o => o.tx == tx with
  | none =>
    have hlacks : Lacks Outcome.tx tx site.store.outcomes := fun o ho => by
      simpa using List.find?_eq_none.1 hfind o ho
    rw [resolve_error (Store.claim_of_lacks hlacks)]
    refine ⟨h, rfl, ?_, Or.inl ⟨hlacks, rfl⟩⟩
    rw [List.filter_eq_self.2]
    exact fun o ho => by simpa using hlacks o ho
  | some o =>
    have hon := hl.resolve c tx
    rw [resolve_eq (Store.claim_of_find? hfind)] at hon ⊢
    refine ⟨⟨⟨l, hon⟩, h.capacity, ?_, h.recent.take⟩, rfl, rfl, Or.inr ⟨fun hlacks => ?_, ?_⟩⟩
    · exact Rejections.take_limits.trans h.limits
    · exact hlacks o (List.mem_of_find?_eq_some hfind) (by simpa using List.find?_some hfind)
    · exact (Rejections.take_entries h.recent hl.ttl).2

end Archive.Steady

/-! ## Who waits behind whom -/

namespace Desk

variable {a : Archive} {c : Clock} {d : Desk} {n : Nat} {o : Outcome} {e : Recorded}
variable {s : CallerStep} {steps : List CallerStep} {tx : TxId}

/-- The outcome is kept, and behind it are those of all who wait. -/
def KeepsOutcome (o : Outcome) (d : Desk) : Prop :=
  KeptBefore Outcome.tx o (d.waiting.map Waiting.tx) d.site.store.outcomes

/-- The failure is kept, and behind it are those of all who wait and were rejected. -/
def KeepsRejection (e : Recorded) (d : Desk) : Prop :=
  KeptBefore Recorded.tx e ((d.waiting.filter Waiting.rejected).map Waiting.tx)
    d.site.rejections.entries

theorem steady_step (h : a.Steady c n d.site) (s : CallerStep) :
    a.Steady c n (d.step a c s).site ∧
      d.site.store.lastTx ≤ (d.step a c s).site.store.lastTx := by
  cases s with
  | submit user r =>
    obtain ⟨-, hsteady, hlast, -⟩ := h.submit user r
    exact ⟨hsteady, hlast ▸ Nat.le_succ _⟩
  | resolve tx =>
    obtain ⟨hsteady, hlast, -⟩ := h.resolve tx
    exact ⟨hsteady, hlast.ge⟩

theorem steady_run (h : a.Steady c n d.site) (steps : List CallerStep) :
    a.Steady c n (d.run a c steps).site ∧
      d.site.store.lastTx ≤ (d.run a c steps).site.store.lastTx := by
  induction steps generalizing d with
  | nil => exact ⟨h, Nat.le_refl _⟩
  | cons s steps ih =>
    obtain ⟨hsteady, hlast⟩ := steady_step h s
    obtain ⟨hsteady', hlast'⟩ := ih hsteady
    exact ⟨hsteady', hlast.trans hlast'⟩

theorem next_ne (hlast : tx.number ≤ d.site.store.lastTx) :
    (⟨d.site.store.lastTx + 1⟩ : TxId) ≠ tx := fun heq =>
  absurd (heq ▸ hlast) (Nat.not_succ_le_self _)

theorem KeepsOutcome.step (h : d.KeepsOutcome o) (hs : a.Steady c n d.site)
    (hroom : d.waiting.length < n) (hne : s ≠ .resolve o.tx) :
    ((d.step a c s).waiting.length < n ∧ (d.step a c s).KeepsOutcome o) ∨
      (n ≤ (d.step a c s).waiting.length ∧
        Lacks Outcome.tx o.tx (d.step a c s).site.store.outcomes) := by
  cases s with
  | submit user r =>
    obtain ⟨htx, -, -, houtcomes, -⟩ := hs.submit user r
    have hlast : o.tx.number ≤ d.site.store.lastTx := hs.numbered.1 o h.mem
    have hpush := KeptBefore.push (n := n) h
      (y := d.site.store.outcome (Catalog.functions a.types) c.now [a.call user r]) (next_ne hlast)
    rw [List.length_map, ← houtcomes] at hpush
    simp only [Desk.step, KeepsOutcome, htx, List.length_append, List.length_singleton,
      List.map_append, List.map_singleton]
    rcases Nat.lt_or_ge (d.waiting.length + 1) n with hlt | hge
    · exact Or.inl ⟨hlt, hpush.1 hlt⟩
    · exact Or.inr ⟨hge, hpush.2 hge⟩
  | resolve tx =>
    have hother : o.tx ≠ tx := fun heq => hne (heq ▸ rfl)
    obtain ⟨-, -, houtcomes, -⟩ := hs.resolve tx
    refine Or.inl ⟨Nat.lt_of_le_of_lt (List.length_filter_le _ _) hroom, ?_⟩
    have hkept := h.filter hother
    rw [← houtcomes, List.filter_map] at hkept
    exact hkept

theorem lacksOutcome_step (h : Lacks Outcome.tx tx d.site.store.outcomes)
    (hs : a.Steady c n d.site) (hlast : tx.number ≤ d.site.store.lastTx) (s : CallerStep) :
    Lacks Outcome.tx tx (d.step a c s).site.store.outcomes := by
  cases s with
  | submit user r =>
    obtain ⟨-, -, -, houtcomes, -⟩ := hs.submit user r
    show Lacks Outcome.tx tx (Site.submit c [a.call user r] d.site).2.store.outcomes
    rw [houtcomes]
    exact h.push (next_ne hlast)
  | resolve tx' =>
    obtain ⟨-, -, houtcomes, -⟩ := hs.resolve tx'
    show Lacks Outcome.tx tx (Archive.resolve c tx' d.site).2.store.outcomes
    rw [houtcomes]
    exact h.filter _

theorem KeepsRejection.step (h : d.KeepsRejection e) (ho : d.KeepsOutcome o) (htx : e.tx = o.tx)
    (hs : a.Steady c n d.site)
    (hroom : d.waiting.countP Waiting.rejected < a.settings.rejections.maxEntries)
    (hne : s ≠ .resolve o.tx) :
    ((d.step a c s).waiting.countP Waiting.rejected < a.settings.rejections.maxEntries ∧
        (d.step a c s).KeepsRejection e) ∨
      (a.settings.rejections.maxEntries ≤ (d.step a c s).waiting.countP Waiting.rejected ∧
        Lacks Recorded.tx e.tx (d.step a c s).site.rejections.entries) := by
  cases s with
  | submit user r =>
    obtain ⟨hnew, -, -, -, hentries⟩ := hs.submit user r
    have hlast : e.tx.number ≤ d.site.store.lastTx := hs.numbered.2 e h.mem
    simp only [Desk.step, KeepsRejection, hnew, List.countP_append, List.filter_append,
      List.map_append, hentries]
    cases (a.replyTo c d.site.store user r).note? with
    | none => exact Or.inl ⟨hroom, by simpa [KeepsRejection] using h⟩
    | some failure =>
      have hpush := KeptBefore.push (n := a.settings.rejections.maxEntries) h
        (y := ⟨⟨d.site.store.lastTx + 1⟩, failure, c.elapsed⟩) (next_ne hlast)
      rw [List.length_map, ← List.countP_eq_length_filter] at hpush
      rcases Nat.lt_or_ge (d.waiting.countP Waiting.rejected + 1)
        a.settings.rejections.maxEntries with hlt | hge
      · exact Or.inl ⟨hlt, hpush.1 hlt⟩
      · exact Or.inr ⟨hge, hpush.2 hge⟩
  | resolve tx =>
    have hother : e.tx ≠ tx := fun heq => hne (htx ▸ heq ▸ rfl)
    obtain ⟨-, -, -, ⟨hlacks, hsite⟩ | ⟨-, hentries⟩⟩ := hs.resolve tx
    · -- Who has no outcome here does not wait behind this one.
      have hnobody : d.waiting.filter (fun w => w.tx != tx) = d.waiting :=
        List.filter_eq_self.2 fun w hw => by
          obtain ⟨o', ho', htx'⟩ := ho.exists_of_mem (List.mem_map_of_mem hw)
          simpa [← htx'] using hlacks o' ho'
      simp only [Desk.step, KeepsRejection, hsite, hnobody]
      exact Or.inl ⟨hroom, h⟩
    · have hkept := h.filter hother
      rw [← hentries, List.filter_map, List.filter_filter] at hkept
      refine Or.inl ⟨?_, ?_⟩
      · refine Nat.lt_of_le_of_lt ?_ hroom
        simp only [Desk.step, List.countP_filter]
        exact List.countP_mono_left fun w _ hw => (Bool.and_eq_true _ _ ▸ hw).1
      · simp only [Desk.step, KeepsRejection, List.filter_filter]
        simpa only [Function.comp_def, Bool.and_comm] using hkept

theorem lacksRejection_step (h : Lacks Recorded.tx tx d.site.rejections.entries)
    (hs : a.Steady c n d.site) (hlast : tx.number ≤ d.site.store.lastTx) (s : CallerStep) :
    Lacks Recorded.tx tx (d.step a c s).site.rejections.entries := by
  cases s with
  | submit user r =>
    obtain ⟨-, -, -, -, hentries⟩ := hs.submit user r
    show Lacks Recorded.tx tx (Site.submit c [a.call user r] d.site).2.rejections.entries
    rw [hentries]
    cases (a.replyTo c d.site.store user r).note? with
    | none => exact h
    | some failure => exact h.push (next_ne hlast)
  | resolve tx' =>
    show Lacks Recorded.tx tx (Archive.resolve c tx' d.site).2.rejections.entries
    obtain ⟨-, -, -, ⟨-, hsite⟩ | ⟨-, hentries⟩⟩ := hs.resolve tx'
    · rw [hsite]
      exact h
    · rw [hentries]
      exact h.filter _

/-- The outcome of a caller that waits is lost exactly where it gets crowded. -/
theorem outcome_run (h : d.KeepsOutcome o) (hs : a.Steady c n d.site) (hroom : d.waiting.length < n)
    (hwaits : .resolve o.tx ∉ steps) :
    (d.Crowded a c n (fun _ => true) steps ∧
        Lacks Outcome.tx o.tx (d.run a c steps).site.store.outcomes) ∨
      (¬ d.Crowded a c n (fun _ => true) steps ∧ (d.run a c steps).KeepsOutcome o) := by
  have hlast : o.tx.number ≤ d.site.store.lastTx := hs.numbered.1 o h.mem
  have hcount : d.waiting.countP (fun _ => true) < n := by rwa [List.countP_true]
  refine crowded_or (KeepsOutcome o)
    (fun d => Lacks Outcome.tx o.tx d.site.store.outcomes) h hcount (fun p s hp hk hn => ?_)
    (fun p s _ hl => ?_)
  · rw [List.countP_true] at hn ⊢
    exact hk.step (steady_run hs p).1 hn fun heq => hwaits (hp.subset (by simp [heq]))
  · obtain ⟨hsteady, hle⟩ := steady_run hs p
    exact lacksOutcome_step hl hsteady (hlast.trans hle) s

/-- The failure of a caller that waits and is not forgotten is lost exactly where too many behind it
are rejected. -/
theorem rejection_run (h : d.KeepsRejection e) (ho : d.KeepsOutcome o) (htx : e.tx = o.tx)
    (hs : a.Steady c n d.site) (hroom : d.waiting.length < n)
    (hrejected : d.waiting.countP Waiting.rejected < a.settings.rejections.maxEntries)
    (hwaits : .resolve o.tx ∉ steps) (hfree : ¬ d.Crowded a c n (fun _ => true) steps) :
    (d.Crowded a c a.settings.rejections.maxEntries Waiting.rejected steps ∧
        Lacks Recorded.tx o.tx (d.run a c steps).site.rejections.entries) ∨
      (¬ d.Crowded a c a.settings.rejections.maxEntries Waiting.rejected steps ∧
        (d.run a c steps).KeepsRejection e) := by
  have hlast : o.tx.number ≤ d.site.store.lastTx := hs.numbered.1 o ho.mem
  refine crowded_or (KeepsRejection e)
    (fun d => Lacks Recorded.tx o.tx d.site.rejections.entries) h hrejected
    (fun p s hp hk hn => ?_) (fun p s _ hl => ?_)
  · have hpre : p <+: steps := (List.prefix_append p [s]).trans hp
    have hwaits' : .resolve o.tx ∉ p := fun hmem => hwaits (hpre.subset hmem)
    have hkept : (d.run a c p).KeepsOutcome o := by
      rcases outcome_run ho hs hroom hwaits' with ⟨⟨q, hq, hn'⟩, -⟩ | ⟨-, hkept⟩
      · exact absurd ⟨q, hq.trans hpre, hn'⟩ hfree
      · exact hkept
    have hne : s ≠ .resolve o.tx := fun heq => hwaits (hp.subset (by simp [heq]))
    have hstep := hk.step hkept htx (steady_run hs p).1 hn hne
    rwa [htx] at hstep
  · obtain ⟨hsteady, hle⟩ := steady_run hs p
    exact lacksRejection_step hl hsteady (hlast.trans hle) s

theorem lacksRejection_run (h : Lacks Recorded.tx tx d.site.rejections.entries)
    (hs : a.Steady c n d.site) (hlast : tx.number ≤ d.site.store.lastTx)
    (steps : List CallerStep) :
    Lacks Recorded.tx tx (d.run a c steps).site.rejections.entries := by
  induction steps using List.reverseRecOn with
  | nil => exact h
  | append_singleton steps s ih =>
    obtain ⟨hsteady, hle⟩ := steady_run hs steps
    rw [run_concat]
    exact lacksRejection_step ih hsteady (hlast.trans hle) s

end Desk

/-! ## Answers -/

namespace Archive

variable {a : Archive} {c : Clock} {capacity : Nat} {site : Site} {o : Outcome}

/-- How the transaction of one call ends. -/
theorem outcome_call (a : Archive) (c : Clock) (s : Store) (user : String) (r : Request) :
    (s.outcome (Catalog.functions a.types) c.now [a.call user r]).result =
      match a.replyTo c s user r with
      | .writes ws _ => .committed (ws.foldl Staged.apply ∅).size
      | .fault reason => .aborted (.failed r.function reason)
      | .panic message => .aborted (.panicked message) := by
  simp only [Store.outcome, call, Catalog.runOps_toOp, replyTo]
  generalize (Catalog.function a.types r.function).run _ _ = reply
  cases reply <;> rfl

/-- Where no failure is noted, the outcome says all that there is to say. -/
theorem answer_of_unnoted {s : Store} {user : String} {r : Request}
    (h : (a.replyTo c s user r).note? = none) :
    let o := s.outcome (Catalog.functions a.types) c.now [a.call user r]
    (match o.result with
      | .aborted fault => .error ⟨.functionFault, fault.message⟩
      | .committed _ => .ok o) = (a.replyTo c s user r).answer r.function o := by
  intro o
  rw [show o.result = _ from outcome_call a c s user r]
  cases hreply : a.replyTo c s user r with
  | writes ws note =>
    rw [hreply] at h
    cases h
    rfl
  | fault reason => rfl
  | panic message => rfl

/-- What was rejected is committed as nothing. -/
theorem outcome_rejected {s : Store} {user : String} {r : Request} {failure : Failure}
    (h : (a.replyTo c s user r).note? = some failure) :
    (s.outcome (Catalog.functions a.types) c.now [a.call user r]).result = .committed 0 := by
  rw [outcome_call]
  cases hreply : a.replyTo c s user r with
  | writes ws note =>
    rw [hreply] at h
    cases h
    obtain ⟨i, -, -, ⟨-, hnone⟩ | ⟨_, -, rfl, -⟩⟩ :=
      Catalog.run_writes (List.mem_map_of_mem r.function_mem) hreply
    · cases hnone
    · rfl
  | fault | panic =>
    rw [hreply] at h
    cases h

/-- Whose outcome is kept, and no failure beside it, hears of the outcome. -/
theorem Steady.resolve_kept {behind : List TxId} (h : a.Steady c capacity site)
    (ho : KeptBefore Outcome.tx o behind site.store.outcomes) :
    (Lacks Recorded.tx o.tx site.rejections.entries → (Archive.resolve c o.tx site).1 =
      match o.result with
      | .aborted fault => .error ⟨.functionFault, fault.message⟩
      | .committed _ => .ok o) ∧
    ∀ (e : Recorded) (behind : List TxId), e.tx = o.tx →
      KeptBefore Recorded.tx e behind site.rejections.entries →
        (Archive.resolve c o.tx site).1 = .error e.failure := by
  obtain ⟨l, hl⟩ := h.on
  rw [resolve_eq (Store.claim_of_find? ho.find?), (Rejections.take_entries h.recent hl.ttl).1]
  refine ⟨fun hlacks => ?_, fun e behind htx he => ?_⟩
  · have hnone : site.rejections.entries.find? (fun e => e.tx == o.tx) = none :=
      List.find?_eq_none.2 fun e he => by simpa using hlacks e he
    rw [hnone]
    rfl
  · rw [← htx, he.find?]
    rfl

/-- Who has just submitted a request has an outcome, and a failure if that was rejected; nobody is
behind. -/
theorem Steady.submitted (h : a.Steady c capacity site) (hcapacity : 0 < capacity)
    (hmax : 0 < a.settings.rejections.maxEntries) (user : String) (r : Request) :
    let behind : Desk := ⟨(Site.submit c [a.call user r] site).2, []⟩
    let reply := a.replyTo c site.store user r
    behind.KeepsOutcome (site.store.outcome (Catalog.functions a.types) c.now [a.call user r]) ∧
      (reply.note? = none →
        Lacks Recorded.tx ⟨site.store.lastTx + 1⟩ behind.site.rejections.entries) ∧
      ∀ failure, reply.note? = some failure →
        behind.KeepsRejection ⟨⟨site.store.lastTx + 1⟩, failure, c.elapsed⟩ := by
  intro behind reply
  obtain ⟨-, -, -, houtcomes, hentries⟩ := h.submit user r
  obtain ⟨hlacks, hfresh⟩ := h.lacks_next
  refine ⟨?_, fun hnote => ?_, fun failure hnote => ?_⟩
  · show KeptBefore Outcome.tx _ [] behind.site.store.outcomes
    rw [houtcomes]
    exact KeptBefore.new hlacks hcapacity
  · rw [hentries, hnote]
    exact hfresh
  · show KeptBefore Recorded.tx _ [] behind.site.rejections.entries
    rw [hentries, hnote]
    exact KeptBefore.new hfresh hmax

/-- A site that was just set up is as steady as the clock. -/
theorem steady_setUp {ts : TypeSystem} {settings : Settings}
    (h : Archive.setUp ts settings (.empty capacity) = (.ok a, site)) :
    a.Steady c (max capacity 1) site ∧ a.settings = settings ∧
      0 < settings.rejections.maxEntries := by
  have hon := (setUp_ok h).2
  obtain ⟨hv, rfl, rfl⟩ := setUp_eq h
  refine ⟨⟨⟨_, hon⟩, rfl, rfl, ?_⟩, rfl, (Settings.validate_ok hv).2⟩
  simp [Rejections.Recent, Rejections.empty]

end Archive

/-- **Callers hear of their own.** An archive is set up where nothing has happened, with any
settings that are valid, and the clock stands still. Some callers come and some get their answers,
one of them submits its request, others come and some get their answers, and then it asks for its
own. It hears what the function of its request replied, that is the very failure with which it was
rejected, or the outcome of its transaction where it was accepted; and neither who came before nor
what others are told makes any difference. There are two exceptions:

* it is forgotten, and hears that its transaction is not known, exactly where at some time as many
  of those who came behind it waited as there is room for outcomes;
* otherwise, if it was rejected, that is overlooked, and it hears of a commit of nothing, exactly
  where at some time as many rejected callers of those waited as there is room for failures. -/
theorem callers_hear_of_their_own {ts : TypeSystem} {settings : Settings} {capacity : Nat}
    {a : Archive} {site : Site}
    (hsetUp : Archive.setUp ts settings (.empty capacity) = (.ok a, site)) (c : Clock)
    (before between : List CallerStep) (user : String) (r : Request) :
    let start := ((Desk.mk site []).run a c before).site
    let tx := (Site.submit c [a.call user r] start).1
    let behind : Desk := ⟨(Site.submit c [a.call user r] start).2, []⟩
    let reply := a.replyTo c start.store user r
    let o := start.store.outcome (Catalog.functions a.types) c.now [a.call user r]
    let answer := (Archive.resolve c tx (behind.run a c between).site).1
    let forgotten := behind.Crowded a c (max capacity 1) (fun _ => true) between
    let overlooked := reply.note? ≠ none ∧
      behind.Crowded a c settings.rejections.maxEntries Waiting.rejected between
    .resolve tx ∉ between →
      (forgotten → answer = .error (.ofStore (.unknownTransaction tx))) ∧
      (¬ forgotten → ¬ overlooked → answer = reply.answer r.function o) ∧
      (¬ forgotten → overlooked → answer = .ok o ∧ o.tx = tx ∧ o.result = .committed 0) := by
  intro start tx behind reply o answer forgotten overlooked hwaits
  obtain ⟨hsite, rfl, hmax⟩ := Archive.steady_setUp (c := c) hsetUp
  obtain ⟨hstart, -⟩ := Desk.steady_run (d := ⟨site, []⟩) hsite before
  obtain ⟨htx, hbehind, hlast, -, -⟩ := hstart.submit user r
  have hcapacity : 0 < max capacity 1 := Nat.le_max_right _ _
  obtain ⟨ho, hunnoted, hnoted⟩ := hstart.submitted hcapacity hmax user r
  have htx : tx = o.tx := htx
  have hlater : tx.number ≤ behind.site.store.lastTx := htx ▸ hlast.ge
  have hend := (Desk.steady_run (d := behind) hbehind between).1
  rw [htx] at hwaits
  rcases Desk.outcome_run ho hbehind hcapacity hwaits with ⟨hforgotten, hlost⟩ | ⟨hfree, hkept⟩
  · refine ⟨fun _ => ?_, fun hnot => absurd hforgotten hnot, fun hnot => absurd hforgotten hnot⟩
    obtain ⟨-, -, -, ⟨-, hanswer⟩ | ⟨hnot, -⟩⟩ := hend.resolve tx
    · exact congrArg Prod.fst hanswer
    · exact absurd (htx ▸ hlost) hnot
  · refine ⟨fun hforgotten => absurd hforgotten hfree, ?_⟩
    obtain ⟨hbyOutcome, hbyFailure⟩ := hend.resolve_kept hkept
    rw [← htx] at hbyOutcome hbyFailure
    cases hnote : reply.note? with
    | none =>
      -- Nothing is kept of who was not rejected, so the outcome alone counts.
      have hnone : Lacks Recorded.tx tx (behind.run a c between).site.rejections.entries :=
        Desk.lacksRejection_run (d := behind) (htx ▸ hunnoted hnote) hbehind hlater between
      refine ⟨fun _ _ => (hbyOutcome hnone).trans ?_, fun _ hover => absurd hnote hover.1⟩
      exact Archive.answer_of_unnoted hnote
    | some failure =>
      have he : behind.KeepsRejection ⟨tx, failure, c.elapsed⟩ := htx ▸ hnoted failure hnote
      rcases Desk.rejection_run he ho htx hbehind hcapacity hmax hwaits hfree with
        ⟨hcrowded, hlost⟩ | ⟨hheard, hfailure⟩
      · have hcommitted : o.result = .committed 0 := Archive.outcome_rejected hnote
        have hover : overlooked := ⟨by simp [hnote], hcrowded⟩
        refine ⟨fun _ hnot => absurd hover hnot, fun _ _ => ⟨?_, htx.symm, hcommitted⟩⟩
        refine (hbyOutcome (htx ▸ hlost)).trans ?_
        rw [hcommitted]
      · refine ⟨fun _ _ => ?_, fun _ hover => absurd hover.2 hheard⟩
        exact (hbyFailure _ _ rfl hfailure).trans (Reply.answer_of_note hnote).symm

/-- With room for one failure, a caller whose request is rejected hears of it when nobody comes in
between, and hears of a commit when one more comes whose request is rejected. -/
theorem rejection_overlooked_behind_another :
    let settings : Settings := { Settings.default with rejections := ⟨1, 60000⟩ }
    let a : Archive := ⟨.empty, settings⟩
    let c : Clock := ⟨⟨0, 0⟩, 0⟩
    let site := (Archive.setUp .empty settings (.empty 10)).2
    let r : Request := .purgeEntity "e1" true
    let tx := (Site.submit c [a.call "user" r] site).1
    let behind : Desk := ⟨(Site.submit c [a.call "user" r] site).2, []⟩
    let answer (between : List CallerStep) :=
      (Archive.resolve c tx (behind.run a c between).site).1
    Archive.setUp .empty settings (.empty 10) = (.ok a, site) ∧
      answer [] = .error ⟨.notKnown, "e:e1 is not known"⟩ ∧
      ∃ o, answer [.submit "user" r] = .ok o ∧ o.result = .committed 0 := by
  intro settings a c site r tx behind answer
  have hsetUp : Archive.setUp .empty settings (.empty 10) = (.ok a, site) :=
    Archive.setUp_of_isOk (by decide +kernel)
  have hnote : (a.replyTo c site.store "user" r).note? =
      some ⟨.notKnown, "e:e1 is not known"⟩ := by decide +kernel
  have hwaiting : (behind.run a c [.submit "user" r]).waiting = [⟨⟨2⟩, true⟩] := by decide +kernel
  -- From here on it does not matter what the site has become.
  clear_value site
  have hcrowd (n : Nat) (who : Waiting → Bool) :
      ¬ behind.Crowded a c (n + 1) who [] ∧
        (behind.Crowded a c (n + 1) who [.submit "user" r] ↔ n + 1 ≤ [⟨⟨2⟩, true⟩].countP who) := by
    have hnobody : ¬ behind.Crowded a c (n + 1) who [] := by
      rintro ⟨p, hp, hn⟩
      rw [List.prefix_nil.1 hp] at hn
      exact absurd hn (Nat.not_succ_le_zero n)
    rw [← hwaiting]
    exact ⟨hnobody, Desk.crowded_concat.trans (or_iff_right hnobody)⟩
  have hfew : ¬ behind.Crowded a c 10 (fun _ => true) [.submit "user" r] :=
    fun h => absurd ((hcrowd 9 _).2.1 h) (by decide)
  have hmany : behind.Crowded a c 1 Waiting.rejected [.submit "user" r] :=
    (hcrowd 0 _).2.2 (by decide)
  have halone := callers_hear_of_their_own hsetUp c [] [] "user" r (by simp)
  have hanother := callers_hear_of_their_own hsetUp c [] [.submit "user" r] "user" r (by simp)
  have hrejected : (a.replyTo c site.store "user" r).note? ≠ none := by simp [hnote]
  obtain ⟨hanswer, -, hresult⟩ := hanother.2.2 hfew ⟨hrejected, hmany⟩
  refine ⟨hsetUp, ?_, _, hanswer, hresult⟩
  refine (halone.2.1 (hcrowd 9 _).1 fun h => (hcrowd 0 _).1 h.2).trans ?_
  exact Reply.answer_of_note hnote

end MetadataArchive
