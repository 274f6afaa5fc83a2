import MetadataArchive.Proofs.Archive.Reading
import MetadataArchive.Proofs.Lifecycle.Rejections
import MetadataArchive.Proofs.Store.Outcome

/-!
# What a change is answered

A change is one transaction, and its answer is put together from three places: the outcome that the
store keeps, the failures that are kept beside it, and what the functions of the catalog did. They
agree: a change is accepted exactly where its transaction was committed and no function noted a
failure (`Archive.On.commit`). This rests on the numbers of transactions, which are never used
twice, and on settings that leave room for a failure and time to take it.
-/

set_option autoImplicit false

namespace MetadataArchive

variable {ν : Type}

/-! ## Work on a site -/

section Work

variable {α β ε : Type} {site site' : Site}

theorem OnSite.bind_ok {x : OnSite ε α} {f : α → OnSite ε β} {b : β}
    (h : (x >>= f) site = (.ok b, site')) :
    ∃ a site₁, x site = (.ok a, site₁) ∧ f a site₁ = (.ok b, site') := by
  rw [OnSite.bind_eq] at h
  split at h
  next a site₁ hx => exact ⟨a, site₁, hx, h⟩
  next => cases h

theorem OnSite.liftM_store_eq (x : OnSite StoreError α) (site : Site) :
    (liftM x : OnSite Failure α) site = ((x site).1.mapError Failure.ofStore, (x site).2) := rfl

end Work

/-! ## Answers -/

/-- An archive at work on a site of whose transactions there is a ledger. -/
structure Archive.On (a : Archive) (site : Site) (l : Ledger) : Prop where
  tracks : Tracks site.store l
  keyed : l.Keyed
  functions : site.functions = Catalog.functions a.types
  ttl : 0 < site.rejections.limits.ttlMs
  entries : 0 < site.rejections.limits.maxEntries
  /-- What was rejected, and what is yet to be claimed, has had its number. -/
  rejected : ∀ e ∈ site.rejections.entries, e.tx.number ≤ l.submitted
  outcomes : ∀ o ∈ site.store.outcomes, o.tx.number ≤ l.submitted
  capacity : 0 < site.store.capacity

namespace Archive

variable {a : Archive} {site : Site} {l : Ledger} {c : Clock} {ops : List TxOp}

/-- The answer to who submitted a transaction, once its outcome is claimed. -/
theorem resolve_eq {tx : TxId} {o : Outcome} {store : Store}
    (h : site.store.claim tx = .ok (o, store)) :
    resolve c tx site =
      ((match (site.rejections.take c.elapsed tx).1 with
        | some failure => .error failure
        | none =>
            match o.result with
            | .aborted fault => .error ⟨.functionFault, fault.message⟩
            | .committed _ => .ok o),
        { site with
          store
          usage := site.usage.countOutcome o
          rejections := (site.rejections.take c.elapsed tx).2 }) := by
  have hsite : Site.claim tx site =
      (.ok o, { site with store, usage := site.usage.countOutcome o }) := by
    unfold Site.claim
    rw [h]
  unfold resolve
  rw [OnSite.bind_eq, OnSite.liftM_store_eq, hsite]
  dsimp only [Except.mapError]
  rw [OnSite.bind_eq]
  have htake : ∀ site' : Site,
      (liftM (Site.takeRejection c tx) : OnSite Failure (Option Failure)) site' =
        (.ok (site'.rejections.take c.elapsed tx).1,
          { site' with rejections := (site'.rejections.take c.elapsed tx).2 }) := fun _ => rfl
  rw [htake]
  dsimp only
  cases (site.rejections.take c.elapsed tx).1 with
  | some failure => rfl
  | none =>
    dsimp only
    cases o.result <;> rfl

/-- Who has no outcome to claim is not heard. -/
theorem resolve_error {tx : TxId} {e : StoreError} (h : site.store.claim tx = .error e) :
    resolve c tx site = (.error (.ofStore e), site) := by
  have hsite : Site.claim tx site = (.error e, site) := by
    unfold Site.claim
    rw [h]
  unfold resolve
  rw [OnSite.bind_eq, OnSite.liftM_store_eq, hsite]
  rfl

theorem commit_eq (c : Clock) (ops : List TxOp) (site : Site) :
    commit c ops site = resolve c (Site.submit c ops site).1 (Site.submit c ops site).2 := rfl

/-- The operations commit on the latest state, and no function notes a failure. -/
def Accepts (a : Archive) (c : Clock) (l : Ledger) (ops : List TxOp) : Prop :=
  ∃ staged, runOps (Catalog.functions a.types) ⟨l.submitted + 1⟩ (l.nextTime c.now) l.latest ∅ ops =
    (.ok staged, [])

/-- The failures that are kept after a transaction, by what was noted in it. -/
def noted (c : Clock) (site : Site) (tx : TxId) (notes : List Failure) : Rejections :=
  notes.foldl (fun r failure => r.record c.elapsed tx failure) site.rejections

/-- Whether there is a failure to take says whether one was noted. -/
theorem On.take_noted (h : a.On site l) (c : Clock) (notes : List Failure) :
    ((noted c site ⟨l.submitted + 1⟩ notes).take c.elapsed ⟨l.submitted + 1⟩).1 = none ↔
      notes = [] := by
  have hfresh : site.rejections.Fresh ⟨l.submitted + 1⟩ := fun e he heq => by
    have hle := h.rejected e he
    rw [heq] at hle
    exact absurd hle (Nat.not_succ_le_self _)
  constructor
  · intro hnone
    by_contra hne
    have hheld : (noted c site ⟨l.submitted + 1⟩ notes).Held c.elapsed ⟨l.submitted + 1⟩ :=
      Rejections.held_foldl_record (Or.inl hfresh) (Or.inl hne) h.ttl h.entries
    have httl : 0 < (noted c site ⟨l.submitted + 1⟩ notes).limits.ttlMs := by
      rw [noted, Rejections.foldl_record_limits]
      exact h.ttl
    obtain ⟨failure, htake⟩ := Rejections.take_of_held hheld httl
    rw [hnone] at htake
    cases htake
  · rintro rfl
    exact Rejections.take_of_fresh hfresh

theorem submit_frame (functions : List (TxFunction ν)) (now : Instant) (l : Ledger)
    (ops : List TxOp) :
    (l.submit functions now ops).1 = ⟨l.submitted + 1⟩ ∧
      (l.submit functions now ops).2.1 =
        (runOps functions ⟨l.submitted + 1⟩ (l.nextTime now) l.latest ∅ ops).2 ∧
      (l.submit functions now ops).2.2.submitted = l.submitted + 1 := by
  simp only [Ledger.submit]
  split <;> exact ⟨rfl, rfl, rfl⟩

/-- What a transaction leaves on a site whose outcome is yet to be claimed. -/
theorem On.submit_eq (h : a.On site l) (c : Clock) (ops : List TxOp) :
    (Site.submit c ops site).1 = ⟨l.submitted + 1⟩ ∧
      (Site.submit c ops site).2.store =
        (site.store.submit (Catalog.functions a.types) c.now ops).2.2 ∧
      (Site.submit c ops site).2.rejections = noted c site ⟨l.submitted + 1⟩
        (l.submit (Catalog.functions a.types) c.now ops).2.1 := by
  obtain ⟨htx, hnotes, -⟩ := h.tracks.submit (Catalog.functions a.types) c.now ops
  obtain ⟨hnumber, -, -⟩ := submit_frame (Catalog.functions a.types) c.now l ops
  simp only [Site.submit, h.functions]
  refine ⟨htx.trans hnumber, trivial, ?_⟩
  rw [htx, hnumber, hnotes]
  rfl

theorem On.keepsOutcomes (h : a.On site l) : site.store.KeepsOutcomes :=
  ⟨fun o ho => h.tracks.number ▸ h.outcomes o ho, h.capacity⟩

/-- A transaction that is submitted, and whose outcome is yet to be claimed. -/
theorem On.submit (h : a.On site l) (c : Clock) (ops : List TxOp) :
    a.On (Site.submit c ops site).2 (l.submit (Catalog.functions a.types) c.now ops).2.2 := by
  obtain ⟨-, -, hsubmitted⟩ := submit_frame (Catalog.functions a.types) c.now l ops
  obtain ⟨-, hstore, hrejections⟩ := h.submit_eq c ops
  obtain ⟨-, -, htracks⟩ := h.tracks.submit (Catalog.functions a.types) c.now ops
  have hkept := h.keepsOutcomes.submit (Catalog.functions a.types) c.now ops
  rw [← hstore] at htracks hkept
  refine ⟨htracks, h.keyed.submit _ _ _, h.functions, ?_, ?_, fun e he => ?_, ?_, hkept.room⟩
  · rw [hrejections, noted, Rejections.foldl_record_limits]
    exact h.ttl
  · rw [hrejections, noted, Rejections.foldl_record_limits]
    exact h.entries
  · rw [hrejections] at he
    rw [hsubmitted]
    rcases Rejections.mem_foldl_record he with he | he
    · exact Nat.le_succ_of_le (h.rejected e he)
    · rw [he]
  · rw [← htracks.number]
    exact hkept.numbered

/-- To ask for an outcome changes nothing that the ledger is about. -/
theorem On.resolve (h : a.On site l) (c : Clock) (tx : TxId) :
    a.On (Archive.resolve c tx site).2 l := by
  cases hclaim : site.store.claim tx with
  | error e =>
    rw [resolve_error hclaim]
    exact h
  | ok r =>
    obtain ⟨o, store⟩ := r
    obtain ⟨-, hcapacity, hsub⟩ := Store.claim_ok hclaim
    have hlimits : (site.rejections.take c.elapsed tx).2.limits = site.rejections.limits :=
      Rejections.take_limits
    rw [resolve_eq hclaim]
    exact ⟨h.tracks.claim hclaim, h.keyed, h.functions, hlimits ▸ h.ttl, hlimits ▸ h.entries,
      fun e he => h.rejected e (Rejections.mem_take he),
      fun o' ho => h.outcomes o' (hsub o' ho), hcapacity ▸ h.capacity⟩

/-- **The answer to a change** is the failure that is kept for its transaction, or else the outcome
of the transaction, which the store gives up. -/
theorem On.commit_eq (h : a.On site l) (c : Clock) (ops : List TxOp) :
    let tx : TxId := ⟨l.submitted + 1⟩
    let o := site.store.outcome (Catalog.functions a.types) c.now ops
    (Archive.commit c ops site).1 =
      match ((noted c site tx (l.submit (Catalog.functions a.types) c.now ops).2.1).take
        c.elapsed tx).1 with
      | some failure => .error failure
      | none =>
          match o.result with
          | .aborted fault => .error ⟨.functionFault, fault.message⟩
          | .committed _ => .ok o := by
  intro tx o
  obtain ⟨store, hclaim⟩ :=
    Store.claim_submit h.keepsOutcomes (Catalog.functions a.types) c.now ops
  obtain ⟨htx, hstore, hrejections⟩ := h.submit_eq c ops
  obtain ⟨hnumber, -⟩ := site.store.submit_outcomes (Catalog.functions a.types) c.now ops
  have hclaimed : (Site.submit c ops site).2.store.claim (Site.submit c ops site).1 =
      .ok (o, store) := by
    rw [hstore, htx, ← h.tracks.number, ← hnumber]
    exact hclaim
  rw [Archive.commit_eq, resolve_eq hclaimed, hrejections, htx]

/-- **A change is accepted** exactly where its transaction is committed and nobody notes a failure.
The archive goes on, on the site with that transaction. -/
theorem On.commit (h : a.On site l) (c : Clock) (ops : List TxOp) :
    a.On (Archive.commit c ops site).2 (l.submit (Catalog.functions a.types) c.now ops).2.2 ∧
      ((∃ o, (Archive.commit c ops site).1 = .ok o) ↔ a.Accepts c l ops) := by
  refine ⟨(h.submit c ops).resolve c _, ?_⟩
  obtain ⟨-, hnoted, -⟩ := submit_frame (Catalog.functions a.types) c.now l ops
  have htake := h.take_noted c (l.submit (Catalog.functions a.types) c.now ops).2.1
  rw [h.commit_eq]
  rw [hnoted] at htake ⊢
  simp only [Store.outcome, h.tracks.number, h.tracks.nextTime_eq, h.tracks.latest_eq]
  unfold Accepts
  rcases hrun : runOps (Catalog.functions a.types) ⟨l.submitted + 1⟩ (l.nextTime c.now) l.latest ∅
    ops with ⟨result, notes⟩
  rw [hrun] at htake
  cases htaken : ((noted c site ⟨l.submitted + 1⟩ notes).take c.elapsed ⟨l.submitted + 1⟩).1 with
  | some failure =>
    -- A failure that is taken was noted, so the change is not among those that are accepted.
    have hne : notes ≠ [] := fun hnil => by
      rw [htake.2 hnil] at htaken
      cases htaken
    simp [hne]
  | none =>
    cases htake.1 htaken
    cases result <;> simp [TxResult.ofRun]

/-- What an accepted change is answered. -/
theorem On.commit_ok (h : a.On site l) {c : Clock} {ops : List TxOp} {o : Outcome}
    (ho : (Archive.commit c ops site).1 = .ok o) :
    o = site.store.outcome (Catalog.functions a.types) c.now ops := by
  rw [h.commit_eq] at ho
  split at ho
  · cases ho
  · split at ho
    · cases ho
    · exact (Except.ok.inj ho).symm

/-! ## Setting up -/

end Archive

theorem Site.register_ok {f : TxFunction Failure} {site site' : Site}
    (h : Site.register f site = (.ok (), site')) :
    site' = { site with functions := site.functions ++ [f] } := by
  unfold Site.register at h
  split at h
  · cases h
  · cases h
    rfl

theorem Site.registerAll_ok {fs : List (TxFunction Failure)} {site site' : Site}
    (h : (fs.forM Site.register) site = (.ok (), site')) :
    site' = { site with functions := site.functions ++ fs } := by
  induction fs generalizing site with
  | nil =>
    cases h
    simp
  | cons f fs ih =>
    have hbind : (Site.register f >>= fun _ => fs.forM Site.register) site = (.ok (), site') := h
    obtain ⟨u, site₁, hf, hrest⟩ := OnSite.bind_ok hbind
    rw [ih hrest, Site.register_ok hf]
    simp

theorem check_eq_ok {ε α : Type} {c : Prop} [Decidable c] {e : ε} {k : Unit → Except ε α} {b : α} :
    (if c then (throw e >>= k) else k ()) = .ok b ↔ ¬ c ∧ k () = .ok b := by
  split
  next hc => simp [bind_eq_ok, throw_eq_ok, hc]
  next hc => simp [hc]

/-- Valid settings have room for a failure, and time to take it. -/
theorem Settings.validate_ok {s : Settings} (h : s.validate = .ok ()) :
    0 < s.rejections.ttlMs ∧ 0 < s.rejections.maxEntries := by
  unfold Settings.validate at h
  simp only [check_eq_ok] at h
  obtain ⟨-, hcommit, -, -, -, hmax, h⟩ := h
  split at h
  · cases h
  · omega

namespace Archive

theorem install_ok {a : Archive} {site site' : Site} (h : a.install site = (.ok (), site')) :
    site' = { site with
      functions := site.functions ++ Catalog.functions a.types
      rejections := .empty a.settings.rejections } := by
  obtain ⟨u, site₁, hfunctions, hrest⟩ := OnSite.bind_ok h
  rw [Site.registerAll_ok hfunctions] at hrest
  exact (Prod.mk.inj hrest).2.symm

/-- What is set up where nothing has happened: the functions are known, and nothing is kept. -/
theorem setUp_eq {ts : TypeSystem} {settings : Settings} {capacity : Nat} {a : Archive}
    {site : Site} (h : Archive.setUp ts settings (.empty capacity) = (.ok a, site)) :
    settings.validate = .ok () ∧ a = ⟨ts, settings⟩ ∧
      site = ⟨.empty capacity, Catalog.functions ts, .zero, .empty settings.rejections⟩ := by
  obtain ⟨u, site₁, hvalid, h⟩ := OnSite.bind_ok h
  obtain ⟨v, site₂, hinstall, h⟩ := OnSite.bind_ok h
  obtain ⟨ha, rfl⟩ := Prod.mk.inj h
  cases ha
  rw [OnSite.liftM_store_eq] at hinstall
  have hok : Archive.install ⟨ts, settings⟩ site₁ = (.ok (), site₂) := by
    rcases hr : Archive.install ⟨ts, settings⟩ site₁ with ⟨_ | _, _⟩
    · rw [hr] at hinstall
      cases hinstall
    · rw [hr] at hinstall
      cases hinstall
      rfl
  obtain ⟨hvalid, rfl⟩ := Prod.mk.inj hvalid
  refine ⟨?_, rfl, install_ok hok⟩
  cases hv : settings.validate with
  | ok u => rfl
  | error fault =>
    rw [hv] at hvalid
    cases hvalid

/-- An archive that is set up where nothing has happened is at work there. -/
theorem setUp_ok {ts : TypeSystem} {settings : Settings} {capacity : Nat} {a : Archive}
    {site : Site} (h : Archive.setUp ts settings (.empty capacity) = (.ok a, site)) :
    a = ⟨ts, settings⟩ ∧ a.On site .empty := by
  obtain ⟨hv, rfl, rfl⟩ := setUp_eq h
  obtain ⟨httl, hmax⟩ := Settings.validate_ok hv
  exact ⟨rfl, {
    tracks := Tracks.empty capacity
    keyed := Ledger.keyed_empty
    functions := rfl
    ttl := httl
    entries := hmax
    rejected := by simp [Rejections.empty]
    outcomes := by simp [Store.empty]
    capacity := Nat.le_max_right _ _ }⟩

/-- Whether an archive can be set up can be tried out: it is then the one for these types and
settings. -/
theorem setUp_of_isOk {ts : TypeSystem} {settings : Settings} {capacity : Nat}
    (h : (Archive.setUp ts settings (.empty capacity)).1.isOk = true) :
    Archive.setUp ts settings (.empty capacity) =
      (.ok ⟨ts, settings⟩, (Archive.setUp ts settings (.empty capacity)).2) := by
  rcases hr : Archive.setUp ts settings (.empty capacity) with ⟨_ | a, site⟩
  · rw [hr] at h
    cases h
  · rw [(setUp_ok hr).1]

end Archive

end MetadataArchive
