import MetadataArchive.Proofs.Archive.Submission

/-!
# The chronicle of an entity

Where nothing is done about an entity but to submit requests that return it, the submissions tell
its history (`Chronicle`). Each one that was accepted has written a document, with the version that
follows the one before; whoever reads as of its transaction sees this document for good, and the
last one is what is stored. A submission for another record leaves all this alone, and so does
anything else that happens to other records.
-/

set_option autoImplicit false

namespace MetadataArchive

/-! ## What others leave -/

/-- An operation on another record leaves the document of an entity. -/
theorem Operation.Writes.leaves {a : Archive} {op : Operation} {base : Source} {ws : List Write}
    {guid : String} {d : Document} (hw : op.Writes a base ws) (hother : op.target a ≠ .entity guid)
    (hd : base.document? (RecordRef.entity guid).docId = some d) (hentity : d.IsEntity) :
    writeAll base.document? ws (RecordRef.entity guid).docId = some d := by
  unfold Operation.Writes at hw
  unfold Operation.target at hother
  cases htask : op.task a with
  | inl entity =>
    rw [htask] at hw hother
    obtain ⟨d', hd', rfl⟩ := hw
    have hne : (RecordRef.entity guid).docId ≠ (Write.put d').id := fun heq =>
      hother (RecordRef.docId_injective (heq.trans (Entity.lays hd').id)).symm
    exact (Write.on_of_ne hne).trans hd
  | inr task =>
    rw [htask] at hw hother
    obtain ⟨acting, arrived, hj, hsource, hbase, hok⟩ := hw
    have htarget : arrived.target = task.2.target := (Request.effect_ofJson? hj).1
    rw [← hbase] at hd ⊢
    exact (Request.leaves_carryOut hsource hok (htarget ▸ hother) hd hentity).trans hd

namespace Archive.On

variable {a : Archive} {site : Site} {l : Ledger} {guid : String} {d : Document}

theorem ledger_other (h : a.On site l) (c : Clock) {op : Operation}
    (hother : op.target a ≠ .entity guid)
    (hd : l.latest.document? (RecordRef.entity guid).docId = some d) (hentity : d.IsEntity) :
    (op.ledger a c l).latest.document? (RecordRef.entity guid).docId = some d := by
  obtain ⟨l', hon, hcases⟩ := h.perform c op
  have hsame : (op.ledger a c l).latest = l'.latest := by
    rw [← (h.perform_ledger c op).tracks.latest_eq, hon.tracks.latest_eq]
  rw [hsame]
  rcases hcases with ⟨-, ws, hw, hlatest⟩ | ⟨-, hlatest⟩ <;> rw [hlatest]
  · exact hw.leaves hother hd hentity
  · exact hd

/-- A request that is rejected, or whose function fails, leaves all documents. -/
theorem ledger_rejected (h : a.On site l) {c : Clock} {user : String} {r : Request}
    (hreply : ∀ ws, a.replyTo c site.store user r ≠ .writes ws none) :
    ((Operation.invoke user r).ledger a c l).latest.document? = l.latest.document? := by
  rw [h.ledger_call]
  cases hrun : a.replyTo c site.store user r with
  | fault | panic => rfl
  | writes ws note =>
    cases note with
    | none => exact absurd hrun (hreply ws)
    | some failure =>
      rw [h.replyTo_rejected hrun]
      exact Ledger.latest_append l c.now ∅

end Archive.On

/-! ## Submissions in a row -/

namespace Submission

variable {a : Archive} {l : Ledger} {k : Submission} {guid : String} {d : Document}

/-- The request was accepted and is one that returns this entity. -/
def changes (guid : String) (k : Submission) : Bool :=
  k.request.givesEntity && k.request.target == .entity guid && k.reply.commits &&
    k.reply.note?.isNone

/-- What such a request has written. -/
def change? (guid : String) (k : Submission) : Option Document :=
  match k.reply with
  | .writes [.put d] none => if k.changes guid then some d else none
  | _ => none

theorem changes_iff : k.changes guid = true ↔ k.request.givesEntity = true ∧
    k.request.target = .entity guid ∧ ∃ ws, k.reply = .writes ws none := by
  unfold changes
  cases k.reply with
  | writes ws note => cases note <;> simp [Reply.commits, Reply.note?]
  | fault | panic => simp [Reply.commits]

theorem change?_eq_some : k.change? guid = some d ↔
    k.changes guid = true ∧ k.reply = .writes [.put d] none := by
  unfold change?
  split
  next d' hreply =>
    rw [hreply]
    simp
  next hreply =>
    refine iff_of_false (by simp) fun h => hreply d h.2

/-- What was written for a request that was accepted. -/
theorem Entered.of_changes (h : k.Entered a l) (hk : k.changes guid = true) :
    ∃ (e : Entity) (d : Document) (entry : Ledger.Entry), k.change? guid = some d ∧
      e.reference = .entity guid ∧ e.toDocument a.types = .ok d ∧
      l.entered? k.tx.number = some entry ∧ entry.writes.get? d.id = some (some d) ∧
      e.header.lastChange = entry.time := by
  obtain ⟨hgives, htarget, ws, hreply⟩ := changes_iff.1 hk
  obtain ⟨e, d, entry, rfl, href, hd, hentry⟩ := h.wrote hgives ws hreply
  exact ⟨e, d, entry, change?_eq_some.2 ⟨hk, hreply⟩, href.trans htarget, hd, hentry⟩

theorem Entered.isSome_change? (h : k.Entered a l) :
    (k.change? guid).isSome = k.changes guid := by
  rw [Bool.eq_iff_iff, Option.isSome_iff_exists]
  constructor
  · rintro ⟨d, hd⟩
    exact (change?_eq_some.1 hd).1
  · intro hk
    obtain ⟨e, d, entry, hd, -⟩ := h.of_changes hk
    exact ⟨d, hd⟩

end Submission

/-- Submissions that are entered, in their order. -/
structure Submitted (a : Archive) (sent : List Submission) (l : Ledger) : Prop where
  entered : ∀ k ∈ sent, k.Entered a l
  ascending : sent.Pairwise fun k k' => k.tx.number < k'.tx.number

theorem Submitted.step {ν : Type} {a : Archive} {sent : List Submission} {l : Ledger}
    (h : Submitted a sent l) (ev : StoreEvent ν) : Submitted a sent (l.step ev) :=
  ⟨fun k hk => (h.entered k hk).step ev, h.ascending⟩

/-- One more submission: it has a number of its own. -/
theorem Submitted.submit {a : Archive} {sent : List Submission} {site : Site} {l : Ledger}
    (h : Submitted a sent l) (hon : a.On site l) (c : Clock) (user : String) (r : Request) :
    Submitted a (sent ++ [a.submission c site user r])
      ((Operation.invoke user r).ledger a c l) := by
  obtain ⟨ev, hev⟩ := (Operation.invoke user r).ledger_step a c l
  refine ⟨fun k hk => ?_, List.pairwise_append.2 ⟨h.ascending, List.pairwise_singleton _ _, ?_⟩⟩
  · rcases List.mem_append.1 hk with hk | hk
    · rw [hev]
      exact (h.entered k hk).step ev
    · rw [List.mem_singleton.1 hk]
      exact hon.entered_submit c user r
  · intro k hk k' hk'
    rw [List.mem_singleton.1 hk', hon.submission_tx]
    exact Nat.lt_succ_of_le (h.entered k hk).number

/-- What was written for changes are entities. -/
theorem Submitted.written {a : Archive} {sent : List Submission} {l : Ledger} {guid : String}
    {d : Document} (h : Submitted a sent l)
    (hd : d ∈ sent.filterMap (Submission.change? guid)) :
    ∃ e : Entity, e.toDocument a.types = .ok d := by
  obtain ⟨k, hk, hchange⟩ := List.mem_filterMap.1 hd
  obtain ⟨e, d', -, hd', -, he, -⟩ :=
    (h.entered k hk).of_changes (Submission.change?_eq_some.1 hchange).1
  cases hd'.symm.trans hchange
  exact ⟨e, he⟩

/-! ## The history that they tell -/

/-- The version of a document, as a number. -/
def Document.versionNat (d : Document) : Nat := (d.version?.map UInt64.toNat).getD 0

theorem Document.versionNat_eq {d : Document} {v : UInt64} (h : d.version? = some v) :
    d.versionNat = v.toNat := by
  rw [versionNat, h]
  rfl

/-- Where there is room for it, the next version is one more. -/
theorem toNat_keptVersion_succ {v : UInt64} (hv : v.toNat < 2 ^ 63 - 1) :
    (keptVersion (v + 1)).toNat = v.toNat + 1 := by
  have hone : (1 : UInt64).toNat = 1 := rfl
  have hsucc : (v + 1).toNat = v.toNat + 1 := by
    rw [UInt64.toNat_add, hone]
    omega
  rw [keptVersion_eq, if_pos (by omega), hsucc]

/-- What submissions tell of an entity: what each has written is seen as of its transaction, has the
version after the one that was written before, and is stored until the next is. -/
structure Chronicle (guid : String) (sent : List Submission) (l : Ledger) : Prop where
  shows : ∀ k ∈ sent, ∀ d, k.change? guid = some d → ∀ n, l.last ≤ n →
    l.shows ⟨k.tx.number, n⟩ (RecordRef.entity guid).docId = some d
  chain : (sent.filterMap (Submission.change? guid)).IsChain fun d d' =>
    d'.versionNat = d.versionNat + 1
  latest : ∀ d, (sent.filterMap (Submission.change? guid)).getLast? = some d →
    l.latest.document? (RecordRef.entity guid).docId = some d

namespace Chronicle

variable {ν : Type} {a : Archive} {site : Site} {l : Ledger} {sent : List Submission}
variable {guid : String} {k : Submission} {d : Document}

theorem empty : Chronicle guid [] l := ⟨by simp, List.IsChain.nil, by simp⟩

/-- As long as there has been a change, there is a document of the entity. -/
theorem latest_of_change (h : Chronicle guid sent l) (hs : Submitted a sent l) (hk : k ∈ sent)
    (hd : k.change? guid = some d) :
    ∃ d', d'.IsEntity ∧ l.latest.document? (RecordRef.entity guid).docId = some d' := by
  have hne : sent.filterMap (Submission.change? guid) ≠ [] :=
    List.ne_nil_of_mem (List.mem_filterMap.2 ⟨k, hk, hd⟩)
  obtain ⟨e, he⟩ := hs.written (List.getLast_mem hne)
  exact ⟨_, Entity.isEntity_toDocument he, h.latest _ (List.getLast?_eq_some_getLast hne)⟩

theorem storedVersion_latest (h : Chronicle guid sent l) (hs : Submitted a sent l)
    (hd : (sent.filterMap (Submission.change? guid)).getLast? = some d) :
    ∃ v, storedVersion l.latest.document? (.entity guid) = some v ∧ d.versionNat = v.toNat := by
  obtain ⟨e, he⟩ := hs.written (List.mem_of_getLast? hd)
  obtain ⟨hproxy, hversion⟩ := Entity.storedVersion_toDocument he
  exact ⟨_, storedVersion_eq_some.2 ⟨d, h.latest d hd, hproxy, hversion⟩,
    Document.versionNat_eq hversion⟩

/-- What leaves the document of the entity leaves its chronicle. -/
theorem step (h : Chronicle guid sent l) (hs : Submitted a sent l) {ev : StoreEvent ν}
    (hkept : ∀ d, l.latest.document? (RecordRef.entity guid).docId = some d → d.IsEntity →
      (l.step ev).latest.document? (RecordRef.entity guid).docId = some d) :
    Chronicle guid sent (l.step ev) := by
  refine ⟨fun k hk d hd n hn => ?_, h.chain, fun d hd => ?_⟩
  · obtain ⟨d', hentity, hlatest⟩ := h.latest_of_change hs hk hd
    have hthere := hkept d' hlatest hentity
    refine (Ledger.shows_step_iff (hs.entered k hk).number hn (by rw [hthere]; simp)).2 ?_
    exact h.shows k hk d hd n (Nat.le_trans (l.last_run_le [ev]) hn)
  · obtain ⟨e, he⟩ := hs.written (List.mem_of_getLast? hd)
    exact hkept d (h.latest d hd) (Entity.isEntity_toDocument he)

/-- A submission that is no change of the entity. -/
theorem concat (h : Chronicle guid sent l) (hk : k.change? guid = none) :
    Chronicle guid (sent ++ [k]) l := by
  have hsame : (sent ++ [k]).filterMap (Submission.change? guid) =
      sent.filterMap (Submission.change? guid) := by simp [hk]
  refine ⟨fun k' hk' d hd => ?_, hsame ▸ h.chain, hsame ▸ h.latest⟩
  rcases List.mem_append.1 hk' with hk' | hk'
  · exact h.shows k' hk' d hd
  · rw [List.mem_singleton.1 hk', hk] at hd
    cases hd

/-- **A change that is accepted continues the chronicle** with the next version. -/
theorem change (h : Chronicle guid sent l) (hs : Submitted a sent l) (hon : a.On site l) {c : Clock}
    {user : String} {r : Request} (hk : (a.submission c site user r).changes guid = true)
    (hbound : ∀ v, storedVersion l.latest.document? (.entity guid) = some v →
      v.toNat < 2 ^ 63 - 1) :
    Chronicle guid (sent ++ [a.submission c site user r])
      ((Operation.invoke user r).ledger a c l) := by
  obtain ⟨hgives, htarget, ws, hreply⟩ : r.givesEntity = true ∧ r.target = .entity guid ∧
    ∃ ws, a.replyTo c site.store user r = .writes ws none := Submission.changes_iff.1 hk
  obtain ⟨e, d, rfl, href, hd, -, hnext⟩ := hon.replyTo_entity hgives hreply
  have hid : (RecordRef.entity guid).docId = d.id := by
    rw [← htarget, ← href]
    exact (Entity.lays hd).id.symm
  have hchange : (a.submission c site user r).change? guid = some d :=
    Submission.change?_eq_some.2 ⟨hk, hreply⟩
  have hchanges : (sent ++ [a.submission c site user r]).filterMap (Submission.change? guid) =
      sent.filterMap (Submission.change? guid) ++ [d] := by
    simp [hchange]
  have hledger := hon.ledger_call c user r
  rw [hreply] at hledger
  rw [hledger]
  dsimp only
  have hlatest : (l.append c.now ([Write.put d].foldl Staged.apply ∅)).latest.document?
      (RecordRef.entity guid).docId = some d := by
    rw [Ledger.latest_append, Staged.laidOver_applyAll, hid]
    exact Write.on_self (w := .put d)
  refine ⟨fun k hk d' hd' n hn => ?_, ?_, fun d' hd' => ?_⟩
  · rw [Ledger.last_append] at hn
    rcases List.mem_append.1 hk with hk | hk
    · refine (Ledger.shows_append_iff (hs.entered k hk).number hn).2 ⟨?_, ?_⟩
      · exact h.shows k hk d' hd' n
          (Nat.le_trans (Nat.le_succ_of_le l.last_le_submitted) hn)
      · simp [Staged.get?_apply, Write.id, Write.doc?, hid]
    · rw [List.mem_singleton.1 hk] at hd' ⊢
      cases hchange.symm.trans hd'
      rw [hon.submission_tx, ← hlatest]
      exact Ledger.shows_eq_latest (by simp) (by simpa using hn)
  · rw [hchanges, List.isChain_append]
    refine ⟨h.chain, List.IsChain.singleton d, fun d₀ hd₀ d' hd' => ?_⟩
    cases hd'
    -- The last change is what is stored, and what is stored in full is given the next version.
    obtain ⟨v, hstored, hversion⟩ := h.storedVersion_latest hs hd₀
    rw [hversion, Document.versionNat_eq (hnext v (htarget ▸ hstored)),
      toNat_keptVersion_succ (hbound v hstored)]
  · rw [hchanges, List.getLast?_concat] at hd'
    cases hd'
    exact hlatest

/-- **A submission continues the chronicle**, if those for the entity itself are such that return
it. -/
theorem submit (h : Chronicle guid sent l) (hs : Submitted a sent l) (hon : a.On site l) (c : Clock)
    (user : String) {r : Request} (hspares : r.target = .entity guid → r.givesEntity = true)
    (hbound : ∀ v, storedVersion l.latest.document? (.entity guid) = some v →
      v.toNat < 2 ^ 63 - 1) :
    Chronicle guid (sent ++ [a.submission c site user r])
      ((Operation.invoke user r).ledger a c l) := by
  by_cases hk : (a.submission c site user r).changes guid = true
  · exact h.change hs hon hk hbound
  · obtain ⟨ev, hev⟩ := (Operation.invoke user r).ledger_step a c l
    rw [hev]
    refine (h.step hs fun d hd hentity => ?_).concat
      (Option.eq_none_iff_forall_ne_some.2 fun d hd => hk (Submission.change?_eq_some.1 hd).1)
    rw [← hev]
    by_cases htarget : r.target = .entity guid
    · have hrejected : ∀ ws, a.replyTo c site.store user r ≠ .writes ws none := fun ws hreply =>
        hk (Submission.changes_iff.2 ⟨hspares htarget, htarget, ws, hreply⟩)
      rw [hon.ledger_rejected hrejected]
      exact hd
    · exact hon.ledger_other c htarget hd hentity

/-! ## What follows -/

/-- From one change to another, the version has grown by one with each change. -/
theorem versionNat_eq {d d' : Document} {docs : List Document}
    (h : (d :: docs ++ [d']).IsChain fun d d' => d'.versionNat = d.versionNat + 1) :
    d'.versionNat = d.versionNat + docs.length + 1 := by
  induction docs generalizing d with
  | nil => exact (List.isChain_cons_cons.1 h).1
  | cons d₁ docs ih =>
    obtain ⟨hnext, hrest⟩ := List.isChain_cons_cons.1 h
    rw [ih hrest, hnext, List.length_cons]
    omega

theorem versionNat_between (h : Chronicle guid sent l) (hs : Submitted a sent l)
    {front between back : List Submission} {k k' : Submission} {d d' : Document}
    (hsent : sent = front ++ k :: between ++ k' :: back) (hd : k.change? guid = some d)
    (hd' : k'.change? guid = some d') :
    d'.versionNat = d.versionNat + between.countP (Submission.changes guid) + 1 := by
  have hlength : (between.filterMap (Submission.change? guid)).length =
      between.countP (Submission.changes guid) := by
    rw [List.length_filterMap_eq_countP]
    exact List.countP_congr fun k hk => by
      rw [(hs.entered k (by simp [hsent, hk])).isSome_change?]
  have hchain := h.chain
  rw [hsent, List.filterMap_append, List.filterMap_cons_some hd', List.isChain_split,
    List.filterMap_append, List.filterMap_cons_some hd, List.append_assoc, List.cons_append,
    List.isChain_split] at hchain
  rw [← hlength]
  exact versionNat_eq hchain.1.2

end Chronicle

end MetadataArchive
