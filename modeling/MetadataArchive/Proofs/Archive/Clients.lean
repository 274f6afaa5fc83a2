import MetadataArchive.Proofs.Archive.Chronicle

/-!
# Clients in between each other

A call that returns a record takes three steps: a request is submitted, its outcome is asked for,
and the record is read back as of the time of the outcome. Others may do anything in between. A
client that is returned an entity is returned what its own transaction wrote all the same, and the
versions that are returned of one entity follow each other as the transactions do
(`clients_read_their_own_writes`).

This rests on the times of transactions, which ascend whatever the clock says. It does not rest on
what a client is told of its request, and that may be wrong: a client whose request was rejected,
and whose failure is kept no more, is told of a success, and reads back what others wrote.
-/

set_option autoImplicit false

namespace MetadataArchive

/-! ## Clients -/

/-- Whoever has submitted a request, and how far the call has got. -/
structure Client where
  sent : Submission
  /-- What it was told when it asked for the outcome. -/
  told : Option (Except Failure Outcome)
  /-- What it read back. -/
  read : Option (Except Failure (Entity ⊕ Relationship))

/-- Read the record that a reference stands for. -/
def Archive.record (a : Archive) (c : Clock) (r : RecordRef) (asOf : Option Instant) :
    OnSite Failure (Entity ⊕ Relationship) :=
  match r.kind with
  | .entity => Sum.inl <$> Archive.entity c r.guid asOf
  | .relationship => Sum.inr <$> a.relationship c r.guid asOf

namespace Client

/-- Ask what has become of the request, once. -/
def resolve (c : Clock) (k : Client) : StateM Site Client := fun site =>
  match k.told with
  | some _ => (k, site)
  | none =>
      let answer := Archive.resolve c k.sent.tx site
      ({ k with told := some answer.1 }, answer.2)

/-- Read back the record of a request that was accepted, as of the time that was told, once. -/
def readBack (a : Archive) (c : Clock) (k : Client) : StateM Site Client := fun site =>
  match k.told, k.read with
  | some (.ok o), none =>
      let answer := a.record c k.sent.request.target (some o.time) site
      ({ k with read := some answer.1 }, answer.2)
  | _, _ => (k, site)

/-- What the call returns, once it does. -/
def returned (k : Client) : Option (Except Failure (Entity ⊕ Relationship)) :=
  match k.told with
  | none => none
  | some (.error failure) => some (.error failure)
  | some (.ok _) => k.read

end Client

/-- A site, and all who have submitted requests there, in this order. -/
structure Office where
  site : Site
  clients : List Client

/-- One step of a client, known by its place, or anything else that happens. -/
inductive ClientStep where
  | submit (c : Clock) (user : String) (request : Request)
  | resolve (c : Clock) (i : Nat)
  | readBack (c : Clock) (i : Nat)
  | meanwhile (ev : ArchiveEvent)

namespace Office

/-- Let a client do its work. -/
def work (o : Office) (i : Nat) (f : Client → StateM Site Client) : Office :=
  match o.clients[i]? with
  | none => o
  | some k => ⟨(f k o.site).2, o.clients.set i (f k o.site).1⟩

variable (a : Archive)

def step (o : Office) : ClientStep → Office
  | .submit c user r =>
      ⟨(Site.submit c [a.call user r] o.site).2,
        o.clients ++ [⟨a.submission c o.site user r, none, none⟩]⟩
  | .resolve c i => o.work i (Client.resolve c)
  | .readBack c i => o.work i (Client.readBack a c)
  | .meanwhile ev => ⟨a.happen o.site ev, o.clients⟩

def run (o : Office) (steps : List ClientStep) : Office := steps.foldl (step a) o

/-- What the clients have submitted. -/
def sent (o : Office) : List Submission := o.clients.map Client.sent

end Office

/-- A step that leaves an entity to the clients: no request is submitted for it but one that returns
it, and nothing else that happens is about it. -/
def ClientStep.Spares (a : Archive) (guid : String) : ClientStep → Prop
  | .submit _ _ r => r.target = .entity guid → r.givesEntity = true
  | .meanwhile (.operate _ op) => op.target a ≠ .entity guid
  | _ => True

/-- The call has returned an entity, and its request was accepted. -/
structure Client.Returns (k : Client) (guid : String) (e : Entity) : Prop where
  changes : k.sent.changes guid = true
  returned : k.returned = some (.ok (.inl e))

/-! ## Calls -/

theorem OnSite.map_eq {ε α β : Type} (f : α → β) (x : OnSite ε α) (site : Site) :
    (f <$> x) site = ((x site).1.map f, (x site).2) := by
  rw [← bind_pure_comp, OnSite.bind_eq]
  rcases x site with ⟨_ | _, _⟩ <;> rfl

theorem Office.work_last (site : Site) (clients : List Client) (k : Client)
    (f : Client → StateM Site Client) :
    (⟨site, clients ++ [k]⟩ : Office).work clients.length f =
      ⟨(f k site).2, clients ++ [(f k site).1]⟩ := by
  simp [Office.work, List.set_append_right]

/-- The three steps of a call, when nothing comes in between, are the call. -/
theorem Office.run_call (a : Archive) (o : Office) (c : Clock) (user : String) (r : Request) :
    let i := o.clients.length
    let after := o.run a [.submit c user r, .resolve c i, .readBack c i]
    let call := (a.carryOut c user r >>= fun outcome =>
      a.record c r.target (some outcome.time)) o.site
    after.site = call.2 ∧ after.clients[i]?.bind Client.returned = some call.1 := by
  intro i after call
  let k : Client := ⟨a.submission c o.site user r, none, none⟩
  let submitted := (Site.submit c [a.call user r] o.site).2
  have hafter : after = ((⟨submitted, o.clients ++ [k]⟩ : Office).work i (Client.resolve c)).work i
    (Client.readBack a c) := rfl
  have hcall : call = _ := OnSite.bind_eq (a.carryOut c user r) _ o.site
  have hcarried : a.carryOut c user r o.site = Archive.resolve c k.sent.tx submitted := rfl
  have hresolve : Client.resolve c k submitted =
      ({ k with told := some (Archive.resolve c k.sent.tx submitted).1 },
        (Archive.resolve c k.sent.tx submitted).2) := rfl
  rw [hafter, Office.work_last, Office.work_last, List.getElem?_concat_length, Option.bind_some,
    hcall, hcarried, hresolve]
  rcases Archive.resolve c k.sent.tx submitted with ⟨failure | outcome, site⟩ <;> exact ⟨rfl, rfl⟩

/-! ## Reading as of a transaction -/

namespace Archive

variable {a : Archive} {site : Site} {l : Ledger} {c : Clock} {tx : Nat} {entry : Ledger.Entry}

theorem On.entity_at (h : a.On site l) (he : l.entered? tx = some entry) (c : Clock)
    (guid : String) : (Archive.entity c guid (some entry.time) site).1 =
      (l.source ⟨tx, l.last⟩).entity guid := by
  obtain ⟨hmem, rfl⟩ := Ledger.of_entered? he
  rw [(h.entity_eq c guid (some entry.time)).1, Ledger.pinAt, Option.map_some, Option.getD_some,
    Ledger.lastBy_time hmem]

/-- Who reads an entity as of a transaction that wrote it reads what was written. -/
theorem On.ofDocument_of_entry {guid : String} {d : Document} {e : Entity} (h : a.On site l)
    (he : l.entered? tx = some entry)
    (hd : entry.writes.get? (RecordRef.entity guid).docId = some (some d))
    (hread : (Archive.entity c guid (some entry.time) site).1 = .ok e) :
    StoredEntity.ofDocument d = .ok (.full e) := by
  rw [h.entity_at he] at hread
  obtain ⟨d', hd', hof⟩ := Source.entity_ok hread
  rw [← Ledger.shows_of_entry he hd hd']
  exact hof

theorem record_entity (a : Archive) (c : Clock) (guid : String) (asOf : Option Instant)
    (site : Site) : a.record c (.entity guid) asOf site =
      ((Archive.entity c guid asOf site).1.map .inl, (Archive.entity c guid asOf site).2) :=
  OnSite.map_eq _ _ site

/-- Who was told the time of its transaction reads back what it has written, unless its request was
rejected. -/
theorem Confirmed.record_written {k : Submission} {t : Instant} {e : Entity}
    (h : a.Confirmed site l) (hk : k.Entered a l) (hgives : k.request.givesEntity = true)
    (hnote : k.reply.note? = none)
    (htime : (l.entered? k.tx.number).map Ledger.Entry.time = some t)
    (hread : (a.record c k.request.target (some t) site).1 = .ok (.inl e)) :
    e.reference = k.request.target ∧
      ∃ d, k.reply = .writes [.put d] none ∧ StoredEntity.ofDocument d = .ok (.full e) := by
  obtain ⟨entry, hentry, rfl⟩ := Option.map_eq_some_iff.1 htime
  -- A transaction that has a time was committed, and its writes are those of the request.
  have hcommits : k.reply.commits = true := by
    rw [← hk.committed, hentry]
    rfl
  cases hreply : k.reply with
  | fault | panic =>
    rw [hreply] at hcommits
    cases hcommits
  | writes ws note =>
    rw [hreply] at hnote
    cases hnote
    obtain ⟨e₀, d, entry', rfl, href, he₀, hentry', hd, -⟩ := hk.wrote hgives ws hreply
    cases hentry.symm.trans hentry'
    have hid : d.id = e₀.reference.docId := (Entity.lays he₀).id
    rw [hid] at hd
    rw [← href, Entity.reference, record_entity] at hread
    obtain ⟨e', hentity, heq⟩ := map_eq_ok.1 hread
    cases heq
    have hof := h.ofDocument_of_entry hentry hd hentity
    have hkey := (StoredEntity.ofDocument_ok hof).1
    exact ⟨(RecordRef.docId_injective (hkey.trans hid)).trans href, d, rfl, hof⟩

theorem Confirmed.record (h : a.Confirmed site l) (c : Clock) (r : RecordRef)
    (asOf : Option Instant) : a.Confirmed (a.record c r asOf site).2 l := by
  unfold Archive.record
  cases r.kind with
  | entity =>
    dsimp only
    rw [OnSite.map_eq]
    exact h.entity c r.guid asOf
  | relationship =>
    dsimp only
    rw [OnSite.map_eq]
    exact h.relationship c r.guid asOf

end Archive

/-! ## What is known of each client -/

namespace Client

variable {a : Archive} {l : Ledger} {k : Client}

/-- What a client was told is the time of its transaction, and what it has read is what it has
written, unless its request was rejected. -/
structure Sound (l : Ledger) (k : Client) : Prop where
  told : ∀ o, k.told = some (.ok o) →
    (l.entered? k.sent.tx.number).map Ledger.Entry.time = some o.time
  read : k.sent.request.givesEntity = true → k.sent.reply.note? = none →
    ∀ e, k.read = some (.ok (.inl e)) → e.reference = k.sent.request.target ∧
      ∃ d, k.sent.reply = .writes [.put d] none ∧ StoredEntity.ofDocument d = .ok (.full e)

theorem Sound.step {ν : Type} (h : k.Sound l) (hk : k.sent.Entered a l) (ev : StoreEvent ν) :
    k.Sound (l.step ev) :=
  ⟨fun o ho => by rw [Ledger.entered?_step hk.number, h.told o ho], h.read⟩

theorem read_of_returned {x : Entity ⊕ Relationship} (h : k.returned = some (.ok x)) :
    k.read = some (.ok x) := by
  unfold returned at h
  split at h
  · cases h
  · cases h
  · exact h

/-- The version of the entity that was returned. -/
def version? (k : Client) : Option UInt64 :=
  match k.returned with
  | some (.ok (.inl e)) => some e.header.version
  | _ => none

theorem version?_eq_some {v : UInt64} : k.version? = some v ↔
    ∃ e, k.returned = some (.ok (.inl e)) ∧ e.header.version = v := by
  unfold version?
  split
  next e he => simp [he]
  next hnone =>
    refine iff_of_false (by simp) ?_
    rintro ⟨e, he, -⟩
    exact hnone e he

/-- What a client does is its own business: it has still submitted the same, and what it knows is
sound. -/
def Works (a : Archive) (l : Ledger) (f : Client → StateM Site Client) : Prop :=
  ∀ k site, a.Confirmed site l → k.sent.Entered a l → k.Sound l →
    (f k site).1.sent = k.sent ∧ (f k site).1.Sound l ∧ a.Confirmed (f k site).2 l

theorem works_resolve (c : Clock) : Works a l (resolve c) := by
  intro k site hsite hentered hk
  unfold resolve
  cases htold : k.told with
  | some told => exact ⟨rfl, hk, hsite⟩
  | none =>
    refine ⟨rfl, ⟨fun o ho => ?_, hk.read⟩, hsite.resolve c k.sent.tx⟩
    exact hsite.time_of_resolve (Option.some.inj ho)

theorem works_readBack (c : Clock) : Works a l (readBack a c) := by
  intro k site hsite hentered hk
  unfold readBack
  split
  next o htold hread =>
    refine ⟨rfl, ⟨hk.told, fun hgives hnote e he => ?_⟩, hsite.record c _ _⟩
    exact hsite.record_written hentered hgives hnote (hk.told o htold) (Option.some.inj he)
  next => exact ⟨rfl, hk, hsite⟩

end Client

/-! ## Steps -/

/-- The ledger after a step. -/
def ClientStep.ledger (a : Archive) (l : Ledger) : ClientStep → Ledger
  | .submit c user r => (Operation.invoke user r).ledger a c l
  | .resolve _ _ | .readBack _ _ => l
  | .meanwhile ev => ev.ledger a l

namespace Office

variable {a : Archive} {o : Office} {l : Ledger} {guid : String}

/-- An archive at work where clients are, all of whose submissions are entered. -/
structure Sound (a : Archive) (o : Office) (l : Ledger) : Prop where
  site : a.Confirmed o.site l
  submitted : Submitted a o.sent l
  clients : ∀ k ∈ o.clients, k.Sound l

theorem sent_submit (c : Clock) (user : String) (r : Request) :
    (o.step a (.submit c user r)).sent = o.sent ++ [a.submission c o.site user r] := by
  simp [sent, step]

theorem Sound.work (h : o.Sound a l) (i : Nat) {f : Client → StateM Site Client}
    (hf : Client.Works a l f) : (o.work i f).Sound a l ∧ (o.work i f).sent = o.sent := by
  unfold Office.work
  cases hi : o.clients[i]? with
  | none => exact ⟨h, rfl⟩
  | some k =>
    have hmem : k ∈ o.clients := List.mem_of_getElem? hi
    obtain ⟨hsent, hk, hsite⟩ := hf k o.site h.site
      (h.submitted.entered k.sent (List.mem_map_of_mem hmem)) (h.clients k hmem)
    have hsame : (o.clients.set i (f k o.site).1).map Client.sent = o.sent := by
      obtain ⟨hlt, rfl⟩ := List.getElem?_eq_some_iff.1 hi
      rw [List.map_set, hsent, ← List.getElem_map Client.sent, List.set_getElem_self]
      · rfl
      · rwa [List.length_map]
    refine ⟨⟨hsite, ?_, fun k' hk' => ?_⟩, hsame⟩
    · rw [sent, hsame]
      exact h.submitted
    · rcases List.mem_or_eq_of_mem_set hk' with hk' | rfl
      · exact h.clients k' hk'
      · exact hk

/-- What the ledger gains leaves what is known of the clients. -/
theorem Sound.later (h : o.Sound a l) (ev : StoreEvent Failure) :
    ∀ k ∈ o.clients, k.Sound (l.step ev) := fun k hk =>
  (h.clients k hk).step (h.submitted.entered k.sent (List.mem_map_of_mem hk)) ev

theorem Sound.step (h : o.Sound a l) (s : ClientStep) : (o.step a s).Sound a (s.ledger a l) := by
  cases s with
  | submit c user r =>
    obtain ⟨ev, hev⟩ := (Operation.invoke user r).ledger_step a c l
    refine ⟨h.site.submit c [a.call user r], ?_, fun k hk => ?_⟩
    · rw [sent_submit]
      exact h.submitted.submit h.site.toOn c user r
    · rcases List.mem_append.1 hk with hk | hk
      · rw [ClientStep.ledger, hev]
        exact h.later ev k hk
      · rw [List.mem_singleton.1 hk]
        exact ⟨fun _ h => (nomatch h), fun _ _ _ h => (nomatch h)⟩
  | resolve c i => exact (h.work i (Client.works_resolve c)).1
  | readBack c i => exact (h.work i (Client.works_readBack c)).1
  | meanwhile ev =>
    have hsite := h.site.happen ev
    obtain ⟨ev', hev'⟩ := ev.ledger_step a l
    rw [hev'] at hsite
    rw [ClientStep.ledger, hev']
    exact ⟨hsite, h.submitted.step ev', h.later ev'⟩

/-- **A step that leaves an entity to the clients continues its chronicle.** -/
theorem Sound.chronicle_step (h : o.Sound a l) (hc : Chronicle guid o.sent l) {s : ClientStep}
    (hspares : s.Spares a guid)
    (hbound : ∀ v, o.site.version? (.entity guid) = some v → v.toNat < 2 ^ 63 - 1) :
    Chronicle guid (o.step a s).sent (s.ledger a l) := by
  cases s with
  | submit c user r =>
    rw [Site.version?, h.site.tracks.latest_eq] at hbound
    rw [sent_submit]
    exact hc.submit h.submitted h.site.toOn c user hspares hbound
  | resolve c i =>
    show Chronicle guid (o.work i _).sent l
    rw [(h.work i (Client.works_resolve c)).2]
    exact hc
  | readBack c i =>
    show Chronicle guid (o.work i _).sent l
    rw [(h.work i (Client.works_readBack c)).2]
    exact hc
  | meanwhile ev =>
    cases ev with
    | operate c op =>
      obtain ⟨ev', hev'⟩ := op.ledger_step a c l
      show Chronicle guid o.sent (op.ledger a c l)
      rw [hev']
      refine hc.step h.submitted fun d hd hentity => ?_
      rw [← hev']
      exact h.site.ledger_other c hspares hd hentity
    | openSnapshot | release => exact hc

/-- After any steps there is a ledger for which all is sound, and an entity that was left to the
clients has its chronicle. -/
theorem Sound.run (h : o.Sound a l) (steps : List ClientStep) :
    ∃ l', (o.run a steps).Sound a l' ∧ ∀ guid, Chronicle guid o.sent l →
      (∀ s ∈ steps, s.Spares a guid) →
      (∀ part, part <+: steps → ∀ v, (o.run a part).site.version? (.entity guid) = some v →
        v.toNat < 2 ^ 63 - 1) →
      Chronicle guid (o.run a steps).sent l' := by
  induction steps generalizing o l with
  | nil => exact ⟨l, h, fun guid hc _ _ => hc⟩
  | cons s steps ih =>
    obtain ⟨l', hsound, hchronicle⟩ := ih (h.step s)
    refine ⟨l', hsound, fun guid hc hspares hbound => hchronicle guid ?_ ?_ ?_⟩
    · exact h.chronicle_step hc (hspares s (by simp)) (hbound [] List.nil_prefix)
    · exact fun s' hs' => hspares s' (List.mem_cons_of_mem _ hs')
    · exact fun part hpart => hbound (s :: part) (List.cons_prefix_cons.2 ⟨rfl, hpart⟩)

end Office

/-! ## What clients are returned -/

namespace Client

variable {a : Archive} {l : Ledger} {k : Client} {guid : String} {e : Entity}

/-- What a client is returned that changed an entity is the document it has written, with the time
of its transaction. -/
theorem Returns.change (h : k.Returns guid e) (hentered : k.sent.Entered a l) (hk : k.Sound l) :
    ∃ (d : Document) (entry : Ledger.Entry), k.sent.change? guid = some d ∧
      StoredEntity.ofDocument d = .ok (.full e) ∧ d.versionNat = e.header.version.toNat ∧
      l.entered? k.sent.tx.number = some entry ∧ e.header.lastChange = entry.time := by
  obtain ⟨e₀, d, entry, hd, -, he₀, hentry, -, htime⟩ := hentered.of_changes h.changes
  obtain ⟨hgives, -, ws, hreply⟩ := Submission.changes_iff.1 h.changes
  obtain ⟨-, d', hd', hread⟩ := hk.read hgives (by rw [hreply]; rfl) e (read_of_returned h.returned)
  have hreply' := (Submission.change?_eq_some.1 hd).2
  cases hd'.symm.trans hreply'
  refine ⟨d, entry, hd, hread, ?_, hentry, ?_⟩
  · exact Document.versionNat_eq (StoredEntity.ofDocument_ok hread).2.1
  · have hheader := (Entity.lays he₀).header_of_ofDocument hread
    rw [← htime]
    exact (congrArg Header.lastChange hheader :)

end Client

/-- **Clients read their own writes.** An archive is set up where nothing has happened, and anything
happens. Then clients submit requests, ask for their outcomes and read their records back, step by
step, in any order and each step at any time of day, and anything else may happen in between.

* A client whose request was not rejected, and who is returned an entity, is returned the one that
  it asked for as its own transaction has written it.
* A client whose request was rejected has written nothing, and is told of a success exactly where
  its outcome is still kept and its failure is not.

Let an entity be left to the clients: nobody submits a request for it but one that returns it, and
its versions do not run out. Then of two clients that changed it and were returned it, the one that
submitted first has the earlier transaction and was returned an earlier version; between the two
versions there is one for each change that was accepted in between. And whoever asks for the entity
as of the last change of what a client was returned gets the same, at any later time. -/
theorem clients_read_their_own_writes {ts : TypeSystem} {settings : Settings} {capacity : Nat}
    {a : Archive} {site : Site}
    (hsetUp : Archive.setUp ts settings (.empty capacity) = (.ok a, site))
    (before : List ArchiveEvent) (steps : List ClientStep) :
    let start : Office := ⟨a.through site before, []⟩
    let office := start.run a steps
    let clients := office.clients
    (∀ k ∈ clients, k.sent.request.givesEntity = true → k.sent.reply.note? = none →
      ∀ e, k.returned = some (.ok (.inl e)) → e.reference = k.sent.request.target ∧
        ∃ d, k.sent.reply = .writes [.put d] none ∧ StoredEntity.ofDocument d = .ok (.full e)) ∧
    (∀ k ∈ clients, ∀ failure, k.sent.reply.note? = some failure →
      k.sent.reply = .writes [] (some failure) ∧ ∀ c,
        ((∃ o, (Archive.resolve c k.sent.tx office.site).1 = .ok o) ↔
          ¬ Lacks Outcome.tx k.sent.tx office.site.store.outcomes ∧
            (office.site.rejections.expire c.elapsed).Fresh k.sent.tx)) ∧
    ∀ guid, (∀ s ∈ steps, s.Spares a guid) →
      (∀ part, part <+: steps → ∀ v, (start.run a part).site.version? (.entity guid) = some v →
        v.toNat < 2 ^ 63 - 1) →
      (∀ front k between k' back, clients = front ++ k :: between ++ k' :: back →
        ∀ e e', k.Returns guid e → k'.Returns guid e' →
          k.sent.tx.number < k'.sent.tx.number ∧ e'.header.version.toNat =
            e.header.version.toNat + between.countP (fun k => k.sent.changes guid) + 1) ∧
      ∀ k ∈ clients, ∀ e, k.Returns guid e → ∀ c,
        (Archive.entity c guid (some e.header.lastChange) office.site).1 = .ok e := by
  intro start office clients
  obtain ⟨rfl, hon⟩ := Archive.setUp_ok hsetUp
  obtain ⟨-, -, hsite⟩ := Archive.setUp_eq hsetUp
  have hconfirmed : Archive.Confirmed ⟨ts, settings⟩ site .empty :=
    ⟨hon, by simp [hsite, Store.empty]⟩
  obtain ⟨l₀, hthrough⟩ := hconfirmed.through before
  have hstart : start.Sound ⟨ts, settings⟩ l₀ :=
    ⟨hthrough, ⟨by simp [Office.sent, start], List.Pairwise.nil⟩, by simp [start]⟩
  obtain ⟨l, hoffice, hchronicle⟩ := hstart.run steps
  have hentered (k : Client) (hk : k ∈ clients) : k.sent.Entered ⟨ts, settings⟩ l :=
    hoffice.submitted.entered k.sent (List.mem_map_of_mem hk)
  refine ⟨fun k hk hgives hnote e he => ?_, fun k hk failure hnote => ?_,
    fun guid hspares hbound => ?_⟩
  · exact (hoffice.clients k hk).read hgives hnote e (Client.read_of_returned he)
  · have hreply := (hentered k hk).rejected failure hnote
    exact ⟨hreply, fun c => hoffice.site.resolve_committed (hentered k hk) (by rw [hreply]; rfl)⟩
  · have hc := hchronicle guid Chronicle.empty hspares hbound
    refine ⟨fun front k between k' back hsplit e e' he he' => ?_, fun k hk e he c => ?_⟩
    · have hk : k ∈ clients := by simp [hsplit]
      have hk' : k' ∈ clients := by simp [hsplit]
      obtain ⟨d, -, hd, -, hversion, -⟩ := he.change (hentered k hk) (hoffice.clients k hk)
      obtain ⟨d', -, hd', -, hversion', -⟩ := he'.change (hentered k' hk') (hoffice.clients k' hk')
      have hsent : office.sent = front.map Client.sent ++ k.sent :: between.map Client.sent ++
          k'.sent :: back.map Client.sent := by
        show clients.map Client.sent = _
        simp [hsplit]
      have hnext := hc.versionNat_between hoffice.submitted hsent hd hd'
      rw [hversion, hversion', List.countP_map] at hnext
      refine ⟨?_, hnext⟩
      have hascending := hoffice.submitted.ascending
      rw [hsent, List.pairwise_append] at hascending
      exact hascending.2.2 k.sent (by simp) k'.sent (by simp)
    · obtain ⟨d, entry, hd, hread, -, hentry, htime⟩ :=
        he.change (hentered k hk) (hoffice.clients k hk)
      have hshows := hc.shows k.sent (List.mem_map_of_mem hk) d hd l.last (Nat.le_refl _)
      rw [htime, hoffice.site.entity_at hentry]
      exact (Source.entity_eq_ok hshows).2 hread

/-- Alice creates an entity and Bob deletes it, at an earlier time of day; then Carol and Dave want
to delete it once more, and are rejected. Bob and Alice are returned the two versions, in whichever
order they ask. But only one failure is kept: Carol, whose failure made room for that of Dave, is
returned the version that Bob has written. -/
theorem clients_read_two_versions :
    let ts : TypeSystem := ⟨.ofList [("Thing", ⟨"t1", "Thing", .entity, none, [], []⟩)]⟩
    let settings : Settings := { Settings.default with rejections := ⟨1, 60000⟩ }
    let a : Archive := ⟨ts, settings⟩
    let site := (Archive.setUp ts settings (.empty 10)).2
    let clock (seconds : Int) : Clock := ⟨⟨seconds, 0⟩, 0⟩
    let steps : List ClientStep :=
      [.submit (clock 9) "alice" (.createEntity "e1" "Thing" ∅ [] none),
        .submit (clock 3) "bob" (.changeEntity "e1" .delete),
        .submit (clock 5) "carol" (.changeEntity "e1" .delete),
        .submit (clock 0) "dave" (.changeEntity "e1" .delete),
        .resolve (clock 0) 2, .resolve (clock 1) 1, .readBack (clock 7) 1, .resolve (clock 0) 0,
        .readBack (clock 2) 0, .readBack (clock 2) 2]
    let office := Office.run a ⟨site, []⟩ steps
    Archive.setUp ts settings (.empty 10) = (.ok a, site) ∧
      ∃ alice bob carol dave e e' e'', office.clients = [alice, bob, carol, dave] ∧
        alice.Returns "e1" e ∧ bob.Returns "e1" e' ∧
        e'.header.version.toNat = e.header.version.toNat + 1 ∧
        (Archive.entity (clock 0) "e1" (some e.header.lastChange) office.site).1 = .ok e ∧
        carol.sent.reply.note? ≠ none ∧ carol.returned = some (.ok (.inl e'')) ∧
        e''.header.version = e'.header.version := by
  intro ts settings a site clock steps office
  have hsetUp : Archive.setUp ts settings (.empty 10) = (.ok a, site) :=
    Archive.setUp_of_isOk (by decide +kernel)
  have hclients : office.clients.map (fun k =>
      (k.sent.changes "e1", k.sent.reply.note?.isSome, k.version?)) =
        [(true, false, some 1), (true, false, some 2), (false, true, some 2),
          (false, true, none)] := by decide +kernel
  have hbound : (steps.inits.all fun part =>
      ((Office.run a ⟨site, []⟩ part).site.version? (.entity "e1")).all fun v =>
        decide (v.toNat < 2 ^ 63 - 1)) = true := by decide +kernel
  obtain ⟨alice, rest, hoffice, halice, hrest⟩ := List.map_eq_cons_iff.1 hclients
  obtain ⟨bob, rest, rfl, hbob, hrest⟩ := List.map_eq_cons_iff.1 hrest
  obtain ⟨carol, rest, rfl, hcarol, hrest⟩ := List.map_eq_cons_iff.1 hrest
  obtain ⟨dave, rest, rfl, -, hrest⟩ := List.map_eq_cons_iff.1 hrest
  cases List.map_eq_nil_iff.1 hrest
  simp only [Prod.mk.injEq] at halice hbob hcarol
  obtain ⟨e, he, -⟩ := Client.version?_eq_some.1 halice.2.2
  obtain ⟨e', he', hversion'⟩ := Client.version?_eq_some.1 hbob.2.2
  obtain ⟨e'', he'', hversion''⟩ := Client.version?_eq_some.1 hcarol.2.2
  obtain ⟨-, -, hlaw⟩ := clients_read_their_own_writes hsetUp [] steps
  obtain ⟨hversions, hlater⟩ := hlaw "e1"
    (by simp [steps, ClientStep.Spares, Request.givesEntity])
    (fun part hpart v hv => by
      have hall := List.all_eq_true.1 hbound part ((List.mem_inits part steps).2 hpart)
      have hv : (Office.run a ⟨site, []⟩ part).site.version? (.entity "e1") = some v := hv
      rw [hv] at hall
      exact of_decide_eq_true hall)
  refine ⟨hsetUp, alice, bob, carol, dave, e, e', e'', hoffice, ⟨halice.1, he⟩, ⟨hbob.1, he'⟩,
    ?_, ?_, ?_, he'', hversion''.trans hversion'.symm⟩
  · exact (hversions [] alice [] bob [carol, dave] hoffice e e' ⟨halice.1, he⟩ ⟨hbob.1, he'⟩).2
  · have hmem : alice ∈ office.clients := by simp [hoffice]
    exact hlater alice hmem e ⟨halice.1, he⟩ (clock 0)
  · intro hnone
    rw [hnone] at hcarol
    cases hcarol.2.1

end MetadataArchive
