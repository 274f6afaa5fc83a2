import MetadataArchive.Proofs.Lifecycle.Catalog
import MetadataArchive.Proofs.Lifecycle.Values
import MetadataArchive.Proofs.Record.Returning

/-!
# Requests survive transport

A request travels to the store as JSON inside of an invocation, under the name of the function that
carries it out. That function reads the same invocation again (`Invocation.Formed.returns`), and no
other function of the catalog takes it. So a call is answered by its request alone: it ends with the
writes of the request or with the note of its rejection, and it never aborts the transaction that it
stands in.

There is one thing that does not travel: a double that is not finite is written as null, and then
the whole invocation is not read.
-/

set_option autoImplicit false

namespace MetadataArchive

theorem Collection.returns (c : Collection) : Json.Returns toJson ofJson? c := by
  unfold Json.Returns ofJson?
  refine Option.bind_eq_some_iff.2 ⟨_, rfl, ?_⟩
  refine Option.bind_eq_some_iff.2 ⟨_, (Json.returns_str c.id).required rfl, ?_⟩
  exact Option.bind_eq_some_iff.2 ⟨_, Json.optional_ofString? rfl, rfl⟩

theorem NewClassification.returns {c : NewClassification}
    (hps : c.properties.All PropertyValue.Returns) : Json.Returns toJson ofJson? c := by
  unfold Json.Returns ofJson?
  refine Option.bind_eq_some_iff.2 ⟨_, rfl, ?_⟩
  refine Option.bind_eq_some_iff.2 ⟨_, (Json.returns_str c.name).required rfl, ?_⟩
  exact Option.bind_eq_some_iff.2 ⟨_, (Properties.returns hps).defaulted rfl ∅, rfl⟩

theorem ClassifyMode.returns (mode : ClassifyMode) :
    Json.Returns (fun mode => .str mode.name) (Json.toNamed? all name) mode := by
  cases mode <;> rfl

namespace Request

variable {req : Request}

/-- The fields of a change are read as that change, by the kind of record that it is made to. -/
theorem change?_changeMembers (kind : RecordKind) (guid : String) {change : Change}
    (hvalues : change.All PropertyValue.Returns) :
    change? (("function", .str (change.function kind)) :: ("guid", .str guid) ::
      changeMembers change) kind (change.function kind) = some change := by
  cases change with
  | properties ps =>
    have hps : Json.required (("function", .str (Change.function kind (.properties ps))) ::
        ("guid", .str guid) :: changeMembers (.properties ps)) "properties" Properties.ofJson? =
        some ps := (Properties.returns hvalues).required rfl
    rw [change?, Change.function, if_pos rfl]
    exact Option.map_eq_some_iff.2 ⟨ps, hps, rfl⟩
  | status s =>
    have hs : Json.optional (("function", .str (Change.function kind (.status s))) ::
        ("guid", .str guid) :: changeMembers (.status s)) "status" Status.ofJson? =
        some s := (Status.returns_option s).optional rfl
    cases kind <;> exact Option.map_eq_some_iff.2 ⟨s, hs, rfl⟩
  | delete => cases kind <;> rfl
  | restore => cases kind <;> rfl

theorem returns (htimes : ∀ h ∈ req.headers, h.InCalendar)
    (hvalues : req.All PropertyValue.Returns) : Json.Returns toJson ofJson? req := by
  show ofJson? req.toJson = some req
  rw [ofJson?_toJson]
  cases req with
  | createEntity guid typeName ps cs status =>
    have hcs : Json.Returns (Json.ofList NewClassification.toJson)
        (Json.toList? NewClassification.ofJson?) cs :=
      Json.returns_ofList fun c hc => NewClassification.returns (hvalues.2 c hc)
    simp only [function, ofMembers?, Option.bind_eq_bind]
    refine Option.bind_eq_some_iff.2 ⟨_, (Json.returns_str guid).required rfl, ?_⟩
    refine Option.bind_eq_some_iff.2 ⟨_, (Json.returns_str typeName).required rfl, ?_⟩
    refine Option.bind_eq_some_iff.2 ⟨_, (Properties.returns hvalues.1).defaulted rfl ∅, ?_⟩
    refine Option.bind_eq_some_iff.2 ⟨_, hcs.defaulted rfl [], ?_⟩
    exact Option.bind_eq_some_iff.2 ⟨_, (Status.returns_option status).optional rfl, rfl⟩
  | createStub p =>
    have hp := Proxy.returns (htimes p.header (by simp [headers])) hvalues
    exact Option.map_eq_some_iff.2 ⟨_, hp.required rfl, rfl⟩
  | changeEntity guid change =>
    simp only [function, members, ofMembers?_change, change?_changeMembers .entity guid hvalues,
      guid?_changeMembers, Option.bind_some]
  | purgeEntity guid force | purgeRelationship guid force =>
    simp only [function, ofMembers?, Option.bind_eq_bind]
    refine Option.bind_eq_some_iff.2 ⟨_, (Json.returns_str guid).required rfl, ?_⟩
    exact Option.bind_eq_some_iff.2 ⟨_, (Json.returns_bool force).defaulted rfl false, rfl⟩
  | classify guid name ps mode =>
    simp only [function, ofMembers?, Option.bind_eq_bind]
    refine Option.bind_eq_some_iff.2 ⟨_, (Json.returns_str guid).required rfl, ?_⟩
    refine Option.bind_eq_some_iff.2 ⟨_, (Json.returns_str name).required rfl, ?_⟩
    refine Option.bind_eq_some_iff.2 ⟨_, (Properties.returns hvalues).defaulted rfl ∅, ?_⟩
    exact Option.bind_eq_some_iff.2 ⟨_, mode.returns.defaulted rfl .add, rfl⟩
  | declassify guid name => rfl
  | createRelationship guid typeName ps status one two =>
    obtain ⟨hps, hone, htwo⟩ := hvalues
    simp only [headers, List.forall_mem_cons] at htimes
    obtain ⟨hheaderOne, hheaderTwo, -⟩ := htimes
    simp only [function, ofMembers?, Option.bind_eq_bind]
    refine Option.bind_eq_some_iff.2 ⟨_, (Json.returns_str guid).required rfl, ?_⟩
    refine Option.bind_eq_some_iff.2 ⟨_, (Json.returns_str typeName).required rfl, ?_⟩
    refine Option.bind_eq_some_iff.2 ⟨_, (Properties.returns hps).defaulted rfl ∅, ?_⟩
    refine Option.bind_eq_some_iff.2 ⟨_, (Status.returns_option status).optional rfl, ?_⟩
    refine Option.bind_eq_some_iff.2 ⟨_, (Proxy.returns hheaderOne hone).required rfl, ?_⟩
    exact Option.bind_eq_some_iff.2 ⟨_, (Proxy.returns hheaderTwo htwo).required rfl, rfl⟩
  | changeRelationship guid change =>
    have hother {ms : List (String × Json)} :
        change? ms .entity (change.function .relationship) = none := change?_other (by decide)
    simp only [function, members, ofMembers?_change, hother,
      change?_changeMembers .relationship guid hvalues, guid?_changeMembers, Option.bind_some]
  | storeEntityCopy e =>
    exact Option.map_eq_some_iff.2 ⟨_, (Entity.returns htimes hvalues).required rfl, rfl⟩
  | storeRelationshipCopy rel =>
    have hrel := Relationship.returns htimes hvalues.properties hvalues.endOne hvalues.endTwo
    exact Option.map_eq_some_iff.2 ⟨_, hrel.required rfl, rfl⟩
  | storeHomeRelationship rel =>
    have hrel := Relationship.returns htimes hvalues.properties hvalues.endOne hvalues.endTwo
    exact Option.map_eq_some_iff.2 ⟨_, hrel.required rfl, rfl⟩
  | storeClassificationCopy guid c =>
    have hc := Classification.returns (htimes c.header (by simp [headers])) hvalues
    simp only [function, ofMembers?, Option.bind_eq_bind]
    refine Option.bind_eq_some_iff.2 ⟨_, (Json.returns_str guid).required rfl, ?_⟩
    exact Option.bind_eq_some_iff.2 ⟨_, hc.required rfl, rfl⟩
  | purgeEntityCopy guid home => rfl
  | purgeRelationshipCopy guid home => rfl
  | purgeClassificationCopy guid name home => rfl

end Request

/-! ## Invocations -/

/-- An invocation as it can be built: all dates in its request are in the calendar, and all entries
of maps and structures are in name order. -/
structure Invocation.Formed (i : Invocation) : Prop where
  times : ∀ h ∈ i.request.headers, h.InCalendar
  values : i.request.All PropertyValue.Formed

/-- **An invocation survives its encoding** if its doubles are finite. -/
theorem Invocation.Formed.returns {i : Invocation} (h : i.Formed)
    (hfinite : i.request.All PropertyValue.Finite) :
    Json.Returns Invocation.toJson Invocation.ofJson? i := by
  have hvalues : i.request.All PropertyValue.Returns :=
    h.values.imp₂ hfinite fun _ hformed => hformed.returns
  unfold Json.Returns ofJson?
  refine Option.bind_eq_some_iff.2 ⟨_, rfl, ?_⟩
  refine Option.bind_eq_some_iff.2 ⟨_, (Json.returns_str i.user).required rfl, ?_⟩
  refine Option.bind_eq_some_iff.2 ⟨_, i.collection.returns.required rfl, ?_⟩
  exact Option.bind_eq_some_iff.2 ⟨_, (Request.returns h.times hvalues).required rfl, rfl⟩

/-- **What arrives can be sent on**, if it came as a text can bring it. -/
theorem Invocation.returns_of_ofJson? {args : Json} {i : Invocation} (hargs : args.Proper)
    (h : Invocation.ofJson? args = some i) : Json.Returns toJson ofJson? i := by
  have hvalues : Json.Decodes (fun v => v.Sound ∧ v.Formed) PropertyValue.ofJson? :=
    fun j v hj hv => ⟨PropertyValue.decodes_sound j v hj hv, PropertyValue.formed_of_ofJson? hv⟩
  obtain ⟨htimes, hall⟩ := Invocation.all_of_ofJson? hvalues hargs h
  have hformed : i.Formed := ⟨htimes, hall.imp₂ hall fun _ hv _ => hv.2⟩
  exact hformed.returns (hall.imp₂ hall fun _ hv _ => hv.1.finite)

/-! ## Calls -/

namespace Catalog

variable {ts : TypeSystem} {tx : TxId} {time : Instant} {base : Source} {i : Invocation}

theorem exists_reply_writes (ts : TypeSystem) (ctx : TxContext) (i : Invocation) :
    ∃ ws note, reply ts ctx i = .writes ws note := by
  unfold reply
  split
  · exact ⟨_, _, rfl⟩
  · exact ⟨_, _, rfl⟩

/-- Of an invocation that survives its encoding, each function sees whether it is for itself. -/
theorem run_toJson (hi : Json.Returns Invocation.toJson Invocation.ofJson? i) (ts : TypeSystem)
    (name : String) (ctx : TxContext) :
    (function ts name).run ctx i.toJson =
      if name = i.request.function then reply ts ctx i
      else .fault (name ++ " invoked with a " ++ i.request.function ++ " request") := by
  have hread : Invocation.ofJson? i.toJson = some i := hi
  simp only [function, hread, eq_comm]

/-- A call for such an invocation stages what its request writes, and the run goes on. -/
theorem runOps_toOp_cons (hi : Json.Returns Invocation.toJson Invocation.ofJson? i)
    (staged : Staged) (ops : List TxOp) :
    ∃ ws note, reply ts ⟨tx, time, staged.laidOver base⟩ i = .writes ws note ∧
      runOps (functions ts) tx time base staged (i.toOp :: ops) =
        ((runOps (functions ts) tx time base (ws.foldl Staged.apply staged) ops).1,
          note.toList ++
            (runOps (functions ts) tx time base (ws.foldl Staged.apply staged) ops).2) := by
  obtain ⟨ws, note, hreply⟩ := exists_reply_writes ts ⟨tx, time, staged.laidOver base⟩ i
  refine ⟨ws, note, hreply, ?_⟩
  have hrun := run_toJson hi ts i.request.function ⟨tx, time, staged.laidOver base⟩
  rw [if_pos rfl, hreply] at hrun
  simp only [Invocation.toOp, runOps, find?_function, hrun]

/-- **No transaction is aborted** that writes and calls for invocations that survive their
encoding. -/
theorem runOps_ok {ops : List TxOp} (staged : Staged)
    (hops : ∀ op ∈ ops, (∃ w, op = .write w) ∨
      ∃ i : Invocation, op = i.toOp ∧ i.Formed ∧ i.request.All PropertyValue.Finite) :
    ∃ result, (runOps (functions ts) tx time base staged ops).1 = .ok result := by
  induction ops generalizing staged with
  | nil => exact ⟨staged, rfl⟩
  | cons op ops ih =>
    obtain ⟨hop, hrest⟩ := List.forall_mem_cons.1 hops
    rcases hop with ⟨w, rfl⟩ | ⟨i, rfl, hformed, hfinite⟩
    · exact ih (staged.apply w) hrest
    · obtain ⟨ws, note, -, hrun⟩ := runOps_toOp_cons (hformed.returns hfinite) staged ops
      rw [hrun]
      exact ih (ws.foldl Staged.apply staged) hrest

end Catalog

end MetadataArchive
