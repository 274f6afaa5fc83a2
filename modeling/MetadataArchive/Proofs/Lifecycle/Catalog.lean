import MetadataArchive.Lifecycle.Catalog
import MetadataArchive.Proofs.Store.Staging

/-!
# What the functions of the catalog reply

Every request has its function, and a transaction of one invocation ends by what that replies: with
the writes of the request that arrives, with the note of its rejection and no writes, or aborted
where nothing can be read that the function is for.
-/

set_option autoImplicit false

namespace MetadataArchive

variable {ts : TypeSystem}

/-- The failure that a function notes. -/
def Reply.note? {ν : Type} : Reply ν → Option ν
  | .writes _ note => note
  | .fault _ | .panic _ => none

theorem Request.function_mem (r : Request) : r.function ∈ Request.functions := by
  cases r with
  | changeEntity guid change => cases change <;> exact of_decide_eq_true rfl
  | changeRelationship guid change => cases change <;> exact of_decide_eq_true rfl
  | _ => exact of_decide_eq_true rfl

theorem Catalog.find?_function (ts : TypeSystem) (r : Request) :
    (Catalog.functions ts).find? (fun f => f.name == r.function) =
      some (Catalog.function ts r.function) := by
  have hsome : (Request.functions.find? (· == r.function)).isSome :=
    List.find?_isSome.2 ⟨_, r.function_mem, beq_self_eq_true _⟩
  obtain ⟨name, hname⟩ := Option.isSome_iff_exists.1 hsome
  have heq : name = r.function := by simpa using List.find?_some hname
  rw [Catalog.functions, List.find?_map, ← heq]
  rw [← heq] at hname
  exact congrArg (Option.map (Catalog.function ts)) hname

/-- A transaction of one invocation ends by what the function of its request replies. -/
theorem Catalog.runOps_toOp (ts : TypeSystem) (tx : TxId) (time : Instant) (base : Source)
    (i : Invocation) :
    runOps (Catalog.functions ts) tx time base ∅ [i.toOp] =
      match (Catalog.function ts i.request.function).run ⟨tx, time, base⟩ i.toJson with
      | .writes ws note => (.ok (ws.foldl Staged.apply ∅), note.toList)
      | .fault reason => (.error (.failed i.request.function reason), [])
      | .panic message => (.error (.panicked message), []) := by
  simp only [Invocation.toOp, runOps, Catalog.find?_function, Staged.laidOver_empty]
  cases (Catalog.function ts i.request.function).run ⟨tx, time, base⟩ i.toJson with
  | writes ws note => simp
  | fault reason => rfl
  | panic message => rfl

/-- What a function of the catalog writes is what some request writes that it accepts, or nothing
beside the note of a rejection. -/
theorem Catalog.run_writes {f : TxFunction Failure} (hf : f ∈ Catalog.functions ts)
    {ctx : TxContext} {args : Json} {ws : List Write} {note : Option Failure}
    (h : f.run ctx args = .writes ws note) :
    ∃ i : Invocation, Invocation.ofJson? args = some i ∧ i.request.function = f.name ∧
      ((i.request.carryOut ⟨ts, i.user, i.collection, ctx⟩ = .ok ws ∧ note = none) ∨
        ∃ failure, i.request.carryOut ⟨ts, i.user, i.collection, ctx⟩ = .error failure ∧
          ws = [] ∧ note = some failure) := by
  obtain ⟨name, -, rfl⟩ := List.mem_map.1 hf
  simp only [Catalog.function] at h
  split at h
  · cases h
  next i hi =>
    split at h
    next hname =>
      refine ⟨i, hi, hname, ?_⟩
      unfold Catalog.reply at h
      split at h
      next writes hw =>
        cases h
        exact Or.inl ⟨hw, rfl⟩
      next failure hw =>
        cases h
        exact Or.inr ⟨failure, hw, rfl, rfl⟩
    · cases h

end MetadataArchive
