import Mathlib
import MetadataArchive.Proofs.Query.Enumeration
import MetadataArchive.Proofs.Store.Sequence

/-!
# What a transaction asks is answered as afterwards

While a transaction runs, a query is asked of what was staged, laid over the latest state; once it
is committed, of the latest state. These have the same documents. They list them in different
orders, for a scan of the former meets the staged documents last.
-/

set_option autoImplicit false

namespace MetadataArchive

variable {ν : Type} {functions : List (TxFunction ν)} {tx : TxId} {time now : Instant}
variable {base : Source} {ops : List TxOp} {staged : Staged} {s : Store} {l : Ledger}

theorem keyed_of_runOps (h : (runOps functions tx time base ∅ ops).1 = .ok staged) :
    staged.Keyed := by
  have hkeeps : ∀ result, (runOps functions tx time base ∅ ops).1 = .ok result → result.Keyed :=
    (runOps_preserves (Q := fun _ => True) (fun _ w _ hs => hs.apply w)
      (fun _ _ _ _ _ _ _ ws _ hs _ => ⟨hs.applyAll ws, fun _ _ => trivial⟩)
      Staged.keyed_empty).1
  exact hkeeps staged h

/-- What is staged, laid over the latest state, has the documents of the state after the commit. -/
theorem Tracks.twins_of_commit (h : Tracks s l) (hkeyed : l.Keyed)
    (hrun : (runOps functions ⟨s.lastTx + 1⟩ (s.nextTime now) s.latest ∅ ops).1 = .ok staged)
    (hexact : ∀ id d, (staged.laidOver s.latest).document? id = some d → d.Exact) :
    (staged.laidOver s.latest).Twins (s.submit functions now ops).2.2.latest where
  coherent := by
    refine Staged.coherent_laidOver (keyed_of_runOps hrun) ?_
    rw [h.latest_eq]
    exact Ledger.coherent_latest hkeyed
  coherent' := by
    rw [(h.submit functions now ops).2.2.latest_eq]
    exact Ledger.coherent_latest (hkeyed.submit functions now ops)
  shows := (h.latest_of_commit hrun).symm
  exact := hexact

/-- **A query inside a transaction is answered as after its commit.** Whatever was stored and
whatever is staged, on it a query without a deadline fails just if it fails on the state that is
committed, and else both give the same rows in the same order, as long as there are no doubles. -/
theorem staged_answers_are_committed (capacity : Nat) (events : List (StoreEvent ν))
    (functions : List (TxFunction ν)) (now : Instant) (ops : List TxOp) (staged : Staged) (q : Query)
    (hrun : let s := (Store.empty capacity).run events
      (runOps functions ⟨s.lastTx + 1⟩ (s.nextTime now) s.latest ∅ ops).1 = .ok staged)
    (hdocs : ∀ id d, (staged.laidOver ((Store.empty capacity).run events).latest).document? id =
      some d → d.Exact)
    (hquery : ∀ v ∈ Clause.constantsAll q.clauses, v.isExact = true) (htime : q.timeout = none)
    (rows : Rows) :
    q.evaluate (staged.laidOver ((Store.empty capacity).run events).latest) = .ok rows ↔
      q.evaluate (((Store.empty capacity).run events).submit functions now ops).2.2.latest =
        .ok rows := by
  have htracks := (Tracks.empty capacity).run events
  have hkeyed := Ledger.keyed_empty.run events
  refine Query.evaluate_congr (htracks.twins_of_commit hkeyed hrun hdocs) ?_ hquery rows
  rw [htime]
  rintro ⟨⟩

/-- A name that is put and one that is there already, in the order of the names. -/
theorem staged_name_is_answered_and_committed :
    let named (id : DocId) (name : String) := (Document.ofId id).set "name" (.str name)
    let put : List (StoreEvent Unit) :=
      [.submit [] ⟨0, 0⟩ [.write (.put (named "e:1" "a")), .write (.put (named "e:2" "b"))]]
    let functions : List (TxFunction Unit) := []
    let s := (Store.empty 1).run put
    let ops : List TxOp := [.write (.put (named "e:1" "c")), .write (.evict "e:3")]
    let q : Query := ⟨["?n"], [.attrBind "?e" "name" "?n"], [⟨"?n", .asc⟩], 0, none, none⟩
    let rows : Rows := ⟨["?n"], [[.str "b"], [.str "c"]]⟩
    ∃ staged, (runOps functions ⟨s.lastTx + 1⟩ (s.nextTime ⟨0, 0⟩) s.latest ∅ ops).1 = .ok staged ∧
      q.evaluate (staged.laidOver s.latest) = .ok rows ∧
      q.evaluate (s.submit functions ⟨0, 0⟩ ops).2.2.latest = .ok rows := by
  intro named put functions s ops q rows
  let staged : Staged := ((∅ : Staged).apply (.put (named "e:1" "c"))).apply (.evict "e:3")
  have hanswer : q.evaluate (staged.laidOver s.latest) = .ok rows := by cbv
  have hrun : (runOps functions ⟨s.lastTx + 1⟩ (s.nextTime ⟨0, 0⟩) s.latest ∅ ops).1 =
      .ok staged := rfl
  have hbase : s.latest.Coherent :=
    (Store.latest_of_run (P := fun _ => True) (Q := fun _ => True) 1
      (by simp [put, StoreEvent.Keeps]) trivial).1
  have hcoherent := Staged.coherent_laidOver (keyed_of_runOps hrun) hbase
  have hnamed (id : DocId) (name : String) : (named id name).Exact := by
    intro attr v hv
    simp only [named, Document.set, Document.get?, Document.ofId, NameMap.get?_insert] at hv
    split at hv
    · cases hv
      rfl
    · cases hv
  have hdocs : ∀ id d, (staged.laidOver s.latest).document? id = some d → d.Exact := by
    intro id d hd
    have hall : (staged.laidOver s.latest).documents = [named "e:2" "b", named "e:1" "c"] := by
      cbv
    have hlisted : d ∈ [named "e:2" "b", named "e:1" "c"] :=
      hall ▸ (hcoherent.listed d).2 ((hcoherent.keyed id d hd).symm ▸ hd)
    simp only [List.mem_cons, List.not_mem_nil, or_false] at hlisted
    rcases hlisted with rfl | rfl
    · exact hnamed _ _
    · exact hnamed _ _
  exact ⟨staged, hrun, hanswer,
    (staged_answers_are_committed 1 put functions ⟨0, 0⟩ ops staged q hrun hdocs
      (by simp [q, Clause.attrBind, Clause.constantsAll, Clause.constants, Term.constants]) rfl
      rows).1 hanswer⟩

end MetadataArchive
