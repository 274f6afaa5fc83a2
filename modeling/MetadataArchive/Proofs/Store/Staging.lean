import MetadataArchive.Proofs.Collection.NameMap
import MetadataArchive.Store.Transaction

/-!
# What a transaction sees of what it staged

Each operation of a transaction sees the state before the transaction with all that was staged laid
over it. `writeAll` says what that is, key by key: the last write under a key counts. Under every
key there is a document of that key, and a scan meets just the documents that can be looked up
(`Source.Coherent`); both stay so while a transaction goes on.

`runOps_preserves` is the induction over the operations of a transaction, for whatever holds of the
staged writes and of the notes of functions.
-/

set_option autoImplicit false

namespace MetadataArchive

/-! ## Writes -/

/-- What there is under a key after a write to it. -/
def Write.doc? : Write → Option Document
  | .put d => some d
  | .evict _ => none

/-- Documents by key, after a write. -/
def Write.on (docs : DocId → Option Document) (w : Write) (id : DocId) : Option Document :=
  if id = w.id then w.doc? else docs id

def writeAll (docs : DocId → Option Document) (ws : List Write) : DocId → Option Document :=
  ws.foldl Write.on docs

section Writes

variable {docs : DocId → Option Document} {w : Write} {ws ws' : List Write} {id : DocId}
variable {d : Document}

theorem Write.on_self : w.on docs w.id = w.doc? := if_pos rfl

theorem Write.on_of_ne (h : id ≠ w.id) : w.on docs id = docs id := if_neg h

theorem writeAll_append : writeAll docs (ws ++ ws') = writeAll (writeAll docs ws) ws' :=
  List.foldl_append

theorem writeAll_concat : writeAll docs (ws ++ [w]) = w.on (writeAll docs ws) := writeAll_append

theorem writeAll_put {d : Document} (hid : d.id = id) : writeAll docs [.put d] id = some d := by
  rw [← hid]
  exact Write.on_self (w := .put d)

theorem writeAll_evict_self : writeAll docs [.evict id] id = none :=
  Write.on_self (w := .evict id)

theorem writeAll_of_forall_ne (h : ∀ w ∈ ws, id ≠ w.id) : writeAll docs ws id = docs id := by
  induction ws generalizing docs with
  | nil => rfl
  | cons w ws ih =>
    have hrest : writeAll (w.on docs) ws id = w.on docs id :=
      ih fun w' hw => h w' (List.mem_cons_of_mem _ hw)
    exact hrest.trans (Write.on_of_ne (h w (by simp)))

theorem writeAll_evict (ids : List DocId) :
    writeAll docs (ids.map .evict) id = if id ∈ ids then none else docs id := by
  induction ids generalizing docs with
  | nil => simp [writeAll]
  | cons k ids ih =>
    rw [List.map_cons, writeAll, List.foldl_cons, ← writeAll, ih]
    by_cases hk : id = k
    · simp [hk, Write.on, Write.id, Write.doc?]
    · simp [hk, Write.on, Write.id]

/-- Where nothing is put under a key, there is what there was or nothing. -/
theorem writeAll_of_not_put (h : ∀ d, .put d ∈ ws → d.id ≠ id) :
    writeAll docs ws id = docs id ∨ writeAll docs ws id = none := by
  induction ws generalizing docs with
  | nil => exact Or.inl rfl
  | cons w ws ih =>
    have hrest : writeAll (w.on docs) ws id = w.on docs id ∨ writeAll (w.on docs) ws id = none :=
      ih fun d hd => h d (List.mem_cons_of_mem _ hd)
    have hfirst : w.on docs id = docs id ∨ w.on docs id = none := by
      by_cases hid : id = w.id
      · cases w with
        | put d => exact absurd hid.symm (h d (by simp))
        | evict id' => exact Or.inr (if_pos hid)
      · exact Or.inl (Write.on_of_ne hid)
    rcases hrest with hrest | hrest
    · exact hfirst.imp hrest.trans hrest.trans
    · exact Or.inr hrest

/-- What holds of all documents and of those that are put holds of all documents afterwards. -/
theorem forall_writeAll {P : Document → Prop} (h : ∀ id d, docs id = some d → P d)
    (hws : ∀ d, .put d ∈ ws → P d) : ∀ id d, writeAll docs ws id = some d → P d := by
  induction ws generalizing docs with
  | nil => exact h
  | cons w ws ih =>
    refine ih (fun id d hd => ?_) fun d hd => hws d (List.mem_cons_of_mem _ hd)
    unfold Write.on at hd
    split at hd
    · cases w with
      | put d' =>
        cases hd
        exact hws d (by simp)
      | evict id' => cases hd
    · exact h id d hd

end Writes

/-! ## Staged writes -/

/-- Under every key a source has a document of that key, and a scan meets just these. -/
structure Source.Coherent (src : Source) : Prop where
  keyed : ∀ id d, src.document? id = some d → d.id = id
  listed : ∀ d, d ∈ src.documents ↔ src.document? d.id = some d

theorem Source.coherent_ofList (docs : List Document) : (Source.ofList docs).Coherent := by
  have hkeyed (id : DocId) (d : Document) (h : (ofList docs).document? id = some d) : d.id = id := by
    have hmem : (id, d) ∈ docs.map fun d => (d.id, d) := NameMap.mem_ofList_of_get? h
    obtain ⟨_, -, heq⟩ := List.mem_map.1 hmem
    cases heq
    rfl
  refine ⟨hkeyed, fun d => NameMap.mem_values.trans ⟨?_, fun h => ⟨d.id, h⟩⟩⟩
  rintro ⟨id, h⟩
  rwa [hkeyed id d h]

namespace Staged

/-- Documents are staged under their own keys. -/
def Keyed (s : Staged) : Prop := ∀ id d, s.get? id = some (some d) → d.id = id

variable {s : Staged} {base : Source}

theorem keyed_empty : Keyed ∅ := fun _ _ h => by cases h

theorem get?_apply (s : Staged) (w : Write) (id : DocId) :
    (s.apply w).get? id = if id = w.id then some w.doc? else s.get? id := by
  cases w <;> exact NameMap.get?_insert s _ id _

theorem Keyed.apply (h : s.Keyed) (w : Write) : (s.apply w).Keyed := by
  intro id d hd
  rw [get?_apply] at hd
  split at hd
  next hid =>
    cases w with
    | put doc =>
      cases hd
      exact hid.symm
    | evict k => cases hd
  next => exact h id d hd

theorem Keyed.applyAll (h : s.Keyed) (ws : List Write) : (ws.foldl Staged.apply s).Keyed := by
  induction ws generalizing s with
  | nil => exact h
  | cons w ws ih => exact ih (h.apply w)

theorem laidOver_empty (base : Source) : laidOver ∅ base = base := by
  have hdocuments : (laidOver ∅ base).documents = base.documents := by
    have hnone (id : DocId) : (∅ : Staged).contains id = false := rfl
    have hvalues : (∅ : Staged).values = [] := rfl
    simp [laidOver, hnone, hvalues]
  cases base
  simpa only [laidOver, Source.mk.injEq] using ⟨rfl, hdocuments⟩

theorem laidOver_apply (s : Staged) (w : Write) (base : Source) :
    ((s.apply w).laidOver base).document? = w.on (s.laidOver base).document? := by
  funext id
  simp only [laidOver, get?_apply, Write.on]
  by_cases h : id = w.id
  · rw [if_pos h, if_pos h]
  · rw [if_neg h, if_neg h]

/-- **Writes show in the order in which they were staged.** -/
theorem laidOver_applyAll (s : Staged) (ws : List Write) (base : Source) :
    ((ws.foldl Staged.apply s).laidOver base).document? =
      writeAll (s.laidOver base).document? ws := by
  induction ws generalizing s with
  | nil => rfl
  | cons w ws ih => rw [List.foldl_cons, ih, laidOver_apply]; rfl

theorem coherent_laidOver (h : s.Keyed) (hbase : base.Coherent) : (s.laidOver base).Coherent := by
  constructor
  · intro id d hd
    simp only [laidOver] at hd
    cases hg : s.get? id with
    | none =>
      rw [hg] at hd
      exact hbase.keyed id d hd
    | some o =>
      rw [hg] at hd
      dsimp only at hd
      subst hd
      exact h id d hg
  · intro d
    simp only [laidOver, List.mem_append, List.mem_filter, List.mem_filterMap, hbase.listed,
      NameMap.mem_values, NameMap.contains]
    constructor
    -- A scan meets what is staged, and of the rest what is not overwritten.
    · rintro (⟨hd, hnot⟩ | ⟨o, ⟨id, hid⟩, rfl⟩)
      · cases hg : s.get? d.id with
        | none => exact hd
        | some o => simp [hg] at hnot
      · rw [h id d hid, hid]
    · intro hd
      cases hg : s.get? d.id with
      | none =>
        rw [hg] at hd
        exact Or.inl ⟨hd, by simp⟩
      | some o =>
        rw [hg] at hd
        exact Or.inr ⟨o, ⟨d.id, hg⟩, hd⟩

end Staged

/-! ## Operations -/

section Operations

variable {ν : Type} {functions : List (TxFunction ν)} {tx : TxId} {time : Instant} {base : Source}

/-- What every write and every call keeps holds of what a transaction has staged in the end, and
what holds of each call's note of all notes, also where the transaction is aborted. -/
theorem runOps_preserves {P : Staged → Prop} {Q : ν → Prop} {ops : List TxOp}
    (hwrite : ∀ s w, .write w ∈ ops → P s → P (s.apply w))
    (hcall : ∀ name args, .call name args ∈ ops →
      ∀ f ∈ functions, f.name = name → ∀ s ws note, P s →
        f.run ⟨tx, time, s.laidOver base⟩ args = .writes ws note →
          P (ws.foldl Staged.apply s) ∧ ∀ n ∈ note, Q n)
    {staged : Staged} (hP : P staged) :
    (∀ result, (runOps functions tx time base staged ops).1 = .ok result → P result) ∧
      ∀ n ∈ (runOps functions tx time base staged ops).2, Q n := by
  induction ops generalizing staged with
  | nil => exact ⟨fun result h => Except.ok.inj h ▸ hP, by simp [runOps]⟩
  | cons op ops ih =>
    have hwrites := fun s w hw => hwrite s w (List.mem_cons_of_mem op hw)
    have hcalls := fun name args hc => hcall name args (List.mem_cons_of_mem op hc)
    cases op with
    | write w => exact ih hwrites hcalls (hwrite staged w (by simp) hP)
    | call name args =>
      simp only [runOps]
      cases hf : functions.find? fun f => f.name == name with
      | none => exact ⟨fun _ h => (by cases h), by simp⟩
      | some f =>
        have hmem : f ∈ functions := List.mem_of_find?_eq_some hf
        have hname : f.name = name := by simpa using List.find?_some hf
        dsimp only
        cases hrun : f.run ⟨tx, time, staged.laidOver base⟩ args with
        | panic message => exact ⟨fun _ h => (by cases h), by simp⟩
        | fault reason => exact ⟨fun _ h => (by cases h), by simp⟩
        | writes ws note =>
          -- The note of this call comes before those of the operations behind it.
          obtain ⟨hP', hQ⟩ := hcall name args (by simp) f hmem hname staged ws note hP hrun
          obtain ⟨hresult, hnotes⟩ := ih hwrites hcalls hP'
          refine ⟨hresult, fun n hn => ?_⟩
          rcases List.mem_append.1 hn with hn | hn
          · exact hQ n (by simpa using hn)
          · exact hnotes n hn

/-- Writes are staged one after the other, and cannot fail. -/
theorem runOps_writes (ws : List Write) (staged : Staged) :
    runOps functions tx time base staged (ws.map .write) =
      (.ok (ws.foldl Staged.apply staged), []) := by
  induction ws generalizing staged with
  | nil => rfl
  | cons w ws ih => exact ih (staged.apply w)

end Operations

end MetadataArchive
