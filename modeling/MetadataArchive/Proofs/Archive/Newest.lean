import Mathlib.Data.List.MinMax
import MetadataArchive.Proofs.Archive.Deletion

/-!
# The newest of the copies

Copies of one thing come in whatever order, and in between there are requests about other records.
What stays is the newest copy, which is the first of those with the highest version
(`newest_eq_argmax`), as long as all versions can be kept. `Copying` says what it takes for one kind
of copies that each step keeps this; a whole run then keeps it (`Copying.keepsNewest`).
-/

set_option autoImplicit false

namespace MetadataArchive

variable {α : Type} {ts : TypeSystem} {r : RecordRef} {version : α → UInt64}

/-! ## Versions -/

/-- Of copies in the order they come the one that stays: another takes its place only if it has a
higher version than the one that is kept of it. -/
def newest (version : α → UInt64) (xs : List α) : Option α :=
  xs.foldl (List.argAux fun x current => keptVersion (version current) < version x) none

/-- A copy comes too late to take the place of the one that stays. -/
def IsLate (version : α → UInt64) (current : Option α) (x : α) : Prop :=
  ∃ c, current = some c ∧ version x ≤ keptVersion (version c)

theorem newest_concat (xs : List α) (x : α) :
    newest version (xs ++ [x]) =
      match newest version xs with
      | none => some x
      | some c => if keptVersion (version c) < version x then some x else some c := by
  unfold newest
  rw [List.foldl_append, List.foldl_cons, List.foldl_nil]
  unfold List.argAux
  split <;> simp [*]

theorem newest_concat_of_late {xs : List α} {x : α} (h : IsLate version (newest version xs) x) :
    newest version (xs ++ [x]) = newest version xs := by
  obtain ⟨c, hc, hlate⟩ := h
  rw [newest_concat, hc]
  exact if_neg (UInt64.not_lt.2 hlate)

theorem newest_concat_of_not_late {xs : List α} {x : α}
    (h : ¬ IsLate version (newest version xs) x) : newest version (xs ++ [x]) = some x := by
  rw [newest_concat]
  cases hc : newest version xs with
  | none => rfl
  | some c => exact if_pos (UInt64.not_le.1 fun hlate => h ⟨c, hc, hlate⟩)

/-- **The newest copy** has the highest version, and is the first that has, as long as all versions
can be kept. -/
theorem newest_eq_argmax {xs : List α} (h : ∀ x ∈ xs, (version x).toNat < 2 ^ 63) :
    newest version xs = xs.argmax fun x => (version x).toNat := by
  induction xs using List.reverseRecOn with
  | nil => rfl
  | append_singleton xs x ih =>
    have hbefore : ∀ c ∈ xs, (version c).toNat < 2 ^ 63 := fun c hc =>
      h c (List.mem_append_left _ hc)
    rw [newest_concat, List.argmax_concat, ih hbefore]
    cases hc : xs.argmax fun x => (version x).toNat with
    | none => rfl
    | some c =>
      have hkept : keptVersion (version c) = version c := by
        rw [keptVersion_eq, if_pos (hbefore c (List.argmax_mem hc))]
      simp only [hkept, UInt64.lt_iff_toNat_lt]

/-- Then a copy is late where it is no newer than one that came before. -/
theorem isLate_newest_iff {xs : List α} {x : α} (h : ∀ y ∈ xs, (version y).toNat < 2 ^ 63) :
    IsLate version (newest version xs) x ↔ ∃ y ∈ xs, version x ≤ version y := by
  have hkept {y : α} (hy : y ∈ xs) : keptVersion (version y) = version y := by
    rw [keptVersion_eq, if_pos (h y hy)]
  rw [IsLate, newest_eq_argmax h]
  constructor
  · rintro ⟨c, hc, hlate⟩
    have hmem := List.argmax_mem hc
    exact ⟨c, hmem, hkept hmem ▸ hlate⟩
  · rintro ⟨y, hy, hle⟩
    cases hc : xs.argmax fun x => (version x).toNat with
    | none => cases List.argmax_eq_none.1 hc ▸ hy
    | some c =>
      have hmax : (version y).toNat ≤ (version c).toNat :=
        List.le_of_mem_argmax (f := fun x => (version x).toNat) hy hc
      refine ⟨c, rfl, ?_⟩
      rw [hkept (List.argmax_mem hc)]
      exact UInt64.le_trans hle (UInt64.le_iff_toNat_le.2 hmax)

/-! ## Runs -/

/-- The store goes on and receives copies of a thing that is stored with a record, and all else that
happens is about other records. It neither brings the record in nor takes it away, as a proxy is
brought in for a relationship, and a relationship is taken away with one of its ends. -/
inductive Store.Receives (ts : TypeSystem) (r : RecordRef)
    (Brings : Store → Invocation → α → Prop) : Store → List (StoreEvent Failure) → List α → Prop
  | nil {s : Store} : Receives ts r Brings s [] []
  | copy {s : Store} {now : Instant} {op : TxOp} {i : Invocation} {x : α}
      {events : List (StoreEvent Failure)} {xs : List α} (calls : op.Calls i)
      (brings : Brings s i x)
      (rest : Receives ts r Brings (s.step (.submit (Catalog.functions ts) now [op])) events xs) :
      Receives ts r Brings s (.submit (Catalog.functions ts) now [op] :: events) (x :: xs)
  | other {s : Store} {ev : StoreEvent Failure} {events : List (StoreEvent Failure)} {xs : List α}
      (spares : ev.Spares ts r s)
      (present : (s.step ev).latest.document? r.docId = none ↔ s.latest.document? r.docId = none)
      (rest : Receives ts r Brings (s.step ev) events xs) :
      Receives ts r Brings s (ev :: events) xs

/-- After whatever copies, the store shows the newest of them; every copy is accepted, and one that
comes too late writes nothing. -/
def Store.KeepsNewest (s : Store) (ts : TypeSystem) (r : RecordRef)
    (Brings : Store → Invocation → α → Prop) (version : α → UInt64) (Shows : Source → α → Prop) :
    Prop :=
  ∀ events xs, s.Receives ts r Brings events xs →
    let s' := s.run events
    (∀ x, newest version xs = some x → Shows s'.latest x) ∧
    ∀ (now : Instant) (op : TxOp) (i : Invocation) (x : α), op.Calls i → Brings s' i x →
      s'.accepts (Catalog.functions ts) now [op] = true ∧
      (IsLate version (newest version xs) x →
        (s'.outcome (Catalog.functions ts) now [op]).result = .committed 0 ∧
        (s'.step (.submit (Catalog.functions ts) now [op])).latest.document? = s'.latest.document?)

/-- What is held of the newest copy is held on by every step: a copy is accepted, writes nothing
where it is late and is held where it is not; and what is about other records leaves the document
alone, unless it brings the record in or takes it away. -/
structure Copying (ts : TypeSystem) (r : RecordRef) (Brings : Store → Invocation → α → Prop)
    (version : α → UInt64) (Holds : Option α → Option Document → Prop) : Prop where
  copy : ∀ {s : Store} {now : Instant} {op : TxOp} {i : Invocation} {current : Option α} {x : α},
    s.Reached → Holds current (s.latest.document? r.docId) → op.Calls i → Brings s i x →
    ∃ ws, i.request.carryOut (s.acting ts now i) = .ok ws ∧
      (IsLate version current x → ws = []) ∧
      (¬ IsLate version current x →
        Holds (some x) (writeAll s.latest.document? ws r.docId))
  other : ∀ {s : Store} {ev : StoreEvent Failure} {current : Option α} {d : Document}, s.Reached →
    s.latest.document? r.docId = some d → Holds current (some d) → ev.Spares ts r s →
    (s.step ev).latest.document? r.docId = some d ∨ (s.step ev).latest.document? r.docId = none

namespace Copying

variable {Brings : Store → Invocation → α → Prop} {Holds : Option α → Option Document → Prop}
variable {s : Store} {events : List (StoreEvent Failure)} {xs ys : List α}
variable {Shows : Source → α → Prop}

theorem holds_run (h : Copying ts r Brings version Holds) (hreached : s.Reached)
    (hreceives : s.Receives ts r Brings events xs)
    (hheld : Holds (newest version ys) (s.latest.document? r.docId)) :
    Holds (newest version (ys ++ xs)) ((s.run events).latest.document? r.docId) := by
  induction hreceives generalizing ys with
  | nil =>
    rw [List.append_nil]
    exact hheld
  | @copy s now op i x events xs calls brings rest ih =>
    have hstep : Holds (newest version (ys ++ [x]))
        ((s.step (.submit (Catalog.functions ts) now [op])).latest.document? r.docId) := by
      obtain ⟨ws, hcarry, hlate, hnew⟩ := h.copy hreached hheld calls brings
      rcases hreached.calls calls ts now with ⟨ws', hcarry', -, hlatest, -⟩ | ⟨⟨_, hfail⟩, -, -⟩
      · cases hcarry.symm.trans hcarry'
        rw [hlatest]
        by_cases hx : IsLate version (newest version ys) x
        · rw [newest_concat_of_late hx, hlate hx]
          exact hheld
        · rw [newest_concat_of_not_late hx]
          exact hnew hx
      · cases hcarry.symm.trans hfail
    have hrest := ih (hreached.step _) hstep
    rwa [List.append_assoc] at hrest
  | @other s ev events xs spares present rest ih =>
    refine ih (hreached.step _) ?_
    cases hd : s.latest.document? r.docId with
    | none =>
      rw [present.2 hd, ← hd]
      exact hheld
    | some d =>
      rcases h.other hreached hd (hd ▸ hheld) spares with hsame | hgone
      · rw [hsame, ← hd]
        exact hheld
      · cases (present.1 hgone).symm.trans hd

/-- **What every step holds on to, a run holds on to.** -/
theorem keepsNewest (h : Copying ts r Brings version Holds) (hreached : s.Reached)
    (hstart : Holds none (s.latest.document? r.docId))
    (hshows : ∀ (s : Store) (x : α), s.Reached → Holds (some x) (s.latest.document? r.docId) →
      Shows s.latest x) :
    s.KeepsNewest ts r Brings version Shows := by
  intro events xs hreceives s'
  have hreached' : s'.Reached := hreached.run events
  have hempty : Holds (newest version []) (s.latest.document? r.docId) := hstart
  have hheld : Holds (newest version xs) (s'.latest.document? r.docId) :=
    h.holds_run hreached hreceives hempty
  refine ⟨fun x hx => hshows s' x hreached' (hx ▸ hheld), fun now op i x hop hbrings => ?_⟩
  obtain ⟨ws, hcarry, hlate, -⟩ := h.copy hreached' hheld hop hbrings
  rcases hreached'.calls hop ts now with
    ⟨ws', hcarry', haccepted, hlatest, hresult⟩ | ⟨⟨_, hfail⟩, -, -⟩
  · cases hcarry.symm.trans hcarry'
    refine ⟨haccepted, fun hx => ?_⟩
    rw [hlate hx] at hresult hlatest
    exact ⟨hresult, hlatest⟩
  · cases hcarry.symm.trans hfail

end Copying

end MetadataArchive
