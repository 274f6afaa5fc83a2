import Mathlib.Data.List.Forall2
import MetadataArchive.Lifecycle.Rule
import MetadataArchive.Search.Error

/-!
# Where a computation that may fail ends

Two questions are asked of every `do` block here, and each is answered step by step. What was there
when it succeeded: `bind_eq_ok` opens it at a step, and lifting a step to failures changes nothing
about success. And whether it can fail in a certain way: `Avoids` is closed under every step.

The one way of failing that matters is that of a relationship with an end that leads nowhere. No
rule and no store ends in it.
-/

set_option autoImplicit false

namespace MetadataArchive

variable {ε ε' α β : Type} {x : Except ε α} {f : α → Except ε β} {a : α} {b : β} {e : ε}

/-! ## Success -/

theorem ok_bind (a : α) (f : α → Except ε β) : Except.ok a >>= f = f a := rfl

theorem bind_eq_ok : x >>= f = .ok b ↔ ∃ a, x = .ok a ∧ f a = .ok b := by
  cases x <;> simp [bind, Except.bind]

theorem bind_eq_error :
    x >>= f = .error e ↔ x = .error e ∨ ∃ a, x = .ok a ∧ f a = .error e := by
  cases x <;> simp [bind, Except.bind]

theorem pure_eq_ok {a' : α} : (pure a : Except ε α) = .ok a' ↔ a = a' := by
  simp [pure, Except.pure]

theorem throw_eq_ok : (throw e : Except ε α) = .ok a ↔ False := by
  simp [throw, throwThe, MonadExceptOf.throw]

theorem map_eq_ok {g : α → β} : x.map g = .ok b ↔ ∃ a, x = .ok a ∧ g a = b := by
  cases x <;> simp [Except.map]

theorem eq_ok_of_toOption (h : x.toOption = some a) : x = .ok a := by
  cases x with
  | ok _ => exact congrArg Except.ok (Option.some.inj h)
  | error _ => cases h

/-- Where trying it out shows success, the outcome is what was found. -/
theorem eq_ok_of_isSome (h : x.toOption.isSome = true) (a : α) : x = .ok (x.toOption.getD a) := by
  cases x with
  | ok _ => rfl
  | error _ => cases h

theorem mapError_ok (g : ε → ε') (a : α) : (Except.ok a : Except ε α).mapError g = .ok a := rfl

theorem mapError_error (g : ε → ε') (e : ε) :
    (Except.error e : Except ε α).mapError g = .error (g e) := rfl

theorem mapError_eq_ok {g : ε → ε'} : x.mapError g = .ok a ↔ x = .ok a := by
  cases x <;> simp [mapError_ok, mapError_error]

theorem liftM_record_eq_ok {x : Except RecordError α} :
    (liftM x : Except Failure α) = .ok a ↔ x = .ok a := by
  cases x <;> simp [liftM, monadLift, MonadLift.monadLift, mapError_ok, mapError_error]

theorem liftM_store_eq_ok {x : Except StoreError α} :
    (liftM x : Except Failure α) = .ok a ↔ x = .ok a := by
  cases x <;> simp [liftM, monadLift, MonadLift.monadLift, mapError_ok, mapError_error]

theorem liftM_rejection_eq_ok {x : Except Rejection α} :
    (liftM x : Except Failure α) = .ok a ↔ x = .ok a := by
  cases x <;> simp [liftM, monadLift, MonadLift.monadLift, mapError_ok, mapError_error]

/-- A list is made out of other things where each of its members is. -/
theorem mapM_map_eq_ok {g : β → α} {f : α → Except ε β} {xs : List β} :
    (xs.map g).mapM f = .ok xs ↔ ∀ x ∈ xs, f (g x) = .ok x := by
  induction xs with
  | nil => simp [pure_eq_ok]
  | cons x xs ih =>
    rw [List.map_cons, List.mapM_cons, bind_eq_ok, List.forall_mem_cons, ← ih]
    constructor
    · rintro ⟨y, hy, h⟩
      obtain ⟨ys, hys, h⟩ := bind_eq_ok.1 h
      obtain ⟨rfl, rfl⟩ := List.cons.inj (pure_eq_ok.1 h)
      exact ⟨hy, hys⟩
    · rintro ⟨hx, hxs⟩
      exact ⟨x, hx, bind_eq_ok.2 ⟨xs, hxs, rfl⟩⟩

/-- Each member of a list that is made is made of the thing in its place. -/
theorem mapM_eq_ok_iff {f : α → Except ε β} {xs : List α} {ys : List β} :
    xs.mapM f = .ok ys ↔ List.Forall₂ (fun x y => f x = .ok y) xs ys := by
  induction xs generalizing ys with
  | nil => rw [List.mapM_nil, pure_eq_ok, List.forall₂_nil_left_iff, eq_comm]
  | cons x xs ih =>
    rw [List.mapM_cons, bind_eq_ok, List.forall₂_cons_left_iff]
    constructor
    · rintro ⟨y, hy, h⟩
      obtain ⟨ys', hys, h⟩ := bind_eq_ok.1 h
      exact ⟨y, ys', hy, ih.1 hys, (pure_eq_ok.1 h).symm⟩
    · rintro ⟨y, ys', hy, hys, rfl⟩
      exact ⟨y, hy, bind_eq_ok.2 ⟨ys', ih.2 hys, rfl⟩⟩

/-- A list is made where each of its members is. -/
theorem exists_mapM_eq_ok_iff {f : α → Except ε β} {xs : List α} :
    (∃ ys, xs.mapM f = .ok ys) ↔ ∀ x ∈ xs, ∃ y, f x = .ok y := by
  induction xs with
  | nil => simp [pure_eq_ok]
  | cons x xs ih =>
    rw [List.forall_mem_cons, ← ih]
    simp only [List.mapM_cons, bind_eq_ok, pure_eq_ok]
    constructor
    · rintro ⟨_, y, hy, ys, hys, -⟩
      exact ⟨⟨y, hy⟩, ys, hys⟩
    · rintro ⟨⟨y, hy⟩, ys, hys⟩
      exact ⟨_, y, hy, ys, hys, rfl⟩

/-- A list is not made where one of its members is not. -/
theorem mapM_error {f : α → Except ε β} {xs : List α} (h : xs.mapM f = .error e) :
    ∃ x ∈ xs, f x = .error e := by
  induction xs with
  | nil => cases h
  | cons x xs ih =>
    rw [List.mapM_cons, bind_eq_error] at h
    rcases h with h | ⟨y, -, h⟩
    · exact ⟨x, List.mem_cons_self, h⟩
    · rcases bind_eq_error.1 h with h | ⟨ys, -, h⟩
      · obtain ⟨x', hx', he⟩ := ih h
        exact ⟨x', List.mem_cons_of_mem x hx', he⟩
      · cases h

/-- Each member of a list that was made comes from the thing in its place. -/
theorem getElem?_of_mapM {f : α → Except ε β} {xs : List α} {ys : List β} (h : xs.mapM f = .ok ys)
    {i : Nat} {y : β} (hy : ys[i]? = some y) : ∃ x, xs[i]? = some x ∧ f x = .ok y := by
  induction xs generalizing ys i with
  | nil =>
    cases h
    simp at hy
  | cons x xs ih =>
    rw [List.mapM_cons] at h
    obtain ⟨z, hz, h⟩ := bind_eq_ok.1 h
    obtain ⟨zs, hzs, h⟩ := bind_eq_ok.1 h
    cases h
    cases i with
    | zero =>
      rw [List.getElem?_cons_zero, Option.some.injEq] at hy
      exact ⟨x, rfl, hy ▸ hz⟩
    | succ i => exact ih hzs hy

theorem exists_of_mapM {f : α → Except ε β} {xs : List α} {ys : List β} (h : xs.mapM f = .ok ys)
    {y : β} (hy : y ∈ ys) : ∃ x ∈ xs, f x = .ok y := by
  obtain ⟨i, hi⟩ := List.getElem?_of_mem hy
  obtain ⟨x, hx, hfx⟩ := getElem?_of_mapM h hi
  exact ⟨x, List.mem_of_getElem? hx, hfx⟩

/-- Each thing has been made into a member of the list. -/
theorem exists_of_mem_mapM {f : α → Except ε β} {xs : List α} {ys : List β}
    (h : xs.mapM f = .ok ys) {x : α} (hx : x ∈ xs) : ∃ y ∈ ys, f x = .ok y := by
  induction xs generalizing ys with
  | nil => cases hx
  | cons z xs ih =>
    rw [List.mapM_cons] at h
    obtain ⟨y, hy, h⟩ := bind_eq_ok.1 h
    obtain ⟨ys', hys, h⟩ := bind_eq_ok.1 h
    cases h
    rcases List.mem_cons.1 hx with rfl | hx
    · exact ⟨y, List.mem_cons_self, hy⟩
    · obtain ⟨w, hw, hfw⟩ := ih hys hx
      exact ⟨w, List.mem_cons_of_mem y hw, hfw⟩

theorem filterMapM_eq_ok {f : α → Except ε (Option β)} {g : α → Option β} {xs : List α}
    (h : ∀ x ∈ xs, f x = .ok (g x)) : xs.filterMapM f = .ok (xs.filterMap g) := by
  induction xs with
  | nil => rfl
  | cons x xs ih =>
    rw [List.filterMapM_cons, h x (by simp), ih fun y hy => h y (List.mem_cons_of_mem _ hy),
      List.filterMap_cons]
    cases g x <;> rfl

theorem exists_of_filterMapM_eq_ok {f : α → Except ε (Option β)} {xs : List α} {ys : List β}
    (h : xs.filterMapM f = .ok ys) {x : α} (hx : x ∈ xs) : ∃ o, f x = .ok o := by
  induction xs generalizing ys with
  | nil => cases hx
  | cons x' xs ih =>
    rw [List.filterMapM_cons] at h
    obtain ⟨o, ho, h⟩ := bind_eq_ok.1 h
    rcases List.mem_cons.1 hx with rfl | hx
    · exact ⟨o, ho⟩
    · cases o with
      | none => exact ih h hx
      | some y =>
        obtain ⟨ys', hys, -⟩ := bind_eq_ok.1 h
        exact ih hys hx

/-- What is kept of a list is made of one of its members. -/
theorem exists_of_mem_filterMapM {f : α → Except ε (Option β)} {xs : List α} {ys : List β}
    (h : xs.filterMapM f = .ok ys) {y : β} (hy : y ∈ ys) : ∃ x ∈ xs, f x = .ok (some y) := by
  induction xs generalizing ys with
  | nil =>
    cases h
    cases hy
  | cons x xs ih =>
    rw [List.filterMapM_cons] at h
    obtain ⟨o, ho, h⟩ := bind_eq_ok.1 h
    cases o with
    | none =>
      obtain ⟨x', hx', hmade⟩ := ih h hy
      exact ⟨x', List.mem_cons_of_mem x hx', hmade⟩
    | some z =>
      obtain ⟨ys', hys, heq⟩ := bind_eq_ok.1 h
      cases heq
      rcases List.mem_cons.1 hy with rfl | hy
      · exact ⟨x, List.mem_cons_self, ho⟩
      · obtain ⟨x', hx', hmade⟩ := ih hys hy
        exact ⟨x', List.mem_cons_of_mem x hx', hmade⟩

/-! ## Ways of failing -/

/-- If it fails, it fails in another way. -/
def Avoids (bad : ε → Prop) (x : Except ε α) : Prop := ∀ e, x = .error e → ¬ bad e

section Avoids

variable {bad : ε → Prop}

@[simp] theorem avoids_ok : Avoids bad (.ok a : Except ε α) := fun _ h => by cases h

@[simp] theorem avoids_pure : Avoids bad (pure a : Except ε α) := avoids_ok

@[simp] theorem avoids_error : Avoids bad (.error e : Except ε α) ↔ ¬ bad e :=
  ⟨fun h => h e rfl, fun h _ he => by cases he; exact h⟩

@[simp] theorem avoids_throw : Avoids bad (throw e : Except ε α) ↔ ¬ bad e := avoids_error

@[simp] theorem avoids_bind :
    Avoids bad (x >>= f) ↔ Avoids bad x ∧ ∀ a, x = .ok a → Avoids bad (f a) := by
  cases x with
  | ok a => simp [bind, Except.bind]
  | error e => simp [bind, Except.bind]

@[simp] theorem avoids_map {g : α → β} : Avoids bad (x.map g) ↔ Avoids bad x := by
  cases x <;> simp [Except.map]

@[simp] theorem avoids_fmap {g : α → β} : Avoids bad (g <$> x) ↔ Avoids bad x := avoids_map

theorem avoids_mapError {bad : ε' → Prop} {g : ε → ε'} :
    Avoids bad (x.mapError g) ↔ Avoids (fun e => bad (g e)) x := by
  cases x <;> simp [mapError_ok, mapError_error]

theorem avoids_mapM {f : α → Except ε β} (hf : ∀ a, Avoids bad (f a)) (xs : List α) :
    Avoids bad (xs.mapM f) := by
  induction xs with
  | nil => simp
  | cons x xs ih => simp [List.mapM_cons, hf, ih]

theorem avoids_foldlM {f : β → α → Except ε β} (hf : ∀ b a, Avoids bad (f b a)) (xs : List α)
    (b : β) : Avoids bad (xs.foldlM f b) := by
  induction xs generalizing b with
  | nil => simp
  | cons x xs ih => simp [List.foldlM_cons, hf, ih]

theorem avoids_filterMapM {f : α → Except ε (Option β)} (hf : ∀ a, Avoids bad (f a))
    (xs : List α) : Avoids bad (xs.filterMapM f) := by
  induction xs with
  | nil => simp
  | cons x xs ih =>
    rw [List.filterMapM_cons, avoids_bind]
    refine ⟨hf x, fun o _ => ?_⟩
    cases o with
    | none => exact ih
    | some b => simpa using ih

/-- What never happens is avoided. -/
theorem avoids_of_forall (h : ∀ e, ¬ bad e) : Avoids bad x := fun e _ => h e

end Avoids

/-! ## Ends that lead nowhere -/

/-- An end of a relationship leads nowhere. -/
def RecordError.Dangling : RecordError → Prop
  | .inconsistentRelationship _ _ => True
  | _ => False

/-- The failure is that of a relationship with an end that leads nowhere. -/
def Failure.Dangling (f : Failure) : Prop := f.kind = .inconsistentRelationship

theorem dangling_ofRecord {e : RecordError} : (Failure.ofRecord e).Dangling ↔ e.Dangling := by
  cases e <;> simp [Failure.Dangling, Failure.ofRecord, RecordError.Dangling]

theorem not_dangling_ofStore (e : StoreError) : ¬ (Failure.ofStore e).Dangling := by
  cases e <;> simp [Failure.Dangling, Failure.ofStore]

@[simp] theorem not_dangling_toFailure (r : Rejection) : ¬ r.toFailure.Dangling := by
  cases r <;> simp [Failure.Dangling, Rejection.toFailure, Rejection.kind]

@[simp] theorem avoids_liftM_record {x : Except RecordError α} :
    Avoids Failure.Dangling (liftM x : Except Failure α) ↔ Avoids RecordError.Dangling x := by
  cases x with
  | ok a => exact iff_of_true avoids_ok avoids_ok
  | error e =>
    show Avoids Failure.Dangling (.error (Failure.ofRecord e) : Except Failure α) ↔ _
    rw [avoids_error, avoids_error, dangling_ofRecord]

@[simp] theorem avoids_liftM_store (x : Except StoreError α) :
    Avoids Failure.Dangling (liftM x : Except Failure α) :=
  avoids_mapError.2 (avoids_of_forall not_dangling_ofStore)

@[simp] theorem avoids_liftM_rejection (x : Except Rejection α) :
    Avoids Failure.Dangling (liftM x : Except Failure α) :=
  avoids_mapError.2 (avoids_of_forall not_dangling_toFailure)

end MetadataArchive
