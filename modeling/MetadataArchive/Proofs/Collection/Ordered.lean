import Mathlib.Data.List.Basic
import MetadataArchive.Collection.Ordered

/-!
# What ordering keeps, and what it orders

Both ways of ordering keep what they are given: sorting all of it, and taking equals once all of it
where only the same elements count as equal. Both order by what elements stand for, so that it makes
no difference whether that is put in their place before or afterwards.

A comparison that is an order gives a list that strictly ascends. Sorting asks less: where elements
that are not less than each other can be put in a row, what comes later is not less than what comes
before, and elements that are not told apart stay as they were.
-/

set_option autoImplicit false

namespace MetadataArchive.Ordered

variable {α : Type} {cmp : α → α → Ordering} {less : α → α → Bool} {x y : α} {xs : List α}

theorem mem_insertNew (heq : ∀ z ∈ xs, cmp x z = .eq → x = z) :
    y ∈ insertNew cmp x xs ↔ y = x ∨ y ∈ xs := by
  induction xs with
  | nil => simp [insertNew]
  | cons z xs ih =>
    have ih := ih fun w hw => heq w (List.mem_cons_of_mem _ hw)
    unfold insertNew
    split
    · simp
    next he =>
      have hxz : x = z := heq z (by simp) he
      simp [hxz]
    · rw [List.mem_cons, ih, List.mem_cons]
      tauto

/-- Nothing is made up, whatever counts as equal. -/
theorem of_mem_insertNew (h : y ∈ insertNew cmp x xs) : y = x ∨ y ∈ xs := by
  induction xs with
  | nil => simpa [insertNew] using h
  | cons z xs ih =>
    unfold insertNew at h
    split at h
    · simpa using h
    · exact Or.inr h
    · rcases List.mem_cons.1 h with rfl | h
      · exact Or.inr List.mem_cons_self
      · exact (ih h).imp_right (List.mem_cons_of_mem z)

theorem of_mem_distinct (h : y ∈ distinct cmp xs) : y ∈ xs := by
  have hacc : ∀ ys acc : List α, y ∈ ys.foldl (fun acc x => insertNew cmp x acc) acc →
      y ∈ ys ∨ y ∈ acc := by
    intro ys
    induction ys with
    | nil => exact fun acc hy => Or.inr hy
    | cons x ys ih =>
      intro acc hy
      rcases ih _ hy with hy | hy
      · exact Or.inl (List.mem_cons_of_mem _ hy)
      · rcases of_mem_insertNew hy with rfl | hy
        · exact Or.inl List.mem_cons_self
        · exact Or.inr hy
  simpa using hacc xs [] h

theorem mem_distinct (heq : ∀ x ∈ xs, ∀ z ∈ xs, cmp x z = .eq → x = z) :
    y ∈ distinct cmp xs ↔ y ∈ xs := by
  -- What was inserted already are elements of the whole list as well.
  have hacc : ∀ (ys acc : List α), (∀ x ∈ ys, x ∈ xs) → (∀ x ∈ acc, x ∈ xs) →
      (y ∈ ys.foldl (fun acc x => insertNew cmp x acc) acc ↔ y ∈ ys ∨ y ∈ acc) := by
    intro ys
    induction ys with
    | nil => simp
    | cons x ys ih =>
      intro acc hys hacc
      have hx : x ∈ xs := hys x (by simp)
      have hins (w : α) : w ∈ insertNew cmp x acc ↔ w = x ∨ w ∈ acc :=
        mem_insertNew fun z hz => heq x hx z (hacc z hz)
      rw [List.foldl_cons, ih _ (fun w hw => hys w (List.mem_cons_of_mem _ hw)), hins,
        List.mem_cons]
      · tauto
      · intro w hw
        rcases (hins w).1 hw with rfl | hw
        · exact hx
        · exact hacc w hw
  rw [distinct, hacc xs [] (fun _ h => h) (by simp)]
  simp

theorem insertDown_perm (x : α) (xs : List α) : (insertDown less x xs).Perm (x :: xs) := by
  induction xs with
  | nil => exact .refl _
  | cons y xs ih =>
    unfold insertDown
    split
    · exact (ih.cons y).trans (.swap x y xs)
    · exact .refl _

theorem sortStable_perm (xs : List α) : (sortStable less xs).Perm xs := by
  have hacc : ∀ ys acc : List α,
      (ys.foldl (fun acc x => insertDown less x acc) acc).Perm (ys ++ acc) := by
    intro ys
    induction ys with
    | nil => exact fun acc => .refl _
    | cons y ys ih =>
      intro acc
      refine (ih _).trans (((insertDown_perm y acc).append_left ys).trans ?_)
      exact List.perm_middle
  rw [sortStable]
  refine (List.reverse_perm _).trans ?_
  simpa using hacc xs []

theorem mem_insertDown : y ∈ insertDown less x xs ↔ y = x ∨ y ∈ xs := by
  rw [(insertDown_perm x xs).mem_iff, List.mem_cons]

theorem mem_sortStable : y ∈ sortStable less xs ↔ y ∈ xs := (sortStable_perm xs).mem_iff

/-! ## What elements stand for -/

section

variable {β : Type} (f : β → α) {cmp' : β → β → Ordering} {less' : β → β → Bool}

theorem insertNew_map (h : ∀ x y, cmp (f x) (f y) = cmp' x y) (x : β) (ys : List β) :
    insertNew cmp (f x) (ys.map f) = (insertNew cmp' x ys).map f := by
  induction ys with
  | nil => rfl
  | cons y ys ih =>
    rw [List.map_cons, insertNew, insertNew, h, ih]
    cases cmp' x y <;> rfl

theorem distinct_map (h : ∀ x y, cmp (f x) (f y) = cmp' x y) (xs : List β) :
    distinct cmp (xs.map f) = (distinct cmp' xs).map f := by
  have hacc : ∀ ys acc : List β,
      (ys.map f).foldl (fun acc x => insertNew cmp x acc) (acc.map f) =
        (ys.foldl (fun acc x => insertNew cmp' x acc) acc).map f := by
    intro ys
    induction ys with
    | nil => exact fun acc => rfl
    | cons y ys ih =>
      intro acc
      rw [List.map_cons, List.foldl_cons, List.foldl_cons, insertNew_map f h, ih]
  exact hacc xs []

theorem insertDown_map (h : ∀ x y, less (f x) (f y) = less' x y) (x : β) (ys : List β) :
    insertDown less (f x) (ys.map f) = (insertDown less' x ys).map f := by
  induction ys with
  | nil => rfl
  | cons y ys ih =>
    rw [List.map_cons, insertDown, insertDown, h, ih]
    cases less' x y <;> rfl

theorem sortStable_map (h : ∀ x y, less (f x) (f y) = less' x y) (xs : List β) :
    sortStable less (xs.map f) = (sortStable less' xs).map f := by
  have hacc : ∀ ys acc : List β,
      (ys.map f).foldl (fun acc x => insertDown less x acc) (acc.map f) =
        (ys.foldl (fun acc x => insertDown less' x acc) acc).map f := by
    intro ys
    induction ys with
    | nil => exact fun acc => rfl
    | cons y ys ih =>
      intro acc
      rw [List.map_cons, List.foldl_cons, List.foldl_cons, insertDown_map f h, ih]
  rw [sortStable, sortStable, List.map_reverse]
  exact congrArg List.reverse (hacc xs [])

end

/-! ## Order -/

theorem pairwise_insertNew [Std.TransCmp cmp] (h : xs.Pairwise fun x y => cmp x y = .lt) :
    (insertNew cmp x xs).Pairwise fun x y => cmp x y = .lt := by
  induction xs with
  | nil => simp [insertNew]
  | cons y xs ih =>
    obtain ⟨hy, hxs⟩ := List.pairwise_cons.1 h
    unfold insertNew
    split
    next hlt =>
      refine List.pairwise_cons.2 ⟨fun z hz => ?_, h⟩
      rcases List.mem_cons.1 hz with rfl | hz
      · exact hlt
      · exact Std.TransCmp.lt_trans hlt (hy z hz)
    next => exact h
    next hgt =>
      refine List.pairwise_cons.2 ⟨fun z hz => ?_, ih hxs⟩
      rcases of_mem_insertNew hz with rfl | hz
      · exact Std.OrientedCmp.lt_of_gt hgt
      · exact hy z hz

/-- **Taken once, elements strictly ascend.** -/
theorem pairwise_distinct [Std.TransCmp cmp] (xs : List α) :
    (distinct cmp xs).Pairwise fun x y => cmp x y = .lt := by
  have hacc : ∀ ys acc : List α, acc.Pairwise (fun x y => cmp x y = .lt) →
      (ys.foldl (fun acc x => insertNew cmp x acc) acc).Pairwise fun x y => cmp x y = .lt := by
    intro ys
    induction ys with
    | nil => exact fun acc h => h
    | cons y ys ih => exact fun acc h => ih _ (pairwise_insertNew h)
  exact hacc xs [] .nil

/-- **Where only equals are equal, it makes no difference in which order elements came**, nor how
often. -/
theorem distinct_eq_of_mem_iff [Std.TransCmp cmp] [Std.LawfulEqCmp cmp] {ys : List α}
    (h : ∀ x, x ∈ xs ↔ x ∈ ys) : distinct cmp xs = distinct cmp ys := by
  have heq {zs : List α} : ∀ x ∈ zs, ∀ z ∈ zs, cmp x z = .eq → x = z :=
    fun _ _ _ _ => Std.LawfulEqCmp.eq_of_compare
  have hnodup (zs : List α) : (distinct cmp zs).Nodup :=
    (pairwise_distinct zs).imp fun {x y} hlt heq => by
      have hself : cmp y y = .eq := Std.ReflCmp.compare_self
      rw [heq, hself] at hlt
      cases hlt
  refine List.Perm.eq_of_pairwise (fun x y _ _ hxy hyx => ?_) (pairwise_distinct xs)
    (pairwise_distinct ys) ((List.perm_ext_iff_of_nodup (hnodup xs) (hnodup ys)).2 fun x => ?_)
  · have hswap : cmp x y = (cmp y x).swap := Std.OrientedCmp.eq_swap
    rw [hxy, hyx] at hswap
    cases hswap
  · rw [mem_distinct heq, mem_distinct heq, h]

variable {r : α → α → Prop}

/-- What a stable sort says of two elements, the first of which comes before the other: the other is
not less, and where it is not greater either the two came in this order. -/
def Settles (less : α → α → Bool) (r : α → α → Prop) (x y : α) : Prop :=
  less y x = false ∧ (less x y = true ∨ r x y)

section

variable {all : List α} (hasymm : ∀ x ∈ all, ∀ y ∈ all, less x y = true → less y x = false)
variable (htrans : ∀ x ∈ all, ∀ y ∈ all, ∀ z ∈ all,
  less x y = false → less y z = false → less x z = false)

include hasymm htrans

/-- An element that came after all others finds its place among them. -/
theorem pairwise_insertDown (hx : x ∈ all) (hxs : ∀ y ∈ xs, y ∈ all ∧ r y x)
    (h : xs.Pairwise fun x y => Settles less r y x) :
    (insertDown less x xs).Pairwise fun x y => Settles less r y x := by
  induction xs with
  | nil => simp [insertDown]
  | cons y xs ih =>
    obtain ⟨hy, hrest⟩ := List.pairwise_cons.1 h
    obtain ⟨⟨hyall, hyx⟩, hxs⟩ := List.forall_mem_cons.1 hxs
    unfold insertDown
    split
    next hless =>
      refine List.pairwise_cons.2 ⟨fun z hz => ?_, ih hxs hrest⟩
      rcases mem_insertDown.1 hz with rfl | hz
      · exact ⟨hasymm _ hx _ hyall hless, Or.inl hless⟩
      · exact hy z hz
    next hless =>
      have hless : less x y = false := by simpa using hless
      refine List.pairwise_cons.2 ⟨fun z hz => ?_, h⟩
      rcases List.mem_cons.1 hz with rfl | hz
      · exact ⟨hless, Or.inr hyx⟩
      · exact ⟨htrans x hx y hyall z (hxs z hz).1 hless (hy z hz).1, Or.inr (hxs z hz).2⟩

/-- **A stable sort settles what comes before what.** -/
theorem pairwise_sortStable (h : all.Pairwise r) :
    (sortStable less all).Pairwise (Settles less r) := by
  have hacc : ∀ ys acc : List α, (∀ y ∈ ys, y ∈ all) → (∀ x ∈ acc, x ∈ all ∧ ∀ y ∈ ys, r x y) →
      ys.Pairwise r → acc.Pairwise (fun x y => Settles less r y x) →
      (ys.foldl (fun acc x => insertDown less x acc) acc).Pairwise
        fun x y => Settles less r y x := by
    intro ys
    induction ys with
    | nil => exact fun acc _ _ _ h => h
    | cons y ys ih =>
      intro acc hys hacc hsorted hdown
      obtain ⟨hy, hys⟩ := List.forall_mem_cons.1 hys
      obtain ⟨hyr, hsorted⟩ := List.pairwise_cons.1 hsorted
      refine ih _ hys (fun x hx => ?_) hsorted ?_
      · rcases mem_insertDown.1 hx with rfl | hx
        · exact ⟨hy, hyr⟩
        · exact ⟨(hacc x hx).1, fun z hz => (hacc x hx).2 z (List.mem_cons_of_mem y hz)⟩
      · exact pairwise_insertDown hasymm htrans hy
          (fun x hx => ⟨(hacc x hx).1, (hacc x hx).2 y List.mem_cons_self⟩) hdown
  rw [sortStable, List.pairwise_reverse]
  exact hacc all [] (fun _ hy => hy) (by simp) h .nil

end

end MetadataArchive.Ordered
