import Mathlib.Data.List.Chain
import Mathlib.Data.List.Perm.Subperm
import Mathlib.Logic.Relation
import MetadataArchive.Proofs.Schema.TypeSystem

/-!
# Lines of ancestors

A type system keeps, for each type, no more than the name of its supertype, and finds the ancestors
of a type by following these names. Nothing in such a walk remembers where it has been. That it
ends, and comes to every ancestor once, is owed to the checks that a list of definitions has passed.

They are the right ones: a list is accepted just if it is well-formed. The check for cycles follows
the names for one step more than there are types. A walk that meets no name twice is over by then,
and one from a type that is its own ancestor is not.
-/

set_option autoImplicit false

namespace MetadataArchive

open Relation

/-! ## Well-formed definitions -/

/-- Among definitions, the second type is the supertype of the first. -/
def TypeDef.Extends (defs : List TypeDef) (d p : TypeDef) : Prop :=
  p ∈ defs ∧ d.supertype = some p.name

/-- What makes definitions a type system. -/
structure TypeDef.WellFormed (defs : List TypeDef) : Prop where
  guids : (defs.map TypeDef.guid).Nodup
  names : (defs.map TypeDef.name).Nodup
  /-- Every supertype is among them, with the same category. -/
  supertypes : ∀ d ∈ defs, ∀ parent, d.supertype = some parent →
    ∃ p ∈ defs, p.name = parent ∧ p.category = d.category
  /-- No type is its own ancestor. -/
  acyclic : ∀ d ∈ defs, ¬ TransGen (TypeDef.Extends defs) d d

/-- The line of a type: the type itself and then its ancestors, nearest first. -/
structure TypeDef.IsLine (defs : List TypeDef) (d : TypeDef) (line : List TypeDef) : Prop where
  head : line.head? = some d
  step : line.IsChain (TypeDef.Extends defs)
  root : ∀ e, line.getLast? = some e → e.supertype = none
  once : (line.map TypeDef.name).Nodup
  complete : ∀ e, e ∈ line ↔ ReflTransGen (TypeDef.Extends defs) d e

namespace TypeSystem

variable {ts : TypeSystem} {d e p : TypeDef} {n : String} {defs : List TypeDef} {k : Nat}

/-! ## Walks -/

/-- In a type system, the second type is the supertype of the first. -/
def Extends (ts : TypeSystem) (d p : TypeDef) : Prop := ts.parent? d = some p

theorem chain_of_parent (h : ts.parent? d = some p) (k : Nat) :
    ts.chain (k + 1) d = d :: ts.chain k p := by
  rw [chain, h]

theorem chain_of_root (h : ts.parent? d = none) (k : Nat) : ts.chain (k + 1) d = [d] := by
  rw [chain, h]

/-- A shorter walk is the beginning of a longer one. -/
theorem take_chain {j : Nat} (h : j ≤ k) : (ts.chain k d).take j = ts.chain j d := by
  induction j generalizing k d with
  | zero => rfl
  | succ j ih =>
    obtain ⟨k, rfl⟩ := Nat.exists_eq_succ_of_ne_zero (Nat.ne_zero_of_lt h)
    cases hp : ts.parent? d with
    | none => rw [chain_of_root hp, chain_of_root hp, List.take_succ_cons, List.take_nil]
    | some p =>
      rw [chain_of_parent hp, chain_of_parent hp, List.take_succ_cons,
        ih (Nat.le_of_succ_le_succ h)]

/-- Each type in a walk is followed by its supertype. -/
theorem isChain_chain (k : Nat) (d : TypeDef) : (ts.chain k d).IsChain ts.Extends := by
  induction k generalizing d with
  | zero => exact .nil
  | succ k ih =>
    cases hp : ts.parent? d with
    | none =>
      rw [chain_of_root hp]
      exact .singleton d
    | some p =>
      rw [chain_of_parent hp]
      refine List.isChain_cons.2 ⟨fun q hq => ?_, ih p⟩
      cases k with
      | zero => cases hq
      | succ k =>
        obtain rfl : p = q := Option.some.inj hq
        exact hp

/-- A walk comes to ancestors only. -/
theorem reaches_of_mem_chain (h : e ∈ ts.chain k d) : ReflTransGen ts.Extends d e := by
  induction k generalizing d with
  | zero => cases h
  | succ k ih =>
    cases hp : ts.parent? d with
    | none =>
      rw [chain_of_root hp, List.mem_singleton] at h
      exact h ▸ .refl
    | some p =>
      rw [chain_of_parent hp, List.mem_cons] at h
      rcases h with rfl | h
      · exact .refl
      · exact .head hp (ih h)

/-- Every ancestor is come to by a walk that is long enough. -/
theorem exists_mem_chain (h : ReflTransGen ts.Extends d e) : ∃ k, e ∈ ts.chain k d := by
  induction h using ReflTransGen.head_induction_on with
  | refl => exact ⟨1, by rw [chain]; exact List.mem_cons_self⟩
  | head hstep _ ih =>
    obtain ⟨k, hk⟩ := ih
    exact ⟨k + 1, by rw [chain_of_parent hstep]; exact List.mem_cons_of_mem _ hk⟩

/-- A walk that is not cut short ends with a type that has no supertype. -/
theorem parent?_getLast (h : (ts.chain k d).length < k) (he : (ts.chain k d).getLast? = some e) :
    ts.parent? e = none := by
  induction k generalizing d with
  | zero => cases h
  | succ k ih =>
    cases hp : ts.parent? d with
    | none =>
      rw [chain_of_root hp, List.getLast?_singleton, Option.some.injEq] at he
      exact he ▸ hp
    | some p =>
      rw [chain_of_parent hp, List.length_cons, Nat.add_lt_add_iff_right] at h
      rw [chain_of_parent hp, List.getLast?_cons] at he
      obtain ⟨j, rfl⟩ := Nat.exists_eq_succ_of_ne_zero (Nat.ne_zero_of_lt h)
      refine ih h ?_
      rw [chain, List.getLast?_cons] at he ⊢
      exact he

/-! ## Cycles -/

/-- What can be said of a type system whose types have all been checked. -/
structure Lineage (ts : TypeSystem) : Prop where
  named : ts.Named
  /-- A type has the category of its supertype. -/
  category : ∀ n d p, ts.get? n = some d → ts.parent? d = some p → p.category = d.category
  acyclic : ∀ n d, ts.get? n = some d → ¬ TransGen ts.Extends d d

/-- From a type that is its own ancestor the walk never ends. -/
theorem length_chain_of_cycle (h : TransGen ts.Extends d d) (k : Nat) :
    (ts.chain k d).length = k := by
  induction k generalizing d with
  | zero => rfl
  | succ k ih =>
    obtain ⟨p, hp, hback⟩ := TransGen.head'_iff.1 h
    have hcycle : TransGen ts.Extends p p := .tail' hback hp
    rw [chain_of_parent hp, List.length_cons, ih hcycle]

section Known

variable (hnamed : ts.Named)

include hnamed

theorem get?_of_extends (h : ts.Extends d p) : ts.get? p.name = some p := by
  obtain ⟨parent, -, hparent⟩ := Option.bind_eq_some_iff.1 h
  rw [hnamed _ _ hparent, hparent]

/-- All that a walk from a known type comes to is known, so one that repeats no name is no longer
than there are types. -/
theorem length_chain_le (hd : ts.get? d.name = some d)
    (hnodup : ((ts.chain k d).map TypeDef.name).Nodup) : (ts.chain k d).length ≤ ts.types.size := by
  have hsub : (ts.chain k d).map TypeDef.name ⊆ ts.types.names := by
    intro n hn
    obtain ⟨e, he, rfl⟩ := List.mem_map.1 hn
    have hknown : ts.types.get? e.name = some e := get?_of_mem_chain hnamed hd he
    rw [NameMap.mem_names, hknown]
    rfl
  have hle := (List.subperm_of_subset hnodup hsub).length_le
  simpa [NameMap.size, NameMap.names] using hle

/-- A type without a cycle is not its own ancestor. -/
theorem not_cycle_of_hasCycle (hd : ts.get? d.name = some d) (h : ts.hasCycle d = false) :
    ¬ TransGen ts.Extends d d := by
  intro hcycle
  have hnodup : ((ts.chain (ts.types.size + 1) d).map TypeDef.name).Nodup := by
    simpa [hasCycle] using h
  have hle := length_chain_le hnamed hd hnodup
  rw [length_chain_of_cycle hcycle] at hle
  omega

end Known

namespace Lineage

variable (h : ts.Lineage)

include h

/-- **No walk comes to a name twice.** -/
theorem nodup_chain (hd : ts.get? d.name = some d) (k : Nat) :
    ((ts.chain k d).map TypeDef.name).Nodup := by
  induction k generalizing d with
  | zero => exact List.nodup_nil
  | succ k ih =>
    cases hp : ts.parent? d with
    | none => simp [chain_of_root hp]
    | some p =>
      have hparent : ts.get? p.name = some p := get?_of_extends h.named hp
      rw [chain_of_parent hp, List.map_cons, List.nodup_cons]
      refine ⟨fun hmem => ?_, ih hparent⟩
      obtain ⟨e, he, hname⟩ := List.mem_map.1 hmem
      -- A type of the same name is the same type, which would be its own ancestor.
      have hknown : ts.get? e.name = some e := get?_of_mem_chain h.named hparent he
      rw [hname, hd, Option.some.injEq] at hknown
      subst hknown
      exact h.acyclic _ _ hd (.head' hp (reaches_of_mem_chain he))

/-- **The walk ends**: however far it may go, it comes to the line of ancestors and no further. -/
theorem chain_eq_closure (hd : ts.get? d.name = some d) (hk : ts.types.size ≤ k) :
    ts.chain k d = ts.closure d := by
  have hle := length_chain_le h.named hd (h.nodup_chain hd k)
  rw [closure, ← take_chain hk, List.take_of_length_le hle]

/-- **The line of a type holds its ancestors**, and the type itself. -/
theorem mem_closure (hd : ts.get? d.name = some d) :
    e ∈ ts.closure d ↔ ReflTransGen ts.Extends d e := by
  refine ⟨reaches_of_mem_chain, fun hreach => ?_⟩
  obtain ⟨k, hk⟩ := exists_mem_chain hreach
  rw [← h.chain_eq_closure hd (Nat.le_max_left _ k)]
  rw [← take_chain (Nat.le_max_right ts.types.size k)] at hk
  exact List.mem_of_mem_take hk

end Lineage

/-! ## Gathering and checking -/

/-- Definitions are gathered just if their guids and names are new and distinct. -/
theorem exists_gather_iff {m : NameMap TypeDef} :
    (∃ m', gather m defs = .ok m') ↔
      (∀ d ∈ defs, (∀ n e, m.get? n = some e → e.guid ≠ d.guid) ∧ m.get? d.name = none) ∧
        (defs.map TypeDef.guid).Nodup ∧ (defs.map TypeDef.name).Nodup := by
  induction defs generalizing m with
  | nil => simp [gather]
  | cons d rest ih =>
    have hguid : (m.values.any fun e => e.guid == d.guid) = true ↔
        ¬ ∀ n e, m.get? n = some e → e.guid ≠ d.guid := by
      simp only [List.any_eq_true, NameMap.mem_values, beq_iff_eq, ne_eq, not_forall, not_not]
      constructor
      · rintro ⟨e, ⟨n, hn⟩, he⟩
        exact ⟨n, e, hn, he⟩
      · rintro ⟨n, e, hn, he⟩
        exact ⟨e, ⟨n, hn⟩, he⟩
    have hname : m.contains d.name = true ↔ m.get? d.name ≠ none := by
      simp [NameMap.contains, Option.isSome_iff_ne_none]
    simp only [gather, List.map_cons, List.nodup_cons, List.forall_mem_cons]
    split
    next hold => simp [hguid.1 hold]
    next hnew =>
      rw [hguid, not_not] at hnew
      split
      next hold => simp [hname.1 hold]
      next hfree =>
        rw [hname, not_not] at hfree
        -- What is new to the map with the definition is new to the map, and is not the definition.
        have hfresh (e : TypeDef) :
            ((∀ n x, (m.insert d.name d).get? n = some x → x.guid ≠ e.guid) ∧
              (m.insert d.name d).get? e.name = none) ↔
            ((∀ n x, m.get? n = some x → x.guid ≠ e.guid) ∧ m.get? e.name = none) ∧
              d.guid ≠ e.guid ∧ d.name ≠ e.name := by
          simp only [NameMap.get?_insert]
          constructor
          · rintro ⟨hguids, hnames⟩
            have hne : e.name ≠ d.name := fun heq => by simp [heq] at hnames
            rw [if_neg hne] at hnames
            refine ⟨⟨fun n x hx => hguids n x ?_, hnames⟩, hguids d.name d (if_pos rfl), hne.symm⟩
            rw [if_neg fun heq => by simp [heq, hfree] at hx, hx]
          · rintro ⟨⟨hguids, hnames⟩, hguid, hname⟩
            refine ⟨fun n x hx => ?_, by rw [if_neg hname.symm, hnames]⟩
            split at hx
            next =>
              cases hx
              exact hguid
            next => exact hguids n x hx
        rw [ih]
        simp only [hfresh, forall_and, List.mem_map, not_exists, not_and]
        grind

/-- What is in the map stays there. -/
theorem get?_of_gather {m m' : NameMap TypeDef} (h : gather m defs = .ok m')
    (hd : m.get? n = some d) : m'.get? n = some d := by
  induction defs generalizing m with
  | nil =>
    cases h
    exact hd
  | cons e rest ih =>
    simp only [gather] at h
    split at h
    · cases h
    · split at h
      · cases h
      next hfree =>
        refine ih h ?_
        have hne : n ≠ e.name := fun heq => hfree (by simp [NameMap.contains, ← heq, hd])
        rw [NameMap.get?_insert_of_ne _ _ hne, hd]

/-- What is gathered is there, and what was there before. -/
theorem get?_gather_iff {m m' : NameMap TypeDef} (h : gather m defs = .ok m') :
    m'.get? n = some d ↔ m.get? n = some d ∨ d ∈ defs ∧ d.name = n := by
  refine ⟨get?_gather h, fun hd => ?_⟩
  rcases hd with hold | ⟨hd, rfl⟩
  · exact get?_of_gather h hold
  · induction defs generalizing m with
    | nil => cases hd
    | cons e rest ih =>
      simp only [gather] at h
      split at h
      · cases h
      · split at h
        · cases h
        · rcases List.mem_cons.1 hd with rfl | hd
          · exact get?_of_gather h (NameMap.get?_insert_self m d.name d)
          · exact ih h hd

theorem forM_eq_ok {α ε : Type} {f : α → Except ε Unit} {xs : List α} :
    xs.forM f = .ok () ↔ ∀ x ∈ xs, f x = .ok () := by
  rw [List.forM_eq_forM]
  induction xs with
  | nil => exact iff_of_true rfl fun _ h => by cases h
  | cons x xs ih =>
    rw [List.forM_cons, bind_eq_ok, List.forall_mem_cons, ← ih]
    exact ⟨fun ⟨(), hx, hxs⟩ => ⟨hx, hxs⟩, fun ⟨hx, hxs⟩ => ⟨(), hx, hxs⟩⟩

theorem check_eq_ok : ts.check d = .ok () ↔ ∀ parent, d.supertype = some parent →
    ∃ p, ts.get? parent = some p ∧ p.category = d.category ∧ ts.hasCycle d = false := by
  unfold check
  cases d.supertype with
  | none => simp
  | some parent =>
    cases hp : ts.get? parent with
    | none => simp [hp]
    | some p =>
      by_cases hcategory : p.category = d.category <;> cases hcycle : ts.hasCycle d <;>
        simp [hp, hcategory]

/-- A list is accepted just if its definitions can be gathered and all types pass the check. -/
theorem ofList_eq_ok : ofList defs = .ok ts ↔
    gather ∅ defs = .ok ts.types ∧ ∀ n d, ts.get? n = some d → ts.check d = .ok () := by
  have hall (ts : TypeSystem) : ts.types.values.forM ts.check = .ok () ↔
      ∀ n d, ts.get? n = some d → ts.check d = .ok () := by
    rw [forM_eq_ok]
    simp only [NameMap.mem_values]
    exact ⟨fun h n d hd => h d ⟨n, hd⟩, fun h d ⟨n, hd⟩ => h n d hd⟩
  rw [← hall]
  simp only [ofList]
  constructor
  · intro h
    split at h
    next ts' hbuild =>
      cases h
      obtain ⟨m, hm, hbuild⟩ := bind_eq_ok.1 hbuild
      obtain ⟨_, hchecked, hbuild⟩ := bind_eq_ok.1 hbuild
      cases hbuild
      exact ⟨hm, hchecked⟩
    next => cases h
  · rintro ⟨hm, hchecked⟩
    rw [hm, ok_bind, show ts.types.values.forM (check ⟨ts.types⟩) = .ok () from hchecked, ok_bind]

/-! ## Acceptance -/

section Accepted

variable (hgather : gather ∅ defs = .ok ts.types)

include hgather

/-- The types of a list that was gathered are its definitions. -/
theorem get?_gathered : ts.get? n = some d ↔ d ∈ defs ∧ d.name = n := by
  rw [get?, get?_gather_iff hgather]
  exact or_iff_right fun h => by cases h

theorem extends_gathered : ts.Extends = TypeDef.Extends defs := by
  funext d p
  refine propext ?_
  rw [Extends, parent?, Option.bind_eq_some_iff, TypeDef.Extends]
  constructor
  · rintro ⟨parent, hparent, hp⟩
    obtain ⟨hmem, rfl⟩ := (get?_gathered hgather).1 hp
    exact ⟨hmem, hparent⟩
  · rintro ⟨hp, hparent⟩
    exact ⟨p.name, hparent, (get?_gathered hgather).2 ⟨hp, rfl⟩⟩

/-- Well-formed definitions make a type system without cycles. -/
theorem lineage_of_wellFormed (h : TypeDef.WellFormed defs) : ts.Lineage where
  named _ _ hd := ((get?_gathered hgather).1 hd).2
  category _ d p hd hp := by
    have hextends : TypeDef.Extends defs d p := extends_gathered hgather ▸ hp
    obtain ⟨hd, -⟩ := (get?_gathered hgather).1 hd
    obtain ⟨q, hq, hname, hcategory⟩ := h.supertypes d hd p.name hextends.2
    have hpq : p = q := List.inj_on_of_nodup_map h.names hextends.1 hq hname.symm
    rw [hpq, hcategory]
  acyclic _ d hd := by
    rw [extends_gathered hgather]
    exact h.acyclic d ((get?_gathered hgather).1 hd).1

end Accepted

/-- What the check of every type shows. -/
theorem lineage_of_checked (hnamed : ts.Named)
    (hchecked : ∀ n d, ts.get? n = some d → ts.check d = .ok ()) : ts.Lineage where
  named := hnamed
  category n d p hd hp := by
    obtain ⟨parent, hparent, hp⟩ := Option.bind_eq_some_iff.1 hp
    obtain ⟨q, hq, hcategory, -⟩ := check_eq_ok.1 (hchecked n d hd) parent hparent
    rw [← hcategory, Option.some.inj (hp.symm.trans hq)]
  acyclic n d hd hcycle := by
    obtain ⟨p, hp, -⟩ := TransGen.head'_iff.1 hcycle
    obtain ⟨parent, hparent, -⟩ := Option.bind_eq_some_iff.1 hp
    obtain ⟨-, -, -, hfree⟩ := check_eq_ok.1 (hchecked n d hd) parent hparent
    exact not_cycle_of_hasCycle hnamed (by rw [hnamed n d hd, hd]) hfree hcycle

theorem lineage_ofList (h : ofList defs = .ok ts) : ts.Lineage :=
  lineage_of_checked (named_ofList h) (ofList_eq_ok.1 h).2

theorem wellFormed_of_ofList (h : ofList defs = .ok ts) : TypeDef.WellFormed defs := by
  obtain ⟨hgather, hchecked⟩ := ofList_eq_ok.1 h
  obtain ⟨-, hguids, hnames⟩ := exists_gather_iff.1 ⟨ts.types, hgather⟩
  have hknown : ∀ d ∈ defs, ts.get? d.name = some d := fun d hd =>
    (get?_gathered hgather).2 ⟨hd, rfl⟩
  refine ⟨hguids, hnames, fun d hd parent hparent => ?_, fun d hd => ?_⟩
  · obtain ⟨p, hp, hcategory, -⟩ := check_eq_ok.1 (hchecked d.name d (hknown d hd)) parent hparent
    obtain ⟨hp, hname⟩ := (get?_gathered hgather).1 hp
    exact ⟨p, hp, hname, hcategory⟩
  · rw [← extends_gathered hgather]
    exact (lineage_ofList h).acyclic d.name d (hknown d hd)

theorem exists_ofList (h : TypeDef.WellFormed defs) : ∃ ts, ofList defs = .ok ts := by
  obtain ⟨m, hm⟩ : ∃ m, gather ∅ defs = .ok m :=
    exists_gather_iff.2 ⟨fun _ _ => ⟨fun _ _ he => (by cases he), rfl⟩, h.guids, h.names⟩
  let ts : TypeSystem := ⟨m⟩
  have hgather : gather ∅ defs = .ok ts.types := hm
  have hlineage : ts.Lineage := lineage_of_wellFormed hgather h
  refine ⟨ts, ofList_eq_ok.2 ⟨hgather, fun n d hd => check_eq_ok.2 fun parent hparent => ?_⟩⟩
  obtain ⟨hmem, rfl⟩ := (get?_gathered hgather).1 hd
  obtain ⟨p, hp, hname, hcategory⟩ := h.supertypes d hmem parent hparent
  have hfree : ts.hasCycle d = false := by
    simpa [hasCycle] using hlineage.nodup_chain hd (ts.types.size + 1)
  exact ⟨p, (get?_gathered hgather).2 ⟨hp, hname⟩, hcategory, hfree⟩

/-- The line that is found in a type system is that of its definitions. -/
theorem isLine_closure (h : ofList defs = .ok ts) (hd : d ∈ defs) :
    TypeDef.IsLine defs d (ts.closure d) := by
  obtain ⟨hgather, hchecked⟩ := ofList_eq_ok.1 h
  have hlineage : ts.Lineage := lineage_ofList h
  have hknown : ts.get? d.name = some d := (get?_gathered hgather).2 ⟨hd, rfl⟩
  have hnodup : ((ts.closure d).map TypeDef.name).Nodup := hlineage.nodup_chain hknown _
  obtain ⟨rest, hrest⟩ := exists_closure_eq hknown
  refine ⟨by rw [hrest, List.head?_cons], ?_, fun e he => ?_, hnodup, fun e => ?_⟩
  · rw [← extends_gathered hgather]
    exact isChain_chain _ d
  · have hmore := hlineage.chain_eq_closure hknown (Nat.le_succ ts.types.size)
    have hparent : ts.parent? e = none := by
      refine parent?_getLast (d := d) (k := ts.types.size + 1) ?_ (hmore ▸ he)
      rw [hmore]
      exact Nat.lt_succ_of_le (length_chain_le hlineage.named hknown hnodup)
    -- A supertype is known, so that a type for which none is found has none.
    have hlast : ts.get? e.name = some e :=
      get?_of_mem_chain hlineage.named hknown (List.mem_of_getLast? he)
    refine Option.eq_none_iff_forall_not_mem.2 fun parent hsuper => ?_
    obtain ⟨p, hp, -⟩ := check_eq_ok.1 (hchecked _ e hlast) parent hsuper
    rw [parent?, hsuper, Option.bind_some, hp] at hparent
    cases hparent
  · rw [← extends_gathered hgather]
    exact hlineage.mem_closure hknown

/-- **Exactly the well-formed definitions make a type system, and there every line ends.** A list of
definitions in any order is accepted just if guids and names are distinct, every supertype is among
them with the same category and no type is its own ancestor. In what it makes, a line is found for
the names of its types and for no others, and it is the line of the type: it is not cut short, since
however much further the walk might go on, it is the same. -/
theorem definitions_are_accepted (defs : List TypeDef) :
    ((∃ ts, ofList defs = .ok ts) ↔ TypeDef.WellFormed defs) ∧
      ∀ ts, ofList defs = .ok ts →
        (∀ d ∈ defs, ∃ line, ts.supertypeClosure d.name = .ok line ∧ TypeDef.IsLine defs d line ∧
          ∀ k, ts.types.size ≤ k → ts.chain k d = line) ∧
        ∀ n, n ∉ defs.map TypeDef.name → ts.supertypeClosure n = .error (.unknownType n) := by
  refine ⟨⟨fun ⟨ts, h⟩ => wellFormed_of_ofList h, exists_ofList⟩, fun ts h => ⟨fun d hd => ?_, ?_⟩⟩
  · have hknown : ts.get? d.name = some d := (get?_gathered (ofList_eq_ok.1 h).1).2 ⟨hd, rfl⟩
    have hclosure : ts.supertypeClosure d.name = .ok (ts.closure d) := by
      simp only [supertypeClosure, require, hknown, ok_bind]
    exact ⟨ts.closure d, hclosure, isLine_closure h hd,
      fun k hk => (lineage_ofList h).chain_eq_closure hknown hk⟩
  · intro n hn
    have hunknown : ts.get? n = none := by
      refine Option.eq_none_iff_forall_ne_some.2 fun d hd => hn ?_
      obtain ⟨hmem, rfl⟩ := get?_ofList h hd
      exact List.mem_map_of_mem hmem
    simp only [supertypeClosure, require, hunknown]
    rfl

/-- Three types of which each extends the next, the last one first, are accepted; the line of the
first has all three. -/
theorem definitions_are_accepted_in_any_order :
    let asset : TypeDef := ⟨"g1", "Asset", .entity, none, [], []⟩
    let dataSet : TypeDef := ⟨"g2", "DataSet", .entity, some "Asset", [], []⟩
    let table : TypeDef := ⟨"g3", "Table", .entity, some "DataSet", [], []⟩
    let ts := (ofList [table, dataSet, asset]).toOption.getD .empty
    ofList [table, dataSet, asset] = .ok ts ∧
      TypeDef.WellFormed [table, dataSet, asset] ∧
      ts.supertypeClosure "Table" = .ok [table, dataSet, asset] ∧
      TypeDef.IsLine [table, dataSet, asset] table [table, dataSet, asset] ∧
      ts.supertypeClosure "Column" = .error (.unknownType "Column") := by
  intro asset dataSet table ts
  have hts : ofList [table, dataSet, asset] = .ok ts := eq_ok_of_isSome (by decide +kernel) _
  obtain ⟨hiff, hlines⟩ := definitions_are_accepted [table, dataSet, asset]
  obtain ⟨hline, hunknown⟩ := hlines ts hts
  obtain ⟨line, hfound, hisLine, -⟩ := hline table List.mem_cons_self
  have hclosure : ts.supertypeClosure "Table" = .ok [table, dataSet, asset] := by decide +kernel
  obtain rfl : line = [table, dataSet, asset] := Except.ok.inj (hfound.symm.trans hclosure)
  exact ⟨hts, hiff.1 ⟨ts, hts⟩, hclosure, hisLine, hunknown "Column" (by decide)⟩

end TypeSystem

end MetadataArchive
