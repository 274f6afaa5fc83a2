/-!
# `NameMap` -- finite maps from names to values, in name order

Documents, property bags, type systems and version histories are all maps keyed by a name whose
order shows in answers: names ascend by code point. A `NameMap` is the list of its entries together
with the proof that their names strictly ascend, so that two maps with the same entries are equal
and a scan over names that share a beginning may stop at the first name that does not.

Every operation is given on the plain entry list first (`Entries.insert`), where it can be reasoned
about by induction, and then lifted with the proof that it keeps the order.
-/

set_option autoImplicit false

namespace MetadataArchive

def beginsWith (stem name : String) : Bool :=
  stem.toList.isPrefixOf name.toList

theorem beginsWith_iff {stem name : String} :
    beginsWith stem name = true ↔ stem.toList <+: name.toList :=
  List.isPrefixOf_iff_prefix

namespace Entries

variable {α : Type}

abbrev names (es : List (String × α)) : List String := es.map Prod.fst

/-- The names strictly ascend. -/
abbrev Ascending (es : List (String × α)) : Prop := (names es).Pairwise (· < ·)

/-- Put `v` under `k`: before the first greater name, in place of an equal one. -/
def insert (k : String) (v : α) : List (String × α) → List (String × α)
  | [] => [(k, v)]
  | (k', v') :: rest =>
      if k < k' then (k, v) :: (k', v') :: rest
      else if k = k' then (k, v) :: rest
      else (k', v') :: insert k v rest

theorem mem_names_insert {k x : String} {v : α} {es : List (String × α)}
    (h : x ∈ names (insert k v es)) : x = k ∨ x ∈ names es := by
  induction es with
  | nil => simpa [insert] using h
  | cons e rest ih =>
    obtain ⟨k', v'⟩ := e
    simp only [insert] at h
    split at h
    · simpa using h
    · split at h
      next heq => subst heq; simpa using h
      next =>
        rcases List.mem_cons.1 h with hx | hx
        · exact Or.inr (by simp_all)
        · rcases ih hx with hk | hr
          · exact Or.inl hk
          · exact Or.inr (List.mem_cons_of_mem _ hr)

theorem Ascending.insert {k : String} {v : α} {es : List (String × α)} (h : Ascending es) :
    Ascending (Entries.insert k v es) := by
  induction es with
  | nil => simp [Entries.insert, Ascending, names]
  | cons e rest ih =>
    obtain ⟨k', v'⟩ := e
    have hr : Ascending rest := (List.pairwise_cons.1 h).2
    have hk' : ∀ x ∈ names rest, k' < x := (List.pairwise_cons.1 h).1
    simp only [Entries.insert]
    split
    next hlt =>
      refine List.pairwise_cons.2 ⟨fun x hx => ?_, h⟩
      rcases List.mem_cons.1 hx with rfl | hx
      · exact hlt
      · exact String.lt_trans hlt (hk' x hx)
    next hnlt =>
      split
      next heq => subst heq; exact List.pairwise_cons.2 ⟨hk', hr⟩
      next hne =>
        refine List.pairwise_cons.2 ⟨fun x hx => ?_, ih hr⟩
        rcases mem_names_insert hx with rfl | hx
        · exact Decidable.byContradiction fun hn =>
            hne (String.le_antisymm (String.not_lt.1 hn) (String.not_lt.1 hnlt))
        · exact hk' x hx

theorem Ascending.filter {p : String × α → Bool} {es : List (String × α)} (h : Ascending es) :
    Ascending (es.filter p) :=
  h.sublist (List.Sublist.map _ List.filter_sublist)

/-- Give every entry a new value, or leave it out. -/
def filterMap {β : Type} (f : String → α → Option β) (es : List (String × α)) :
    List (String × β) :=
  es.filterMap fun e => (f e.1 e.2).map fun v => (e.1, v)

theorem names_filterMap_sublist {β : Type} (f : String → α → Option β) (es : List (String × α)) :
    (names (filterMap f es)).Sublist (names es) := by
  induction es with
  | nil => exact List.Sublist.slnil
  | cons e rest ih =>
    simp only [filterMap, names, List.map_cons, List.filterMap_cons] at ih ⊢
    cases f e.1 e.2 with
    | none => exact ih.cons _
    | some v => exact ih.cons_cons _

theorem Ascending.filterMap {β : Type} {f : String → α → Option β} {es : List (String × α)}
    (h : Ascending es) : Ascending (Entries.filterMap f es) :=
  h.sublist (names_filterMap_sublist f es)

end Entries

/-- A finite map from names to values, its entries in strictly ascending name order. -/
structure NameMap (α : Type) where
  entries : List (String × α)
  ascending : Entries.Ascending entries

namespace NameMap

variable {α β : Type}

def empty : NameMap α := ⟨[], List.Pairwise.nil⟩

instance : EmptyCollection (NameMap α) := ⟨empty⟩
instance : Inhabited (NameMap α) := ⟨empty⟩

def get? (m : NameMap α) (k : String) : Option α := m.entries.lookup k

def contains (m : NameMap α) (k : String) : Bool := (m.get? k).isSome

def insert (m : NameMap α) (k : String) (v : α) : NameMap α :=
  ⟨Entries.insert k v m.entries, m.ascending.insert⟩

def filter (m : NameMap α) (p : String → α → Bool) : NameMap α :=
  ⟨m.entries.filter fun e => p e.1 e.2, m.ascending.filter⟩

/-- The map with a new value for every entry, some of them left out. -/
def filterMap (m : NameMap α) (f : String → α → Option β) : NameMap β :=
  ⟨Entries.filterMap f m.entries, m.ascending.filterMap⟩

def erase (m : NameMap α) (k : String) : NameMap α := m.filter fun name _ => name != k

def toList (m : NameMap α) : List (String × α) := m.entries

def names (m : NameMap α) : List String := m.entries.map Prod.fst

def values (m : NameMap α) : List α := m.entries.map Prod.snd

def size (m : NameMap α) : Nat := m.entries.length

def isEmpty (m : NameMap α) : Bool := m.entries.isEmpty

/-- The map of a list of entries; of entries with one name the last counts. -/
def ofList (es : List (String × α)) : NameMap α :=
  es.foldl (fun m e => m.insert e.1 e.2) empty

def map (f : α → β) (m : NameMap α) : NameMap β :=
  ⟨m.entries.map fun e => (e.1, f e.2), by
    have h : (m.entries.map fun e => (e.1, f e.2)).map Prod.fst = m.entries.map Prod.fst := by
      simp [List.map_map, Function.comp_def]
    simpa only [Entries.Ascending, Entries.names, h] using m.ascending⟩

/-- The entries whose name begins with `stem`, in name order. -/
def startingWith (m : NameMap α) (stem : String) : List (String × α) :=
  -- Names with a common beginning are neighbours in the order.
  (m.entries.dropWhile fun e => e.1 < stem).takeWhile fun e => beginsWith stem e.1

def eraseStartingWith (m : NameMap α) (stem : String) : NameMap α :=
  m.filter fun name _ => !beginsWith stem name

end NameMap

end MetadataArchive
