import Mathlib.Data.List.Induction
import Mathlib.Data.List.Sort
import Mathlib.Data.List.TakeWhile
import MetadataArchive.Collection.NameMap

/-!
# What a `NameMap` holds under a name

Every operation on a map is characterised by the one view that matters to the rest of the theory:
the value under a name. The entry list is opened here, and elsewhere only where order is the point.

Inserting needs no order for this. Leaving entries out does: where a name stood twice, leaving out
its first entry would bring the second to light. `Entries.Ascending` rules that out, and
`lookup_eq_some_iff` is the form in which the order is used. The order is used once more where names
that begin alike are looked for: they are neighbours (`NameMap.exists_stretch`), so that a scan may
end with the first name that begins otherwise.
-/

set_option autoImplicit false

namespace MetadataArchive

namespace Entries

variable {α β : Type} {es : List (String × α)} {k x : String} {v : α}

theorem lookup_cons (k x : String) (v : α) (es : List (String × α)) :
    ((k, v) :: es).lookup x = if x = k then some v else es.lookup x := by
  rw [List.lookup_cons]
  by_cases h : x = k
  · subst h; simp
  · rw [beq_false_of_ne h, if_neg h]

theorem lookup_insert (k x : String) (v : α) (es : List (String × α)) :
    (insert k v es).lookup x = if x = k then some v else es.lookup x := by
  induction es with
  | nil => rw [insert, lookup_cons]
  | cons e rest ih =>
    obtain ⟨k', v'⟩ := e
    simp only [insert]
    split
    · rw [lookup_cons]
    · split
      next _ heq =>
        subst heq
        by_cases h : x = k <;> simp [lookup_cons, h]
      next _ hne =>
        rw [lookup_cons, lookup_cons, ih]
        by_cases h : x = k'
        · subst h
          rw [if_pos rfl, if_neg fun heq => hne heq.symm, if_pos rfl]
        · rw [if_neg h, if_neg h]

/-- In an ascending list a name has at most one entry. -/
theorem lookup_eq_some_iff (h : Ascending es) : es.lookup k = some v ↔ (k, v) ∈ es := by
  induction es with
  | nil => simp
  | cons e rest ih =>
    obtain ⟨k', v'⟩ := e
    have hrest : Ascending rest := (List.pairwise_cons.1 h).2
    have hlt : ∀ x ∈ names rest, k' < x := (List.pairwise_cons.1 h).1
    rw [lookup_cons]
    by_cases hk : k = k'
    · subst hk
      have hnot : (k, v) ∉ rest := fun hm =>
        String.lt_irrefl k (hlt k (List.mem_map.2 ⟨(k, v), hm, rfl⟩))
      simp [hnot, eq_comm]
    · simp [hk, ih hrest]

theorem lookup_filter {p : String × α → Bool} (h : Ascending es) :
    (es.filter p).lookup k = (es.lookup k).filter fun v => p (k, v) := by
  apply Option.ext
  intro v
  rw [lookup_eq_some_iff h.filter, List.mem_filter, Option.filter_eq_some_iff,
    lookup_eq_some_iff h]

theorem mem_filterMap {f : String → α → Option β} {w : β} :
    (k, w) ∈ filterMap f es ↔ ∃ v, (k, v) ∈ es ∧ f k v = some w := by
  constructor
  · intro hm
    obtain ⟨⟨k', v⟩, hv, he⟩ := List.mem_filterMap.1 hm
    obtain ⟨w', hw, heq⟩ := Option.map_eq_some_iff.1 he
    cases heq
    exact ⟨v, hv, hw⟩
  · rintro ⟨v, hv, hw⟩
    exact List.mem_filterMap.2 ⟨(k, v), hv, by simp [hw]⟩

theorem lookup_filterMap {f : String → α → Option β} (h : Ascending es) :
    (filterMap f es).lookup k = (es.lookup k).bind (f k) := by
  apply Option.ext
  intro w
  rw [lookup_eq_some_iff h.filterMap, mem_filterMap, Option.bind_eq_some_iff]
  simp only [lookup_eq_some_iff h]

/-- Of names that are met in order it makes no difference which are there that `f` leaves out. -/
theorem filterMap_eq_of_ascending {f : String → Option β} {ks ks' : List String}
    (h : ks.Pairwise (· < ·)) (h' : ks'.Pairwise (· < ·))
    (hmem : ∀ x, f x ≠ none → (x ∈ ks ↔ x ∈ ks')) : ks.filterMap f = ks'.filterMap f := by
  have hirrefl : Std.Irrefl (α := String) (· < ·) := ⟨String.lt_irrefl⟩
  have hkept : ks.filter (fun x => (f x).isSome) = ks'.filter fun x => (f x).isSome := by
    apply List.Pairwise.eq_of_mem_iff (h.filter _) (h'.filter _)
    intro x
    simp only [List.mem_filter, Option.isSome_iff_ne_none]
    exact and_congr_left (hmem x)
  have hsome (l : List String) : l.filterMap f = (l.filter fun x => (f x).isSome).filterMap f := by
    rw [List.filterMap_filter]
    exact List.filterMap_congr fun x _ => by cases f x <;> simp
  rw [hsome ks, hkept, ← hsome ks']

/-- The values of an ascending list are those under its names. -/
theorem filterMap_values {f : α → Option β} (h : Ascending es) :
    (es.map Prod.snd).filterMap f = (names es).filterMap fun k => (es.lookup k).bind f := by
  rw [names, List.filterMap_map, List.filterMap_map]
  refine List.filterMap_congr fun e he => ?_
  have hlookup : es.lookup e.1 = some e.2 := (lookup_eq_some_iff h).2 he
  simp [hlookup]

/-- Two ascending lists with the same entries are the same. -/
theorem eq_of_mem_iff {es' : List (String × α)} (h : Ascending es) (h' : Ascending es')
    (hmem : ∀ e, e ∈ es ↔ e ∈ es') : es = es' := by
  have hirrefl : Std.Irrefl (α := String × α) (fun e f => e.1 < f.1) :=
    ⟨fun e => String.lt_irrefl e.1⟩
  exact List.Pairwise.eq_of_mem_iff (List.pairwise_map.1 h) (List.pairwise_map.1 h') hmem

/-- Where elements that fail a test are followed by such alone, dropping those in front that pass it
leaves none that passes. -/
theorem of_mem_dropWhile {p : α → Bool} {xs : List α} {y : α}
    (h : xs.Pairwise fun x y => p x = false → p y = false) (hy : y ∈ xs.dropWhile p) :
    p y = false := by
  induction xs with
  | nil => cases hy
  | cons x xs ih =>
    obtain ⟨hx, hxs⟩ := List.pairwise_cons.1 h
    rw [List.dropWhile_cons] at hy
    cases hp : p x with
    | true =>
      rw [if_pos hp] at hy
      exact ih hxs hy
    | false =>
      rw [hp, if_neg Bool.false_ne_true] at hy
      rcases List.mem_cons.1 hy with rfl | hy
      · exact hp
      · exact hx y hy hp

/-- What a scan leaves behind it is neither skipped nor taken, where that stands together: nothing
that is skipped comes after the point where skipping ends, and nothing that is taken after the point
where taking ends. -/
theorem of_mem_behind {skip take : α → Bool} {xs : List α} {y : α}
    (hfrom : xs.Pairwise fun x y => skip x = false → skip y = false)
    (huntil : xs.Pairwise fun x y => skip x = false → take x = false → take y = false)
    (hy : y ∈ (xs.dropWhile skip).dropWhile take) : skip y = false ∧ take y = false := by
  have hunskipped : ∀ x ∈ xs.dropWhile skip, skip x = false := fun _ => of_mem_dropWhile hfrom
  have hrest : (xs.dropWhile skip).Pairwise fun x y => take x = false → take y = false :=
    (huntil.sublist (List.dropWhile_sublist skip)).imp_of_mem fun hx _ h => h (hunskipped _ hx)
  exact ⟨hunskipped y ((List.dropWhile_sublist take).subset hy), of_mem_dropWhile hrest hy⟩

end Entries

/-! ## Names that begin alike -/

/-- A name that begins with a stem does not come before it. -/
theorem not_lt_of_beginsWith {stem k : String} (h : beginsWith stem k = true) : ¬ k < stem := by
  obtain ⟨rest, hrest⟩ := beginsWith_iff.1 h
  rw [String.lt_iff, ← hrest]
  exact List.not_lt.2 (List.le_append_left)

/-- Between a stem and a name that begins with it there are only names that begin with it. -/
theorem prefix_of_between : ∀ {stem xs rest : List Char},
    ¬ xs < stem → ¬ stem ++ rest < xs → stem <+: xs
  | [], xs, _, _, _ => List.nil_prefix
  | c :: stem, [], _, h, _ => absurd (List.nil_lt_cons c stem) h
  | c :: stem, x :: xs, rest, h, h' => by
    rw [List.cons_lt_cons_iff, not_or, not_and] at h
    rw [List.cons_append, List.cons_lt_cons_iff, not_or, not_and] at h'
    have hc : c = x := Char.le_antisymm (Char.not_lt.1 h.1) (Char.not_lt.1 h'.1)
    subst hc
    exact (List.prefix_cons_inj c).2 (prefix_of_between (h.2 rfl) (h'.2 rfl))

theorem lt_of_not_beginsWith {stem k : String} (hpast : ¬ k < stem)
    (hk : beginsWith stem k = false) : stem < k := by
  refine Decidable.byContradiction fun h => ?_
  have heq : k = stem := String.le_antisymm (String.not_lt.1 h) (String.not_lt.1 hpast)
  subst heq
  exact Bool.eq_false_iff.1 hk (beginsWith_iff.2 List.prefix_rfl)

/-- Where a name is past the stem and does not begin with it, no later one does. -/
theorem beginsWith_eq_false_of_lt {stem k k' : String} (hpast : ¬ k < stem)
    (hk : beginsWith stem k = false) (hlt : k < k') : beginsWith stem k' = false := by
  rw [Bool.eq_false_iff, ne_eq, beginsWith_iff] at hk ⊢
  rintro ⟨rest, hrest⟩
  have hbefore : ¬ stem.toList ++ rest < k.toList := by
    rw [hrest]
    exact fun h => String.lt_irrefl _ (String.lt_trans hlt h)
  refine hk (prefix_of_between ?_ hbefore)
  rwa [← String.lt_iff]

namespace NameMap

variable {α β : Type}

@[simp] theorem get?_empty (k : String) : (∅ : NameMap α).get? k = none := rfl

theorem get?_insert (m : NameMap α) (k x : String) (v : α) :
    (m.insert k v).get? x = if x = k then some v else m.get? x :=
  Entries.lookup_insert k x v m.entries

@[simp] theorem get?_insert_self (m : NameMap α) (k : String) (v : α) :
    (m.insert k v).get? k = some v := by
  simp [get?_insert]

theorem get?_insert_of_ne (m : NameMap α) {k x : String} (v : α) (h : x ≠ k) :
    (m.insert k v).get? x = m.get? x := by
  simp [get?_insert, h]

theorem get?_filter (m : NameMap α) (p : String → α → Bool) (k : String) :
    (m.filter p).get? k = (m.get? k).filter (p k) :=
  Entries.lookup_filter m.ascending

theorem get?_erase (m : NameMap α) (k x : String) :
    (m.erase k).get? x = if x = k then none else m.get? x := by
  unfold erase
  rw [get?_filter]
  by_cases h : x = k
  · cases hm : m.get? x <;> simp [h]
  · cases hm : m.get? x <;> simp [h]

theorem get?_eraseStartingWith (m : NameMap α) (stem k : String) :
    (m.eraseStartingWith stem).get? k = if beginsWith stem k then none else m.get? k := by
  unfold eraseStartingWith
  rw [get?_filter]
  cases m.get? k <;> cases beginsWith stem k <;> simp

theorem get?_filterMap (m : NameMap α) (f : String → α → Option β) (k : String) :
    (m.filterMap f).get? k = (m.get? k).bind (f k) :=
  Entries.lookup_filterMap m.ascending

theorem get?_map (f : α → β) (m : NameMap α) (k : String) :
    (m.map f).get? k = (m.get? k).map f := by
  simp only [get?, map]
  induction m.entries with
  | nil => rfl
  | cons e es ih =>
    rw [List.map_cons, Entries.lookup_cons, Entries.lookup_cons, ih]
    split <;> rfl

theorem mem_entries {m : NameMap α} {k : String} {v : α} :
    (k, v) ∈ m.entries ↔ m.get? k = some v :=
  (Entries.lookup_eq_some_iff m.ascending).symm

theorem mem_values {m : NameMap α} {v : α} : v ∈ m.values ↔ ∃ k, m.get? k = some v := by
  simp [values, ← mem_entries]

theorem mem_names {m : NameMap α} {k : String} : k ∈ m.names ↔ (m.get? k).isSome := by
  simp [names, Option.isSome_iff_exists, ← mem_entries]

theorem names_ascending (m : NameMap α) : m.names.Pairwise (· < ·) := m.ascending

theorem ofList_concat (es : List (String × α)) (e : String × α) :
    ofList (es ++ [e]) = (ofList es).insert e.1 e.2 := by
  simp [ofList]

theorem mem_names_ofList {es : List (String × α)} {k : String} :
    k ∈ (ofList es).names ↔ ∃ v, (k, v) ∈ es := by
  induction es using List.reverseRecOn with
  | nil => simp [ofList, names, empty]
  | append_singleton es e ih =>
    obtain ⟨k', v⟩ := e
    rw [mem_names, ofList_concat, get?_insert]
    rw [mem_names] at ih
    by_cases h : k = k'
    · subst h
      simp
    · simp [h, ih]

theorem mem_ofList_of_get? {es : List (String × α)} {k : String} {v : α}
    (h : (ofList es).get? k = some v) : (k, v) ∈ es := by
  induction es using List.reverseRecOn with
  | nil => cases h
  | append_singleton es e ih =>
    rw [ofList_concat, get?_insert] at h
    split at h
    next hk =>
      cases h
      simp [hk]
    next => exact List.mem_append_left _ (ih h)

/-- Maps that hold the same under every name are the same. -/
theorem ext_get? {m m' : NameMap α} (h : ∀ k, m.get? k = m'.get? k) : m = m' := by
  obtain ⟨es, hes⟩ := m
  obtain ⟨es', hes'⟩ := m'
  have heq : es = es' := Entries.eq_of_mem_iff hes hes' fun ⟨k, v⟩ => by
    rw [← Entries.lookup_eq_some_iff hes, ← Entries.lookup_eq_some_iff hes']
    exact Eq.congr_left (h k)
  subst heq
  rfl

theorem map_id (m : NameMap α) : m.map id = m :=
  ext_get? fun k => by rw [get?_map, Option.map_id, id]

theorem ofList_eq_of_mem_iff {es : List (String × α)} {m : NameMap α}
    (h : ∀ k v, (k, v) ∈ es ↔ m.get? k = some v) : ofList es = m := by
  refine ext_get? fun k => Option.ext fun v => ?_
  rw [← h]
  refine ⟨mem_ofList_of_get?, fun hmem => ?_⟩
  -- Some value of the name is held, and it is the only one that there is.
  obtain ⟨w, hw⟩ := Option.isSome_iff_exists.1 (mem_names.1 (mem_names_ofList.2 ⟨v, hmem⟩))
  have hkv := (h k v).1 hmem
  rw [(h k w).1 (mem_ofList_of_get? hw), Option.some.injEq] at hkv
  rwa [← hkv]

/-- A map is the map of its entries. -/
theorem ofList_entries (m : NameMap α) : ofList m.entries = m :=
  ofList_eq_of_mem_iff fun _ _ => mem_entries

/-- **Names that begin alike are neighbours.** In front of what a scan yields there are names that
are less than the stem, and behind it greater ones that do not begin with the stem. -/
theorem exists_stretch (m : NameMap α) (stem : String) :
    ∃ front back, m.entries = front ++ m.startingWith stem ++ back ∧
      (∀ e ∈ front, e.1 < stem) ∧ ∀ e ∈ back, stem < e.1 ∧ beginsWith stem e.1 = false := by
  have hasc : m.entries.Pairwise fun e f => e.1 < f.1 := List.pairwise_map.1 m.ascending
  refine ⟨m.entries.takeWhile fun e => e.1 < stem,
    (m.entries.dropWhile fun e => e.1 < stem).dropWhile fun e => beginsWith stem e.1,
    ?parts, fun e he => ?front, fun e he => ?back⟩
  case parts =>
    rw [List.append_assoc, startingWith, List.takeWhile_append_dropWhile,
      List.takeWhile_append_dropWhile]
  case front =>
    have hskipped := List.mem_takeWhile_imp he
    exact of_decide_eq_true hskipped
  case back =>
    have hfrom : m.entries.Pairwise fun e f =>
        decide (e.1 < stem) = false → decide (f.1 < stem) = false :=
      hasc.imp fun hlt hskip => by
        simp only [decide_eq_false_iff_not] at hskip ⊢
        exact fun h => hskip (String.lt_trans hlt h)
    have huntil : m.entries.Pairwise fun e f => decide (e.1 < stem) = false →
        beginsWith stem e.1 = false → beginsWith stem f.1 = false :=
      hasc.imp fun hlt hskip htake => beginsWith_eq_false_of_lt (of_decide_eq_false hskip) htake hlt
    obtain ⟨hskip, htake⟩ := Entries.of_mem_behind hfrom huntil he
    exact ⟨lt_of_not_beginsWith (of_decide_eq_false hskip) htake, htake⟩

/-- **A scan over names that begin alike** meets all of them. -/
theorem startingWith_eq (m : NameMap α) (stem : String) :
    m.startingWith stem = m.entries.filter fun e => beginsWith stem e.1 := by
  obtain ⟨front, back, hparts, hfront, hback⟩ := m.exists_stretch stem
  have hfound : ∀ e ∈ m.startingWith stem, beginsWith stem e.1 = true := fun e he =>
    List.mem_takeWhile_imp (p := fun e : String × α => beginsWith stem e.1) he
  have hnone : ∀ es : List (String × α), (∀ e ∈ es, ¬ beginsWith stem e.1 = true) →
      es.filter (fun e => beginsWith stem e.1) = [] := fun es => List.filter_eq_nil_iff.2
  rw [hparts, List.filter_append, List.filter_append, List.filter_eq_self.2 hfound,
    hnone front fun e he h => not_lt_of_beginsWith h (hfront e he),
    hnone back fun e he => Bool.eq_false_iff.1 (hback e he).2, List.nil_append, List.append_nil]

theorem mem_startingWith {m : NameMap α} {stem k : String} {v : α} :
    (k, v) ∈ m.startingWith stem ↔ beginsWith stem k = true ∧ m.get? k = some v := by
  rw [startingWith_eq, List.mem_filter, mem_entries, and_comm]

theorem startingWith_ascending (m : NameMap α) (stem : String) :
    Entries.Ascending (m.startingWith stem) := by
  rw [startingWith_eq]
  exact m.ascending.filter

theorem startingWith_congr {m m' : NameMap α} {stem : String}
    (h : ∀ k, beginsWith stem k = true → m.get? k = m'.get? k) :
    m.startingWith stem = m'.startingWith stem := by
  refine Entries.eq_of_mem_iff (m.startingWith_ascending stem) (m'.startingWith_ascending stem)
    fun ⟨k, v⟩ => ?_
  rw [mem_startingWith, mem_startingWith]
  exact and_congr_right fun hk => by rw [h k hk]

/-- The values of a map are those under its names. -/
theorem filterMap_values (m : NameMap α) (f : α → Option β) :
    m.values.filterMap f = m.names.filterMap fun k => (m.get? k).bind f :=
  Entries.filterMap_values m.ascending

end NameMap

end MetadataArchive
