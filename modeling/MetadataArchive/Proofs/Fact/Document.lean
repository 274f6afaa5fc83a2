import MetadataArchive.Proofs.Collection.NameMap
import MetadataArchive.Record.Storage

/-!
# What a document holds under a name

Documents are built by setting attributes, one after the other. What is found under a name was set
under it last, and all that was set under other names does not matter.
-/

set_option autoImplicit false

namespace MetadataArchive

/-- What is found under a name where a value was set: a null is no value. -/
def Value.stored? : Value → Option Value
  | .null => none
  | v => some v

theorem beginsWith_of_append {stem k : String} (more : String)
    (h : beginsWith (stem ++ more) k = true) : beginsWith stem k = true := by
  rw [beginsWith_iff, String.toList_append] at *
  exact (List.prefix_append _ _).trans h

theorem beginsWith_append (stem more : String) : beginsWith stem (stem ++ more) = true := by
  rw [beginsWith_iff, String.toList_append]
  exact List.prefix_append _ _

theorem beginsWith_iff_exists {stem k : String} :
    beginsWith stem k = true ↔ ∃ more, k = stem ++ more := by
  constructor
  · intro h
    obtain ⟨rest, hrest⟩ := beginsWith_iff.1 h
    refine ⟨String.ofList rest, String.toList_inj.1 ?_⟩
    rw [String.toList_append, String.toList_ofList, hrest]
  · rintro ⟨more, rfl⟩
    exact beginsWith_append stem more

/-- Of two beginnings one begins the other, or no name has both. -/
theorem beginsWith_eq_false {stem other k : String} (h : beginsWith stem k = true)
    (hstem : beginsWith stem other = false) (hother : beginsWith other stem = false) :
    beginsWith other k = false := by
  rw [Bool.eq_false_iff, ne_eq, beginsWith_iff] at *
  intro hk
  exact (List.prefix_or_prefix_of_prefix h hk).elim hstem hother

namespace Document

variable {d : Document} {k name stem : String} {v : Value} {fields : List (String × Value)}

@[simp] theorem ofId_id (id : DocId) : (ofId id).id = id := rfl

@[simp] theorem get?_ofId (id : DocId) (k : String) : (ofId id).get? k = none := rfl

@[simp] theorem set_id (d : Document) (name : String) (v : Value) : (d.set name v).id = d.id := by
  cases v <;> rfl

@[simp] theorem setAll_id (d : Document) (fields : List (String × Value)) :
    (d.setAll fields).id = d.id := by
  induction fields generalizing d with
  | nil => rfl
  | cons f fields ih => rw [setAll, List.foldl_cons, ← setAll, ih, set_id]

@[simp] theorem eraseStartingWith_id (d : Document) (stem : String) :
    (d.eraseStartingWith stem).id = d.id := rfl

theorem get?_set (d : Document) (name : String) (v : Value) (k : String) :
    (d.set name v).get? k = if k = name then v.stored? else d.get? k := by
  cases v <;> first | exact NameMap.get?_erase _ _ _ | exact NameMap.get?_insert _ _ _ _

theorem get?_set_of_ne (h : k ≠ name) : (d.set name v).get? k = d.get? k := by
  rw [get?_set, if_neg h]

theorem get?_eraseStartingWith (d : Document) (stem k : String) :
    (d.eraseStartingWith stem).get? k = if beginsWith stem k then none else d.get? k :=
  NameMap.get?_eraseStartingWith _ _ _

theorem setAll_cons (d : Document) (f : String × Value) (fields : List (String × Value)) :
    d.setAll (f :: fields) = (d.set f.1 f.2).setAll fields := rfl

theorem get?_setAll_of_not_mem (h : k ∉ fields.map Prod.fst) :
    (d.setAll fields).get? k = d.get? k := by
  induction fields generalizing d with
  | nil => rfl
  | cons f fields ih =>
    rw [List.map_cons, List.mem_cons, not_or] at h
    rw [setAll_cons, ih h.2, get?_set_of_ne h.1]

/-- What an attribute holds was there before or was set. -/
theorem get?_setAll_eq_some (h : (d.setAll fields).get? k = some v) :
    d.get? k = some v ∨ ∃ w, (k, w) ∈ fields ∧ w.stored? = some v := by
  induction fields generalizing d with
  | nil => exact Or.inl h
  | cons f fields ih =>
    rw [setAll_cons] at h
    rcases ih h with hset | ⟨w, hw, hv⟩
    · rw [get?_set] at hset
      by_cases hk : k = f.1
      · rw [if_pos hk] at hset
        exact Or.inr ⟨f.2, hk ▸ List.mem_cons_self, hset⟩
      · rw [if_neg hk] at hset
        exact Or.inl hset
    · exact Or.inr ⟨w, List.mem_cons_of_mem _ hw, hv⟩

/-- What is set and is no null is there. -/
theorem get?_setAll_ne_none (hmem : k ∈ fields.map Prod.fst)
    (hvalue : ∀ w, (k, w) ∈ fields → w.stored? ≠ none) : (d.setAll fields).get? k ≠ none := by
  induction fields generalizing d with
  | nil => cases hmem
  | cons f fields ih =>
    rw [setAll_cons]
    by_cases hk : k ∈ fields.map Prod.fst
    · exact ih hk fun w hw => hvalue w (List.mem_cons_of_mem _ hw)
    · have hkf : k = f.1 := (List.mem_cons.1 hmem).resolve_right hk
      rw [get?_setAll_of_not_mem hk, get?_set, if_pos hkf]
      exact hvalue f.2 (hkf ▸ List.mem_cons_self)

/-- Where one value alone is set under a name, the attribute holds it. -/
theorem get?_setAll_of_unique (hmem : (k, v) ∈ fields) (honly : ∀ w, (k, w) ∈ fields → w = v) :
    (d.setAll fields).get? k = v.stored? := by
  induction fields generalizing d with
  | nil => cases hmem
  | cons f fields ih =>
    rw [setAll_cons]
    have honly' : ∀ w, (k, w) ∈ fields → w = v := fun w hw => honly w (List.mem_cons_of_mem _ hw)
    by_cases hk : k ∈ fields.map Prod.fst
    · obtain ⟨⟨_, w⟩, hw, rfl⟩ := List.mem_map.1 hk
      exact ih (honly' w hw ▸ hw) honly'
    · rw [get?_setAll_of_not_mem hk, get?_set]
      rcases List.mem_cons.1 hmem with rfl | hmem
      · rw [if_pos rfl]
      · exact absurd (List.mem_map.2 ⟨_, hmem, rfl⟩) hk

/-- Where names differ, each attribute holds what was set. -/
theorem get?_setAll (hnodup : (fields.map Prod.fst).Nodup) (hmem : (k, v) ∈ fields) :
    (d.setAll fields).get? k = v.stored? :=
  get?_setAll_of_unique hmem fun _ hw =>
    (Prod.ext_iff.1 (List.inj_on_of_nodup_map hnodup hw hmem rfl)).2

theorem mem_startingWith : (k, v) ∈ d.startingWith stem ↔
    beginsWith stem k = true ∧ d.get? k = some v :=
  NameMap.mem_startingWith

theorem startingWith_congr {d' : Document}
    (h : ∀ k, beginsWith stem k = true → d.get? k = d'.get? k) :
    d.startingWith stem = d'.startingWith stem :=
  NameMap.startingWith_congr h

end Document

end MetadataArchive
