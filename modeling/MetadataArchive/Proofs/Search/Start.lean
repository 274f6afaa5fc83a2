import MetadataArchive.Proofs.Search.Filter

/-!
# What a query starts from

Before its first clause a query has nothing, and behind it one binding for each document that the
clause is about: those of a category, or some that are known beforehand. What follows selects among
them.
-/

set_option autoImplicit false

namespace MetadataArchive

open Binding

variable {ts : TypeSystem} {src : Source} {stored : DocId → Option StoredRecord}
variable {P : StoredRecord → Prop} {limit : Option Nat} {record : Var} {id : DocId}
variable {ids : List DocId} {category : TypeCategory}

/-! ## Single documents -/

/-- A binding of one document and nothing else. -/
def Binding.single (record : Var) (id : DocId) : Binding := NameMap.insert ∅ record (.ref id)

@[simp] theorem Binding.get?_single (record : Var) (id : DocId) :
    (single record id).get? record = some (.ref id) := NameMap.get?_insert_self _ _ _

theorem Binding.get?_single_of_ne {x : Var} (h : x ≠ record) (id : DocId) :
    (single record id).get? x = none := by
  rw [single, NameMap.get?_insert_of_ne _ _ h, NameMap.get?_empty]

theorem Binding.named_map_single (record : Var) (ids : List DocId) :
    named record (ids.map (single record)) = ids := by
  induction ids with
  | nil => rfl
  | cons id ids ih => rw [List.map_cons, named_cons (get?_single record id), ih]

/-- A variable that is not numbered leaves all numbered ones free. -/
theorem Binding.free_single (hrecord : ∀ n, record ≠ Var.numbered n) (id : DocId) (n : Nat) :
    (single record id).Free n :=
  fun k _ => get?_single_of_ne (hrecord k).symm id

theorem Binding.ready_single {ι : Type} {about : DocId → ι → Prop} {i : ι} (hi : about id i)
    (hrecord : ∀ n, record ≠ Var.numbered n) (n : Nat) :
    (single record id).Ready about record n :=
  ⟨⟨i, id, get?_single record id, hi⟩, free_single hrecord id n⟩

/-- The variables of records are not numbered. -/
theorem Var.ne_numbered {x : Var} (h : x.toList[1]? ≠ some 'v') (n : Nat) : x ≠ Var.numbered n := by
  rintro rfl
  exact h (by simp [Var.numbered_eq, String.toList_append])

theorem entityVar_ne_numbered (n : Nat) : entityVar ≠ Var.numbered n :=
  Var.ne_numbered (by decide) n

theorem relationshipVar_ne_numbered (n : Nat) : relationshipVar ≠ Var.numbered n :=
  Var.ne_numbered (by decide) n

/-! ## First clauses -/

/-- A list of documents is bound one by one. -/
theorem Clause.eval_oneOf_empty (hl : limit ≠ some 0) (ids : List DocId) :
    Clause.eval src limit (.oneOf record (ids.map .ref)) [∅] = .ok (ids.map (single record)) := by
  rw [Clause.eval_of_time hl]
  simp only [List.flatMap_singleton, bindOneOf, NameMap.get?_empty, List.map_map]
  rfl

/-- Of documents that are bound a clause about a value keeps those that have it. -/
theorem Clause.eval_attrEq_single (hl : limit ≠ some 0) (a : String) (w : Value)
    (ids : List DocId) :
    ∃ kept : List DocId, Clause.eval src limit (.attrEq record a w) (ids.map (single record)) =
        .ok (kept.map (single record)) ∧
      ∀ id, id ∈ kept ↔ id ∈ ids ∧ ∃ d, src.document? id = some d ∧
        ((d.elements a).any fun x => x.same w) = true := by
  have hmatch (id : DocId) (xs : List Value) :
      xs.filterMap ((Term.const w).unify (single record id)) =
        ((xs.filter fun x => x.same w).map fun _ => id).map (single record) := by
    induction xs with
    | nil => rfl
    | cons x xs ih =>
      rw [List.filterMap_cons, List.filter_cons]
      cases hx : x.same w
      · simpa [Term.unify, hx] using ih
      · simpa [Term.unify, hx] using ih
  refine ⟨ids.flatMap fun id => (src.document? id).toList.flatMap fun d =>
    ((d.elements a).filter fun x => x.same w).map fun _ => id, ?_, fun id => ?_⟩
  · rw [Clause.attrEq, Clause.eval_pattern hl, List.flatMap_map, List.map_flatMap]
    refine congrArg _ (congrArg (fun f => ids.flatMap f) (funext fun id => ?_))
    cases hd : src.document? id with
    | none => simp [matchPattern, Term.candidates, get?_single, hd]
    | some d =>
      rw [matchPattern_of_bound (get?_single record id) hd, hmatch]
      simp
  · simp only [List.mem_flatMap, List.mem_map, List.mem_filter, List.any_eq_true,
      Option.mem_toList]
    constructor
    · rintro ⟨id', hid, d, hd, x, hx, rfl⟩
      exact ⟨hid, d, hd, x, hx⟩
    · rintro ⟨hid, d, hd, x, hx⟩
      exact ⟨id, hid, d, hd, x, hx, rfl⟩

/-- The documents of a category are those of records of its types. -/
theorem Source.Stores.category_iff (h : src.Stores ts stored) :
    (∃ d, src.document? id = some d ∧ ((d.elements Attr.typeCategory).any fun x =>
      x.same (.str category.name)) = true) ↔ ∃ r, stored id = some r ∧ r.isOf ts category = true := by
  have hsame {r : StoredRecord} {d : Document} (hr : stored id = some r)
      (hd : r.toDocument ts = .ok d) : ((d.elements Attr.typeCategory).any fun x =>
        x.same (.str category.name)) = r.isOf ts category := by
    obtain ⟨t, ht⟩ := h.known id r hr
    rw [(StoredRecord.elements_type hd ht).1, StoredRecord.isOf, ht, Bool.eq_iff_iff]
    simp only [List.any_cons, List.any_nil, Bool.or_false, Value.same_str, Value.str.injEq,
      Option.any_some, decide_eq_true_eq]
    exact ⟨TypeCategory.name_injective, congrArg _⟩
  constructor
  · rintro ⟨d, hd, hcategory⟩
    obtain ⟨r, hr, hdoc⟩ := h.of_document hd
    exact ⟨r, hr, hsame hr hdoc ▸ hcategory⟩
  · rintro ⟨r, hr, hcategory⟩
    obtain ⟨d, hdoc, hd⟩ := h.of_stored hr
    exact ⟨d, hd, hsame hr hdoc ▸ hcategory⟩

/-- **A selection of single documents** finds those whose records pass. -/
theorem Selects.of_single {f : List Binding → Except StoreError (List Binding)} {hi : Nat}
    {p : StoredRecord → Bool} (h : Selects (StoredAs stored P) record 0 hi f p)
    (hrecord : ∀ n, record ≠ Var.numbered n) (hids : ∀ id ∈ ids, ∃ r, stored id = some r ∧ P r) :
    ∃ found, f (ids.map (single record)) = .ok found ∧ AllNamed record found ∧
      ∀ id, id ∈ named record found ↔ id ∈ ids ∧ ∃ r, stored id = some r ∧ P r ∧ p r = true := by
  have hready : ∀ b ∈ ids.map (single record), b.Ready (StoredAs stored P) record 0 := by
    intro b hb
    obtain ⟨id, hid, rfl⟩ := List.mem_map.1 hb
    obtain ⟨r, hr⟩ := hids id hid
    exact ready_single hr hrecord 0
  obtain ⟨found, hfound⟩ := h.exists_ok hready
  have hkeeps {b : Binding} (hb : b ∈ found) : ∃ id ∈ ids, b.get? record = some (.ref id) := by
    obtain ⟨-, b₀, hb₀, hsame⟩ := h.keeps hready hfound b hb
    obtain ⟨id, hid, rfl⟩ := List.mem_map.1 hb₀
    exact ⟨id, hid, hsame.trans (get?_single record id)⟩
  refine ⟨found, hfound, fun b hb => ?_, fun id => ?_⟩
  · obtain ⟨id, -, hid⟩ := hkeeps hb
    exact ⟨id, hid⟩
  · have hmem {r : StoredRecord} (hr : StoredAs stored P id r) :
        id ∈ named record found ↔ id ∈ ids ∧ p r = true := by
      rw [h.mem_named hready hfound hr, named_map_single]
    constructor
    · intro hid
      obtain ⟨b, hb, hbound⟩ := Binding.mem_named.1 hid
      obtain ⟨id', hin, hid'⟩ := hkeeps hb
      rw [hbound, Option.some.injEq, Value.ref.injEq] at hid'
      subst hid'
      obtain ⟨r, hr⟩ := hids id hin
      exact ⟨hin, r, hr.1, hr.2, ((hmem hr).1 hid).2⟩
    · rintro ⟨hin, r, hr, hP, hp⟩
      exact (hmem ⟨hr, hP⟩).2 ⟨hin, hp⟩

end MetadataArchive
