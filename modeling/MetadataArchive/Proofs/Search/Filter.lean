import MetadataArchive.Proofs.Record.Stored
import MetadataArchive.Proofs.Search.Category
import MetadataArchive.Proofs.Search.Comparison
import MetadataArchive.Proofs.Search.Selection

/-!
# What filters admit

Filters look at what every record carries: its type, its status, whether it is a proxy and what its
ends are. Of whatever documents, the clauses of a filter select those that have what it looks at; in
a store that was written from records, these are the records that it admits. That a record is
admitted by a filter of types is said by names, and asked for by guids: the two agree because no two
types have one guid, and because the document of a record has the guids of all ancestors of its type.
-/

set_option autoImplicit false

namespace MetadataArchive

/-! ## Filters -/

namespace TypeFilter

/-- The types that a filter names. -/
def names : Option TypeFilter → List String
  | none => []
  | some (subtypes name) => [name]
  | some (anyOf names) => names

/-- Whether records of a type are wanted. -/
def admits (ts : TypeSystem) (filter : Option TypeFilter) (typeName : String) : Bool :=
  match filter with
  | none | some (anyOf []) => true
  | some (subtypes name) => ts.isSubtypeOf typeName name
  | some (anyOf names) => names.contains typeName

/-- Whether records that say that they are of a type are wanted: where types are listed their guid
counts, and not their name. -/
def takes (ts : TypeSystem) (filter : Option TypeFilter) (t : TypeRef) : Bool :=
  match filter with
  | none | some (anyOf []) => true
  | some (subtypes name) => ts.isSubtypeOf t.name name
  | some (anyOf names) => names.any fun name => (ts.get? name).any fun d => d.guid == t.guid

end TypeFilter

/-- Whether records of a status are wanted. -/
def StatusFilter.admits (f : StatusFilter) (status : Status) : Bool :=
  match f with
  | .all => true
  | .present | .only [] => status != .deleted
  | .only statuses => statuses.contains status

namespace TypeSystem

variable {ts : TypeSystem} {filter : Option TypeFilter} {category : TypeCategory} {record : Var}
variable {name : String} {d : TypeDef} {e : SearchError} {clauses : List Clause}
variable {candidates : List String}

theorem filterType_ok :
    ts.filterType category name = .ok d ↔ ts.get? name = some d ∧ d.category = category := by
  unfold filterType
  cases ts.get? name with
  | none => simp
  | some t =>
    by_cases h : t.category = category
    · simp only [h, if_true, Except.ok.injEq, Option.some.injEq]
      exact ⟨fun heq => ⟨heq, heq ▸ h⟩, fun heq => heq.1⟩
    · simp only [h, if_false, reduceCtorEq, Option.some.injEq, false_iff, not_and]
      exact fun heq => heq ▸ h

/-- A filter is refused for a type that it names: if all of these are known, for one that is of
another category. -/
theorem typeClauses_error
    (hknown : ∀ name ∈ TypeFilter.names filter, (ts.get? name).isSome = true)
    (h : ts.typeClauses filter category record = .error e) :
    ∃ name ∈ TypeFilter.names filter, ∃ d, ts.get? name = some d ∧ d.category ≠ category ∧
      e = .wrongCategory name category.name := by
  suffices hrefused : ∃ name ∈ TypeFilter.names filter, ts.filterType category name = .error e by
    obtain ⟨name, hname, hrefused⟩ := hrefused
    obtain ⟨d, hd⟩ := Option.isSome_iff_exists.1 (hknown name hname)
    rw [filterType, hd] at hrefused
    dsimp only at hrefused
    split at hrefused
    · cases hrefused
    next hother =>
      cases hrefused
      exact ⟨name, hname, d, hd, hother, rfl⟩
  unfold typeClauses at h
  split at h
  · cases h
  · cases h
  next name =>
    refine ⟨name, List.mem_singleton_self _, ?_⟩
    rcases bind_eq_error.1 h with h | ⟨d, hd, h⟩
    · exact h
    · -- A type that passes is known, and so are its subtypes.
      have hsubtypes : (ts.subtypesOf name).mapError SearchError.record =
          .ok (ts.types.values.filter fun d => ts.isSubtypeOf d.name name) := by
        simp [subtypesOf, require, (filterType_ok.1 hd).1, ok_bind, mapError_ok]
      rw [hsubtypes] at h
      cases h
  · rcases bind_eq_error.1 h with h | ⟨ds, -, h⟩
    · exact mapM_error h
    · cases h

/-- All types that an accepted filter names are known, and of the category that is searched. -/
theorem typeClauses_known (h : ts.typeClauses filter category record = .ok (clauses, candidates))
    (hname : name ∈ TypeFilter.names filter) :
    ∃ t, ts.get? name = some t ∧ t.category = category := by
  suffices haccepted : ∃ t, ts.filterType category name = .ok t from
    haccepted.imp fun _ ht => filterType_ok.1 ht
  unfold typeClauses at h
  split at h
  · cases hname
  · cases hname
  · obtain rfl := List.mem_singleton.1 hname
    simp only [bind_eq_ok] at h
    obtain ⟨t, ht, -⟩ := h
    exact ⟨t, ht⟩
  · simp only [bind_eq_ok] at h
    obtain ⟨ds, hds, -⟩ := h
    exact exists_mapM_eq_ok_iff.1 ⟨ds, hds⟩ name hname

theorem typeClauses_category (h : ts.typeClauses filter category record = .ok (clauses, candidates))
    (hname : name ∈ TypeFilter.names filter) (hd : ts.get? name = some d) :
    d.category = category := by
  obtain ⟨t, ht, hcategory⟩ := typeClauses_known h hname
  rwa [Option.some.inj (hd.symm.trans ht)]

end TypeSystem

/-! ## Filters of documents -/

/-- Whether a document is of a type that is wanted, as the guids in it tell. -/
def TypeFilter.takesIn (ts : TypeSystem) (filter : Option TypeFilter) (d : Document) : Bool :=
  match filter with
  | none | some (anyOf []) => true
  | some (subtypes name) => (ts.get? name).any fun t => d.has Attr.typeSupers (.str t.guid)
  | some (anyOf names) =>
      names.any fun name => (ts.get? name).any fun t => d.has Attr.typeId (.str t.guid)

/-- Whether a document has a status that is wanted. -/
def StatusFilter.admitsIn (f : StatusFilter) (d : Document) : Bool :=
  let has (s : Status) : Bool := d.has Attr.status (.str s.name)
  match f with
  | .all => true
  | .present | .only [] => !has .deleted
  | .only statuses => statuses.any has

section

variable {ts : TypeSystem} {src : Source} {limit : Option Nat} {record : Var} {n : Nat}

variable (hl : limit ≠ some 0)

include hl

/-- To ask for a value of an attribute is to ask whether a document has it. -/
theorem Selects.has (a : String) (w : Value) :
    Selects src.Holds record n n (Clause.eval src limit (.attrEq record a w))
      fun d => d.has a w :=
  Judges.attrEq hl a w

/-- One of several values of an attribute. -/
theorem Selects.has_any {α : Type} (a : α → String) (w : α → Value) (xs : List α) :
    Selects src.Holds record n n
      (Clause.evalAny src limit (xs.map fun x => .attrEq record (a x) (w x)))
      fun d => xs.any fun x => d.has (a x) (w x) :=
  Selects.evalAny_map (fun x => Selects.has hl (a x) (w x)) (Nat.le_refl n) xs

/-- **The clauses of a filter of types select by type**, behind the one that binds the record. -/
theorem Selects.typeClauses_in {filter : Option TypeFilter} {category : TypeCategory}
    {clauses : List Clause} {candidates : List String}
    (hclauses : ts.typeClauses filter category record = .ok (clauses, candidates)) :
    ∃ rest, clauses = .attrEq record Attr.typeCategory (.str category.name) :: rest ∧
      Selects src.Holds record n n (Clause.evalAll src limit rest)
        (TypeFilter.takesIn ts filter) := by
  unfold TypeSystem.typeClauses at hclauses
  split at hclauses
  · cases hclauses
    exact ⟨[], rfl, .evalAll_nil n⟩
  · cases hclauses
    exact ⟨[], rfl, .evalAll_nil n⟩
  next name =>
    simp only [bind_eq_ok, Except.ok.injEq, Prod.mk.injEq] at hclauses
    obtain ⟨t, ht, _, -, rfl, -⟩ := hclauses
    refine ⟨_, rfl, Selects.congr (Selects.singleton hl (Selects.has hl _ _)) fun id d _ => ?_⟩
    rw [TypeFilter.takesIn, (TypeSystem.filterType_ok.1 ht).1]
    rfl
  next names hnames =>
    simp only [bind_eq_ok, Except.ok.injEq, Prod.mk.injEq] at hclauses
    obtain ⟨types, htypes, rfl, -⟩ := hclauses
    have hany : Selects src.Holds record n n (Clause.eval src limit (.disjunction
        (types.map fun t => .attrEq record Attr.typeId (.str t.guid))))
        fun d => types.any fun t => d.has Attr.typeId (.str t.guid) :=
      Judges.disjunction hl (Selects.has_any hl (fun _ => Attr.typeId)
        (fun t : TypeDef => .str t.guid) types)
    refine ⟨_, rfl, Selects.congr (Selects.singleton hl hany) fun id d _ => ?_⟩
    -- The guids are those of the types that have the names.
    have htakes : TypeFilter.takesIn ts (some (.anyOf names)) d =
        names.any fun name => (ts.get? name).any fun t => d.has Attr.typeId (.str t.guid) := by
      cases names with
      | nil => exact (hnames rfl).elim
      | cons name names => rfl
    rw [htakes, Bool.eq_iff_iff, List.any_eq_true, List.any_eq_true]
    constructor
    · rintro ⟨t, ht, hsame⟩
      obtain ⟨name, hname, hknown⟩ := exists_of_mapM htypes ht
      exact ⟨name, hname, by rw [(TypeSystem.filterType_ok.1 hknown).1]; exact hsame⟩
    · rintro ⟨name, hname, hsame⟩
      obtain ⟨t, ht, hknown⟩ := exists_of_mem_mapM htypes hname
      rw [(TypeSystem.filterType_ok.1 hknown).1] at hsame
      exact ⟨t, ht, hsame⟩

/-- **The clauses of a filter of statuses select by status.** -/
theorem Selects.statusClauses_in (f : StatusFilter) :
    Selects src.Holds record n n (Clause.evalAll src limit (f.clauses record)) f.admitsIn := by
  have hpresent : Selects src.Holds record n n
      (Clause.evalAll src limit [.not [.attrEq record Attr.status (.str Status.deleted.name)]])
      fun d => !d.has Attr.status (.str Status.deleted.name) :=
    Selects.singleton hl (Selects.not hl (Selects.singleton hl (Selects.has hl _ _)))
  match f with
  | .all => exact .evalAll_nil n
  | .present => exact hpresent
  | .only [] => exact hpresent
  | .only (s :: ss) =>
    exact Selects.singleton hl (Judges.disjunction hl
      (Selects.has_any hl (fun _ => Attr.status) (fun s : Status => .str s.name) (s :: ss)))

/-- Relationships are found by either end. -/
theorem Selects.touches_in (ref : RecordRef) :
    Selects src.Holds record n n (Clause.eval src limit (MetadataArchive.touches record ref))
      fun d => [End.one, End.two].any fun e => d.has (Attr.side e) (.ref ref.docId) := by
  have hsides : Selects src.Holds record n n (Clause.evalAny src limit
      ([End.one, End.two].map fun e => .attrEq record (Attr.side e) (.ref ref.docId)))
      fun d => [End.one, End.two].any fun e => d.has (Attr.side e) (.ref ref.docId) :=
    Selects.has_any hl Attr.side (fun _ => .ref ref.docId) _
  exact Selects.or hl hsides

end

/-! ## Filters of stored records -/

/-- A record that a condition holds of is stored under a key. -/
def StoredAs (stored : DocId → Option StoredRecord) (P : StoredRecord → Prop) (id : DocId)
    (r : StoredRecord) : Prop :=
  stored id = some r ∧ P r

section

variable {ts : TypeSystem} {src : Source} {stored : DocId → Option StoredRecord}
variable {P : StoredRecord → Prop} {limit : Option Nat} {record : Var} {n : Nat}

/-- Clauses behind others have to do with the records that have passed. -/
theorem Selects.append_stored {Q : StoredRecord → Prop} {lo mid hi : Nat} {cs cs' : List Clause}
    {p q : StoredRecord → Bool}
    (h : Selects (StoredAs stored P) record lo mid (Clause.evalAll src limit cs) p)
    (h' : Selects (StoredAs stored Q) record mid hi (Clause.evalAll src limit cs') q)
    (hpass : ∀ id r, stored id = some r → P r → p r = true → Q r) :
    Selects (StoredAs stored P) record lo hi (Clause.evalAll src limit (cs ++ cs'))
      fun r => p r && q r := by
  refine Selects.evalAll_append h h' (fun id r hr hp => ⟨r, hr.1, hpass id r hr.1 hr.2 hp⟩) ?_
  rintro id r r' ⟨hr, -⟩ ⟨hr', -⟩
  rw [Option.some.inj (hr.symm.trans hr')]

/-- What documents are selected by is what the records tell that they were written from. -/
theorem Selects.of_documents (h : src.Stores ts stored) {lo hi : Nat}
    {f : List Binding → Except StoreError (List Binding)} {p : Document → Bool}
    {q : StoredRecord → Bool} (hf : Selects src.Holds record lo hi f p)
    (hpq : ∀ id r d, stored id = some r → P r → r.toDocument ts = .ok d → p d = q r) :
    Selects (StoredAs stored P) record lo hi f q := by
  refine Selects.transfer hf (fun id r hr => ?_) fun id r d hr hd => ?_
  · obtain ⟨d, -, hd⟩ := h.of_stored hr.1
    exact ⟨d, hd⟩
  · obtain ⟨r', hr', hd'⟩ := h.of_document hd
    cases hr.1.symm.trans hr'
    exact hpq id r d hr.1 hr.2 hd'

/-- To ask for a value of an attribute is to ask of a record what its document tells by it. -/
theorem Selects.attrEq (h : src.Stores ts stored) (hl : limit ≠ some 0) {a : String} {w : Value}
    {p : StoredRecord → Bool}
    (hp : ∀ id r d, stored id = some r → r.toDocument ts = .ok d → d.has a w = p r) :
    Selects (StoredAs stored P) record n n (Clause.eval src limit (.attrEq record a w)) p :=
  Selects.of_documents h (Selects.has hl a w) fun id r d hr _ hd => hp id r d hr hd

theorem TypeFilter.takesIn_eq_takes (hts : ts.Named) (hguids : ts.Distinct)
    (hknown : ∀ id r, stored id = some r → ∃ t, ts.get? r.typeName = some t)
    {filter : Option TypeFilter} (hfilter : ∀ name ∈ names filter, ∃ t, ts.get? name = some t)
    {id : DocId} {r : StoredRecord} {d : Document} (hr : stored id = some r)
    (hd : r.toDocument ts = .ok d) : takesIn ts filter d = takes ts filter r.header.typeRef := by
  have hguid (t : TypeDef) :
      d.has Attr.typeId (.str t.guid) = (t.guid == r.header.typeRef.guid) := by
    rw [Document.has, StoredRecord.elements_typeId hd, List.any_cons, List.any_nil, Bool.or_false,
      Bool.eq_iff_iff, Value.same_str, Value.str.injEq, beq_iff_eq]
    exact eq_comm
  match filter with
  | none | some (anyOf []) => rfl
  | some (anyOf (name :: names)) => simp only [takesIn, takes, hguid]
  | some (subtypes name) =>
    obtain ⟨t, ht⟩ := hknown id r hr
    obtain ⟨s, hs⟩ := hfilter name (List.mem_singleton_self name)
    rw [takesIn, hs, Option.any_some, Document.has, (StoredRecord.elements_type hd ht).2,
      List.any_map]
    refine Eq.trans ?_ (TypeSystem.any_guid_closure hts hguids ht hs)
    refine congrArg (fun q => (ts.closure t).any q) (funext fun e => ?_)
    rw [Bool.eq_iff_iff, Function.comp_apply, Value.same_str, Value.str.injEq, beq_iff_eq]

/-- The clauses of a filter of types select by the types of records. -/
theorem Selects.typeClauses (h : src.Stores ts stored) (hts : ts.Named) (hguids : ts.Distinct)
    (hl : limit ≠ some 0) {filter : Option TypeFilter} {category : TypeCategory}
    {clauses : List Clause} {candidates : List String}
    (hclauses : ts.typeClauses filter category record = .ok (clauses, candidates)) :
    ∃ rest, clauses = .attrEq record Attr.typeCategory (.str category.name) :: rest ∧
      Selects (StoredAs stored P) record n n (Clause.evalAll src limit rest)
        fun r => TypeFilter.takes ts filter r.header.typeRef := by
  obtain ⟨rest, hrest, hselects⟩ :=
    @Selects.typeClauses_in ts src limit record n hl _ _ _ _ hclauses
  refine ⟨rest, hrest, Selects.of_documents h hselects fun id r d hr _ hd => ?_⟩
  exact TypeFilter.takesIn_eq_takes hts hguids h.known
    (fun name hname => (TypeSystem.typeClauses_known hclauses hname).imp fun _ ht => ht.1) hr hd

/-- The clauses of a filter of statuses select by the statuses of records. -/
theorem Selects.statusClauses (h : src.Stores ts stored) (hl : limit ≠ some 0) (f : StatusFilter) :
    Selects (StoredAs stored P) record n n (Clause.evalAll src limit (f.clauses record))
      fun r => f.admits r.header.status := by
  refine Selects.of_documents h (Selects.statusClauses_in hl f) fun id r d _ _ hd => ?_
  have hstatus (s : Status) : d.has Attr.status (.str s.name) = (r.header.status == s) := by
    have hinj : ∀ t u : Status, t.name = u.name → t = u := by
      intro t u
      cases t <;> cases u <;> decide
    rw [Document.has, StoredRecord.elements_status hd, Bool.eq_iff_iff]
    simp only [List.any_cons, List.any_nil, Bool.or_false, Value.same_str, Value.str.injEq,
      beq_iff_eq]
    exact ⟨hinj _ _, congrArg _⟩
  match f with
  | .all => rfl
  | .present => exact congrArg (!·) (hstatus .deleted)
  | .only [] => exact congrArg (!·) (hstatus .deleted)
  | .only (s :: ss) =>
    show ((s :: ss).any fun s => d.has Attr.status (.str s.name)) =
      (s :: ss).contains r.header.status
    simp only [hstatus]
    rw [Bool.eq_iff_iff, List.any_eq_true]
    simp

/-- Proxies are told from entities. -/
theorem Selects.isProxy (h : src.Stores ts stored) (hl : limit ≠ some 0) :
    Selects (StoredAs stored P) record n n
      (Clause.eval src limit (.attrEq record Attr.isProxy (.bool false))) fun r => r.isFull :=
  Selects.attrEq h hl fun _ _ _ _ hd => StoredRecord.elements_isProxy hd

/-- Of relationships, those that have the record at an end. -/
theorem Selects.touches (h : src.Stores ts stored) (hl : limit ≠ some 0) (ref : RecordRef) :
    Selects (StoredAs stored P) record n n
      (Clause.eval src limit (MetadataArchive.touches record ref)) fun r => r.touches ref := by
  refine Selects.of_documents h (Selects.touches_in hl ref) fun id r d _ _ hd => ?_
  have hside (e : End) : d.has (Attr.side e) (.ref ref.docId) = (r.side? e = some ref : Bool) :=
    StoredRecord.elements_side hd e ref
  simp only [hside]
  cases r <;> simp [StoredRecord.side?, StoredRecord.touches]

end

end MetadataArchive
