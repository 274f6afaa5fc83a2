import MetadataArchive.Proofs.Json.Decoding
import MetadataArchive.Proofs.Record.Readable
import MetadataArchive.Record.Encoding

/-!
# Records survive their encoding

What is written of a record as JSON is read as the same record, whatever it is made of: headers,
classifications, and properties of any depth. Here the JSON value itself is read, not a text of it,
so no double comes back as one of its neighbours and no depth is too great.

Two things are asked of a record. Its doubles are finite, since others have no number. And its dates
are in the calendar and its entries in name order (`PropertyValue.Formed`), as in everything that is
decoded (`formed_of_ofJson?`): the types of dates and of entries are wider than what they are for.
-/

set_option autoImplicit false

namespace MetadataArchive

/-! ## Property values -/

theorem Instant.inCalendar_of_toInstant? {j : Json} {t : Instant} (h : j.toInstant? = some t) :
    t.InCalendar := by
  cases j with
  | str s => exact Rfc3339.inCalendar_of_read? h
  | _ => cases h

theorem PrimitiveValue.inCalendar_of_ofJson? {j : Json} {t : Instant}
    (h : ofJson? j = some (.date t)) : t.InCalendar := by
  simp only [ofJson?, Option.bind_eq_bind, Option.bind_eq_some_iff] at h
  obtain ⟨ms, -, kind, -, value, -, h⟩ := h
  split at h
  case h_5 =>
    obtain ⟨t, ht, heq⟩ := Option.map_eq_some_iff.1 h
    cases heq
    exact Instant.inCalendar_of_toInstant? ht
  case h_6 => cases h
  -- The other kinds are no dates.
  all_goals
    obtain ⟨_, -, heq⟩ := Option.map_eq_some_iff.1 h
    cases heq

theorem PrimitiveValue.Sound.returns {v : PrimitiveValue} (h : v.Sound) :
    Json.Returns PrimitiveValue.toJson PrimitiveValue.ofJson? v := by
  cases v with
  | bool b => rfl
  | int i =>
    have hread : Json.toInt64? (.int i.toInt) = some i := Json.returns_int64 i
    exact congrArg (Option.map PrimitiveValue.int) hread
  | float d =>
    have hnum : Json.ofDouble d = .num d := if_pos h
    show ofJson? (toJson.tagged "float" (.ofDouble d)) = _
    rw [hnum]
    rfl
  | string s => rfl
  | date t =>
    have hread : (Json.ofInstant t).toInstant? = some t := Json.returns_ofInstant h
    have hdecode (j : Json) : ofJson? (toJson.tagged "date" j) = j.toInstant?.map .date := rfl
    show ofJson? (toJson.tagged "date" (.ofInstant t)) = _
    rw [hdecode, hread, Option.map_some]

namespace PropertyValue

variable {v : PropertyValue} {items : List PropertyValue} {es : List (String × PropertyValue)}

/-- What is written of the value is read as that value again. -/
abbrev Returns (v : PropertyValue) : Prop := Json.Returns toJson ofJson? v

/-- Every double in the value is finite. -/
def Finite (v : PropertyValue) : Prop := ∀ d, .float d ∈ v.leaves → d.isFinite = true

/-- A value as it can be built: its dates are in the calendar, and the entries of its maps and
structures are in name order. -/
inductive Formed : PropertyValue → Prop where
  | primitive {v : PrimitiveValue} (h : ∀ t, v = .date t → t.InCalendar) : Formed (.primitive v)
  | choice (ordinal : Int32) (name : String) (description : Option String) :
      Formed (.choice ordinal name description)
  | array {items : List PropertyValue} (h : ∀ v ∈ items, Formed v) : Formed (.array items)
  | map {entries : List (String × PropertyValue)} (names : Entries.Ascending entries)
      (h : ∀ e ∈ entries, Formed e.2) : Formed (.map entries)
  | record {typeName : Option String} {fields : List (String × PropertyValue)}
      (names : Entries.Ascending fields) (h : ∀ e ∈ fields, Formed e.2) :
      Formed (.record typeName fields)

theorem mem_leavesOfItems {x : Value} :
    x ∈ leavesOfItems items ↔ ∃ v ∈ items, x ∈ v.leaves := by
  induction items with
  | nil => simp [leavesOfItems]
  | cons w items ih => simp [leavesOfItems, ih]

theorem mem_leavesOfEntries {x : Value} :
    x ∈ leavesOfEntries es ↔ ∃ e ∈ es, x ∈ e.2.leaves := by
  induction es with
  | nil => simp [leavesOfEntries]
  | cons e es ih => simp [leavesOfEntries, ih]

theorem finite_array_iff : (array items).Finite ↔ ∀ v ∈ items, v.Finite := by
  simp only [Finite, leaves, mem_leavesOfItems]
  exact ⟨fun h v hv d hd => h d ⟨v, hv, hd⟩, fun h d ⟨v, hv, hd⟩ => h v hv d hd⟩

theorem finite_map_iff : (map es).Finite ↔ ∀ e ∈ es, e.2.Finite := by
  simp only [Finite, leaves, mem_leavesOfEntries]
  exact ⟨fun h e he d hd => h d ⟨e, he, hd⟩, fun h d ⟨e, he, hd⟩ => h e he d hd⟩

theorem finite_record_iff {typeName : Option String} :
    (record typeName es).Finite ↔ ∀ e ∈ es, e.2.Finite := by
  rw [← finite_map_iff]
  simp only [Finite, leaves]

theorem Sound.finite (h : v.Sound) : v.Finite := by
  induction h with
  | @primitive p h =>
    intro d hd
    obtain ⟨x, rfl⟩ : ∃ x, p = .float x := by
      cases p <;> simp [leaves, PrimitiveValue.flatten] at hd ⊢
    obtain rfl : d = x := by simpa [leaves, PrimitiveValue.flatten] using hd
    exact h
  | choice ordinal name description =>
    intro d hd
    cases List.mem_singleton.1 hd
  | array _ ih => exact finite_array_iff.2 ih
  | map _ ih => exact finite_map_iff.2 ih
  | record _ ih => exact finite_record_iff.2 ih

theorem Formed.sound (h : v.Formed) (hfinite : v.Finite) : v.Sound := by
  induction h with
  | @primitive p hdate =>
    refine .primitive ?_
    cases p with
    | float d => exact hfinite d (List.mem_singleton.2 rfl)
    | date t => exact hdate t rfl
    | _ => trivial
  | choice ordinal name description => exact .choice ordinal name description
  | array _ ih => exact .array fun v hv => ih v hv (finite_array_iff.1 hfinite v hv)
  | map _ _ ih => exact .map fun e he => ih e he (finite_map_iff.1 hfinite e he)
  | record _ _ ih => exact .record fun e he => ih e he (finite_record_iff.1 hfinite e he)

theorem sortedEntries_of_ascending (h : Entries.Ascending es) : sortedEntries es = es :=
  congrArg NameMap.entries (NameMap.ofList_entries ⟨es, h⟩)

theorem mapM_entryOfJson? (h : ∀ e ∈ es, e.2.Returns) :
    (toJsonEntries es).mapM entryOfJson? = some es := by
  rw [toJsonEntries_eq_map]
  refine mapM_map_eq_some fun e he => ?_
  have hread : ofJson? e.2.toJson = some e.2 := h e he
  rw [entryOfJson?, hread, Option.map_some]

/-- **A value survives its encoding**, to any depth. -/
theorem Formed.returns (h : v.Formed) (hfinite : v.Finite) : v.Returns := by
  induction h with
  | @primitive p hdate =>
    obtain ⟨hsound⟩ := (Formed.primitive hdate).sound hfinite
    have hread : PrimitiveValue.ofJson? p.toJson = some p := hsound.returns
    show ofJson? (toJson (.primitive p)) = _
    rw [ofJson?_primitive rfl]
    show (PrimitiveValue.ofJson? p.toJson).map _ = _
    rw [hread, Option.map_some]
  | choice ordinal name description =>
    have hordinal : Json.toInt32? (.int ordinal.toInt) = some ordinal := Json.returns_int32 ordinal
    -- The description is left out where there is none.
    cases description with
    | none =>
      show ofJson? (toJson (.choice ordinal name none)) = _
      rw [ofJson?_choice rfl]
      show (Json.toInt32? (.int ordinal.toInt)).bind _ = _
      rw [hordinal]
      rfl
    | some s =>
      show ofJson? (toJson (.choice ordinal name (some s))) = _
      rw [ofJson?_choice rfl]
      show (Json.toInt32? (.int ordinal.toInt)).bind _ = _
      rw [hordinal]
      rfl
  | @array items _ ih =>
    have hitems : (toJsonItems items).mapM ofJson? = some items := by
      rw [toJsonItems_eq_map]
      exact mapM_map_eq_some fun v hv => ih v hv (finite_array_iff.1 hfinite v hv)
    show ofJson? (toJson (.array items)) = _
    rw [ofJson?_array rfl rfl, hitems, Option.map_some]
  | @map entries names _ ih =>
    have hentries := mapM_entryOfJson? fun e he => ih e he (finite_map_iff.1 hfinite e he)
    show ofJson? (toJson (.map entries)) = _
    rw [ofJson?_map rfl rfl, hentries, Option.map_some, sortedEntries_of_ascending names]
  | @record typeName fields names _ ih =>
    have hfields := mapM_entryOfJson? fun e he => ih e he (finite_record_iff.1 hfinite e he)
    have hsorted := sortedEntries_of_ascending names
    cases typeName with
    | none =>
      show ofJson? (toJson (.record none fields)) = _
      rw [ofJson?_record rfl rfl, hfields]
      exact congrArg (fun es => some (PropertyValue.record none es)) hsorted
    | some name =>
      show ofJson? (toJson (.record (some name) fields)) = _
      rw [ofJson?_record rfl rfl, hfields]
      exact congrArg (fun es => some (PropertyValue.record (some name) es)) hsorted

/-- **Whatever is decoded is formed**, so it can be sent on. -/
theorem formed_of_ofJson? {j : Json} (h : ofJson? j = some v) : v.Formed := by
  fun_induction ofJson? j generalizing v with
  | case1 => cases h
  | case2 j ms _ =>
    obtain ⟨p, hp, rfl⟩ := Option.map_eq_some_iff.1 h
    obtain ⟨jv, -, hp⟩ := Json.mem_of_required hp
    exact .primitive fun t ht => PrimitiveValue.inCalendar_of_ofJson? (ht ▸ hp)
  | case3 j ms _ =>
    simp only [Option.bind_eq_bind, Option.bind_eq_some_iff, Option.some.injEq] at h
    obtain ⟨ordinal, -, name, -, description, -, rfl⟩ := h
    exact .choice ordinal name description
  | case4 j ms items _ _ _ ih =>
    obtain ⟨vs, hvs, rfl⟩ := Option.map_eq_some_iff.1 h
    refine .array fun v hv => ?_
    obtain ⟨item, -, hread⟩ := exists_of_mapM_eq_some hvs hv
    exact ih item hread
  | case5 j ms entries _ _ _ ih =>
    obtain ⟨es, hes, rfl⟩ := Option.map_eq_some_iff.1 h
    refine .map (NameMap.ofList es).ascending fun e he => ?_
    obtain ⟨entry, -, hread⟩ := exists_of_mapM_eq_some hes (mem_sortedEntries he)
    obtain ⟨v, hv, rfl⟩ := Option.map_eq_some_iff.1 hread
    exact ih entry hv
  | case6 j ms fields _ _ _ ih =>
    simp only [Option.bind_eq_bind, Option.bind_eq_some_iff, Option.some.injEq] at h
    obtain ⟨typeName, -, es, hes, rfl⟩ := h
    refine .record (NameMap.ofList es).ascending fun e he => ?_
    obtain ⟨entry, -, hread⟩ := exists_of_mapM_eq_some hes (mem_sortedEntries he)
    obtain ⟨v, hv, rfl⟩ := Option.map_eq_some_iff.1 hread
    exact ih entry hv
  | case7 => cases h

end PropertyValue

theorem Properties.returns {ps : Properties} (h : ps.All PropertyValue.Returns) :
    Json.Returns toJson ofJson? ps :=
  Json.returns_ofNameMap h

/-! ## Headers -/

/-- The times of a header are in the calendar. -/
structure Header.InCalendar (h : Header) : Prop where
  created : h.createTime.InCalendar
  updated : ∀ t ∈ h.updateTime, t.InCalendar

theorem TypeRef.returns (r : TypeRef) : Json.Returns toJson ofJson? r := rfl

theorem Status.returns (s : Status) : Json.Returns toJson ofJson? s := by
  cases s <;> rfl

theorem Provenance.returns (p : Provenance) :
    Json.Returns (fun p => .str p.name) (Json.toNamed? all name) p := by
  cases p <;> rfl

theorem Origin.returns (o : Origin) :
    Json.Returns (fun o => .str o.name) (Json.toNamed? all name) o := by
  cases o <;> rfl

theorem Status.returns_option (o : Option Status) :
    Json.Returns (.ofOption toJson) (Json.toOption? ofJson?) o :=
  Json.returns_ofOption rfl fun s _ => s.returns

/-- **A header survives its encoding.** -/
theorem Header.returns {h : Header} (htimes : h.InCalendar) : Json.Returns toJson ofJson? h := by
  have hupdateTime : Json.Returns (.ofOption Json.ofInstant) (Json.toOption? Json.toInstant?)
      h.updateTime :=
    Json.returns_ofOption rfl fun t ht => Json.returns_ofInstant (htimes.updated t ht)
  have hmaintainedBy : Json.Returns Json.ofStrings (Json.toList? Json.toString?) h.maintainedBy :=
    Json.returns_ofList fun s _ => Json.returns_str s
  unfold Json.Returns ofJson?
  refine Option.bind_eq_some_iff.2 ⟨_, rfl, ?_⟩
  refine Option.bind_eq_some_iff.2 ⟨_, h.typeRef.returns.required rfl, ?_⟩
  refine Option.bind_eq_some_iff.2 ⟨_, (Json.returns_uint64 h.version).required rfl, ?_⟩
  refine Option.bind_eq_some_iff.2 ⟨_, h.status.returns.required rfl, ?_⟩
  refine Option.bind_eq_some_iff.2
    ⟨_, (Status.returns_option h.statusOnDelete).optional rfl, ?_⟩
  refine Option.bind_eq_some_iff.2 ⟨_, Json.optional_ofString? rfl, ?_⟩
  refine Option.bind_eq_some_iff.2 ⟨_, Json.optional_ofString? rfl, ?_⟩
  refine Option.bind_eq_some_iff.2 ⟨_, hmaintainedBy.required rfl, ?_⟩
  refine Option.bind_eq_some_iff.2 ⟨_, (Json.returns_ofInstant htimes.created).required rfl, ?_⟩
  refine Option.bind_eq_some_iff.2 ⟨_, hupdateTime.optional rfl, ?_⟩
  refine Option.bind_eq_some_iff.2 ⟨_, h.provenance.returns.required rfl, ?_⟩
  refine Option.bind_eq_some_iff.2 ⟨_, (Json.returns_str h.collectionId).required rfl, ?_⟩
  refine Option.bind_eq_some_iff.2 ⟨_, Json.optional_ofString? rfl, ?_⟩
  refine Option.bind_eq_some_iff.2 ⟨_, Json.optional_ofString? rfl, ?_⟩
  refine Option.bind_eq_some_iff.2 ⟨_, Json.optional_ofString? rfl, ?_⟩
  rfl

theorem Header.inCalendar_of_ofJson? {h : Header} {j : Json} (hj : ofJson? j = some h) :
    h.InCalendar := by
  obtain ⟨ms, -, hj⟩ := Option.bind_eq_some_iff.1 hj
  -- The times are read between seven fields and five more.
  iterate 7 obtain ⟨_, -, hj⟩ := Option.bind_eq_some_iff.1 hj
  obtain ⟨t, ht, hj⟩ := Option.bind_eq_some_iff.1 hj
  obtain ⟨u, hu, hj⟩ := Option.bind_eq_some_iff.1 hj
  iterate 5 obtain ⟨_, -, hj⟩ := Option.bind_eq_some_iff.1 hj
  cases hj
  obtain ⟨jt, -, ht⟩ := Json.mem_of_required ht
  refine ⟨Instant.inCalendar_of_toInstant? ht, fun t' ht' => ?_⟩
  obtain ⟨ju, hu⟩ := Json.exists_of_optional (hu.trans (congrArg some ht'))
  exact Instant.inCalendar_of_toInstant? hu

/-! ## Records -/

theorem Classification.returns {c : Classification} (htimes : c.header.InCalendar)
    (hps : c.properties.All PropertyValue.Returns) : Json.Returns toJson ofJson? c := by
  unfold Json.Returns ofJson?
  refine Option.bind_eq_some_iff.2 ⟨_, rfl, ?_⟩
  refine Option.bind_eq_some_iff.2 ⟨_, (Json.returns_str c.name).required rfl, ?_⟩
  refine Option.bind_eq_some_iff.2 ⟨_, (Header.returns htimes).required rfl, ?_⟩
  refine Option.bind_eq_some_iff.2 ⟨_, c.origin.returns.required rfl, ?_⟩
  refine Option.bind_eq_some_iff.2 ⟨_, Json.optional_ofString? rfl, ?_⟩
  exact Option.bind_eq_some_iff.2 ⟨_, (Properties.returns hps).required rfl, rfl⟩

/-- The headers of an entity and of its classifications. -/
def Entity.headers (e : Entity) : List Header :=
  e.header :: e.classifications.map Classification.header

theorem Entity.returns {e : Entity} (htimes : ∀ h ∈ e.headers, h.InCalendar)
    (hvalues : e.All PropertyValue.Returns) : Json.Returns toJson ofJson? e := by
  obtain ⟨hheader, hheaders⟩ := List.forall_mem_cons.1 htimes
  have hclassifications : Json.Returns (Json.ofList Classification.toJson)
      (Json.toList? Classification.ofJson?) e.classifications :=
    Json.returns_ofList fun c hc =>
      Classification.returns (List.forall_mem_map.1 hheaders c hc) (hvalues.classifications c hc)
  unfold Json.Returns ofJson?
  refine Option.bind_eq_some_iff.2 ⟨_, rfl, ?_⟩
  refine Option.bind_eq_some_iff.2 ⟨_, (Json.returns_str e.guid).required rfl, ?_⟩
  refine Option.bind_eq_some_iff.2 ⟨_, (Header.returns hheader).required rfl, ?_⟩
  refine Option.bind_eq_some_iff.2 ⟨_, (Properties.returns hvalues.properties).required rfl, ?_⟩
  exact Option.bind_eq_some_iff.2 ⟨_, hclassifications.required rfl, rfl⟩

theorem Proxy.returns {p : Proxy} (htimes : p.header.InCalendar)
    (hps : p.uniqueProperties.All PropertyValue.Returns) : Json.Returns toJson ofJson? p := by
  unfold Json.Returns ofJson?
  refine Option.bind_eq_some_iff.2 ⟨_, rfl, ?_⟩
  refine Option.bind_eq_some_iff.2 ⟨_, (Json.returns_str p.guid).required rfl, ?_⟩
  refine Option.bind_eq_some_iff.2 ⟨_, (Header.returns htimes).required rfl, ?_⟩
  exact Option.bind_eq_some_iff.2 ⟨_, (Properties.returns hps).required rfl, rfl⟩

/-- The headers of a relationship and of its ends. -/
def Relationship.headers (rel : Relationship) : List Header :=
  [rel.header, rel.endOne.header, rel.endTwo.header]

theorem Relationship.returns {rel : Relationship} (htimes : ∀ h ∈ rel.headers, h.InCalendar)
    (hps : rel.properties.All PropertyValue.Returns)
    (hone : rel.endOne.uniqueProperties.All PropertyValue.Returns)
    (htwo : rel.endTwo.uniqueProperties.All PropertyValue.Returns) :
    Json.Returns toJson ofJson? rel := by
  simp only [headers, List.forall_mem_cons] at htimes
  obtain ⟨hheader, hheaderOne, hheaderTwo, -⟩ := htimes
  unfold Json.Returns ofJson?
  refine Option.bind_eq_some_iff.2 ⟨_, rfl, ?_⟩
  refine Option.bind_eq_some_iff.2 ⟨_, (Json.returns_str rel.guid).required rfl, ?_⟩
  refine Option.bind_eq_some_iff.2 ⟨_, (Header.returns hheader).required rfl, ?_⟩
  refine Option.bind_eq_some_iff.2 ⟨_, (Properties.returns hps).required rfl, ?_⟩
  refine Option.bind_eq_some_iff.2 ⟨_, (Proxy.returns hheaderOne hone).required rfl, ?_⟩
  exact Option.bind_eq_some_iff.2 ⟨_, (Proxy.returns hheaderTwo htwo).required rfl, rfl⟩

end MetadataArchive
