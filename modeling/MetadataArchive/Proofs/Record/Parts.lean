import MetadataArchive.Proofs.Record.Layout
import MetadataArchive.Proofs.Record.Reading

/-!
# Parts of records are read back

Headers, properties and classifications are each read from the names that they were written under,
and what is read is what was written, but for two things. A version that no signed integer holds is
read as zero (`Header.ofDocument_iff`), and a property whose qualifier has a full stop is read under
another name (`Properties.ofDocument_writeTo_iff`). Both are exact: nothing else is lost, and these
always are.

Reading looks at no other names (`Header.ofDocument_congr`, `Properties.ofDocument_congr`). So parts
may be written in any order, as long as their names are apart.
-/

set_option autoImplicit false

namespace MetadataArchive

variable {ts : TypeSystem} {d d' : Document} {k stem : String}

/-! ## Fields -/

section Fields

variable {name : String}

theorem Document.getStr?_of_get? {o : Option String} (h : d.get? name = (Value.ofStr? o).stored?) :
    d.getStr? name = o := by
  rw [Document.getStr?, h]
  cases o <;> rfl

theorem Document.demand_str {s : String} (h : d.get? name = (Value.str s).stored?) :
    d.demand name (d.getStr? name) = .ok s := by
  rw [Document.getStr?, h]
  rfl

theorem Document.getTime?_of_get? {o : Option Instant}
    (h : d.get? name = ((o.map Value.time).getD .null).stored?) : d.getTime? name = o := by
  rw [Document.getTime?, h]
  cases o <;> rfl

theorem Value.strings_list (ss : List String) : (Value.list (ss.map .str)).strings = ss := by
  simp only [Value.strings, Value.elements, List.filterMap_map]
  induction ss with
  | nil => rfl
  | cons s ss ih => rw [List.filterMap_cons, Function.comp_apply, ih]; rfl

theorem Document.getStrings_of_get? {ss : List String}
    (h : d.get? name = (Value.list (ss.map .str)).stored?) : d.getStrings name = ss := by
  rw [Document.getStrings, h]
  exact Value.strings_list ss

end Fields

theorem Status.ofName_name (s : Status) : Status.ofName s.name = .ok s := by
  cases s <;> rfl

theorem Provenance.ofName_name (p : Provenance) : Provenance.ofName p.name = .ok p := by
  cases p <;> rfl

theorem Origin.ofName_name (o : Origin) : Origin.ofName o.name = .ok o := by
  cases o <;> rfl

/-! ## Headers -/

namespace Header

variable {h : Header}

/-- A document holds the fields of a header under names that begin alike. -/
def LaidOut (h : Header) (stem : String) (d : Document) : Prop :=
  ∀ f ∈ h.fields, d.get? (stem ++ f.1) = f.2.stored?

theorem laidOut_writeTo (h : Header) (stem : String) (d : Document) :
    h.LaidOut stem (h.writeTo stem d) := by
  intro f hf
  refine Document.get?_setAll ?_ (List.mem_map.2 ⟨f, hf, rfl⟩)
  rw [Header.names_writeTo]
  refine List.Nodup.map (fun x y hxy => ?_) (by decide)
  simpa [← String.toList_inj, String.toList_append] using hxy

/-- A header is read as it was laid out, but for a version that does not fit. -/
theorem ofDocument_of_laidOut (hd : h.LaidOut stem d) :
    Header.ofDocument d stem = .ok { h with version := keptVersion h.version } := by
  simp only [LaidOut, fields, List.forall_mem_cons] at hd
  obtain ⟨htypeId, htypeName, hversion, hstatus, hondelete, hcreatedBy, hupdatedBy, hmaintained,
    hcreateTime, hupdateTime, hprovenance, hcollection, hcollectionName, hreplicated, hlicense, -⟩ :=
    hd
  have hversion : d.demand (stem ++ Attr.version) (d.getInt? (stem ++ Attr.version)) =
      .ok (Int64.ofInt h.version.toNat) := by
    rw [Document.getInt?, hversion]
    rfl
  have hcreateTime : d.demand (stem ++ Attr.createTime) (d.getTime? (stem ++ Attr.createTime)) =
      .ok h.createTime := by
    rw [Document.getTime?, hcreateTime]
    rfl
  have hondelete : (d.getStr? (stem ++ Attr.statusOnDelete)).mapM Status.ofName =
      .ok h.statusOnDelete := by
    rw [Document.getStr?_of_get? hondelete]
    cases h.statusOnDelete with
    | none => rfl
    | some s => rw [Option.map_some, Option.mapM_some, Status.ofName_name]; rfl
  have hmaintained : d.getStrings (stem ++ Attr.maintainedBy) = h.maintainedBy := by
    split at hmaintained
    next hempty => simp [Document.getStrings, hmaintained, Value.stored?, List.isEmpty_iff.1 hempty]
    next => exact Document.getStrings_of_get? hmaintained
  simp only [ofDocument, hversion, hcreateTime, hondelete, hmaintained, ok_bind,
    Document.demand_str htypeId, Document.demand_str htypeName, Document.demand_str hstatus,
    Document.demand_str hprovenance, Document.demand_str hcollection, Status.ofName_name,
    Provenance.ofName_name, Document.getStr?_of_get? hcreatedBy,
    Document.getStr?_of_get? hupdatedBy, Document.getTime?_of_get? hupdateTime,
    Document.getStr?_of_get? hcollectionName, Document.getStr?_of_get? hreplicated,
    Document.getStr?_of_get? hlicense]
  rfl

/-- **A header is read back** exactly where its version fits a signed integer. -/
theorem ofDocument_iff (hd : h.LaidOut stem d) :
    Header.ofDocument d stem = .ok h ↔ h.version.toNat < 2 ^ 63 := by
  have hsame : { h with version := keptVersion h.version } = h ↔ keptVersion h.version = h.version :=
    ⟨congrArg Header.version, fun heq => by rw [heq]⟩
  rw [ofDocument_of_laidOut hd, Except.ok.injEq, hsame, keptVersion_eq]
  split
  next hfits => exact iff_of_true rfl hfits
  next hbeyond =>
    refine iff_of_false (fun hzero => hbeyond ?_) hbeyond
    rw [← hzero]
    decide

/-- A header is read from the names of its fields, and from no others. -/
theorem LaidOut.congr (hd : h.LaidOut stem d)
    (hget : ∀ field ∈ Attr.header, d'.get? (stem ++ field) = d.get? (stem ++ field)) :
    h.LaidOut stem d' := by
  intro f hf
  rw [hget f.1 (h.names_fields ▸ List.mem_map.2 ⟨f, hf, rfl⟩)]
  exact hd f hf

end Header

/-! ## Names of properties -/

/-- The type name that stands in a property's attributes: that of the nearest type that declares it,
and that of the record's own type where none does. -/
def TypeSystem.qualifierOf (ts : TypeSystem) (typeName property : String) : String :=
  ((ts.declaringType? typeName property).map TypeDef.name).getD typeName

namespace AttributeKey

variable {q p : String}

theorem toList_qualified (q p : String) : (q ++ "." ++ p).toList = q.toList ++ '.' :: p.toList := by
  have hdot : ".".toList = ['.'] := by decide
  simp [String.toList_append, hdot]

/-- Behind a qualifier without a full stop the property's own name is read, whatever that is. -/
theorem afterDot_qualified (hq : '.' ∉ q.toList) : afterDot (q ++ "." ++ p) = p := by
  have hdrop : (q.toList ++ '.' :: p.toList).dropWhile (· != '.') = '.' :: p.toList := by
    rw [List.dropWhile_append_of_pos]
    · rfl
    · exact fun c hc => bne_iff_ne.2 fun heq => hq (heq ▸ hc)
  rw [afterDot, toList_qualified, hdrop]
  exact String.ofList_toList

/-- Behind one with a full stop a longer name is read. -/
theorem length_lt_afterDot (hq : '.' ∈ q.toList) :
    p.toList.length < (afterDot (q ++ "." ++ p)).toList.length := by
  obtain ⟨before, after, hsplit, hbefore⟩ := List.eq_append_cons_of_mem hq
  have hdrop : (q.toList ++ '.' :: p.toList).dropWhile (· != '.') =
      '.' :: (after ++ '.' :: p.toList) := by
    rw [hsplit, List.append_assoc, List.dropWhile_append_of_pos]
    · rfl
    · exact fun c hc => bne_iff_ne.2 fun heq => hbefore (heq ▸ hc)
  rw [afterDot, toList_qualified, hdrop]
  simp
  omega

theorem serialized_forStorage (ts : TypeSystem) (space : PropertySpace) (typeName p : String) :
    (forStorage ts space typeName p).serialized =
      space.serializedStem ++ (ts.qualifierOf typeName p ++ "." ++ p) := rfl

theorem stripBeginning?_append (stem s : String) : stripBeginning? stem (stem ++ s) = some s := by
  rw [stripBeginning?, String.toList_append, List.isPrefixOf?_eq_some_iff_append_eq.2 rfl,
    Option.map_some, String.ofList_toList]

/-- The property that is read from an attribute with a stored text. -/
theorem propertyOf?_serialized (ts : TypeSystem) (space : PropertySpace) (typeName p : String) :
    propertyOf? space (forStorage ts space typeName p).serialized =
      some (afterDot (ts.qualifierOf typeName p ++ "." ++ p)) := by
  rw [serialized_forStorage, propertyOf?, stripBeginning?_append, Option.map_some]

/-- Every attribute among the stored texts of a space is that of some property. -/
theorem exists_propertyOf? {space : PropertySpace} {attr : String}
    (hattr : beginsWith space.serializedStem attr = true) :
    ∃ name, propertyOf? space attr = some name := by
  obtain ⟨rest, rfl⟩ := beginsWith_iff_exists.1 hattr
  rw [propertyOf?, stripBeginning?_append]
  exact ⟨_, rfl⟩

end AttributeKey

/-! ## Properties -/

namespace Properties

variable {ps : Properties} {space : PropertySpace} {typeName name : String} {v : PropertyValue}
variable {x : Value}

/-- The stored text of every value reads back. -/
def ReadBack (ps : Properties) : Prop :=
  ∀ name v, ps.get? name = some v → PropertyValue.ofStored v.toStored = .ok v

theorem readBack_of_isEmpty (h : ps.isEmpty = true) : ps.ReadBack := fun name v hv => by
  rw [NameMap.isEmpty, List.isEmpty_iff] at h
  rw [NameMap.get?, h] at hv
  cases hv

/-- No property of a record of a type is qualified by a name with a full stop. -/
def Plain (ts : TypeSystem) (typeName : String) (ps : Properties) : Prop :=
  ∀ name v, ps.get? name = some v → '.' ∉ (ts.qualifierOf typeName name).toList

/-- What is found among the stored texts is that of a property. -/
theorem get?_writeTo_serialized (hk : beginsWith space.serializedStem k = true)
    (h : (ps.writeTo ts space typeName d).get? k = some x) :
    ∃ name v, ps.get? name = some v ∧ x = v.toStored ∧
      k = (AttributeKey.forStorage ts space typeName name).serialized := by
  rcases Document.get?_setAll_eq_some h with h | ⟨w, hw, hx⟩
  · rw [Document.get?_eraseStartingWith, if_pos hk] at h
    cases h
  · obtain ⟨name, v, hget, hf | hf⟩ := mem_fields.1 hw
    · -- A name among the stored texts is not one of those that queries look at.
      obtain ⟨rest, rfl⟩ := beginsWith_iff_exists.1 hk
      have hk' : space.serializedStem ++ rest =
          (⟨space, rest, none⟩ : AttributeKey).serialized := rfl
      rw [hk'] at hf
      exact absurd (Prod.mk.inj hf).1.symm (AttributeKey.queryable_ne_serialized rfl)
    · obtain ⟨rfl, rfl⟩ := Prod.mk.inj hf
      exact ⟨name, v, hget, (Option.some.inj hx).symm, rfl⟩

theorem get?_writeTo_ne_none (ts : TypeSystem) (space : PropertySpace) (typeName : String)
    (d : Document) (hget : ps.get? name = some v) : (ps.writeTo ts space typeName d).get?
      (AttributeKey.forStorage ts space typeName name).serialized ≠ none := by
  refine Document.get?_setAll_ne_none ?_ fun w hw => ?_
  · exact List.mem_map.2 ⟨_, mem_fields.2 ⟨name, v, hget, Or.inr rfl⟩, rfl⟩
  · obtain ⟨_, u, -, hf | hf⟩ := mem_fields.1 hw <;> rw [(Prod.mk.inj hf).2]
    · rw [PropertyValue.stored?_flatten]
      simp
    · simp [PropertyValue.toStored, Value.stored?]

/-- The property that an attribute of a space holds, where its stored text is readable. -/
def readEntry (space : PropertySpace) (e : String × Value) : Option (String × PropertyValue) :=
  (AttributeKey.propertyOf? space e.1).bind fun name =>
    (PropertyValue.ofStored e.2).toOption.map fun v => (name, v)

theorem readEntry_eq_some {attr : String} (hname : AttributeKey.propertyOf? space attr = some name)
    (hv : PropertyValue.ofStored x = .ok v) : readEntry space (attr, x) = some (name, v) := by
  rw [readEntry, hname, Option.bind_some, hv]
  rfl

/-- Where every stored text of a space is readable, the properties are what a scan meets. -/
theorem ofDocument_eq_ok (h : ∀ attr x, beginsWith space.serializedStem attr = true →
      d.get? attr = some x → ∃ v, PropertyValue.ofStored x = .ok v) :
    Properties.ofDocument d space =
      .ok (NameMap.ofList ((d.startingWith space.serializedStem).filterMap (readEntry space))) := by
  unfold Properties.ofDocument
  rw [filterMapM_eq_ok (g := readEntry space), ok_bind]
  rintro ⟨attr, x⟩ he
  obtain ⟨hattr, hx⟩ := Document.mem_startingWith.1 he
  obtain ⟨name, hname⟩ := AttributeKey.exists_propertyOf? hattr
  obtain ⟨v, hv⟩ := h attr x hattr hx
  rw [readEntry_eq_some hname hv]
  simp only [hname, hv]
  rfl

/-- Properties are read exactly where every stored text of their space is readable. -/
theorem exists_ofDocument_iff : (∃ ps, Properties.ofDocument d space = .ok ps) ↔
    ∀ attr x, beginsWith space.serializedStem attr = true → d.get? attr = some x →
      ∃ v, PropertyValue.ofStored x = .ok v := by
  constructor
  · rintro ⟨ps, hps⟩ attr x hattr hx
    obtain ⟨es, hes, -⟩ := bind_eq_ok.1 hps
    obtain ⟨o, ho⟩ := exists_of_filterMapM_eq_ok hes (Document.mem_startingWith.2 ⟨hattr, hx⟩)
    obtain ⟨name, hname⟩ := AttributeKey.exists_propertyOf? hattr
    simp only [hname] at ho
    obtain ⟨v, hv, -⟩ := bind_eq_ok.1 ho
    exact ⟨v, hv⟩
  · intro hread
    exact ⟨_, ofDocument_eq_ok hread⟩

/-- What is read where properties were written: what is read where each value was written, under
what stands behind the first full stop of its name. -/
theorem ofDocument_writeTo (ts : TypeSystem) (space : PropertySpace) (typeName : String)
    (d : Document) {back : PropertyValue → PropertyValue}
    (hback : ∀ name v, ps.get? name = some v → PropertyValue.ofStored v.toStored = .ok (back v)) :
    ∃ es, Properties.ofDocument (ps.writeTo ts space typeName d) space = .ok (NameMap.ofList es) ∧
      (∀ n w, (n, w) ∈ es → ∃ name v, ps.get? name = some v ∧ w = back v ∧
        n = AttributeKey.afterDot (ts.qualifierOf typeName name ++ "." ++ name)) ∧
      ∀ name v, ps.get? name = some v →
        ∃ w, (AttributeKey.afterDot (ts.qualifierOf typeName name ++ "." ++ name), w) ∈ es := by
  have hread : ∀ e ∈ (ps.writeTo ts space typeName d).startingWith space.serializedStem,
      ∃ name v, ps.get? name = some v ∧
        e = ((AttributeKey.forStorage ts space typeName name).serialized, v.toStored) ∧
        readEntry space e = some
          (AttributeKey.afterDot (ts.qualifierOf typeName name ++ "." ++ name), back v) := by
    rintro ⟨k, x⟩ he
    obtain ⟨hk, hx⟩ := Document.mem_startingWith.1 he
    obtain ⟨name, v, hget, rfl, rfl⟩ := get?_writeTo_serialized hk hx
    exact ⟨name, v, hget, rfl,
      readEntry_eq_some (AttributeKey.propertyOf?_serialized ts space typeName name)
        (hback name v hget)⟩
  refine ⟨((ps.writeTo ts space typeName d).startingWith space.serializedStem).filterMap
    (readEntry space), ofDocument_eq_ok fun k x hk hx => ?_, fun n w hmem => ?_,
    fun name v hget => ?_⟩
  · obtain ⟨name, v, hget, rfl, -⟩ := get?_writeTo_serialized hk hx
    exact ⟨back v, hback name v hget⟩
  · obtain ⟨e, he, hsome⟩ := List.mem_filterMap.1 hmem
    obtain ⟨name, v, hget, -, hv⟩ := hread e he
    rw [hv, Option.some.injEq, Prod.mk.injEq] at hsome
    exact ⟨name, v, hget, hsome.2.symm, hsome.1.symm⟩
  · obtain ⟨x, hx⟩ := Option.ne_none_iff_exists'.1
      (get?_writeTo_ne_none ts space typeName d hget)
    have hmem : ((AttributeKey.forStorage ts space typeName name).serialized, x) ∈
        (ps.writeTo ts space typeName d).startingWith space.serializedStem :=
      Document.mem_startingWith.2 ⟨beginsWith_append _ _, hx⟩
    obtain ⟨name', w, -, he, hsome⟩ := hread _ hmem
    have hname : AttributeKey.propertyOf? space
        (AttributeKey.forStorage ts space typeName name).serialized =
          AttributeKey.propertyOf? space
            (AttributeKey.forStorage ts space typeName name').serialized :=
      congrArg _ (Prod.mk.inj he).1
    rw [AttributeKey.propertyOf?_serialized, AttributeKey.propertyOf?_serialized,
      Option.some.injEq] at hname
    rw [hname]
    exact ⟨back w, List.mem_filterMap.2 ⟨_, hmem, hsome⟩⟩

/-- Where no property is qualified by a name with a full stop, each is read under its own name. -/
theorem Plain.ofDocument_writeTo (hplain : ps.Plain ts typeName) (space : PropertySpace)
    (d : Document) {back : PropertyValue → PropertyValue}
    (hback : ∀ name v, ps.get? name = some v → PropertyValue.ofStored v.toStored = .ok (back v)) :
    Properties.ofDocument (ps.writeTo ts space typeName d) space = .ok (ps.map back) := by
  obtain ⟨es, hread, hsound, hcomplete⟩ := Properties.ofDocument_writeTo ts space typeName d hback
  rw [hread, Except.ok.injEq]
  refine NameMap.ofList_eq_of_mem_iff fun n w => ⟨fun hmem => ?_, fun hget => ?_⟩
  · obtain ⟨name, v, hget, rfl, rfl⟩ := hsound n w hmem
    rw [AttributeKey.afterDot_qualified (hplain name v hget), NameMap.get?_map, hget,
      Option.map_some]
  · rw [NameMap.get?_map, Option.map_eq_some_iff] at hget
    obtain ⟨v, hget, rfl⟩ := hget
    obtain ⟨w, hw⟩ := hcomplete n v hget
    rw [AttributeKey.afterDot_qualified (hplain n v hget)] at hw
    -- What is read under a name comes from the value of that property.
    obtain ⟨name, v', hget', rfl, hname⟩ := hsound n w hw
    rw [AttributeKey.afterDot_qualified (hplain name v' hget')] at hname
    subst hname
    rw [hget, Option.some.injEq] at hget'
    rwa [hget']

/-- **Properties are read back** exactly where none is qualified by a name with a full stop. -/
theorem ofDocument_writeTo_iff (hback : ps.ReadBack) :
    Properties.ofDocument (ps.writeTo ts space typeName d) space = .ok ps ↔
      ps.Plain ts typeName := by
  have hsame : ∀ name v, ps.get? name = some v →
      PropertyValue.ofStored v.toStored = .ok (id v) := hback
  refine ⟨fun hread => ?_, fun hplain => ?_⟩
  · obtain ⟨es, heq, hsound, -⟩ := ofDocument_writeTo ts space typeName d hsame
    rw [hread, Except.ok.injEq] at heq
    -- A property's name is read from that of another which is shorter, or from its own.
    suffices h : ∀ m name v, ps.get? name = some v → name.toList.length = m →
        '.' ∉ (ts.qualifierOf typeName name).toList from
      fun name v hget => h _ name v hget rfl
    intro m
    induction m using Nat.strongRecOn with
    | ind m ih =>
      rintro name v hget rfl hdot
      obtain ⟨name', v', hget', -, hname⟩ :=
        hsound name v (NameMap.mem_ofList_of_get? (heq ▸ hget))
      by_cases hdot' : '.' ∈ (ts.qualifierOf typeName name').toList
      · have hshorter := AttributeKey.length_lt_afterDot (p := name') hdot'
        rw [← hname] at hshorter
        exact ih _ hshorter name' v' hget' rfl hdot'
      · rw [AttributeKey.afterDot_qualified hdot'] at hname
        exact hdot' (hname ▸ hdot)
  · rw [hplain.ofDocument_writeTo space d hsame, NameMap.map_id]

/-- Properties are read from the stored texts of their space, and from no other attributes. -/
theorem ofDocument_congr
    (h : ∀ k, beginsWith space.serializedStem k = true → d.get? k = d'.get? k) :
    Properties.ofDocument d space = Properties.ofDocument d' space := by
  unfold Properties.ofDocument
  rw [Document.startingWith_congr h]

end Properties

end MetadataArchive
