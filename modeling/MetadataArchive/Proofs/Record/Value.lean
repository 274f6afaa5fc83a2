import MetadataArchive.Record.Property
import MetadataArchive.Proofs.Json.Decoding
import MetadataArchive.Proofs.Json.RoundTrip

/-!
# Property values are read from their stored texts

Whatever can be decoded of JSON is a value with finite doubles and dates of the calendar (`Sound`),
and whatever is sound is decoded again of what was written of it, so far as that is read at all. So
nothing but its depth keeps a stored value from being read (`Sound.exists_ofStored_iff`).
-/

set_option autoImplicit false

namespace MetadataArchive

variable {j : Json} {ms : List (String × Json)} {depth : Nat}

/-- A value as it can be decoded of JSON: its doubles are finite and its dates are in the
calendar. -/
def PrimitiveValue.Sound : PrimitiveValue → Prop
  | .float d => d.isFinite = true
  | .date t => t.InCalendar
  | _ => True

namespace PrimitiveValue

variable {v : PrimitiveValue}

theorem Sound.fits_toJson (h : v.Sound) : v.toJson.Fits (depth + 1) := by
  have htagged {kind : String} {j : Json} (hj : j.Proper) (hflat : j.nesting = 0) :
      (toJson.tagged kind j).Fits (depth + 1) := by
    refine Json.fits_obj (List.forall_mem_cons.2 ⟨Json.fits_str kind, ?_⟩)
    exact List.forall_mem_singleton.2 ⟨hj, hflat ▸ Nat.zero_le depth⟩
  cases v with
  | bool b => exact htagged (.bool b) rfl
  | int i =>
    have hlow := i.minValue_le_toInt
    have hhigh := i.toInt_lt
    exact htagged (.int (by simpa using hlow) (by omega)) rfl
  | float d =>
    have hnum : Json.ofDouble d = .num d := if_pos h
    rw [toJson, hnum]
    exact htagged (.num h) rfl
  | string s => exact htagged (.str s) rfl
  | date t => exact htagged (.str _) rfl

theorem exists_ofJson?_reread (h : v.Sound) : ∃ w, ofJson? v.toJson.reread = some w := by
  cases v with
  | bool b => exact ⟨.bool b, rfl⟩
  | int i => exact ⟨.int i, congrArg (Option.map PrimitiveValue.int) (Json.returns_int64 i)⟩
  | float d =>
    have hnum : Json.ofDouble d = .num d := if_pos h
    rw [toJson, hnum]
    exact ⟨.float d.reread, rfl⟩
  | string s => exact ⟨.string s, rfl⟩
  | date t =>
    have hshape : (toJson (.date t)).reread =
        .obj [("kind", .str "date"), ("value", .str (Rfc3339.text t))] := rfl
    have hdecode (j : Json) : ofJson? (.obj [("kind", .str "date"), ("value", j)]) =
        j.toInstant?.map .date := rfl
    have hread : Json.toInstant? (.str (Rfc3339.text t)) = some t := Rfc3339.read?_text h
    rw [hshape, hdecode, hread]
    exact ⟨.date t, rfl⟩

theorem sound_of_ofJson? (hj : j.Fits depth) (h : ofJson? j = some v) :
    v.Sound ∧ v.toJson.Fits depth := by
  simp only [ofJson?, Option.bind_eq_bind, Option.bind_eq_some_iff] at h
  obtain ⟨ms, hms, kind, -, value, hvalue, h⟩ := h
  obtain ⟨d, rfl, hmembers⟩ := hj.fields? hms
  obtain ⟨hproper, -⟩ := hmembers _ (Json.mem_of_member?_eq_some hvalue)
  suffices hsound : v.Sound from ⟨hsound, hsound.fits_toJson⟩
  split at h
  · obtain ⟨b, -, rfl⟩ := Option.map_eq_some_iff.1 h
    trivial
  · obtain ⟨i, -, rfl⟩ := Option.map_eq_some_iff.1 h
    trivial
  · obtain ⟨x, hx, rfl⟩ := Option.map_eq_some_iff.1 h
    cases hproper with
    | num hfinite =>
      cases hx
      exact hfinite
    | int hlow hhigh =>
      cases hx
      have hmin : Int64.minValue.toInt = -9223372036854775808 := by decide
      exact Json.isFinite_ofInt (by omega)
    | _ => cases hx
  · obtain ⟨s, -, rfl⟩ := Option.map_eq_some_iff.1 h
    trivial
  · obtain ⟨t, ht, rfl⟩ := Option.map_eq_some_iff.1 h
    cases hproper with
    | str s => exact Rfc3339.inCalendar_of_read? ht
    | _ => cases ht
  · cases h

end PrimitiveValue

namespace PropertyValue

variable {v : PropertyValue}

/-- A value whose primitive values are sound, however they are nested. -/
inductive Sound : PropertyValue → Prop where
  | primitive {v : PrimitiveValue} (h : v.Sound) : Sound (.primitive v)
  | choice (ordinal : Int32) (name : String) (description : Option String) :
      Sound (.choice ordinal name description)
  | array {items : List PropertyValue} (h : ∀ v ∈ items, Sound v) : Sound (.array items)
  | map {entries : List (String × PropertyValue)} (h : ∀ e ∈ entries, Sound e.2) :
      Sound (.map entries)
  | record {typeName : Option String} {fields : List (String × PropertyValue)}
      (h : ∀ e ∈ fields, Sound e.2) : Sound (.record typeName fields)

theorem toJsonItems_eq_map (items : List PropertyValue) : toJsonItems items = items.map toJson := by
  induction items with
  | nil => rfl
  | cons v items ih => rw [toJsonItems, ih, List.map_cons]

theorem toJsonEntries_eq_map (entries : List (String × PropertyValue)) :
    toJsonEntries entries = entries.map fun e => (e.1, e.2.toJson) := by
  induction entries with
  | nil => rfl
  | cons e entries ih => rw [toJsonEntries, ih, List.map_cons]

theorem fits_parts? {c : PropertyCategory} (hj : j.Fits depth) (hparts : parts? j = some (c, ms)) :
    ∃ d, depth = d + 1 ∧ ∀ m ∈ ms, m.2.Fits d := by
  unfold parts? at hparts
  split at hparts
  · obtain ⟨_, -, heq⟩ := Option.map_eq_some_iff.1 hparts
    cases heq
    exact hj.of_obj
  next item items =>
    obtain ⟨c, -, hparts⟩ := Option.bind_eq_some_iff.1 hparts
    obtain ⟨_, hms, heq⟩ := Option.map_eq_some_iff.1 hparts
    cases heq
    obtain ⟨d, rfl, hitems⟩ := hj.of_arr
    exact (Json.fits_arr (List.forall_mem_cons.1 hitems).2).fields? hms
  · cases hparts

theorem fits_optionalMember (name : String) (o : Option String) :
    ∀ m ∈ toJson.optionalMember name o, m.2.Fits depth := by
  cases o with
  | none => simp [toJson.optionalMember]
  | some s => exact List.forall_mem_singleton.2 (Json.fits_str s)

theorem fits_choice (ordinal : Int32) (name : String) (description : Option String) :
    (toJson (.choice ordinal name description)).Fits (depth + 1) := by
  have hlow := ordinal.minValue_le_toInt
  have hhigh := ordinal.toInt_lt
  have hordinal : (Json.int ordinal.toInt).Fits depth :=
    ⟨.int (Int.le_trans (by decide) hlow) (by omega), Nat.zero_le depth⟩
  refine Json.fits_obj (List.forall_mem_append.2 ⟨?_, fits_optionalMember _ description⟩)
  simp only [List.forall_mem_cons, hordinal, Json.fits_str, true_and]
  simp [Json.fits_str, toJson.categoryMember]

theorem fits_array {items : List PropertyValue} (h : ∀ v ∈ items, v.toJson.Fits depth) :
    (toJson (.array items)).Fits (depth + 2) := by
  rw [toJson, toJsonItems_eq_map]
  refine Json.fits_obj (List.forall_mem_cons.2 ⟨Json.fits_str _, ?_⟩)
  exact List.forall_mem_singleton.2 (Json.fits_arr (List.forall_mem_map.2 h))

theorem fits_entries {es : List (String × PropertyValue)} (h : ∀ e ∈ es, e.2.toJson.Fits depth) :
    (Json.obj (toJsonEntries es)).Fits (depth + 1) := by
  rw [toJsonEntries_eq_map]
  exact Json.fits_obj (List.forall_mem_map.2 h)

theorem fits_map {entries : List (String × PropertyValue)}
    (h : ∀ e ∈ entries, e.2.toJson.Fits depth) : (toJson (.map entries)).Fits (depth + 2) :=
  Json.fits_obj (List.forall_mem_cons.2
    ⟨Json.fits_str _, List.forall_mem_singleton.2 (fits_entries h)⟩)

theorem fits_record (typeName : Option String) {fields : List (String × PropertyValue)}
    (h : ∀ e ∈ fields, e.2.toJson.Fits depth) :
    (toJson (.record typeName fields)).Fits (depth + 2) := by
  refine Json.fits_obj (List.forall_mem_append.2 ⟨List.forall_mem_append.2 ⟨?_, ?_⟩, ?_⟩)
  · exact List.forall_mem_singleton.2 (Json.fits_str _)
  · exact fits_optionalMember _ typeName
  · exact List.forall_mem_singleton.2 (fits_entries h)

theorem mem_sortedEntries {es : List (String × PropertyValue)} {e : String × PropertyValue}
    (h : e ∈ sortedEntries es) : e ∈ es :=
  NameMap.mem_ofList_of_get? (NameMap.mem_entries.1 h)

/-- **Whatever is decoded is sound**, and nests no deeper than what it was decoded of. -/
theorem sound_of_ofJson? (hj : j.Fits depth) (h : ofJson? j = some v) :
    v.Sound ∧ v.toJson.Fits depth := by
  fun_induction ofJson? j generalizing v depth with
  | case1 => cases h
  | case2 j ms hparts =>
    obtain ⟨d, rfl, hms⟩ := fits_parts? hj hparts
    obtain ⟨p, hp, rfl⟩ := Option.map_eq_some_iff.1 h
    obtain ⟨jv, hmem, hp⟩ := Json.mem_of_required hp
    obtain ⟨hsound, hfits⟩ := PrimitiveValue.sound_of_ofJson? (hms _ hmem) hp
    refine ⟨.primitive hsound, Json.fits_obj (List.forall_mem_cons.2 ⟨Json.fits_str _, ?_⟩)⟩
    exact List.forall_mem_singleton.2 hfits
  | case3 j ms hparts =>
    obtain ⟨d, rfl, hms⟩ := fits_parts? hj hparts
    simp only [Option.bind_eq_bind, Option.bind_eq_some_iff, Option.some.injEq] at h
    obtain ⟨ordinal, -, name, -, description, -, rfl⟩ := h
    exact ⟨.choice .., fits_choice ..⟩
  | case4 j ms items hparts hitems _ ih =>
    obtain ⟨d, rfl, hms⟩ := fits_parts? hj hparts
    obtain ⟨d, rfl, hfits⟩ := (hms _ (Json.mem_of_member?_eq_some hitems)).of_arr
    obtain ⟨vs, hvs, rfl⟩ := Option.map_eq_some_iff.1 h
    have hall : ∀ v ∈ vs, v.Sound ∧ v.toJson.Fits d := fun v hv => by
      obtain ⟨item, -, hread⟩ := exists_of_mapM_eq_some hvs hv
      exact ih item (hfits _ item.2) hread
    exact ⟨.array fun v hv => (hall v hv).1, fits_array fun v hv => (hall v hv).2⟩
  | case5 j ms entries hparts hentries _ ih =>
    obtain ⟨d, rfl, hms⟩ := fits_parts? hj hparts
    obtain ⟨d, rfl, hfits⟩ := (hms _ (Json.mem_of_member?_eq_some hentries)).of_obj
    obtain ⟨es, hes, rfl⟩ := Option.map_eq_some_iff.1 h
    have hall : ∀ e ∈ sortedEntries es, e.2.Sound ∧ e.2.toJson.Fits d := fun e he => by
      obtain ⟨entry, -, hread⟩ := exists_of_mapM_eq_some hes (mem_sortedEntries he)
      obtain ⟨v, hv, rfl⟩ := Option.map_eq_some_iff.1 hread
      exact ih entry (hfits _ entry.2) hv
    exact ⟨.map fun e he => (hall e he).1, fits_map fun e he => (hall e he).2⟩
  | case6 j ms fields hparts hfields _ ih =>
    obtain ⟨d, rfl, hms⟩ := fits_parts? hj hparts
    obtain ⟨d, rfl, hfits⟩ := (hms _ (Json.mem_of_member?_eq_some hfields)).of_obj
    simp only [Option.bind_eq_bind, Option.bind_eq_some_iff, Option.some.injEq] at h
    obtain ⟨typeName, -, es, hes, rfl⟩ := h
    have hall : ∀ e ∈ sortedEntries es, e.2.Sound ∧ e.2.toJson.Fits d := fun e he => by
      obtain ⟨entry, -, hread⟩ := exists_of_mapM_eq_some hes (mem_sortedEntries he)
      obtain ⟨v, hv, rfl⟩ := Option.map_eq_some_iff.1 hread
      exact ih entry (hfits _ entry.2) hv
    exact ⟨.record fun e he => (hall e he).1, fits_record typeName fun e he => (hall e he).2⟩
  | case7 => cases h

theorem Sound.proper_toJson (h : v.Sound) : v.toJson.Proper := by
  induction h with
  | @primitive p h =>
    have hfits : (toJson (.primitive p)).Fits 2 := Json.fits_obj (List.forall_mem_cons.2
      ⟨Json.fits_str _, List.forall_mem_singleton.2 h.fits_toJson⟩)
    exact hfits.proper
  | choice ordinal name description =>
    have hfits : (toJson (.choice ordinal name description)).Fits 1 := fits_choice ..
    exact hfits.proper
  | array _ ih =>
    obtain ⟨depth, hfits⟩ := Json.exists_fits (List.forall_mem_map.2 ih)
    exact (fits_array (List.forall_mem_map.1 hfits)).proper
  | map _ ih =>
    obtain ⟨depth, hfits⟩ := Json.exists_fits (List.forall_mem_map.2 ih)
    exact (fits_map (List.forall_mem_map.1 hfits)).proper
  | record _ ih =>
    obtain ⟨depth, hfits⟩ := Json.exists_fits (List.forall_mem_map.2 ih)
    exact (fits_record _ (List.forall_mem_map.1 hfits)).proper

/-! ## Reading what was written -/

theorem ofJson?_primitive (hparts : parts? j = some (.primitive, ms)) :
    ofJson? j = (Json.required ms "value" PrimitiveValue.ofJson?).map .primitive := by
  fun_cases ofJson? j <;> simp_all

theorem ofJson?_choice (hparts : parts? j = some (.choice, ms)) :
    ofJson? j = (do
      let ordinal ← Json.required ms "ordinal" Json.toInt32?
      let name ← Json.required ms "symbolic_name" Json.toString?
      let description ← Json.optional ms "description" Json.toString?
      some (.choice ordinal name description)) := by
  fun_cases ofJson? j <;> simp_all

theorem ofJson?_array {items : List Json} (hparts : parts? j = some (.array, ms))
    (hitems : Json.member? ms "items" = some (.arr items)) :
    ofJson? j = (items.mapM ofJson?).map .array := by
  have hsame : (items.attach.mapM fun (item : { i // i ∈ items }) => ofJson? item.1) =
      items.mapM ofJson? := by
    rw [List.mapM_subtype (g := ofJson?) fun _ _ => rfl, List.unattach_attach]
  fun_cases ofJson? j <;> simp_all

/-- An entry of a map or a structure. -/
def entryOfJson? (e : String × Json) : Option (String × PropertyValue) :=
  (ofJson? e.2).map fun v => (e.1, v)

theorem mapM_attach_entries (entries : List (String × Json)) :
    (entries.attach.mapM fun (e : { e // e ∈ entries }) =>
      (ofJson? e.1.2).map fun v => (e.1.1, v)) = entries.mapM entryOfJson? := by
  rw [List.mapM_subtype (g := entryOfJson?) fun _ _ => rfl, List.unattach_attach]

theorem ofJson?_map {entries : List (String × Json)} (hparts : parts? j = some (.map, ms))
    (hentries : Json.member? ms "entries" = some (.obj entries)) :
    ofJson? j = (entries.mapM entryOfJson?).map fun es => .map (sortedEntries es) := by
  fun_cases ofJson? j <;> simp_all [mapM_attach_entries]

theorem ofJson?_record {fields : List (String × Json)} (hparts : parts? j = some (.record, ms))
    (hfields : Json.member? ms "fields" = some (.obj fields)) :
    ofJson? j = (do
      let typeName ← Json.optional ms "type_name" Json.toString?
      let es ← fields.mapM entryOfJson?
      some (.record typeName (sortedEntries es))) := by
  fun_cases ofJson? j <;> simp_all [mapM_attach_entries]

theorem exists_entries {es : List (String × PropertyValue)}
    (h : ∀ e ∈ es, ∃ w, ofJson? e.2.toJson.reread = some w) :
    ∃ ws, (Json.rereadMembers (toJsonEntries es)).mapM entryOfJson? = some ws := by
  rw [Json.rereadMembers_eq_map, toJsonEntries_eq_map, List.map_map]
  refine exists_mapM_eq_some (List.forall_mem_map.2 fun e he => ?_)
  obtain ⟨w, hw⟩ := h e he
  exact ⟨(e.1, w), Option.map_eq_some_iff.2 ⟨w, hw, rfl⟩⟩

/-- **Whatever is sound is read** of what was written of it. -/
theorem Sound.exists_ofJson?_reread (h : v.Sound) : ∃ w, ofJson? v.toJson.reread = some w := by
  induction h with
  | @primitive p h =>
    obtain ⟨w, hw⟩ := p.exists_ofJson?_reread h
    refine ⟨.primitive w, ?_⟩
    rw [ofJson?_primitive (j := (toJson (.primitive p)).reread) rfl]
    show (PrimitiveValue.ofJson? p.toJson.reread).map _ = _
    rw [hw]
    rfl
  | choice ordinal name description =>
    have hordinal : Json.toInt32? (.int ordinal.toInt) = some ordinal := Json.returns_int32 ordinal
    refine ⟨.choice ordinal name description, ?_⟩
    cases description with
    | none =>
      rw [ofJson?_choice (j := (toJson (.choice ordinal name none)).reread) rfl]
      show (Json.toInt32? (.int ordinal.toInt)).bind _ = _
      rw [hordinal]
      rfl
    | some s =>
      rw [ofJson?_choice (j := (toJson (.choice ordinal name (some s))).reread) rfl]
      show (Json.toInt32? (.int ordinal.toInt)).bind _ = _
      rw [hordinal]
      rfl
  | @array items _ ih =>
    have hread : ∃ ws, (Json.rereadItems (toJsonItems items)).mapM ofJson? = some ws := by
      rw [Json.rereadItems_eq_map, toJsonItems_eq_map, List.map_map]
      exact exists_mapM_eq_some (List.forall_mem_map.2 ih)
    obtain ⟨ws, hws⟩ := hread
    refine ⟨.array ws, ?_⟩
    rw [ofJson?_array (j := (toJson (.array items)).reread) rfl rfl, hws]
    rfl
  | @map entries _ ih =>
    obtain ⟨ws, hws⟩ := exists_entries ih
    refine ⟨.map (sortedEntries ws), ?_⟩
    rw [ofJson?_map (j := (toJson (.map entries)).reread) rfl rfl, hws]
    rfl
  | @record typeName fields _ ih =>
    obtain ⟨ws, hws⟩ := exists_entries ih
    refine ⟨.record typeName (sortedEntries ws), ?_⟩
    cases typeName with
    | none =>
      rw [ofJson?_record (j := (toJson (.record none fields)).reread) rfl rfl, hws]
      rfl
    | some name =>
      rw [ofJson?_record (j := (toJson (.record (some name) fields)).reread) rfl rfl, hws]
      rfl

/-! ## Stored texts -/

/-- A value whose JSON form nests no deeper than a reader allows. -/
def Shallow (v : PropertyValue) : Prop := v.toJson.nesting ≤ Json.nestingLimit

instance (v : PropertyValue) : Decidable v.Shallow :=
  inferInstanceAs (Decidable (v.toJson.nesting ≤ Json.nestingLimit))

theorem Sound.read?_write (h : v.Sound) :
    Json.read? v.toJson.write = if v.Shallow then some v.toJson.reread else none :=
  Json.readWithin?_write h.proper_toJson

/-- **A stored text is read** exactly if its value is shallow. -/
theorem Sound.exists_ofStored_iff (h : v.Sound) :
    (∃ w, ofStored v.toStored = .ok w) ↔ v.Shallow := by
  rw [toStored, ofStored, h.read?_write]
  constructor
  · rintro ⟨w, hw⟩
    by_contra hdeep
    rw [if_neg hdeep] at hw
    cases hw
  · intro hshallow
    obtain ⟨w, hw⟩ := h.exists_ofJson?_reread
    rw [if_pos hshallow, Option.bind_some, hw]
    exact ⟨w, rfl⟩

/-- Whatever is read of a stored text is sound, and shallow again. -/
theorem sound_of_ofStored {x : Value} (h : ofStored x = .ok v) : v.Sound ∧ v.Shallow := by
  unfold ofStored at h
  split at h
  · split at h
    next hread =>
      cases h
      obtain ⟨j, hj, hv⟩ := Option.bind_eq_some_iff.1 hread
      obtain ⟨hsound, hfits⟩ := sound_of_ofJson? (Json.fits_of_readWithin? hj) hv
      exact ⟨hsound, hfits.nesting⟩
    · cases h
  · cases h

end PropertyValue

end MetadataArchive
