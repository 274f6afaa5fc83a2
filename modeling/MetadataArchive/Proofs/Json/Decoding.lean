import MetadataArchive.Json.Decode
import MetadataArchive.Proofs.Collection.NameMap
import MetadataArchive.Proofs.Json.Proper
import MetadataArchive.Proofs.Time.Rfc3339

/-!
# Decoders

A decoder of a record passes the members of an object on to the decoders of its fields. So what
these make of every proper value (`Json.Decodes`), the record has in its fields.

An encoder and a decoder belong together on a value where what is written of it is read as that
value again (`Json.Returns`). From the fields of a record this carries over to the record: the
members of its object are found under their names, whether they have to be there, may be null or may
be left out. Numbers, names, lists and maps return with nothing lost.
-/

set_option autoImplicit false

namespace MetadataArchive

section Lists

variable {α β : Type} {f : α → Option β} {xs : List α}

theorem exists_of_mapM_eq_some {ys : List β} (h : xs.mapM f = some ys) {y : β} (hy : y ∈ ys) :
    ∃ x ∈ xs, f x = some y := by
  induction xs generalizing ys with
  | nil =>
    cases h
    cases hy
  | cons x xs ih =>
    simp only [List.mapM_cons, Option.bind_eq_bind, Option.bind_eq_some_iff, Option.pure_def,
      Option.some.injEq] at h
    obtain ⟨z, hz, zs, hzs, rfl⟩ := h
    rcases List.mem_cons.1 hy with rfl | hy
    · exact ⟨x, List.mem_cons_self, hz⟩
    · obtain ⟨x', hx', hread⟩ := ih hzs hy
      exact ⟨x', List.mem_cons_of_mem x hx', hread⟩

theorem exists_mapM_eq_some (h : ∀ x ∈ xs, ∃ y, f x = some y) : ∃ ys, xs.mapM f = some ys := by
  induction xs with
  | nil => exact ⟨[], rfl⟩
  | cons x xs ih =>
    obtain ⟨⟨y, hy⟩, hxs⟩ := List.forall_mem_cons.1 h
    obtain ⟨ys, hys⟩ := ih hxs
    exact ⟨y :: ys, by simp [List.mapM_cons, hy, hys]⟩

theorem mapM_map_eq_some {g : β → α} {ys : List β} (h : ∀ y ∈ ys, f (g y) = some y) :
    (ys.map g).mapM f = some ys := by
  induction ys with
  | nil => rfl
  | cons y ys ih =>
    obtain ⟨hy, hys⟩ := List.forall_mem_cons.1 h
    simp [List.mapM_cons, hy, ih hys]

end Lists

/-! ## What decoders make of proper values -/

namespace Json

variable {α : Type} {P : α → Prop} {decode : Json → Option α} {j : Json} {a : α}
variable {ms : List (String × Json)} {name : String}

/-- Whatever is decoded of a proper value has the property. -/
def Decodes (P : α → Prop) (decode : Json → Option α) : Prop :=
  ∀ j a, j.Proper → decode j = some a → P a

theorem Proper.members (h : j.Proper) (hms : j.toMembers? = some ms) : ∀ m ∈ ms, m.2.Proper := by
  cases h with
  | obj h =>
    cases hms
    exact h
  | _ => cases hms

theorem Fits.fields? {names : List String} {depth : Nat} (h : j.Fits depth)
    (hms : j.fields? names = some ms) : ∃ d, depth = d + 1 ∧ ∀ m ∈ ms, m.2.Fits d := by
  cases j with
  | obj members =>
    cases hms
    exact h.of_obj
  | arr items =>
    simp only [Json.fields?, Option.ite_none_right_eq_some, Option.some.injEq] at hms
    obtain ⟨-, rfl⟩ := hms
    obtain ⟨d, rfl, hitems⟩ := h.of_arr
    exact ⟨d, rfl, fun m hm => hitems _ (List.of_mem_zip hm).2⟩
  | _ => cases hms

theorem mem_of_required (h : required ms name decode = some a) :
    ∃ j, (name, j) ∈ ms ∧ decode j = some a := by
  obtain ⟨j, hj, ha⟩ := Option.bind_eq_some_iff.1 h
  exact ⟨j, mem_of_member?_eq_some hj, ha⟩

theorem exists_of_optional (h : optional ms name decode = some (some a)) :
    ∃ j, decode j = some a := by
  unfold optional at h
  split at h
  · cases h
  · obtain ⟨j, -, h⟩ := mem_of_required h
    unfold toOption? at h
    split at h
    · cases h
    · obtain ⟨a, ha, heq⟩ := Option.map_eq_some_iff.1 h
      cases heq
      exact ⟨j, ha⟩

theorem Decodes.required (h : Decodes P decode) (hms : ∀ m ∈ ms, m.2.Proper)
    (ha : required ms name decode = some a) : P a := by
  obtain ⟨j, hmem, ha⟩ := mem_of_required ha
  exact h j a (hms _ hmem) ha

theorem Decodes.defaulted (h : Decodes P decode) {default : α} (hdefault : P default)
    (hms : ∀ m ∈ ms, m.2.Proper) (ha : defaulted ms name decode default = some a) : P a := by
  unfold Json.defaulted at ha
  split at ha
  · cases ha
    exact hdefault
  · exact h.required hms ha

theorem Decodes.toList? (h : Decodes P decode) :
    Decodes (fun as => ∀ a ∈ as, P a) (Json.toList? decode) := by
  intro j as hj has a ha
  cases hj with
  | arr hitems =>
    obtain ⟨j, hmem, hread⟩ := exists_of_mapM_eq_some has ha
    exact h j a (hitems j hmem) hread
  | _ => cases has

theorem Decodes.toNameMap? (h : Decodes P decode) :
    Decodes (fun m => ∀ name a, m.get? name = some a → P a) (Json.toNameMap? decode) := by
  intro j m hj hm name a ha
  cases hj with
  | obj hmembers =>
    obtain ⟨es, hes, rfl⟩ := Option.map_eq_some_iff.1 hm
    obtain ⟨member, hmem, hread⟩ := exists_of_mapM_eq_some hes (NameMap.mem_ofList_of_get? ha)
    obtain ⟨a, hread, heq⟩ := Option.map_eq_some_iff.1 hread
    cases heq
    exact h _ _ (hmembers member hmem) hread
  | _ => cases hm

end Json

/-! ## What is written is read again -/

namespace Json

variable {α : Type} {encode : α → Json} {decode : Json → Option α} {a : α} {j : Json}
variable {ms : List (String × Json)} {name : String}

/-- What is written of the value is read as that value again. -/
def Returns (encode : α → Json) (decode : Json → Option α) (a : α) : Prop :=
  decode (encode a) = some a

/-! ## Fields -/

theorem lacks_eq_false (hm : member? ms name = some j) : lacks ms name = false := by
  have hmem := mem_of_member?_eq_some hm
  rw [lacks, List.all_eq_false]
  exact ⟨(name, j), hmem, by simp⟩

theorem Returns.required (h : Returns encode decode a) (hm : member? ms name = some (encode a)) :
    required ms name decode = some a := by
  rw [Json.required, hm]
  exact h

theorem Returns.defaulted (h : Returns encode decode a) (hm : member? ms name = some (encode a))
    (default : α) : defaulted ms name decode default = some a := by
  rw [Json.defaulted, lacks_eq_false hm, if_neg Bool.false_ne_true]
  exact h.required hm

/-- Null stands for what is absent, and so it must not be what some value is written as. -/
theorem returns_ofOption {o : Option α} (hnull : decode .null = none)
    (h : ∀ a ∈ o, Returns encode decode a) : Returns (ofOption encode) (toOption? decode) o := by
  cases o with
  | none => rfl
  | some a =>
    have ha : decode (encode a) = some a := h a rfl
    have hne : encode a ≠ .null := fun heq => by
      rw [heq, hnull] at ha
      cases ha
    show toOption? decode (encode a) = some (some a)
    rw [toOption?.eq_2 decode _ hne, ha]
    rfl

theorem Returns.optional {o : Option α} (h : Returns (ofOption encode) (toOption? decode) o)
    (hm : member? ms name = some (ofOption encode o)) : optional ms name decode = some o := by
  rw [Json.optional, lacks_eq_false hm, if_neg Bool.false_ne_true]
  exact h.required hm

/-! ## Values without parts -/

theorem returns_str (s : String) : Returns .str toString? s := rfl

theorem returns_bool (b : Bool) : Returns .bool toBool? b := rfl

theorem returns_ofString? (o : Option String) : Returns ofString? (toOption? toString?) o := by
  cases o <;> rfl

theorem optional_ofString? {o : Option String} (hm : member? ms name = some (ofString? o)) :
    optional ms name toString? = some o := by
  rw [Json.optional, lacks_eq_false hm, if_neg Bool.false_ne_true]
  exact (returns_ofString? o).required hm

theorem returns_ofInstant {t : Instant} (h : t.InCalendar) : Returns ofInstant toInstant? t :=
  Rfc3339.read?_text h

theorem toIntIn?_int {low high i : Int} (hlow : low ≤ i) (hhigh : i ≤ high) :
    toIntIn? low high (.int i) = some i := by
  simp [toIntIn?, hlow, hhigh]

theorem returns_int64 (i : Int64) : Returns (fun i => .int i.toInt) toInt64? i := by
  show (toIntIn? _ _ (.int i.toInt)).map _ = _
  rw [toIntIn?_int i.minValue_le_toInt i.toInt_le, Option.map_some, Int64.ofInt_toInt]

theorem returns_int32 (i : Int32) : Returns (fun i => .int i.toInt) toInt32? i := by
  show (toIntIn? _ _ (.int i.toInt)).map _ = _
  rw [toIntIn?_int i.minValue_le_toInt i.toInt_le, Option.map_some, Int32.ofInt_toInt]

theorem returns_uint64 (v : UInt64) : Returns (fun v => .int v.toNat) toUInt64? v := by
  have hv := v.toNat_lt
  have hhigh : (v.toNat : Int) ≤ ((Nat.pow 2 64 : Nat) : Int) - 1 := by
    simp only [Nat.pow_eq]
    omega
  show ((toIntIn? _ _ (.int v.toNat)).map Int.toNat).map UInt64.ofNat = some v
  rw [toIntIn?_int (Int.natCast_nonneg _) hhigh]
  simp

/-! ## Lists and maps -/

theorem returns_ofList {as : List α} (h : ∀ a ∈ as, Returns encode decode a) :
    Returns (ofList encode) (toList? decode) as :=
  mapM_map_eq_some h

theorem returns_ofNameMap {m : NameMap α}
    (h : ∀ name a, m.get? name = some a → Returns encode decode a) :
    Returns (ofNameMap encode) (toNameMap? decode) m := by
  have hentries : (m.entries.map fun e => (e.1, encode e.2)).mapM
      (fun member => (decode member.2).map fun v => (member.1, v)) = some m.entries :=
    mapM_map_eq_some fun e he => by
      rw [h e.1 e.2 (NameMap.mem_entries.1 he)]
      rfl
  show Option.map NameMap.ofList (List.mapM _ _) = some m
  rw [hentries, Option.map_some, NameMap.ofList_entries]

end Json

end MetadataArchive
