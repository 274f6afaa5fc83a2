import MetadataArchive.Proofs.Record.RoundTrip
import MetadataArchive.Proofs.Time.Instant

/-!
# The classifications of a document

An entity's document says three times what its classifications are: it lists their names, it has the
attributes of each under its name, and it is marked with the time of the last change of any.
Searches look at the list or at the mark and readers at the attributes, so the three have to agree
(`Document.Indexed`). They do where no name is listed twice, as long as names have no full stops
(`Entity.indexed_iff`).
-/

set_option autoImplicit false

namespace MetadataArchive

variable {ts : TypeSystem} {d : Document} {e : Entity}

/-! ## The last of several instants -/

/-- The later one of two instants, of which the first may be missing. -/
def Instant.later (latest : Option Instant) (t : Instant) : Option Instant :=
  match latest with
  | none => some t
  | some l => some (if l.le t then t else l)

theorem Entity.latestClassificationChange_eq (e : Entity) : e.latestClassificationChange =
    (e.classifications.map fun c => c.header.lastChange).foldl Instant.later none := rfl

namespace Instant

variable {latest : Option Instant} {t u : Instant}

theorem later_eq (latest : Option Instant) (u : Instant) :
    ∃ m, later latest u = some m ∧ m ∈ latest.toList ++ [u] ∧
      ∀ v ∈ latest.toList ++ [u], v.le m = true := by
  cases latest with
  | none => exact ⟨u, rfl, by simp, by simp [le_refl]⟩
  | some l =>
    cases hle : l.le u with
    | true => exact ⟨u, by simp [later, hle], by simp, by simp [le_refl, hle]⟩
    | false => exact ⟨l, by simp [later, hle], by simp, by simp [le_refl, le_of_not_le hle]⟩

/-- **The last of several instants** is one of them, and none of them is later. -/
theorem foldl_later_eq_some (us : List Instant) (h : us.foldl later latest = some t) :
    t ∈ latest.toList ++ us ∧ ∀ v ∈ latest.toList ++ us, v.le t = true := by
  induction us generalizing latest with
  | nil =>
    have h : latest = some t := h
    simp [h, le_refl]
  | cons u us ih =>
    obtain ⟨m, hm, hmem, hle⟩ := later_eq latest u
    rw [List.foldl_cons, hm] at h
    obtain ⟨ht, hlast⟩ := ih h
    have hsplit : latest.toList ++ u :: us = (latest.toList ++ [u]) ++ us := by simp
    rw [hsplit]
    simp only [Option.toList_some, List.singleton_append, List.forall_mem_cons] at hlast
    refine ⟨?_, fun v hv => ?_⟩
    · rcases List.mem_cons.1 ht with rfl | ht
      · exact List.mem_append_left _ hmem
      · exact List.mem_append_right _ ht
    · rcases List.mem_append.1 hv with hv | hv
      · exact le_trans (hle v hv) hlast.1
      · exact hlast.2 v hv

theorem foldl_later_eq_none (us : List Instant) (h : us.foldl later latest = none) : us = [] := by
  cases us with
  | nil => rfl
  | cons u us =>
    obtain ⟨m, hm, -⟩ := later_eq latest u
    have hsome (us : List Instant) (m : Instant) : us.foldl later (some m) ≠ none := by
      induction us generalizing m with
      | nil => simp
      | cons v us ih =>
        obtain ⟨m', hm', -⟩ := later_eq (some m) v
        rw [List.foldl_cons, hm']
        exact ih m'
    rw [List.foldl_cons, hm] at h
    exact absurd h (hsome us m)

end Instant

/-! ## Indexes that agree -/

/-- When the classification of a name was changed last, by the header that is written of it. -/
def Document.lastChange? (d : Document) (name : String) : Option Instant :=
  (Header.ofDocument d (Attr.classificationStem name)).toOption.map Header.lastChange

/-- The list of classifications, their attributes and the time of their last change agree. -/
structure Document.Indexed (d : Document) : Prop where
  distinct : d.classificationNames.Nodup
  /-- What is listed has a header, whole. -/
  listed : ∀ n ∈ d.classificationNames, ∃ h : Header, h.LaidOut (Attr.classificationStem n) d
  /-- What is not listed has none, nor anything else beside its name. -/
  unlisted : ∀ n, '.' ∉ n.toList → n ∉ d.classificationNames →
    ∀ field ∈ Attr.classification, d.get? (Attr.ofClassification n field) = none
  /-- The mark is the time at which a classification was changed, and none was changed later. -/
  marked : ∀ t, d.get? Attr.latestClassificationChange = some (.time t) ↔
    (∃ n ∈ d.classificationNames, d.lastChange? n = some t) ∧
      ∀ n ∈ d.classificationNames, ∀ u, d.lastChange? n = some u → u.le t = true
  unmarked : d.get? Attr.latestClassificationChange = none ↔ d.classificationNames = []

namespace Entity

theorem get?_latestClassificationChange (h : e.toDocument ts = .ok d) :
    d.get? Attr.latestClassificationChange = e.latestClassificationChange.map .time := by
  simp only [Entity.toDocument, bind_eq_ok, Except.ok.injEq] at h
  obtain ⟨d₀, hw, rfl⟩ := h
  rw [Entity.get?_foldl_writeTo (by decide)]
  cases e.latestClassificationChange with
  | none =>
    dsimp only
    rw [Document.get?_set_of_ne (by decide), Properties.get?_writeTo_of_not_beginsWith (by decide),
      Document.get?_set_of_ne (by decide), Header.get?_writeTo_of_not_mem (by decide),
      (TypeSystem.writeType_ok hw).2 _ (by decide) (by decide), Document.get?_ofId]
    rfl
  | some t =>
    dsimp only
    rw [Document.get?_set, if_pos rfl]
    rfl

/-- Under a name that no classification has nothing is written. -/
theorem get?_of_unlisted (h : e.toDocument ts = .ok d)
    (hundotted : ∀ c ∈ e.classifications, '.' ∉ c.name.toList) {n : String} (hn : '.' ∉ n.toList)
    (hnot : ∀ c ∈ e.classifications, c.name ≠ n) {field : String}
    (hfield : field ∈ Attr.classification) : d.get? (Attr.ofClassification n field) = none := by
  obtain ⟨d', rfl, -, hfree⟩ := Entity.toDocument_ok h
  have hin : Attr.InClassification n (Attr.ofClassification n field) := Or.inl ⟨field, hfield, rfl⟩
  rw [Classification.get?_foldl_writeTo_of_not_in fun c hc hother =>
    hnot c hc (Attr.eq_of_inClassification (hundotted c hc) hn hother hin)]
  exact hfree _ (Attr.beginsWith_ofClassification n field)

/-- **The indexes of an entity's document agree** exactly where no two of its classifications have
one name. -/
theorem indexed_iff (h : e.toDocument ts = .ok d)
    (hundotted : ∀ c ∈ e.classifications, '.' ∉ c.name.toList) :
    d.Indexed ↔ (e.classifications.map Classification.name).Nodup := by
  have hnames := Entity.classificationNames_toDocument h
  refine ⟨fun hindexed => hnames ▸ hindexed.distinct, fun hdistinct => ?_⟩
  have hin := Entity.in_toDocument h hdistinct hundotted
  have hlast : ∀ c ∈ e.classifications, d.lastChange? c.name = some c.header.lastChange := by
    intro c hc
    rw [Document.lastChange?, Header.ofDocument_of_laidOut (hin c hc).header]
    rfl
  have hmem {n : String} (hn : n ∈ d.classificationNames) : ∃ c ∈ e.classifications, c.name = n :=
    List.mem_map.1 (hnames ▸ hn)
  have hmark := Entity.get?_latestClassificationChange h
  rw [e.latestClassificationChange_eq] at hmark
  refine ⟨hnames ▸ hdistinct, fun n hn => ?_, fun n hn hnot field hfield => ?_, fun t => ?_, ?_⟩
  · obtain ⟨c, hc, rfl⟩ := hmem hn
    exact ⟨c.header, (hin c hc).header⟩
  · refine get?_of_unlisted h hundotted hn (fun c hc heq => hnot ?_) hfield
    rw [hnames]
    exact List.mem_map.2 ⟨c, hc, heq⟩
  · cases hfold : (e.classifications.map fun c => c.header.lastChange).foldl Instant.later none with
    | none =>
      have hnil := Instant.foldl_later_eq_none _ hfold
      rw [List.map_eq_nil_iff] at hnil
      simp [hmark, hnames, hnil]
    | some t₀ =>
      obtain ⟨hmem₀, hlatest⟩ := Instant.foldl_later_eq_some _ hfold
      obtain ⟨c₀, hc₀, rfl⟩ := List.mem_map.1 hmem₀
      simp only [Option.toList_none, List.nil_append, List.forall_mem_map] at hlatest
      rw [hmark, hfold, Option.map_some, Option.some.injEq, Value.time.injEq]
      constructor
      · rintro rfl
        refine ⟨⟨c₀.name, hnames ▸ List.mem_map_of_mem hc₀, hlast c₀ hc₀⟩, fun n hn u hu => ?_⟩
        obtain ⟨c, hc, rfl⟩ := hmem hn
        rw [hlast c hc, Option.some.injEq] at hu
        exact hu ▸ hlatest c hc
      · rintro ⟨⟨n, hn, ht⟩, hle⟩
        obtain ⟨c, hc, rfl⟩ := hmem hn
        rw [hlast c hc, Option.some.injEq] at ht
        -- Of two instants that are both the last, neither is later.
        refine Instant.le_antisymm ?_ (ht ▸ hlatest c hc)
        exact hle _ (hnames ▸ List.mem_map_of_mem hc₀) _ (hlast c₀ hc₀)
  · rw [hmark, hnames, Option.map_eq_none_iff, List.map_eq_nil_iff]
    refine ⟨fun hnone => List.map_eq_nil_iff.1 (Instant.foldl_later_eq_none _ hnone),
      fun hnil => ?_⟩
    rw [hnil]
    rfl

end Entity

end MetadataArchive
