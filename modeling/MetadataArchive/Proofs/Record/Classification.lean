import MetadataArchive.Proofs.Record.Parts

/-!
# Classifications keep apart

All classifications of an entity are written into the one document, each under names of its own: the
fields of its header behind a slash, its properties behind a full stop. As long as no classification
has a full stop in its name, no two of them share a name (`Attr.eq_of_inClassification`), whatever
slashes there are in their names and whatever their properties are called. So each is still found as
it was written when all others have been written too.
-/

set_option autoImplicit false

namespace MetadataArchive

variable {ts : TypeSystem} {d d' : Document} {k n m : String}

/-! ## Names -/

namespace Attr

/-- The names behind the slash of a classification. -/
def classification : List String := header ++ [origin, originGuid]

/-- The names that a classification is written under. -/
def InClassification (n k : String) : Prop :=
  (∃ field ∈ classification, k = ofClassification n field) ∨
    beginsWith (PropertySpace.classification n).name k = true

-- Stated for any texts, since a rewrite by `String.toList_append` looks into every literal.
theorem toList_append_append (s t u : String) :
    (s ++ t ++ u).toList = s.toList ++ (t.toList ++ u.toList) := by
  rw [String.toList_append, String.toList_append, List.append_assoc]

theorem toList_ofClassification (n field : String) :
    (ofClassification n field).toList =
      "classifications.".toList ++ (n.toList ++ '/' :: field.toList) :=
  calc (ofClassification n field).toList
      = ("classifications." ++ n ++ ("/" ++ field)).toList :=
        congrArg String.toList String.append_assoc
    _ = "classifications.".toList ++ (n.toList ++ ("/" ++ field).toList) :=
        toList_append_append _ _ _
    _ = "classifications.".toList ++ (n.toList ++ '/' :: field.toList) :=
        congrArg (fun behind => "classifications.".toList ++ (n.toList ++ behind))
          (String.toList_append (s := "/"))

theorem ofClassification_inj {field field' : String} :
    ofClassification n field = ofClassification n field' ↔ field = field' := by
  simp only [ofClassification, ← String.toList_inj, String.toList_append,
    List.append_cancel_left_eq]

theorem beginsWith_ofClassification (n field : String) :
    beginsWith "classifications." (ofClassification n field) = true := by
  rw [beginsWith_iff, toList_ofClassification]
  exact List.prefix_append _ _

theorem toList_classificationSpace (n : String) :
    (PropertySpace.classification n).name.toList =
      "classifications.".toList ++ (n.toList ++ '.' :: "classificationProperties".toList) := by
  have hdot : ".classificationProperties".toList = '.' :: "classificationProperties".toList := by
    decide
  exact (toList_append_append _ n _).trans
    (congrArg (fun behind => "classifications.".toList ++ (n.toList ++ behind)) hdot)

theorem dropWhile_ne {xs ys : List Char} {c : Char} (h : c ∉ xs) :
    (xs ++ ys).dropWhile (· != c) = ys.dropWhile (· != c) :=
  List.dropWhile_append_of_pos fun _ hx => bne_iff_ne.2 (ne_of_mem_of_not_mem hx h)

/-- A text is taken apart at the first of a character in one way only. -/
theorem eq_of_append_cons {xs xs' ys ys' : List Char} {c : Char} (h : c ∉ xs) (h' : c ∉ xs')
    (heq : xs ++ c :: ys = xs' ++ c :: ys') : xs = xs' := by
  have hfirst {xs ys : List Char} (h : c ∉ xs) :
      (xs ++ c :: ys).takeWhile (· != c) = xs := by
    rw [List.takeWhile_append_of_pos fun _ hx => bne_iff_ne.2 (ne_of_mem_of_not_mem hx h)]
    simp
  rw [← hfirst h, heq, hfirst h']

/-- No field stands where a classification has its properties. -/
theorem field_not_in_space (hn : '.' ∉ n.toList) (hm : '.' ∉ m.toList) {field : String}
    (hfield : field ∈ classification) :
    beginsWith (PropertySpace.classification m).name (ofClassification n field) = false := by
  have hfields : ∀ field ∈ classification,
      ¬ ('.' :: "classificationProperties".toList) <+: field.toList.dropWhile (· != '.') := by
    decide
  rw [Bool.eq_false_iff, ne_eq, beginsWith_iff, toList_ofClassification,
    toList_classificationSpace]
  rintro ⟨rest, hrest⟩
  rw [List.append_assoc, List.append_cancel_left_eq, List.append_assoc] at hrest
  -- From the first full stop on, the one is the name of the space, the other a part of the field.
  have hslash : '.' ∉ n.toList ++ ['/'] := by simpa using hn
  have hdrop := congrArg (List.dropWhile (· != '.')) hrest
  rw [dropWhile_ne hm, ← List.singleton_append (l := field.toList), ← List.append_assoc,
    dropWhile_ne hslash] at hdrop
  exact hfields field hfield ⟨rest, hdrop⟩

/-- **No two classifications share a name.** -/
theorem eq_of_inClassification (hn : '.' ∉ n.toList) (hm : '.' ∉ m.toList)
    (h : InClassification n k) (h' : InClassification m k) : n = m := by
  have hfields : ∀ field ∈ classification, '/' ∉ field.toList.reverse := by decide
  rcases h with ⟨field, hfield, rfl⟩ | h <;> rcases h' with ⟨field', hfield', heq⟩ | h'
  · -- Fields have no slash, so names are taken apart at their last one.
    have hlist := congrArg (List.reverse ∘ String.toList) heq
    simp only [Function.comp_apply, toList_ofClassification, List.reverse_append,
      List.reverse_cons, List.append_assoc, List.singleton_append] at hlist
    have hsame := eq_of_append_cons (hfields field hfield) (hfields field' hfield') hlist
    rw [hsame, List.append_cancel_left_eq, List.append_cancel_right_eq, List.cons.injEq,
      List.reverse_inj] at hlist
    exact String.toList_inj.1 hlist.2
  · rw [field_not_in_space hn hm hfield] at h'
    cases h'
  · rw [heq, field_not_in_space hm hn hfield'] at h
    cases h
  · -- Both names are what stands before the first full stop.
    rw [beginsWith_iff, toList_classificationSpace] at h h'
    obtain ⟨rest, hrest⟩ := h
    obtain ⟨rest', hrest'⟩ := h'
    simp only [← hrest', List.append_assoc, List.append_cancel_left_eq, List.cons_append] at hrest
    exact String.toList_inj.1 (eq_of_append_cons hn hm hrest)

end Attr

/-! ## Writing -/

namespace Classification

variable {c : Classification} {cs : List Classification}

/-- A classification is written under its own names, and changes nothing else. -/
theorem get?_writeTo_of_not_in (hk : ¬ Attr.InClassification c.name k) :
    (c.writeTo ts d).get? k = d.get? k := by
  rw [Attr.InClassification, not_or, not_exists] at hk
  obtain ⟨hfield, hspace⟩ := hk
  have hne : ∀ field ∈ Attr.classification, k ≠ Attr.ofClassification c.name field :=
    fun field hf heq => hfield field ⟨hf, heq⟩
  have hheader : k ∉ Attr.header.map (Attr.classificationStem c.name ++ ·) := fun hm => by
    obtain ⟨field, hf, rfl⟩ := List.mem_map.1 hm
    exact hne field (List.mem_append_left _ hf) rfl
  have horigin : k ≠ Attr.ofClassification c.name Attr.origin := hne _ (by decide)
  have hguid : k ≠ Attr.ofClassification c.name Attr.originGuid := hne _ (by decide)
  have hwrite : (c.header.writeTo (Attr.classificationStem c.name) d).get? k = d.get? k :=
    Document.get?_setAll_of_not_mem (by rwa [Header.names_writeTo])
  unfold Classification.writeTo
  rw [Properties.get?_writeTo_of_not_beginsWith (by simpa using hspace)]
  cases c.originGuid with
  | none => rw [Document.get?_set_of_ne horigin, hwrite]
  | some guid => rw [Document.get?_set_of_ne hguid, Document.get?_set_of_ne horigin, hwrite]

/-- A document holds a classification as it was written, all that reading it looks at. -/
structure In (ts : TypeSystem) (c : Classification) (d : Document) : Prop where
  header : c.header.LaidOut (Attr.classificationStem c.name) d
  origin : d.get? (Attr.ofClassification c.name Attr.origin) = some (.str c.origin.name)
  originGuid : d.get? (Attr.ofClassification c.name Attr.originGuid) =
    (Value.ofStr? c.originGuid).stored?
  properties : ∃ d', ∀ k, beginsWith (PropertySpace.classification c.name).name k = true →
    d.get? k = (c.properties.writeTo ts (.classification c.name) c.header.typeRef.name d').get? k

/-- A classification as it was written, but for the guid that it was propagated from, which may have
stayed from before. -/
structure Laid (ts : TypeSystem) (c : Classification) (d : Document) : Prop where
  header : c.header.LaidOut (Attr.classificationStem c.name) d
  origin : d.get? (Attr.ofClassification c.name Attr.origin) = some (.str c.origin.name)
  properties : ∃ d', ∀ k, beginsWith (PropertySpace.classification c.name).name k = true →
    d.get? k = (c.properties.writeTo ts (.classification c.name) c.header.typeRef.name d').get? k

/-- What the document holds when the properties are about to be written. -/
theorem writeTo_fields (ts : TypeSystem) (c : Classification) (d : Document) :
    ∃ d' : Document, c.writeTo ts d =
        c.properties.writeTo ts (.classification c.name) c.header.typeRef.name d' ∧
      (∀ k, k ≠ Attr.ofClassification c.name Attr.originGuid →
        d'.get? k = ((c.header.writeTo (Attr.classificationStem c.name) d).set
          (Attr.ofClassification c.name Attr.origin) (.str c.origin.name)).get? k) ∧
      (d.get? (Attr.ofClassification c.name Attr.originGuid) = none →
        d'.get? (Attr.ofClassification c.name Attr.originGuid) =
          (Value.ofStr? c.originGuid).stored?) := by
  have hheader : Attr.ofClassification c.name Attr.originGuid ∉
      Attr.header.map (Attr.classificationStem c.name ++ ·) := fun hm => by
    obtain ⟨field, hf, heq⟩ := List.mem_map.1 hm
    exact absurd (Attr.ofClassification_inj.1 heq ▸ hf) (by decide)
  unfold Classification.writeTo
  cases c.originGuid with
  | none =>
    refine ⟨_, rfl, fun _ _ => rfl, fun hfree => ?_⟩
    rw [Document.get?_set_of_ne fun h => absurd (Attr.ofClassification_inj.1 h) (by decide)]
    exact (Document.get?_setAll_of_not_mem (by rwa [Header.names_writeTo])).trans hfree
  | some guid =>
    refine ⟨_, rfl, fun k hk => Document.get?_set_of_ne hk, fun _ => ?_⟩
    rw [Document.get?_set, if_pos rfl]
    rfl

theorem laid_writeTo (hname : '.' ∉ c.name.toList) : c.Laid ts (c.writeTo ts d) := by
  obtain ⟨d', hwrite, hmarked, -⟩ := writeTo_fields ts c d
  have hkept : ∀ field ∈ Attr.classification,
      (c.writeTo ts d).get? (Attr.ofClassification c.name field) =
        d'.get? (Attr.ofClassification c.name field) := fun field hf => by
    rw [hwrite]
    exact Properties.get?_writeTo_of_not_beginsWith (Attr.field_not_in_space hname hname hf)
  refine ⟨?_, ?_, d', fun k _ => by rw [hwrite]⟩
  · refine (c.header.laidOut_writeTo (Attr.classificationStem c.name) d).congr fun field hf => ?_
    have hne {mark : String} (hm : mark ∉ Attr.header) :
        Attr.ofClassification c.name field ≠ Attr.ofClassification c.name mark :=
      fun h => hm (Attr.ofClassification_inj.1 h ▸ hf)
    have hread := hkept field (List.mem_append_left _ hf)
    rw [hmarked _ (hne (by decide)), Document.get?_set_of_ne (hne (by decide))] at hread
    exact hread
  · rw [hkept _ (by decide), hmarked _ fun h => absurd (Attr.ofClassification_inj.1 h) (by decide),
      Document.get?_set, if_pos rfl]
    rfl

theorem in_writeTo (hname : '.' ∉ c.name.toList)
    (hfree : d.get? (Attr.ofClassification c.name Attr.originGuid) = none) :
    c.In ts (c.writeTo ts d) := by
  have hlaid : c.Laid ts (c.writeTo ts d) := laid_writeTo hname
  refine ⟨hlaid.header, hlaid.origin, ?_, hlaid.properties⟩
  obtain ⟨d', hwrite, -, hguid⟩ := writeTo_fields ts c d
  rw [hwrite, Properties.get?_writeTo_of_not_beginsWith
    (Attr.field_not_in_space hname hname (by decide))]
  exact hguid hfree

theorem Laid.congr (h : c.Laid ts d)
    (hget : ∀ k, Attr.InClassification c.name k → d'.get? k = d.get? k) : c.Laid ts d' := by
  have hfield : ∀ field ∈ Attr.classification, d'.get? (Attr.ofClassification c.name field) =
      d.get? (Attr.ofClassification c.name field) := fun field hf =>
    hget _ (Or.inl ⟨field, hf, rfl⟩)
  obtain ⟨d₀, hproperties⟩ := h.properties
  exact ⟨h.header.congr fun field hf => hfield field (List.mem_append_left _ hf),
    (hfield _ (by decide)).trans h.origin,
    d₀, fun k hk => (hget k (Or.inr hk)).trans (hproperties k hk)⟩

/-- Whether a document holds a classification is a matter of the classification's own names. -/
theorem In.congr (h : c.In ts d) (hget : ∀ k, Attr.InClassification c.name k → d'.get? k = d.get? k) :
    c.In ts d' := by
  have hlaid : c.Laid ts d' := Laid.congr ⟨h.header, h.origin, h.properties⟩ hget
  exact ⟨hlaid.header, hlaid.origin,
    (hget _ (Or.inl ⟨_, by decide, rfl⟩)).trans h.originGuid, hlaid.properties⟩

theorem get?_foldl_writeTo_of_not_in (hk : ∀ c ∈ cs, ¬ Attr.InClassification c.name k) :
    (cs.foldl (fun d c => c.writeTo ts d) d).get? k = d.get? k := by
  induction cs generalizing d with
  | nil => rfl
  | cons c cs ih =>
    rw [List.foldl_cons, ih fun c' hc => hk c' (List.mem_cons_of_mem _ hc),
      get?_writeTo_of_not_in (hk c (by simp))]

/-- **Every classification is held as it was written**, once all have been written. -/
theorem in_foldl_writeTo (ts : TypeSystem) (hnodup : (cs.map Classification.name).Nodup)
    (hnames : ∀ c ∈ cs, '.' ∉ c.name.toList)
    (hfree : ∀ c ∈ cs, d.get? (Attr.ofClassification c.name Attr.originGuid) = none) :
    ∀ c ∈ cs, c.In ts (cs.foldl (fun d c => c.writeTo ts d) d) := by
  induction cs generalizing d with
  | nil => simp
  | cons c cs ih =>
    obtain ⟨hnew, hnodup⟩ := List.nodup_cons.1 hnodup
    have hname : '.' ∉ c.name.toList := hnames c (by simp)
    have hnames' : ∀ c' ∈ cs, '.' ∉ c'.name.toList := fun c' hc =>
      hnames c' (List.mem_cons_of_mem _ hc)
    have hapart : ∀ c' ∈ cs, ∀ k, Attr.InClassification c.name k →
        ¬ Attr.InClassification c'.name k := fun c' hc k hk hk' =>
      hnew (List.mem_map.2 ⟨c', hc, Attr.eq_of_inClassification (hnames' c' hc) hname hk' hk⟩)
    rw [List.foldl_cons]
    refine List.forall_mem_cons.2 ⟨?_, ih hnodup hnames' fun c' hc => ?_⟩
    · exact (in_writeTo hname (hfree c (by simp))).congr fun k hk =>
        get?_foldl_writeTo_of_not_in fun c' hc => hapart c' hc k hk
    · have hguid : Attr.InClassification c'.name (Attr.ofClassification c'.name Attr.originGuid) :=
        Or.inl ⟨_, by decide, rfl⟩
      rw [get?_writeTo_of_not_in fun hk => hapart c' hc _ hk hguid]
      exact hfree c' (List.mem_cons_of_mem _ hc)

/-- **Of each name the last classification is held**, once all have been written. -/
theorem laid_foldl_writeTo (ts : TypeSystem) (hnames : ∀ c ∈ cs, '.' ∉ c.name.toList)
    (h : cs.reverse.find? (fun c => c.name == n) = some c) :
    c.Laid ts (cs.foldl (fun d c => c.writeTo ts d) d) := by
  induction cs using List.reverseRecOn with
  | nil => cases h
  | append_singleton cs c' ih =>
    have hname : '.' ∉ c'.name.toList := hnames c' (by simp)
    rw [List.reverse_append, List.reverse_singleton, List.singleton_append, List.find?_cons] at h
    rw [List.foldl_append, List.foldl_cons, List.foldl_nil]
    split at h
    next =>
      cases h
      exact laid_writeTo hname
    next hother =>
      have hn : c.name = n := by simpa using List.find?_some h
      have hnames' : ∀ c ∈ cs, '.' ∉ c.name.toList := fun c hc =>
        hnames c (List.mem_append_left _ hc)
      have hdot : '.' ∉ c.name.toList :=
        hnames' c (List.mem_reverse.1 (List.mem_of_find?_eq_some h))
      refine (ih hnames' h).congr fun k hk => get?_writeTo_of_not_in fun hk' => ?_
      -- What is written behind it has another name, and keeps to that.
      rw [Attr.eq_of_inClassification hname hdot hk' hk, hn] at hother
      simp at hother

theorem exists_laid_foldl_writeTo (ts : TypeSystem) (hnames : ∀ c ∈ cs, '.' ∉ c.name.toList) :
    ∀ c ∈ cs, ∃ c' ∈ cs, c'.name = c.name ∧
      c'.Laid ts (cs.foldl (fun d c => c.writeTo ts d) d) := by
  intro c hc
  obtain ⟨c', hc'⟩ : ∃ c', cs.reverse.find? (fun c' => c'.name == c.name) = some c' :=
    Option.isSome_iff_exists.1 (List.find?_isSome.2 ⟨c, List.mem_reverse.2 hc, by simp⟩)
  have hname : c'.name = c.name := by simpa using List.find?_some hc'
  exact ⟨c', List.mem_reverse.1 (List.mem_of_find?_eq_some hc'), hname,
    laid_foldl_writeTo ts hnames hc'⟩

/-! ## Reading -/

/-- **A classification is read back** exactly where its version fits a signed integer, and none of
its properties is qualified by a name with a full stop. -/
theorem ofDocument_iff (h : c.In ts d) (hback : c.properties.ReadBack) :
    Classification.ofDocument d c.name = .ok c ↔
      c.header.version.toNat < 2 ^ 63 ∧ c.properties.Plain ts c.header.typeRef.name := by
  obtain ⟨d', hproperties⟩ := h.properties
  have hread : Properties.ofDocument d (.classification c.name) = .ok c.properties ↔
      c.properties.Plain ts c.header.typeRef.name := by
    rw [Properties.ofDocument_congr fun k hk =>
      hproperties k (beginsWith_of_append _ hk), Properties.ofDocument_writeTo_iff hback]
  have horigin : d.getStr? (Attr.ofClassification c.name Attr.origin) = some c.origin.name := by
    rw [Document.getStr?, h.origin]
    rfl
  rw [← Header.ofDocument_iff h.header, ← hread]
  simp only [Classification.ofDocument, horigin, Origin.ofName_name, ok_bind,
    Document.getStr?_of_get? h.originGuid, bind_eq_ok, Except.ok.injEq]
  constructor
  · rintro ⟨header, hheader, ps, hps, heq⟩
    rw [← heq]
    exact ⟨hheader, hps⟩
  · rintro ⟨hheader, hps⟩
    exact ⟨c.header, hheader, c.properties, hps, rfl⟩

end Classification

end MetadataArchive
