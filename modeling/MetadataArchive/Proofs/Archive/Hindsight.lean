import MetadataArchive.Proofs.Archive.Integrity
import MetadataArchive.Proofs.Archive.Readback
import MetadataArchive.Proofs.Record.RoundTrip
import MetadataArchive.Proofs.Store.Past

/-!
# Relationships of the past

Eviction takes the past of a document along. An entity that is purged takes its relationships along,
but only those that end there by then. So what is left of the past has all ends where no
relationship was ever moved to another end. Where one was moved, the entity that it left can be
purged by itself, and then the relationship of the past is still seen and its end is not
(`past_ends_are_missing_iff`).
-/

set_option autoImplicit false

namespace MetadataArchive

/-- Where a relationship that is seen has this end. -/
def Source.endOf? (src : Source) (guid : String) (side : End) : Option DocId :=
  (src.document? (RecordRef.relationship guid).docId).bind fun d => d.getRef? (Attr.side side)

/-- What is seen of a state after others have come: of its documents those under whose keys there
has been one in each of the others. -/
def Source.IsLeftOf (src base : Source) (since : Set Source) : Prop :=
  ∀ id d, src.document? id = some d ↔
    base.document? id = some d ∧ ∀ later ∈ since, later.document? id ≠ none

/-! ## Ends -/

section Ends

variable {ts : TypeSystem} {src base : Source} {since : Set Source} {guid guid' : String}
variable {id : DocId} {side : End}

theorem Source.endOf?_eq_some : src.endOf? guid side = some id ↔
    ∃ d, src.document? (RecordRef.relationship guid).docId = some d ∧
      d.getRef? (Attr.side side) = some id :=
  Option.bind_eq_some_iff

theorem Linked.endOf?_entity (hsource : src.Coherent) (h : Linked src.document?)
    (hthere : src.document? (RecordRef.relationship guid).docId ≠ none) (side : End) :
    ∃ guid' e, src.endOf? guid side = some (RecordRef.entity guid').docId ∧
      src.document? (RecordRef.entity guid').docId = some e ∧ e.IsEntity := by
  obtain ⟨d, hd⟩ := Option.ne_none_iff_exists'.1 hthere
  obtain ⟨guid', e, hend, he⟩ := h.ends hsource hd side
  exact ⟨guid', e, Source.endOf?_eq_some.2 ⟨d, hd, hend⟩, he⟩

/-- Only relationships have ends, and each has two. -/
theorem Source.hasEnds_of_endOf? (hkeyed : ∀ id d, src.document? id = some d → d.id = id)
    (hlinks : ∀ id d, src.document? id = some d → d.IsEntity ∨ ∃ one two, d.Links one two)
    (hends : ∀ guid side id, src.endOf? guid side = some id → src.document? id ≠ none) :
    src.HasEnds := by
  intro id d hd one two hrefs
  obtain ⟨hone, htwo⟩ := Relationship.ends_ok hrefs
  rcases hlinks id d hd with hentity | ⟨_, _, hlinks⟩
  · rw [hentity.2 .one] at hone
    cases hone
  · obtain ⟨guid, hguid⟩ := hlinks.id
    have hrel : src.document? (RecordRef.relationship guid).docId = some d := by
      rw [← hguid, hkeyed id d hd, hd]
    have hend (side : End) {id : DocId} (href : d.get? (Attr.side side) = some (.ref id)) :
        ∃ d', src.document? id = some d' := by
      have href' : d.getRef? (Attr.side side) = some id := by
        rw [Document.getRef?, href]
        rfl
      exact Option.ne_none_iff_exists'.1
        (hends guid side id (Source.endOf?_eq_some.2 ⟨d, hrel, href'⟩))
    exact ⟨hend .one hone, hend .two htwo⟩

/-- Of the document of a relationship with a guid, a missing end is what fails first. -/
theorem Relationship.avoids_ofDocument_iff (ts : TypeSystem) {d : Document}
    {one two : Option Document} (hid : d.id = (RecordRef.relationship guid).docId) :
    Avoids RecordError.Dangling (Relationship.ofDocument ts d one two) ↔
      guid = "" ∨ one ≠ none ∧ two ≠ none := by
  by_cases hguid : guid = ""
  · have hnone : RecordRef.ofDocId d.id = .error (.invalidReference "r:") := by
      rw [hid, hguid]
      rfl
    refine iff_of_true ?_ (Or.inl hguid)
    rw [Relationship.ofDocument, hnone]
    exact avoids_error.2 id
  · have hsome : RecordRef.ofDocId d.id = .ok (RecordRef.relationship guid) := by
      rw [hid]
      exact RecordRef.ofDocId_docId hguid
    have hfails {e : RecordError} (he : e.Dangling)
        (heq : Relationship.ofDocument ts d one two = .error e) :
        ¬ Avoids RecordError.Dangling (Relationship.ofDocument ts d one two) := by
      rw [heq, avoids_error]
      exact not_not_intro he
    have hdangles (side : End) : (RecordError.inconsistentRelationship guid side).Dangling :=
      trivial
    cases one with
    | none =>
      refine iff_of_false (hfails (hdangles .one) ?_) (by simp [hguid])
      rw [Relationship.ofDocument, hsome]
      rfl
    | some one =>
      cases two with
      | none =>
        refine iff_of_false (hfails (hdangles .two) ?_) (by simp [hguid])
        rw [Relationship.ofDocument, hsome]
        rfl
      | some two =>
        exact iff_of_true (Relationship.avoids_ofDocument d one two) (Or.inr ⟨by simp, by simp⟩)

/-- **A relationship is read without fail**, as far as its ends are concerned, where they are seen,
and only there. One without a guid fails to be read for that. -/
theorem Source.avoids_relationship_iff
    (hkeyed : ∀ id d, src.document? id = some d → d.id = id)
    (hlinks : ∀ d, src.document? (RecordRef.relationship guid).docId = some d →
      ∃ one two, d.Links one two) :
    Avoids Failure.Dangling (src.relationship ts guid) ↔
      guid = "" ∨ ∀ side id, src.endOf? guid side = some id → src.document? id ≠ none := by
  have hknown : Avoids Failure.Dangling (src.relationship ts guid) ↔
      Avoids Failure.Dangling (src.relationship? ts (RecordRef.relationship guid).docId) := by
    simp [Source.relationship]
  rw [hknown, Source.relationship?]
  cases hd : src.document? (RecordRef.relationship guid).docId with
  | none =>
    refine iff_of_true avoids_ok (Or.inr fun side id hend => ?_)
    rw [Source.endOf?, hd] at hend
    cases hend
  | some d =>
    obtain ⟨one, two, hd'⟩ := hlinks d hd
    have hends := Relationship.ends_iff.2 ⟨hd'.one, hd'.two⟩
    have hone : src.endOf? guid .one = some (RecordRef.entity one).docId :=
      Source.endOf?_eq_some.2 ⟨d, hd, hd'.getRef?_one⟩
    have htwo : src.endOf? guid .two = some (RecordRef.entity two).docId :=
      Source.endOf?_eq_some.2 ⟨d, hd, hd'.getRef?_two⟩
    have hseen : (∀ side id, src.endOf? guid side = some id → src.document? id ≠ none) ↔
        src.document? (RecordRef.entity one).docId ≠ none ∧
          src.document? (RecordRef.entity two).docId ≠ none := by
      refine ⟨fun h => ⟨h .one _ hone, h .two _ htwo⟩, fun h side id hend => ?_⟩
      cases side with
      | one => exact Option.some.inj (hone.symm.trans hend) ▸ h.1
      | two => exact Option.some.inj (htwo.symm.trans hend) ▸ h.2
    rw [hseen, ← Relationship.avoids_ofDocument_iff ts (hkeyed _ d hd)]
    simp [hends, liftM_record_eq_ok]

namespace Source.IsLeftOf

variable (hleft : src.IsLeftOf base since)

include hleft

theorem base_of_shown {d : Document} (hd : src.document? id = some d) :
    base.document? id = some d := ((hleft id d).1 hd).1

theorem ne_none_of_shown (hd : src.document? id ≠ none) : base.document? id ≠ none ∧
    ∀ later ∈ since, later.document? id ≠ none := by
  obtain ⟨d, hd⟩ := Option.ne_none_iff_exists'.1 hd
  obtain ⟨hbase, hall⟩ := (hleft id d).1 hd
  exact ⟨by rw [hbase]; simp, hall⟩

/-- What was there is missing where it has been missing since. -/
theorem missing_iff (hbase : base.document? id ≠ none) :
    src.document? id = none ↔ ∃ later ∈ since, later.document? id = none := by
  obtain ⟨d, hd⟩ := Option.ne_none_iff_exists'.1 hbase
  constructor
  · intro hnone
    by_contra hall
    simp only [not_exists, not_and] at hall
    rw [(hleft id d).2 ⟨hd, hall⟩] at hnone
    cases hnone
  · rintro ⟨later, hlater, hmissing⟩
    by_contra hshown
    exact (hleft.ne_none_of_shown hshown).2 later hlater hmissing

theorem endOf?_eq (hshown : src.document? (RecordRef.relationship guid).docId ≠ none) :
    src.endOf? guid side = base.endOf? guid side := by
  obtain ⟨d, hd⟩ := Option.ne_none_iff_exists'.1 hshown
  rw [Source.endOf?, Source.endOf?, hd, hleft.base_of_shown hd]

/-- An end of a relationship that is seen is missing where it has been missing since; and at that
time the relationship had another end. -/
theorem end_missing_iff (hlinked : ∀ later ∈ since, later.Coherent ∧ Linked later.document?)
    (hshown : src.document? (RecordRef.relationship guid).docId ≠ none) (side : End)
    (hbase : base.document? (RecordRef.entity guid').docId ≠ none) :
    src.document? (RecordRef.entity guid').docId = none ↔
      ∃ later ∈ since, later.document? (RecordRef.entity guid').docId = none ∧
        ∃ other, other ≠ guid' ∧ later.endOf? guid side = some (RecordRef.entity other).docId := by
  rw [hleft.missing_iff hbase]
  refine exists_congr fun later => and_congr_right fun hlater => ?_
  refine ⟨fun hmissing => ⟨hmissing, ?_⟩, And.left⟩
  obtain ⟨hsource, hlater'⟩ := hlinked later hlater
  obtain ⟨other, e, hend, he, -⟩ :=
    hlater'.endOf?_entity hsource ((hleft.ne_none_of_shown hshown).2 later hlater) side
  refine ⟨other, ?_, hend⟩
  rintro rfl
  rw [hmissing] at he
  cases he

variable (hbase : base.Coherent) (hlinked : Linked base.document?)
variable (hsince : ∀ later ∈ since, later.Coherent ∧ Linked later.document?)

include hbase hlinked hsince

/-- A relationship that is seen had both ends, and one of them is missing where it was moved and
the entity that it left was purged. -/
theorem ends (hshown : src.document? (RecordRef.relationship guid).docId ≠ none) (side : End) :
    ∃ guid' e, src.endOf? guid side = some (RecordRef.entity guid').docId ∧
      base.document? (RecordRef.entity guid').docId = some e ∧ e.IsEntity ∧
      (src.document? (RecordRef.entity guid').docId = none ↔ ∃ later ∈ since,
        later.document? (RecordRef.entity guid').docId = none ∧ ∃ other, other ≠ guid' ∧
          later.endOf? guid side = some (RecordRef.entity other).docId) := by
  obtain ⟨guid', e, hend, he, hentity⟩ :=
    hlinked.endOf?_entity hbase (hleft.ne_none_of_shown hshown).1 side
  have hthere : base.document? (RecordRef.entity guid').docId ≠ none := by simp [he]
  exact ⟨guid', e, (hleft.endOf?_eq hshown).trans hend, he, hentity,
    hleft.end_missing_iff hsince hshown side hthere⟩

/-- Where no relationship was moved, no end is missing. -/
theorem end_ne_none (hstill : ∀ guid side, src.endOf? guid side ≠ none → ∀ later ∈ since,
      later.endOf? guid side = src.endOf? guid side)
    (hend : src.endOf? guid side = some id) : src.document? id ≠ none := by
  obtain ⟨d, hd, -⟩ := Source.endOf?_eq_some.1 hend
  have hshown : src.document? (RecordRef.relationship guid).docId ≠ none := by simp [hd]
  obtain ⟨guid', -, hend', -, -, hiff⟩ := hleft.ends hbase hlinked hsince hshown side
  cases hend.symm.trans hend'
  intro hmissing
  obtain ⟨later, hlater, -, other, hother, hmoved⟩ := hiff.1 hmissing
  rw [hstill guid side (by simp [hend]) later hlater, hend] at hmoved
  cases RecordRef.docId_injective (Option.some.inj hmoved)
  exact hother rfl

end Source.IsLeftOf

end Ends

/-- **The past is seen with all ends, unless a relationship was moved and its end was purged.** Take
any run of transactions that archives submit, and the part of it by an instant. A snapshot as of the
instant that is opened after the run shows, of the state by then, the documents that have been there
ever since. Each relationship that it shows had both ends by then, and they were entities; and one
of them is missing if and only if it has been missing since, at a time when the relationship had
another end in its place. To read a relationship as of the instant fails with an end that leads
nowhere exactly where one of its ends is missing. If none is missing, nor do searches and
neighborhoods fail for it, and so it is where no relationship has been moved since. -/
theorem past_ends_are_missing_iff (ts : TypeSystem) (capacity : Nat)
    (events : List (StoreEvent Failure)) (hevents : ∀ ev ∈ events, ev.OfArchive ts)
    (asOf : Option Instant) :
    let store (part : List (StoreEvent Failure)) := (Store.empty capacity).run part
    (∃ before, before <+: events ∧ (store before).log = (store events).logBy asOf) ∧
    ∀ before after, before ++ after = events → (store before).log = (store events).logBy asOf →
      ∃ src, (store events).ShowsAsOf asOf src ∧
        (∀ id d, src.document? id = some d ↔ (store before).latest.document? id = some d ∧
          ∀ part, part <+: after → (store (before ++ part)).latest.document? id ≠ none) ∧
        (∀ guid, src.document? (RecordRef.relationship guid).docId ≠ none → ∀ side, ∃ guid' e,
          src.endOf? guid side = some (RecordRef.entity guid').docId ∧
          (store before).latest.document? (RecordRef.entity guid').docId = some e ∧ e.IsEntity ∧
          (src.document? (RecordRef.entity guid').docId = none ↔ ∃ part, part <+: after ∧
            (store (before ++ part)).latest.document? (RecordRef.entity guid').docId = none ∧
            ∃ other, other ≠ guid' ∧ (store (before ++ part)).latest.endOf? guid side =
              some (RecordRef.entity other).docId)) ∧
        let whole := ∀ guid side id, src.endOf? guid side = some id → src.document? id ≠ none
        ((∀ guid side, src.endOf? guid side ≠ none → ∀ part, part <+: after →
          (store (before ++ part)).latest.endOf? guid side = src.endOf? guid side) → whole) ∧
        ∀ (a : Archive) (c : Clock) (site : Site), site.store = store events → ∀ guid,
          (AvoidsOn site (a.relationship c guid asOf) ↔ guid = "" ∨
            ∀ side id, src.endOf? guid side = some id → src.document? id ≠ none) ∧
          (whole →
            (∀ search : RelationshipSearch, search.asOf = asOf →
              AvoidsOn site (a.findRelationships c search) ∧
              AvoidsOn site (a.relationshipsOf c guid search)) ∧
            ∀ g : GraphSearch, g.asOf = asOf → AvoidsOn site (a.neighborhood c g)) := by
  intro store
  refine ⟨Store.exists_logBy capacity events asOf, ?_⟩
  rintro before after rfl hlog
  have hlinked (part : List (StoreEvent Failure)) (hpart : part <+: before ++ after) :
      (store part).latest.Coherent ∧ Linked (store part).latest.document? :=
    Store.latest_of_run capacity (fun ev hev => (hevents ev (hpart.subset hev)).keeps) linked_none
  obtain ⟨hbase, hbaseLinked⟩ := hlinked before (List.prefix_append before after)
  obtain ⟨src, hshown, hsource, hpast⟩ := Store.shows_past_iff capacity hlog
  let since : Set Source :=
    {later | ∃ part, part <+: after ∧ (store (before ++ part)).latest = later}
  have hsince : ∀ later ∈ since, later.Coherent ∧ Linked later.document? := by
    rintro _ ⟨part, hpart, rfl⟩
    exact hlinked _ ((List.prefix_append_right_inj before).2 hpart)
  have hleft : src.IsLeftOf (store before).latest since := by
    intro id d
    rw [hpast]
    refine and_congr_right fun _ => ⟨?_, fun h part hpart => h _ ⟨part, hpart, rfl⟩⟩
    rintro h _ ⟨part, hpart, rfl⟩
    exact h part hpart
  refine ⟨src, hshown, hpast, fun guid hrel side => ?_, fun hstill guid side id hend => ?_, ?_⟩
  · simpa only [since, Set.mem_ofPred_eq, exists_exists_and_eq_and] using
      hleft.ends hbase hbaseLinked hsince hrel side
  · refine hleft.end_ne_none hbase hbaseLinked hsince (fun guid side hthere => ?_) hend
    rintro _ ⟨part, hpart, rfl⟩
    exact hstill guid side hthere part hpart
  · intro a c site hsite guid
    have hshown' : site.store.ShowsAsOf asOf src := hsite ▸ hshown
    refine ⟨?_, fun hwhole => ?_⟩
    · rw [AvoidsOn, Archive.relationship_fst hshown']
      refine Source.avoids_relationship_iff hsource.keyed fun d hd => ?_
      obtain ⟨one, two, hlinks, -⟩ :=
        hbaseLinked.links (hleft.base_of_shown hd) (hsource.keyed _ d hd)
      exact ⟨one, two, hlinks⟩
    · refine (Archive.avoids_reads hshown' ?_ guid).2
      refine Source.hasEnds_of_endOf? hsource.keyed (fun id d hd => ?_) hwhole
      refine (hbaseLinked id d (hleft.base_of_shown hd)).imp_right ?_
      rintro ⟨one, two, hlinks, -⟩
      exact ⟨one, two, hlinks⟩

/-- A relationship comes in, comes in again with another entity at its first end, and the entity
that it had there at first is purged. Now nobody can read the relationship as of its first version.
-/
theorem moved_relationship_has_no_past :
    let ts : TypeSystem := ⟨.ofList [("Thing", ⟨"t1", "Thing", .entity, none, [], []⟩),
      ("Link", ⟨"t2", "Link", .relationship, none, [], []⟩)]⟩
    let header (type : String) : Header := .create ⟨"t", type⟩ "away" none "user" ⟨0, 0⟩
    let proxy (guid : String) : Proxy := ⟨guid, header "Thing", ∅⟩
    let copy (version : UInt64) (guid : String) : Request := .storeRelationshipCopy
      ⟨"r1", { header "Link" with version := version }, ∅, proxy guid, proxy "e2"⟩
    let submit (r : Request) := StoreEvent.submit (Catalog.functions ts) ⟨0, 0⟩
      [Invocation.toOp ⟨"user", ⟨"home", none⟩, r⟩]
    let first := submit (copy 1 "e1")
    let second := submit (copy 2 "e3")
    let third := submit (.purgeEntityCopy "e1" "away")
    (∀ ev ∈ [first, second, third], ev.OfArchive ts) ∧
      ∀ (a : Archive) (c : Clock) (site : Site),
        site.store = (Store.empty 1).run [first, second, third] →
          ¬ AvoidsOn site (a.relationship c "r1" (some ⟨0, 0⟩)) := by
  intro ts header proxy copy submit first second third
  have hevents : ∀ ev ∈ [first, second, third], ev.OfArchive ts := by
    intro ev hev
    obtain ⟨r, rfl⟩ : ∃ r, ev = submit r := by
      simp only [List.mem_cons, List.not_mem_nil, or_false] at hev
      rcases hev with rfl | rfl | rfl <;> exact ⟨_, rfl⟩
    refine ⟨rfl, fun op hop => ?_⟩
    rw [List.mem_singleton.1 hop]
    trivial
  refine ⟨hevents, fun a c site hsite => ?_⟩
  let state (part : List (StoreEvent Failure)) := ((Store.empty 1).run ([first] ++ part)).latest
  have hlog : ((Store.empty 1).run [first]).log =
      ((Store.empty 1).run [first, second, third]).logBy (some ⟨0, 0⟩) := by
    decide +kernel
  have hfacts : [[], [second], [second, third]].map (fun part =>
      ((state part).endOf? "r1" .one, ((state part).document? "e:e1").isNone)) =
        [(some "e:e1", false), (some "e:e3", false), (some "e:e3", true)] := by
    decide +kernel
  obtain ⟨src, -, hpast, hlaw, -, hreads⟩ :=
    (past_ends_are_missing_iff ts 1 [first, second, third] hevents (some ⟨0, 0⟩)).2 [first]
      [second, third] rfl hlog
  simp only [List.map_cons, List.map_nil, List.cons.injEq, Prod.mk.injEq, and_true,
    Option.isNone_iff_eq_none] at hfacts
  obtain ⟨⟨hfirst, -⟩, ⟨hsecond, -⟩, hthird, hpurged⟩ := hfacts
  have hthere {part : List (StoreEvent Failure)} {id : DocId}
      (h : (state part).endOf? "r1" .one = some id) :
      (state part).document? (RecordRef.relationship "r1").docId ≠ none := by
    obtain ⟨d, hd, -⟩ := Source.endOf?_eq_some.1 h
    simp [hd]
  obtain ⟨d, hd, hend⟩ := Source.endOf?_eq_some.1 hfirst
  have hshown : src.document? (RecordRef.relationship "r1").docId = some d := by
    refine (hpast _ d).2 ⟨hd, fun part hpart => ?_⟩
    simp only [List.prefix_cons_iff, List.prefix_nil] at hpart
    rcases hpart with rfl | ⟨_, rfl, rfl | ⟨_, rfl, rfl⟩⟩
    · exact hthere hfirst
    · exact hthere hsecond
    · exact hthere hthird
  have hend' : src.endOf? "r1" .one = some (RecordRef.entity "e1").docId :=
    Source.endOf?_eq_some.2 ⟨d, hshown, hend⟩
  obtain ⟨guid, -, hguid, -, -, hmissing⟩ := hlaw "r1" (by simp [hshown]) .one
  cases RecordRef.docId_injective (Option.some.inj (hend'.symm.trans hguid))
  rw [(hreads a c site hsite "r1").1]
  rintro (hempty | hwhole)
  · exact absurd hempty (by decide)
  · exact hwhole .one _ hend' (hmissing.2
      ⟨[second, third], List.prefix_rfl, hpurged, "e3", by decide, hthird⟩)

end MetadataArchive
