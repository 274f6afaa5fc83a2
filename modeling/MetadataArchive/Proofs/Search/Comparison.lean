import MetadataArchive.Proofs.Search.Judgement
import MetadataArchive.Proofs.Search.Shown

/-!
# The clauses of a comparison

What the clauses of one comparison come to is seen in two steps. Of a document they say something
about the attributes that they name, one after the other. Where these attributes show one value, as
those of a record do, they say it of that value, and there they say what the comparison says.
-/

set_option autoImplicit false

namespace MetadataArchive

/-! ## Verdicts of values -/

namespace Verdict

theorem any_cons (v : Verdict) (vs : List Verdict) : any (v :: vs) = v.or (any vs) := rfl

@[simp] theorem any_singleton (v : Verdict) : any [v] = v := by
  rcases v with _ | _ | _ <;> rfl

theorem or_assoc (u v w : Verdict) : (u.or v).or w = u.or (v.or w) := by
  rcases u with _ | _ | _ <;> rcases v with _ | _ | _ <;> rcases w with _ | _ | _ <;> rfl

theorem any_append (vs ws : List Verdict) : any (vs ++ ws) = (any vs).or (any ws) := by
  induction vs with
  | nil => exact (some_false_or _).symm
  | cons v vs ih => rw [List.cons_append, any_cons, any_cons, ih, or_assoc]

/-- Lists in a row are looked at one after the other. -/
theorem any_flatMap {α β : Type} (f : α → List β) (v : β → Verdict) (xs : List α) :
    any ((xs.flatMap f).map v) = any (xs.map fun x => any ((f x).map v)) := by
  induction xs with
  | nil => rfl
  | cons x xs ih => rw [List.flatMap_cons, List.map_append, any_append, ih, List.map_cons, any_cons]

theorem any_eq_none {vs : List Verdict} : any vs = none ↔ none ∈ vs := by
  induction vs with
  | nil => simp [any]
  | cons v vs ih =>
    rw [any_cons, List.mem_cons, ← ih]
    cases v <;> simp [or]

theorem any_eq_some_true {vs : List Verdict} :
    any vs = some true ↔ none ∉ vs ∧ some true ∈ vs := by
  induction vs with
  | nil => simp [any]
  | cons v vs ih =>
    rw [any_cons, List.mem_cons, List.mem_cons, ← any_eq_none]
    rw [← any_eq_none] at ih
    rcases v with _ | _ | _
    · simp [or]
    · simp [ih]
    · cases any vs <;> simp [or]

end Verdict

/-- What a test says of a value. -/
def Test.verdict (t : Test) (v : Value) : Verdict := (t.holds v).toOption

namespace Test

variable {t : Test} {v : Value}

theorem verdict_eq_some {u : Bool} : t.verdict v = some u ↔ t.holds v = .ok u := by
  unfold verdict
  cases t.holds v <;> simp [Except.toOption]

theorem verdict_eq_none : t.verdict v = none ↔ ∃ e, t.holds v = .error e := by
  unfold verdict
  cases t.holds v <;> simp [Except.toOption]

/-- A test looks at nothing but its variable. -/
theorem eval_insert (t : Test) (b : Binding) (v : Value) :
    t.eval (b.insert t.var v) = t.holds v := by
  rw [eval, NameMap.get?_insert_self]

end Test

/-! ## What documents have -/

namespace Document

/-- A document has a value, or a list with that element, under an attribute. -/
def has (d : Document) (a : String) (w : Value) : Bool := (d.elements a).any fun x => x.same w

/-- The values under several attributes, one attribute after the other. -/
def valuesUnder (d : Document) (attributes : List String) : List Value :=
  attributes.flatMap d.elements

/-- What is under the first attribute that a document has; null where it has none of them. -/
def firstUnder (d : Document) (attributes : List String) : Value :=
  (attributes.findSome? d.get?).getD .null

end Document

/-! ## Clauses about documents -/

/-- A source has a document under a key. -/
def Source.Holds (src : Source) (id : DocId) (d : Document) : Prop := src.document? id = some d

section

variable {src : Source} {limit : Option Nat} {record : Var} {bad : StoreError → Prop}
variable {lo hi n : Nat}

theorem Judges.attrEq (hl : limit ≠ some 0) (a : String) (w : Value) :
    Judges src.Holds record bad n n (Clause.eval src limit (.attrEq record a w))
      fun d => some ((d.elements a).any fun x => x.same w) := by
  have heq : Clause.eval src limit (.attrEq record a w) =
      extendEach fun b => .ok (matchPattern src (.var record) a (.const w) b) :=
    funext fun bs => by rw [Clause.attrEq, Clause.eval_pattern hl, extendEach_pure]
  rw [heq]
  refine of_each (Nat.le_refl n) (fun _ hf => by cases hf) (fun hb hf b' hb' => ?_)
    (fun hb hf d ⟨id, hid, hd⟩ => ?_)
  · obtain ⟨d, id, hid, hd⟩ := hb.isOf
    cases hf
    rw [matchPattern_of_bound hid hd, List.mem_filterMap] at hb'
    obtain ⟨x, -, hx⟩ := hb'
    simp only [Term.unify, Option.ite_none_right_eq_some, Option.some.injEq] at hx
    exact hx.2 ▸ ⟨hb.free, rfl⟩
  · cases hf
    rw [matchPattern_of_bound hid hd, Option.some.injEq]
    induction d.elements a with
    | nil => rfl
    | cons x xs ih =>
      rw [List.any_cons, ih]
      cases hx : x.same w <;> simp [Term.unify, hx]

/-- A key has one document. -/
theorem Binding.IsOf.unique {b b' : Binding} {d d' : Document} (h : b.IsOf src.Holds record d)
    (h' : b'.IsOf src.Holds record d') (hsame : b'.get? record = b.get? record) : d' = d := by
  obtain ⟨id, hid, hd⟩ := h
  obtain ⟨id', hid', hd'⟩ := h'
  rw [hid', hid, Option.some.injEq, Value.ref.injEq] at hsame
  subst hsame
  exact Option.some.inj (hd'.symm.trans hd)

section BindTest

variable {c : Clause} {t : Test} {step : Binding → Except StoreError (List Binding)}
variable {values : Document → List Value} {bs found : List Binding}
variable (hstep : ∀ {b id d}, b.get? record = some (.ref id) → src.document? id = some d →
  b.get? t.var = none → step b = .ok ((values d).map fun v => b.insert t.var v))
variable (hbs : ∀ b ∈ bs, b.Ready src.Holds record lo ∧ b.get? t.var = none)

theorem Clause.evalAll_bind_test (hl : limit ≠ some 0)
    (hc : Clause.eval src limit c = extendEach step) (bs : List Binding) :
    Clause.evalAll src limit [c, .test t] bs = extendEach step bs >>= keepEach t.eval := by
  by_cases hbs : bs = []
  · subst hbs
    rw [Clause.evalAll_no_bindings]
    rfl
  · rw [Clause.evalAll_cons _ _ hbs, hc]
    exact congrArg _ (funext fun found => Clause.evalAll_test hl t found)

include hstep hbs

/-- Every binding comes from one that was there, by a value of its document. -/
theorem mem_extendEach_values (hf : extendEach step bs = .ok found) (b' : Binding) :
    b' ∈ found ↔ ∃ b ∈ bs, ∃ d, b.IsOf src.Holds record d ∧
      ∃ v ∈ values d, b' = b.insert t.var v := by
  rw [(extendEach_ok hf).2]
  constructor
  · rintro ⟨b, hb, here, hhere, hb'⟩
    obtain ⟨⟨⟨d, id, hid, hd⟩, -⟩, hfree⟩ := hbs b hb
    rw [hstep hid hd hfree, Except.ok.injEq] at hhere
    obtain ⟨v, hv, rfl⟩ := List.mem_map.1 (hhere ▸ hb')
    exact ⟨b, hb, d, ⟨id, hid, hd⟩, v, hv, rfl⟩
  · rintro ⟨b, hb, d, ⟨id, hid, hd⟩, v, hv, rfl⟩
    exact ⟨b, hb, _, hstep hid hd (hbs b hb).2, List.mem_map.2 ⟨v, hv, rfl⟩⟩

/-- Binding never fails, so it is the test that does, with some value. -/
theorem bind_test_error {e : StoreError}
    (hf : (extendEach step bs >>= keepEach t.eval) = .error e) :
    ∃ b ∈ bs, ∃ d, b.IsOf src.Holds record d ∧ ∃ v ∈ values d, t.holds v = .error e := by
  rw [bind_eq_error] at hf
  rcases hf with hf | ⟨here, hhere, hf⟩
  · obtain ⟨b, hb, he⟩ := extendEach_error hf
    obtain ⟨⟨⟨d, id, hid, hd⟩, -⟩, hfree⟩ := hbs b hb
    rw [hstep hid hd hfree] at he
    cases he
  · obtain ⟨b', hb', he⟩ := keepEach_error hf
    obtain ⟨b, hb, d, hd, v, hv, rfl⟩ := (mem_extendEach_values hstep hbs hhere b').1 hb'
    exact ⟨b, hb, d, hd, v, hv, (t.eval_insert b v).symm.trans he⟩

/-- What is found are bindings by a value that passes, and every value has been judged. -/
theorem bind_test_ok (hf : (extendEach step bs >>= keepEach t.eval) = .ok found) :
    (∀ b ∈ bs, ∀ d, b.IsOf src.Holds record d → none ∉ (values d).map t.verdict) ∧
      ∀ b', b' ∈ found ↔ ∃ b ∈ bs, ∃ d, b.IsOf src.Holds record d ∧
        ∃ v ∈ values d, t.verdict v = some true ∧ b' = b.insert t.var v := by
  rw [bind_eq_ok] at hf
  obtain ⟨here, hhere, hf⟩ := hf
  have hmem := mem_extendEach_values hstep hbs hhere
  obtain ⟨hall, hfound⟩ := keepEach_ok hf
  constructor
  · intro b hb d hd hnone
    obtain ⟨v, hv, hverdict⟩ := List.mem_map.1 hnone
    obtain ⟨u, hu⟩ := hall _ ((hmem _).2 ⟨b, hb, d, hd, v, hv, rfl⟩)
    rw [Test.eval_insert, ← Test.verdict_eq_some, hverdict] at hu
    cases hu
  · intro b'
    rw [hfound, hmem]
    constructor
    · rintro ⟨⟨b, hb, d, hd, v, hv, rfl⟩, htest⟩
      rw [Test.eval_insert, ← Test.verdict_eq_some] at htest
      exact ⟨b, hb, d, hd, v, hv, htest, rfl⟩
    · rintro ⟨b, hb, d, hd, v, hv, htrue, rfl⟩
      refine ⟨⟨b, hb, d, hd, v, hv, rfl⟩, ?_⟩
      rwa [Test.eval_insert, ← Test.verdict_eq_some]

omit hbs

/-- A clause that binds values of the document, each in turn, and a test of what was bound. -/
theorem Judges.bind_test (hl : limit ≠ some 0)
    (hc : Clause.eval src limit c = extendEach step)
    (hvar : t.var = Var.numbered hi) (hlo : lo < hi)
    (hbad : ∀ {v e}, t.holds v = .error e → bad e) :
    Judges src.Holds record bad lo hi (Clause.eval src limit (.and [c, .test t]))
      fun d => Verdict.any ((values d).map t.verdict) := by
  apply Judges.and hl
  rw [funext (Clause.evalAll_bind_test hl hc)]
  have hfree {bs : List Binding} (hbs : ∀ b ∈ bs, b.Ready src.Holds record lo) :
      ∀ b ∈ bs, b.Ready src.Holds record lo ∧ b.get? t.var = none :=
    fun b hb => ⟨hbs b hb, hvar ▸ (hbs b hb).free hi hlo⟩
  -- The variable is free where the record is bound, so it is not that of the record.
  have hsame {b : Binding} (hb : b.Ready src.Holds record lo) (v : Value) :
      (b.insert t.var v).get? record = b.get? record := by
    refine NameMap.get?_insert_of_ne _ _ fun heq => ?_
    obtain ⟨d, id, hid, -⟩ := hb.isOf
    rw [heq, hvar, hb.free hi hlo] at hid
    cases hid
  refine ⟨Nat.le_of_lt hlo, fun hbs hf => ?_, fun hbs hf b' hb' => ?_,
    fun {bs found} hbs hf b hb d hd => ?_⟩
  · obtain ⟨b, hb, d, hd, v, hv, he⟩ := bind_test_error hstep (hfree hbs) hf
    have hnone : t.verdict v = none := Test.verdict_eq_none.2 ⟨_, he⟩
    exact ⟨hbad he, b, hb, d, hd, Verdict.any_eq_none.2 (List.mem_map.2 ⟨v, hv, hnone⟩)⟩
  · obtain ⟨b, hb, d, -, v, -, -, rfl⟩ := ((bind_test_ok hstep (hfree hbs) hf).2 b').1 hb'
    refine ⟨fun k hk => ?_, b, hb, hsame (hbs b hb) v⟩
    rw [NameMap.get?_insert_of_ne]
    · exact (hbs b hb).free k (Nat.lt_trans hlo hk)
    · rw [hvar]
      exact fun heq => Nat.ne_of_gt hk (Var.numbered_injective heq)
  · obtain ⟨hjudged, hfound⟩ := bind_test_ok hstep (hfree hbs) hf
    have hnone := hjudged b hb d hd
    obtain ⟨u, hu⟩ := Option.ne_none_iff_exists'.1 (mt Verdict.any_eq_none.1 hnone)
    refine ⟨u, hu, fun htrue => ?_, fun ⟨b', hb', hrecord⟩ => ?_⟩
    · rw [htrue, Verdict.any_eq_some_true] at hu
      obtain ⟨v, hv, hpasses⟩ := List.mem_map.1 hu.2
      exact ⟨b.insert t.var v, (hfound _).2 ⟨b, hb, d, hd, v, hv, hpasses, rfl⟩,
        hsame (hbs b hb) v⟩
    · obtain ⟨b₀, hb₀, d₀, hd₀, v, hv, hpasses, rfl⟩ := (hfound b').1 hb'
      -- The value may stem from another binding, but that is about the same record.
      obtain rfl : d₀ = d := hd.unique hd₀ ((hsame (hbs b₀ hb₀) v).symm.trans hrecord)
      have hany := Verdict.any_eq_some_true.2 ⟨hnone, List.mem_map.2 ⟨v, hv, hpasses⟩⟩
      exact Option.some.inj (hu.symm.trans hany)

omit hstep

/-- Some value of an attribute passes a test. -/
theorem Judges.attrBind_test (hl : limit ≠ some 0) (a : String)
    (hvar : t.var = Var.numbered hi) (hlo : lo < hi)
    (hbad : ∀ {v e}, t.holds v = .error e → bad e) :
    Judges src.Holds record bad lo hi
      (Clause.eval src limit (.and [.attrBind record a t.var, .test t]))
      fun d => Verdict.any ((d.elements a).map t.verdict) := by
  have hc : Clause.eval src limit (.attrBind record a t.var) =
      extendEach fun b => .ok (matchPattern src (.var record) a (.var t.var) b) :=
    funext fun bs => by rw [Clause.attrBind, Clause.eval_pattern hl, extendEach_pure]
  refine bind_test (fun {b id d} hid hd hfree => ?_) hl hc hvar hlo hbad
  rw [matchPattern_of_bound hid hd, Except.ok.injEq]
  have hunify : (Term.var t.var).unify b = fun v => some (b.insert t.var v) := by
    funext v
    simp [Term.unify, hfree]
  rw [hunify, List.filterMap_eq_map']

/-- The first attribute that is there, or null, passes a test. -/
theorem Judges.firstPasses (hl : limit ≠ some 0) (attributes : List String)
    (hvar : t.var = Var.numbered hi) (hlo : lo < hi)
    (hbad : ∀ {v e}, t.holds v = .error e → bad e) :
    Judges src.Holds record bad lo hi
      (Clause.eval src limit (MetadataArchive.firstPasses record attributes t.var t))
      fun d => t.verdict (d.firstUnder attributes) := by
  have hc : Clause.eval src limit (.firstOf record attributes t.var) =
      extendEach (bindFirst src record attributes t.var) :=
    funext fun bs => Clause.eval_firstOf hl record attributes t.var
  have hstep {b : Binding} {id : DocId} {d : Document} (hid : b.get? record = some (.ref id))
      (hd : src.document? id = some d) (hfree : b.get? t.var = none) :
      bindFirst src record attributes t.var b =
        .ok ([d.firstUnder attributes].map fun v => b.insert t.var v) := by
    simp [bindFirst, hid, hfree, firstValue, hd, Document.firstUnder]
  have h := bind_test hstep hl hc hvar hlo hbad
  simp only [List.map_cons, List.map_nil, Verdict.any_singleton] at h
  exact h

/-- Some value under one of several attributes passes a test. -/
theorem Judges.bindAndTest (hl : limit ≠ some 0) (attributes : List String)
    (hvar : t.var = Var.numbered hi) (hlo : lo < hi)
    (hbad : ∀ {v e}, t.holds v = .error e → bad e) :
    Judges src.Holds record bad lo hi
      (Clause.eval src limit (MetadataArchive.bindAndTest record attributes t.var t))
      fun d => Verdict.any ((d.valuesUnder attributes).map t.verdict) := by
  simp only [Document.valuesUnder, Verdict.any_flatMap]
  exact disjunction hl (evalAny_map (Nat.le_of_lt hlo)
    (fun a => attrBind_test hl a hvar hlo hbad) attributes)

end BindTest

/-- One of several attributes has all of several values. -/
theorem Judges.hasAll (hl : limit ≠ some 0) (attributes : List String) (values : List Value) :
    Judges src.Holds record bad n n
      (Clause.eval src limit (MetadataArchive.hasAll record attributes values))
      fun d => some (attributes.any fun a => values.all (d.has a)) := by
  have hverdict : (fun d : Document => some (attributes.any fun a => values.all (d.has a))) = fun d =>
      Verdict.any (attributes.map fun a =>
        Verdict.all (values.map fun w => some (d.has a w))) := by
    funext d
    simp only [Verdict.all_some, Verdict.any_some]
  rw [hverdict]
  exact disjunction hl (evalAny_map (Nat.le_refl n)
    (fun a => conjunction_map hl (fun w => attrEq hl a w) values) attributes)

end

/-! ## Tests of lists -/

namespace Test

theorem any_compare (op : CompareOp) (x : Var) (c : Value) (vs : List Value) :
    Verdict.any (vs.map (Test.compare op x c).verdict) =
      some (vs.any fun v => v.elements.any fun e => op.holds e c) := by
  rw [← Verdict.any_some]
  rfl

theorem any_like {pattern : String} {q : Pattern} (hq : Pattern.readWhole? pattern = some q)
    (x : Var) (vs : List Value) :
    Verdict.any (vs.map (Test.like x pattern).verdict) =
      some (vs.any fun v => v.elements.any fun e => e.asStr?.any q.occursIn) := by
  rw [← Verdict.any_some]
  refine congrArg _ (List.map_congr_left fun v _ => ?_)
  simp [Test.verdict, Test.holds, hq, Except.toOption]

theorem any_unreadable {pattern : String} (hq : Pattern.readWhole? pattern = none) (x : Var)
    (vs : List Value) :
    Verdict.any (vs.map (Test.like x pattern).verdict) =
      if vs.isEmpty then some false else none := by
  have hverdict : (Test.like x pattern).verdict = fun _ => none := by
    funext v
    simp [Test.verdict, Test.holds, hq, Except.toOption]
  rw [hverdict]
  cases vs <;> rfl

end Test

/-! ## Comparisons -/

namespace Comparison

variable {ts : TypeSystem} {scope : SearchScope} {p : Progress} {property : String}
variable {v : PropertyValue}

/-- The progress after a comparison is left out. -/
def left (p : Progress) (property : String) (reason : DropReason) : Progress :=
  ⟨p.taken, p.dropped ++ [⟨property, reason⟩]⟩

theorem run_equality_of_empty (h : v.leaves = []) :
    (equality ts scope property v).run p = (none, left p property .emptyCollection) := by
  rw [equality, PropertyValue.elements_flatten, h]
  rfl

theorem run_equality (h : v.leaves ≠ []) :
    (equality ts scope property v).run p =
      (some (hasAll scope.record (scope.attributes ts property) v.leaves), p) := by
  rw [equality, PropertyValue.elements_flatten]
  cases hv : v.leaves with
  | nil => exact absurd hv h
  | cons => rfl

theorem run_range_of_collection (op : CompareOp) (h : v.isCollection = true) :
    (range ts scope property op v).run p = (none, left p property .collectionRange) := by
  cases v with
  | primitive _ => cases h
  | choice _ _ _ => cases h
  | array _ => rfl
  | map _ => rfl
  | record _ _ => rfl

theorem run_range (op : CompareOp) (h : v.isCollection = false) :
    (range ts scope property op v).run p =
      (some (bindAndTest scope.record (scope.attributes ts property) p.nextVar
        (.compare op p.nextVar v.flatten)), ⟨p.taken + 1, p.dropped⟩) := by
  cases v with
  | primitive q => cases q <;> rfl
  | choice _ _ _ => rfl
  | array _ => cases h
  | map _ => cases h
  | record _ _ => cases h

theorem run_like {pattern : String} (hv : v.asStr? = some pattern)
    (h : Pattern.isValid pattern = true) :
    (like ts scope property v).run p =
      (some (bindAndTest scope.record (scope.attributes ts property) p.nextVar
        (.like p.nextVar pattern)), ⟨p.taken + 1, p.dropped⟩) := by
  simp only [like, hv, h, if_true]
  rfl

theorem run_like_of_invalid {pattern : String} (hv : v.asStr? = some pattern)
    (h : Pattern.isValid pattern = false) :
    (like ts scope property v).run p = (none, left p property .badPattern) := by
  simp only [like, hv, h]
  rfl

theorem run_like_of_notText (hv : v.asStr? = none) :
    (like ts scope property v).run p = (none, left p property .notText) := by
  simp only [like, hv]
  rfl

theorem run_neq :
    (compile ts scope ⟨property, .neq, some v⟩).run p =
      (((equality ts scope property v).run p).1.map fun eq => .not [eq],
        ((equality ts scope property v).run p).2) := rfl

/-- A comparison that takes no part is reported, with the reason. -/
theorem run_compile_of_dropped {c : Comparison} {reason : DropReason}
    (h : c.dropReason? = some reason) :
    (c.compile ts scope).run p = (none, left p c.property reason) := by
  obtain ⟨property, operator, value⟩ := c
  have hequality {v : PropertyValue}
      (hv : (if v.leaves.isEmpty then some DropReason.emptyCollection else none) = some reason) :
      (equality ts scope property v).run p = (none, left p property reason) := by
    split at hv
    next hempty =>
      cases hv
      exact run_equality_of_empty (List.isEmpty_iff.1 hempty)
    next => cases hv
  have hrange {v : PropertyValue} (op : CompareOp)
      (hv : (if v.isCollection then some DropReason.collectionRange else none) = some reason) :
      (range ts scope property op v).run p = (none, left p property reason) := by
    split at hv
    next hcollection =>
      cases hv
      exact run_range_of_collection op hcollection
    next => cases hv
  cases value with
  | none => cases operator <;> cases h <;> rfl
  | some v =>
    cases operator with
    | isNull => cases h
    | notNull => cases h
    | eq => exact hequality h
    | neq =>
      rw [run_neq, hequality h]
      rfl
    | like =>
      simp only [dropReason?] at h
      split at h
      next hv =>
        cases h
        exact run_like_of_notText hv
      next pattern hv =>
        split at h
        next => cases h
        next hinvalid =>
          cases h
          exact run_like_of_invalid hv (Bool.eq_false_iff.2 hinvalid)
    | gt => exact hrange .gt h
    | gte => exact hrange .gte h
    | lt => exact hrange .lt h
    | lte => exact hrange .lte h

end Comparison

/-! ## What a comparison says of a document -/

namespace Comparison

/-- What a comparison says of what a document has under several attributes. -/
def holdsIn (attributes : List String) (d : Document) (c : Comparison) : Bool :=
  let found := d.valuesUnder attributes
  let hasAll (v : PropertyValue) : Bool := attributes.any fun a => v.leaves.all (d.has a)
  let stands (op : CompareOp) (v : PropertyValue) : Bool :=
    found.any fun x => x.elements.any fun e => op.holds e v.flatten
  match c.operator, c.value with
  | .isNull, _ => (d.firstUnder attributes).isNull
  | .notNull, _ => !(d.firstUnder attributes).isNull
  | _, none => false
  | .eq, some v => hasAll v
  | .neq, some v => !hasAll v
  | .like, some v =>
      match v.asStr?.bind Pattern.readWhole? with
      | none => false
      | some p => found.any fun x => x.elements.any fun e => e.asStr?.any p.occursIn
  | .gt, some v => stands .gt v
  | .gte, some v => stands .gte v
  | .lt, some v => stands .lt v
  | .lte, some v => stands .lte v

/-- Whether a comparison meets a value there with a pattern that cannot be read as a whole match. -/
def stumblesIn (attributes : List String) (d : Document) (c : Comparison) : Bool :=
  c.pattern?.any (fun p => (Pattern.readWhole? p).isNone) && !(d.valuesUnder attributes).isEmpty

def verdictIn (attributes : List String) (d : Document) (c : Comparison) : Verdict :=
  if c.stumblesIn attributes d then none else some (c.holdsIn attributes d)

variable {ts : TypeSystem} {scope : SearchScope} {attributes : List String} {d : Document}

theorem leaves_of_kept {v : PropertyValue}
    (h : (if v.leaves.isEmpty then some DropReason.emptyCollection else none) = none) :
    v.leaves ≠ [] := by
  rintro hnil
  rw [hnil] at h
  cases h

theorem scalar_of_kept {v : PropertyValue}
    (h : (if v.isCollection then some DropReason.collectionRange else none) = none) :
    v.isCollection = false := by
  cases hcollection : v.isCollection with
  | false => rfl
  | true =>
    rw [hcollection] at h
    cases h

end Comparison

/-- A part of a compilation reports nothing and gives a clause that judges so. -/
def Compile.Gives {ι : Type} (scope : SearchScope) (src : Source) (limit : Option Nat)
    (about : DocId → ι → Prop) (bad : StoreError → Prop) (p : Progress)
    (part : Compile (Option Clause)) (verdict : ι → Verdict) : Prop :=
  ∃ clause taken, part.run p = (some clause, ⟨taken, p.dropped⟩) ∧
    Judges about scope.record bad p.taken taken (Clause.eval src limit clause) verdict

section

variable {ts : TypeSystem} {scope : SearchScope} {src : Source} {limit : Option Nat}
variable {bad : StoreError → Prop} {p : Progress} {property : String} {v : PropertyValue}
variable (hl : limit ≠ some 0)

namespace Comparison

include hl

theorem gives_equality (h : v.leaves ≠ []) :
    Compile.Gives scope src limit src.Holds bad p (equality ts scope property v) fun d =>
      some ((scope.attributes ts property).any fun a => v.leaves.all (d.has a)) :=
  ⟨_, _, run_equality h, Judges.hasAll hl _ _⟩

theorem gives_neq (h : v.leaves ≠ []) :
    Compile.Gives scope src limit src.Holds bad p (compile ts scope ⟨property, .neq, some v⟩)
      fun d => some (!(scope.attributes ts property).any fun a => v.leaves.all (d.has a)) := by
  refine ⟨_, p.taken, by rw [run_neq, run_equality h]; rfl, ?_⟩
  exact (Judges.hasAll hl _ _).evalAll_singleton.not hl

theorem gives_range (op : CompareOp) (h : v.isCollection = false) :
    Compile.Gives scope src limit src.Holds bad p (range ts scope property op v) fun d =>
      some ((d.valuesUnder (scope.attributes ts property)).any fun x =>
        x.elements.any fun e => op.holds e v.flatten) := by
  refine ⟨_, _, run_range op h, ?_⟩
  simp only [← Test.any_compare op p.nextVar]
  have hvar : (Test.compare op p.nextVar v.flatten).var = Var.numbered (p.taken + 1) := rfl
  exact Judges.bindAndTest hl _ hvar (Nat.lt_succ_self _) fun hf => by cases hf

theorem gives_like {pattern : String} (hv : v.asStr? = some pattern)
    (hvalid : Pattern.isValid pattern = true)
    (hbad : Pattern.readWhole? pattern = none → bad (.invalidQuery (.badPattern pattern))) :
    Compile.Gives scope src limit src.Holds bad p (like ts scope property v) fun d =>
      verdictIn (scope.attributes ts property) d ⟨property, .like, some v⟩ := by
  refine ⟨_, _, run_like hv hvalid, ?_⟩
  -- A pattern that cannot be read makes the comparison stumble just where a value is tested.
  have hverdict : (fun d =>
      verdictIn (scope.attributes ts property) d ⟨property, .like, some v⟩) = fun d =>
        Verdict.any ((d.valuesUnder (scope.attributes ts property)).map
          (Test.like p.nextVar pattern).verdict) := by
    funext d
    cases hq : Pattern.readWhole? pattern with
    | none =>
      rw [Test.any_unreadable hq]
      cases hfound : (d.valuesUnder (scope.attributes ts property)).isEmpty <;>
        simp [verdictIn, stumblesIn, pattern?, hv, hq, holdsIn, hfound]
    | some q =>
      rw [Test.any_like hq]
      simp [verdictIn, stumblesIn, pattern?, hv, hq, holdsIn]
  rw [hverdict]
  have hvar : (Test.like p.nextVar pattern).var = Var.numbered (p.taken + 1) := rfl
  refine Judges.bindAndTest hl _ hvar (Nat.lt_succ_self _) fun {x e} hf => ?_
  simp only [Test.holds] at hf
  cases hq : Pattern.readWhole? pattern with
  | none =>
    rw [hq] at hf
    cases hf
    exact hbad hq
  | some q =>
    rw [hq] at hf
    cases hf

theorem gives_nullTest (test : Var → Test) (said : Bool → Bool) (hvar : ∀ x, (test x).var = x)
    (htest : ∀ x w, (test x).holds w = .ok (said w.isNull)) :
    Compile.Gives scope src limit src.Holds bad p (nullTest ts scope property test) fun d =>
      some (said (d.firstUnder (scope.attributes ts property)).isNull) := by
  refine ⟨_, p.taken + 1, rfl, ?_⟩
  have hverdict : (fun d : Document =>
      some (said (d.firstUnder (scope.attributes ts property)).isNull)) = fun d =>
        (test p.nextVar).verdict (d.firstUnder (scope.attributes ts property)) := by
    funext d
    rw [Test.verdict, htest]
    rfl
  rw [hverdict]
  have h := @Judges.firstPasses src limit scope.record bad p.taken (p.taken + 1) (test p.nextVar) hl
    (scope.attributes ts property) (hvar _) (Nat.lt_succ_self _) fun {x e} hf => by
      rw [htest] at hf
      cases hf
  rwa [hvar] at h

/-- **A comparison that takes part has one clause, which says of any document what the comparison
says of it.** -/
theorem gives_in {c : Comparison} (hkept : c.dropReason? = none)
    (hbad : ∀ pattern, c.pattern? = some pattern → Pattern.isValid pattern = true →
      Pattern.readWhole? pattern = none → bad (.invalidQuery (.badPattern pattern))) :
    Compile.Gives scope src limit src.Holds bad p (c.compile ts scope)
      fun d => c.verdictIn (scope.attributes ts c.property) d := by
  obtain ⟨property, operator, value⟩ := c
  cases operator with
  | isNull => exact gives_nullTest hl .isNull (fun t => t) (fun _ => rfl) fun _ _ => rfl
  | notNull => exact gives_nullTest hl .notNull (!·) (fun _ => rfl) fun _ _ => rfl
  | eq =>
    cases value with
    | none => cases hkept
    | some v => exact gives_equality hl (leaves_of_kept hkept)
  | neq =>
    cases value with
    | none => cases hkept
    | some v => exact gives_neq hl (leaves_of_kept hkept)
  | gt =>
    cases value with
    | none => cases hkept
    | some v => exact gives_range hl .gt (scalar_of_kept hkept)
  | gte =>
    cases value with
    | none => cases hkept
    | some v => exact gives_range hl .gte (scalar_of_kept hkept)
  | lt =>
    cases value with
    | none => cases hkept
    | some v => exact gives_range hl .lt (scalar_of_kept hkept)
  | lte =>
    cases value with
    | none => cases hkept
    | some v => exact gives_range hl .lte (scalar_of_kept hkept)
  | like =>
    cases value with
    | none => cases hkept
    | some v =>
      simp only [dropReason?] at hkept
      split at hkept
      next => cases hkept
      next pattern hv =>
        split at hkept
        next hvalid => exact gives_like hl hv hvalid (hbad pattern hv hvalid)
        next => cases hkept

end Comparison

end

/-! ## Comparisons of records -/

/-- Queries find what a view shows under a key, as far as properties are named without a full
stop. -/
def SearchScope.Finds (ts : TypeSystem) (scope : SearchScope) (src : Source) (id : DocId)
    (view : View) : Prop :=
  ∃ d, src.document? id = some d ∧ ∀ property : String, '.' ∉ property.toList →
    d.Shows (scope.attributes ts property) ((view property).map PropertyValue.flatten)

/-- Queries find what a view shows of one property under a key. -/
def SearchScope.FindsOne (ts : TypeSystem) (scope : SearchScope) (src : Source) (property : String)
    (id : DocId) (view : View) : Prop :=
  ∃ d, src.document? id = some d ∧
    d.Shows (scope.attributes ts property) ((view property).map PropertyValue.flatten)

theorem SearchScope.Finds.one {ts : TypeSystem} {scope : SearchScope} {src : Source} {id : DocId}
    {view : View} {property : String} (h : scope.Finds ts src id view)
    (hp : '.' ∉ property.toList) : scope.FindsOne ts src property id view :=
  h.imp fun _ hd => hd.imp_right fun hshows => hshows property hp

section

variable {view : View} {property : String} {attributes : List String} {d : Document} {w : Value}

theorem View.elements_flatten (view : View) (property : String) :
    (((view property).map PropertyValue.flatten).map Value.elements).getD [] =
      view.leaves property := by
  rw [View.leaves, Option.map_map]
  cases view property with
  | none => rfl
  | some v => exact PropertyValue.elements_flatten v

theorem View.elements_of_mem_leaves (h : w ∈ view.leaves property) : w.elements = [w] := by
  unfold View.leaves at h
  cases hv : view property with
  | none => simp [hv] at h
  | some v => exact PropertyValue.elements_of_mem_leaves (by simpa [hv] using h)

theorem View.isNull_getD (view : View) (property : String) :
    (((view property).map PropertyValue.flatten).getD .null).isNull =
      (view.leaves property).isEmpty := by
  unfold View.leaves
  cases view property with
  | none => rfl
  | some v => exact PropertyValue.isNull_flatten v

namespace Document.Shows

variable (h : d.Shows attributes ((view property).map PropertyValue.flatten))

include h

/-- Under some attributes a document that shows a view has the scalar values of the property, each
once or more. -/
theorem mem_valuesUnder : w ∈ d.valuesUnder attributes ↔ w ∈ view.leaves property := by
  rw [← View.elements_flatten, valuesUnder, List.mem_flatMap]
  constructor
  · rintro ⟨a, ha, hw⟩
    rw [elements] at hw
    cases hx : d.get? a with
    | none => simp [hx] at hw
    | some x =>
      rw [h.only ha hx]
      simpa [hx] using hw
  · intro hw
    cases hx : (view property).map PropertyValue.flatten with
    | none => simp [hx] at hw
    | some x =>
      obtain ⟨a, ha, hget⟩ := h.found hx
      refine ⟨a, ha, ?_⟩
      rw [elements, hget]
      simpa [hx] using hw

theorem any_valuesUnder (p : Value → Bool) :
    ((d.valuesUnder attributes).any fun x => x.elements.any p) = (view.leaves property).any p := by
  rw [Bool.eq_iff_iff, List.any_eq_true, List.any_eq_true]
  refine exists_congr fun x => ?_
  rw [h.mem_valuesUnder]
  refine and_congr_right fun hx => ?_
  rw [View.elements_of_mem_leaves hx, List.any_cons, List.any_nil, Bool.or_false]

theorem isEmpty_valuesUnder :
    (d.valuesUnder attributes).isEmpty = (view.leaves property).isEmpty := by
  rw [Bool.eq_iff_iff, List.isEmpty_iff, List.isEmpty_iff, List.eq_nil_iff_forall_not_mem,
    List.eq_nil_iff_forall_not_mem]
  exact forall_congr' fun x => not_congr h.mem_valuesUnder

theorem hasAll_eq {values : List Value} (hvalues : values ≠ []) :
    (attributes.any fun a => values.all (d.has a)) =
      values.all fun w => (view.leaves property).any fun x => x.same w := by
  have hany := h.any_eq (fun x => some (values.all fun w =>
    ((x.map Value.elements).getD []).any fun x => x.same w)) (by
      obtain ⟨w, rest, rfl⟩ := List.exists_cons_of_ne_nil hvalues
      rfl)
  rw [Verdict.any_some, View.elements_flatten] at hany
  exact Option.some.inj hany

theorem isNull_firstUnder : (d.firstUnder attributes).isNull = (view.leaves property).isEmpty := by
  rw [firstUnder, h.findSome?_eq, View.isNull_getD]

end Document.Shows

/-- A comparison that takes part says of a document what it says of what that shows. -/
theorem Comparison.verdictIn_of_shows {c : Comparison} (hkept : c.dropReason? = none)
    (h : d.Shows attributes ((view c.property).map PropertyValue.flatten)) :
    c.verdictIn attributes d = c.verdict view := by
  have hstumbles : c.stumblesIn attributes d = c.stumbles view := by
    rw [stumblesIn, h.isEmpty_valuesUnder, stumbles]
  have hholds : c.holdsIn attributes d = c.holds view := by
    obtain ⟨property, operator, value⟩ := c
    have hrange (op : CompareOp) (v : PropertyValue) :
        ((d.valuesUnder attributes).any fun x => x.elements.any fun e => op.holds e v.flatten) =
          (view.leaves property).any fun e => op.holds e v.flatten :=
      h.any_valuesUnder fun e => op.holds e v.flatten
    cases value with
    | none =>
      cases operator with
      | isNull => exact h.isNull_firstUnder
      | notNull => exact congrArg (!·) h.isNull_firstUnder
      | _ => rfl
    | some v =>
      cases operator with
      | isNull => exact h.isNull_firstUnder
      | notNull => exact congrArg (!·) h.isNull_firstUnder
      | eq => exact h.hasAll_eq (leaves_of_kept hkept)
      | neq => exact congrArg (!·) (h.hasAll_eq (leaves_of_kept hkept))
      | like =>
        simp only [holdsIn, holds]
        cases v.asStr?.bind Pattern.readWhole? with
        | none => rfl
        | some q => exact h.any_valuesUnder fun e => e.asStr?.any q.occursIn
      | gt => exact hrange .gt v
      | gte => exact hrange .gte v
      | lt => exact hrange .lt v
      | lte => exact hrange .lte v
  rw [verdictIn, verdict, hstumbles, hholds]

end

/-- A comparison that takes part has one clause, which says what the comparison says. -/
theorem Comparison.gives_compile {ts : TypeSystem} {scope : SearchScope} {src : Source}
    {limit : Option Nat} {about : DocId → View → Prop} {bad : StoreError → Prop} {p : Progress}
    {c : Comparison} (hfinds : ∀ id view, about id view → scope.FindsOne ts src c.property id view)
    (hkept : c.dropReason? = none) (hl : limit ≠ some 0)
    (hbad : ∀ pattern, c.pattern? = some pattern → Pattern.isValid pattern = true →
      Pattern.readWhole? pattern = none → bad (.invalidQuery (.badPattern pattern))) :
    Compile.Gives scope src limit about bad p (c.compile ts scope) (c.verdict ·) := by
  obtain ⟨clause, taken, hrun, hjudges⟩ :=
    @gives_in ts scope src limit bad p hl c hkept hbad
  refine ⟨clause, taken, hrun, hjudges.transfer (fun id view hview => ?_)
    fun id view d hview hd => ?_⟩
  · obtain ⟨d, hd, -⟩ := hfinds id view hview
    exact ⟨d, hd⟩
  · obtain ⟨d', hd', hshows⟩ := hfinds id view hview
    obtain rfl : d' = d := Option.some.inj (hd'.symm.trans hd)
    exact verdictIn_of_shows hkept hshows

end MetadataArchive
