import MetadataArchive.Proofs.Query.Rows
import MetadataArchive.Proofs.Search.Plan
import MetadataArchive.Proofs.Search.Shown
import MetadataArchive.Proofs.Store.Snapshot

/-!
# Pages of one order

A page is cut from a list that has nothing to do with pages: the documents that the clauses of a
search find, each once, put in order. What an order looks at is a column of the query, which is
filled from the first attribute that the document has and so adds no row; and since documents come
by key until they are sorted, and sorting leaves equals as they came, ties are in the order of keys.

Pages of one size that follow each other are then the whole list (`RecordSearch.pages_tile`).
-/

set_option autoImplicit false

namespace MetadataArchive

open Binding

/-! ## What an order says -/

/-- What a record is ordered by: the first of the attributes that it has, of a list the first
element; null where there is none. -/
def sortKey (src : Source) (attributes : List String) (id : DocId) : Value :=
  sortValue (firstValue src id attributes)

/-- The order of two values that are not null. -/
def Direction.compare (direction : Direction) (a b : Value) : Ordering :=
  match direction with
  | .asc => a.totalCompare b
  | .desc => (a.totalCompare b).swap

/-- Whether an order puts one record before another, whatever their keys. -/
def Sequencing.less (src : Source) (keys : List AttributeKey) (order : Sequencing)
    (x y : DocId) : Bool :=
  match order.sortBy? keys with
  | some (attributes, direction) =>
      compareSorted direction (firstValue src x attributes) (firstValue src y attributes) == .lt
  | none =>
      match order with
      | .guid => compare x y == .lt
      | _ => false

/-- Documents in order, each once. -/
def Sequencing.arrange (src : Source) (keys : List AttributeKey) (order : Sequencing)
    (ids : List DocId) : List DocId :=
  Ordered.sortStable (order.less src keys) (Ordered.distinct compare ids)

/-- The first of two records comes before the second. -/
inductive Precedes (src : Source) : Option (List String × Direction) → DocId → DocId → Prop
  | key {x y : DocId} (hlt : x < y) : Precedes src none x y
  /-- One has a value to be ordered by, and the other does not. -/
  | valued {attributes : List String} {direction : Direction} {x y : DocId}
      (hx : (sortKey src attributes x).isNull = false)
      (hy : (sortKey src attributes y).isNull = true) :
      Precedes src (some (attributes, direction)) x y
  | ordered {attributes : List String} {direction : Direction} {x y : DocId}
      (hx : (sortKey src attributes x).isNull = false)
      (hy : (sortKey src attributes y).isNull = false)
      (hlt : direction.compare (sortKey src attributes x) (sortKey src attributes y) = .lt) :
      Precedes src (some (attributes, direction)) x y
  | tied {attributes : List String} {direction : Direction} {x y : DocId}
      (hx : (sortKey src attributes x).isNull = false)
      (hy : (sortKey src attributes y).isNull = false)
      (heq : (sortKey src attributes x).totalCompare (sortKey src attributes y) = .eq)
      (hlt : x < y) :
      Precedes src (some (attributes, direction)) x y
  | missing {attributes : List String} {direction : Direction} {x y : DocId}
      (hx : (sortKey src attributes x).isNull = true)
      (hy : (sortKey src attributes y).isNull = true) (hlt : x < y) :
      Precedes src (some (attributes, direction)) x y

/-- What a document shows under the names of a property is what it is ordered by, whichever of the
names it is stored under. -/
theorem sortKey_of_shows {src : Source} {attributes : List String} {id : DocId} {d : Document}
    {value : Option Value} (hd : src.document? id = some d) (h : d.Shows attributes value) :
    sortKey src attributes id = sortValue (value.getD .null) := by
  simp only [sortKey, firstValue, hd, h.findSome?_eq]

namespace Direction

variable {direction : Direction} {a b c : Value}

theorem compare_swap (direction : Direction) (a b : Value) :
    (direction.compare a b).swap = direction.compare b a := by
  cases direction with
  | asc => exact Value.totalCompare_swap a b
  | desc => exact congrArg Ordering.swap (Value.totalCompare_swap a b)

theorem compare_eq_eq (h : direction.compare a b = .eq) : a.totalCompare b = .eq := by
  cases direction with
  | asc => exact h
  | desc => exact Ordering.swap_eq_eq.1 h

/-- A direction is transitive where the negative zero is no part of any value. -/
theorem isLE_compare_trans (ha : a.hasNegativeZero = false) (hb : b.hasNegativeZero = false)
    (hc : c.hasNegativeZero = false) (hab : (direction.compare a b).isLE = true)
    (hbc : (direction.compare b c).isLE = true) : (direction.compare a c).isLE = true := by
  cases direction with
  | asc =>
    rw [Direction.compare, Value.totalCompare_eq_then a b c ha hb hc hab hbc]
    exact Ordering.isLE_then_iff_and.2 ⟨hab, Or.inr hbc⟩
  | desc =>
    rw [Direction.compare, Value.totalCompare_swap] at hab hbc ⊢
    rw [Value.totalCompare_eq_then c b a hc hb ha hbc hab]
    exact Ordering.isLE_then_iff_and.2 ⟨hbc, Or.inr hab⟩

end Direction

/-- Whether one of two values comes before the other in a direction. -/
theorem compareSorted_eq_lt {direction : Direction} {a b : Value} :
    compareSorted direction a b = .lt ↔
      (sortValue a).isNull = false ∧ ((sortValue b).isNull = true ∨
        direction.compare (sortValue a) (sortValue b) = .lt) := by
  unfold compareSorted
  cases ha : (sortValue a).isNull <;> cases hb : (sortValue b).isNull <;> cases direction <;>
    simp [ha, hb, Direction.compare]

/-! ## Documents in order -/

namespace Sequencing

variable {src : Source} {keys : List AttributeKey} {order : Sequencing} {ids : List DocId}
variable {attributes : List String} {direction : Direction} {x y z : DocId}

theorem mem_arrange : x ∈ order.arrange src keys ids ↔ x ∈ ids := by
  rw [arrange, Ordered.mem_sortStable]
  exact Ordered.mem_distinct fun _ _ _ _ h => Std.LawfulEqOrd.eq_of_compare h

theorem nodup_arrange : (order.arrange src keys ids).Nodup := by
  have hdistinct : (Ordered.distinct compare ids).Nodup :=
    (Ordered.pairwise_distinct ids).imp fun h heq => by simp [heq] at h
  exact (Ordered.sortStable_perm _).nodup_iff.2 hdistinct

section

variable (hby : order.sortBy? keys = some (attributes, direction))

include hby

theorem less_eq_true : order.less src keys x y = true ↔
    (sortKey src attributes x).isNull = false ∧ ((sortKey src attributes y).isNull = true ∨
      direction.compare (sortKey src attributes x) (sortKey src attributes y) = .lt) := by
  simp only [less, hby, beq_iff_eq, compareSorted_eq_lt, sortKey]

theorem less_asymm (h : order.less src keys x y = true) : order.less src keys y x = false := by
  rw [less_eq_true hby] at h
  rw [Bool.eq_false_iff, ne_eq, less_eq_true hby]
  rintro ⟨hy, hx | hlt⟩
  · rw [h.1] at hx
    cases hx
  · rcases h.2 with hnull | hlt'
    · rw [hy] at hnull
      cases hnull
    · rw [← direction.compare_swap, hlt'] at hlt
      cases hlt

/-- What is not before what is not before a third is not before that. -/
theorem not_less_trans (hx : (sortKey src attributes x).hasNegativeZero = false)
    (hy : (sortKey src attributes y).hasNegativeZero = false)
    (hz : (sortKey src attributes z).hasNegativeZero = false)
    (hxy : order.less src keys x y = false) (hyz : order.less src keys y z = false) :
    order.less src keys x z = false := by
  have hnot {x y : DocId} : order.less src keys x y = false ↔
      (sortKey src attributes x).isNull = false → (sortKey src attributes y).isNull = false ∧
        (direction.compare (sortKey src attributes y) (sortKey src attributes x)).isLE = true := by
    rw [Bool.eq_false_iff, ne_eq, less_eq_true hby, ← direction.compare_swap, Ordering.swap_eq_lt,
      Ordering.isLE_iff_ne_gt]
    cases (sortKey src attributes y).isNull <;> simp
  rw [hnot] at hxy hyz ⊢
  intro hnull
  obtain ⟨hynull, hyx⟩ := hxy hnull
  obtain ⟨hznull, hzy⟩ := hyz hynull
  exact ⟨hznull, Direction.isLE_compare_trans hz hy hx hzy hyx⟩

theorem precedes_of_settles
    (h : Ordered.Settles (order.less src keys) (fun x y => compare x y = .lt) x y) :
    Precedes src (some (attributes, direction)) x y := by
  obtain ⟨hnot, hless⟩ := h
  rcases hless with hless | hlt
  · rw [less_eq_true hby] at hless
    obtain ⟨hx, hy | hlt⟩ := hless
    · exact .valued hx hy
    · cases hy : (sortKey src attributes y).isNull with
      | true => exact .valued hx hy
      | false => exact .ordered hx hy hlt
  · have hkey : x < y := compareOfLessAndEq_eq_lt.1 hlt
    rw [Bool.eq_false_iff, ne_eq, less_eq_true hby, ← direction.compare_swap] at hnot
    cases hx : (sortKey src attributes x).isNull <;> cases hy : (sortKey src attributes y).isNull
    · cases ho : direction.compare (sortKey src attributes x) (sortKey src attributes y) with
      | lt => exact .ordered hx hy ho
      | eq => exact .tied hx hy (Direction.compare_eq_eq ho) hkey
      | gt => exact absurd ⟨hy, Or.inr (by rw [ho]; rfl)⟩ hnot
    · exact .valued hx hy
    · exact absurd ⟨hy, Or.inl hx⟩ hnot
    · exact .missing hx hy hkey

end

/-- Where there is no column, records are told apart by their keys, or not at all. -/
theorem less_of_no_column (src : Source) (hby : order.sortBy? keys = none) :
    (∀ x y, order.less src keys x y = (compare x y == .lt)) ∨
      ∀ x y, order.less src keys x y = false := by
  cases order with
  | guid => exact Or.inl fun x y => by simp only [less, hby]
  | _ => exact Or.inr fun x y => by simp only [less, hby]

/-- **Every document comes before those that follow it**, provided that no value that they are
ordered by holds the negative zero. -/
theorem pairwise_arrange (hzero : ∀ attributes direction,
      order.sortBy? keys = some (attributes, direction) →
        ∀ id ∈ ids, (sortKey src attributes id).hasNegativeZero = false) :
    (order.arrange src keys ids).Pairwise (Precedes src (order.sortBy? keys)) := by
  have hkeys : (Ordered.distinct compare ids).Pairwise fun x y => compare x y = .lt :=
    Ordered.pairwise_distinct ids
  cases hby : order.sortBy? keys with
  | some column =>
    obtain ⟨attributes, direction⟩ := column
    have hz (id : DocId) (hid : id ∈ Ordered.distinct compare ids) :
        (sortKey src attributes id).hasNegativeZero = false :=
      hzero _ _ hby id (Ordered.of_mem_distinct hid)
    have hsettled : (order.arrange src keys ids).Pairwise
        (Ordered.Settles (order.less src keys) fun x y => compare x y = .lt) :=
      Ordered.pairwise_sortStable (fun x _ y _ => less_asymm hby)
        (fun x hx y hy z hw => not_less_trans hby (hz x hx) (hz y hy) (hz z hw)) hkeys
    exact hsettled.imp (precedes_of_settles hby)
  | none =>
    -- To sort by key, or by nothing, is to leave what is in the order of keys as it is.
    have hsettled : (order.arrange src keys ids).Pairwise
        (Ordered.Settles (order.less src keys) fun x y => compare x y = .lt) := by
      rcases less_of_no_column src hby with hless | hless
      · refine Ordered.pairwise_sortStable (fun x _ y _ h => ?_) (fun x _ y _ z _ hxy hyz => ?_)
          hkeys
        · rw [hless, beq_iff_eq] at h
          rw [hless, Std.OrientedOrd.eq_swap, h]
          rfl
        · simp only [hless, beq_eq_false_iff_ne, ne_eq, ← Ordering.isGE_iff_ne_lt] at hxy hyz ⊢
          exact Std.TransCmp.isGE_trans hxy hyz
      · exact Ordered.pairwise_sortStable (fun _ _ _ _ _ => hless _ _)
          (fun _ _ _ _ _ _ _ _ => hless _ _) hkeys
    refine hsettled.imp fun {x y} h => .key (compareOfLessAndEq_eq_lt.1 ?_)
    rcases h.2 with hlt | hlt
    · rcases less_of_no_column src hby with hless | hless
      · rwa [hless, beq_iff_eq] at hlt
      · rw [hless] at hlt
        cases hlt
    · exact hlt

end Sequencing

/-! ## The column of an order -/

section

variable {src : Source} {limit : Option Nat} {record bind : Var} {bs found : List Binding}
variable {clauses : List Clause} {keys : List AttributeKey} {order : Sequencing}

/-- To bind the first of several attributes changes neither which documents are bound nor how
often. -/
theorem Clause.evalAll_firstOf (hl : limit ≠ some 0) (attributes : List String)
    (hnamed : AllNamed record bs) (hfree : ∀ b ∈ bs, b.get? bind = none) :
    ∃ bs', Clause.evalAll src limit [.firstOf record attributes bind] bs = .ok bs' ∧
      named record bs' = named record bs ∧
        ∀ b ∈ bs', ∃ id, b.get? record = some (.ref id) ∧
          b.get? bind = some (firstValue src id attributes) := by
  have hrun : ∃ bs', extendEach (bindFirst src record attributes bind) bs = .ok bs' ∧
      named record bs' = named record bs ∧
        ∀ b ∈ bs', ∃ id, b.get? record = some (.ref id) ∧
          b.get? bind = some (firstValue src id attributes) := by
    induction bs with
    | nil => exact ⟨[], rfl, rfl, by simp⟩
    | cons b bs ih =>
      obtain ⟨⟨id, hid⟩, hnamed⟩ := List.forall_mem_cons.1 hnamed
      obtain ⟨hb, hfree⟩ := List.forall_mem_cons.1 hfree
      obtain ⟨bs', hrun, hsame, hall⟩ := ih hnamed hfree
      have hne : record ≠ bind := fun heq => by
        rw [heq, hb] at hid
        cases hid
      have hid' : (b.insert bind (firstValue src id attributes)).get? record = some (.ref id) := by
        rw [NameMap.get?_insert_of_ne _ _ hne, hid]
      refine ⟨b.insert bind (firstValue src id attributes) :: bs', ?_, ?_, ?_⟩
      · rw [extendEach_cons, hrun]
        simp only [bindFirst, hid, hb]
        rfl
      · rw [named_cons hid', named_cons hid, hsame]
      · exact List.forall_mem_cons.2 ⟨⟨id, hid', NameMap.get?_insert_self _ _ _⟩, hall⟩
  obtain ⟨bs', hrun, h⟩ := hrun
  refine ⟨bs', ?_, h⟩
  by_cases hnil : bs = []
  · subst hnil
    cases hrun
    exact Clause.evalAll_no_bindings _
  · rw [Clause.evalAll_cons _ _ hnil, Clause.eval_firstOf hl, hrun]
    rfl

/-- A query, with an offset, a limit and a timeout of its own. -/
def Query.bounded (q : Query) (offset : Nat) (size limit : Option Nat) : Query :=
  { q with offset := offset, limit := size, timeout := limit }

theorem Query.sequence_of_column {attributes : List String} {direction : Direction}
    (hby : order.sortBy? keys = some (attributes, direction))
    (hne : record ≠ Sequencing.sortVar) :
    ((Query.of record).extend clauses).sequence record order keys =
      ⟨[record, Sequencing.sortVar],
        clauses ++ [.firstOf record attributes Sequencing.sortVar],
        [⟨Sequencing.sortVar, direction⟩], 0, none, none⟩ := by
  simp [Query.sequence, hby, Query.project, Query.extend, Query.of, hne.symm]

/-- **A query in order names what its clauses bind, each once, in that order.** -/
theorem Query.evaluate_sequence (hl : limit ≠ some 0)
    (hbs : Clause.evalAll src limit clauses [∅] = .ok found) (hnamed : AllNamed record found)
    (hfree : ∀ b ∈ found, b.get? Sequencing.sortVar = none) (hne : record ≠ Sequencing.sortVar)
    (order : Sequencing) (keys : List AttributeKey) (offset : Nat) (size : Option Nat) :
    let q := (((Query.of record).extend clauses).sequence record order keys).bounded
      offset size limit
    ∃ rows, q.evaluate src = .ok rows ∧
      rows.refs record = q.cut (order.arrange src keys (named record found)) := by
  intro q
  cases hby : order.sortBy? keys with
  | some column =>
    obtain ⟨attributes, direction⟩ := column
    obtain ⟨bs, hbind, hsame, hall⟩ := @Clause.evalAll_firstOf src limit record
      Sequencing.sortVar found hl attributes hnamed hfree
    have hq : q = ⟨[record, Sequencing.sortVar],
        clauses ++ [.firstOf record attributes Sequencing.sortVar],
        [⟨Sequencing.sortVar, direction⟩], offset, size, limit⟩ := by
      simp only [q, Query.sequence_of_column hby hne, Query.bounded]
    have hbs' : Clause.evalAll src q.timeout q.clauses [∅] = .ok bs := by
      rw [hq, Clause.evalAll_append, hbs, ok_bind, hbind]
    rw [Sequencing.arrange, ← hsame]
    refine Query.evaluate_named 0 (fun id => [.ref id, firstValue src id attributes])
      [(1, direction)] _ hbs' (fun b hb => ?_) (fun b hb id hid => ?_) (fun x y => ?_) ?_
      (fun x y => ?_) ?_ fun x => rfl
    · obtain ⟨id, hid, -⟩ := hall b hb
      exact ⟨id, hid⟩
    · obtain ⟨id', hid', hvalue⟩ := hall b hb
      rw [hid, Option.some.injEq, Value.ref.injEq] at hid'
      subst hid'
      simp only [hq, Binding.row, List.mapM_cons, List.mapM_nil, hid, hvalue]
      rfl
    · -- The column adds nothing to what the document says already.
      cases h : compare x y with
      | eq =>
        obtain rfl : x = y := Std.LawfulEqOrd.eq_of_compare h
        simp [compareRows, Ordered.lexicographic, Value.totalCompare_self]
      | _ => simp [compareRows, Ordered.lexicographic, Value.totalCompare, h]
    · simp [hq, Query.sortColumns, List.idxOf?_cons, hne]
    · simp [Sequencing.less, hby, compareByColumns]
    · simp [hq, List.idxOf?_cons]
  | none =>
    have hq : ∃ orderBy columns, q = ⟨[record], clauses, orderBy, offset, size, limit⟩ ∧
        q.sortColumns = .ok columns ∧ ∀ x y : DocId,
          (compareByColumns columns [.ref x] [.ref y] == .lt) = order.less src keys x y := by
      cases order with
      | guid =>
        refine ⟨[⟨record, .asc⟩], [(0, .asc)], rfl, ?_, fun x y => rfl⟩
        simp [q, Query.sequence, hby, Query.sortColumns, Query.bounded, Query.extend, Query.of]
      | any => exact ⟨[], [], rfl, rfl, fun x y => rfl⟩
      | _ => cases hby
    obtain ⟨orderBy, columns, hq, hcolumns, hless⟩ := hq
    have hbs' : Clause.evalAll src q.timeout q.clauses [∅] = .ok found := by
      rw [hq, hbs]
    refine Query.evaluate_named 0 (fun id => [.ref id]) columns _ hbs' hnamed
      (fun b hb id hid => ?_) (fun x y => ?_) hcolumns hless ?_ fun x => rfl
    · simp only [hq, Binding.row, List.mapM_cons, List.mapM_nil, hid]
      rfl
    · cases h : compare x y <;> simp [compareRows, Ordered.lexicographic, Value.totalCompare, h]
    · simp [hq, List.idxOf?_cons]

/-- A first clause that is about a value binds its variable to documents, whatever follows. -/
theorem Clause.allNamed_of_first {attr : String} {value : Value} {rest : List Clause}
    (h : Clause.evalAll src limit (.attrEq record attr value :: rest) [∅] = .ok found) :
    AllNamed record found := by
  rw [Clause.evalAll_cons _ _ (by simp)] at h
  obtain ⟨first, hfirst, hrest⟩ := bind_eq_ok.1 h
  rw [Clause.attrEq, Clause.eval_pattern (Clause.time_of_eval hfirst), List.flatMap_singleton,
    Except.ok.injEq] at hfirst
  subst hfirst
  intro b' hb'
  obtain ⟨b, hb, hext⟩ := Clause.evalAll_extends hrest b' hb'
  simp only [matchPattern, Term.candidates, NameMap.get?_empty, List.mem_flatMap] at hb
  obtain ⟨d, -, hb⟩ := hb
  split at hb
  · cases hb
  · obtain ⟨b₀, -, rfl⟩ := List.mem_map.1 hb
    exact ⟨d.id, hext record _ (NameMap.get?_insert_self b₀ record _)⟩

end

/-! ## Searches -/

section

variable {ts : TypeSystem} {l : QueryLimits} {s : Store} {snap : Snapshot} {src : Source}
variable {search : RecordSearch} {c : Compiled} {order : Sequencing} {p : Paging} {id : DocId}

/-- The attributes that an order looks at, and the direction. -/
def Compiled.sortBy? (ts : TypeSystem) (c : Compiled) (order : Sequencing) :
    Option (List String × Direction) :=
  order.sortBy? (order.keys ts c.scope)

/-- The clauses of a search, without order and page, bind its record to a document. -/
def Compiled.Finds (l : QueryLimits) (src : Source) (c : Compiled) (id : DocId) : Prop :=
  ∃ found, Clause.evalAll src (some l.timeout) c.clauses [∅] = .ok found ∧
    ∃ b ∈ found, b.get? c.scope.record = some (.ref id)

/-- The documents of a page of a search. -/
def RecordSearch.page (ts : TypeSystem) (l : QueryLimits) (s : Store) (snap : Snapshot)
    (search : RecordSearch) (p : Paging) : Except SearchError (List DocId) := do
  let plan ← (search.arranged search.sequencing p).plan ts l
  let rows ← (s.query snap plan.query).mapError SearchError.store
  .ok (rows.refs plan.record)

/-- What the clauses of a search find is all that the query of a page starts from. -/
theorem Compiled.evalAll_of_evaluate {rows : Rows}
    (h : (c.plan ts l order p).query.evaluate src = .ok rows) :
    ∃ found, Clause.evalAll src (some l.timeout) c.clauses [∅] = .ok found := by
  obtain ⟨bs, hbs, -⟩ := bind_eq_ok.1 h
  obtain ⟨more, hmore⟩ := Query.clauses_sequence ((Query.of c.scope.record).extend c.clauses)
    c.scope.record order (order.keys ts c.scope)
  have hclauses : (c.plan ts l order p).query.clauses = c.clauses ++ more := hmore
  rw [hclauses, Clause.evalAll_append] at hbs
  obtain ⟨found, hfound, -⟩ := bind_eq_ok.1 hbs
  exact ⟨found, hfound⟩

/-- **The query of a compiled search names what the clauses bind**, each document once and in order,
and cuts a page from it. -/
theorem RecordSearch.evaluate_compiled {limit : Option Nat} {found : List Binding}
    (hcompile : search.compile ts = .ok c)
    (hfound : Clause.evalAll src limit c.clauses [∅] = .ok found) (order : Sequencing)
    (offset : Nat) (size : Option Nat) :
    let q := (c.query ts order).bounded offset size limit
    ∃ rows, q.evaluate src = .ok rows ∧ rows.refs c.scope.record =
      q.cut (order.arrange src (order.keys ts c.scope) (named c.scope.record found)) := by
  obtain ⟨hrecord, hplain, rest, hfirst⟩ := compile_ok hcompile
  have hl : limit ≠ some 0 := by
    rw [hfirst, Clause.evalAll_cons _ _ (by simp)] at hfound
    obtain ⟨first, hfound, -⟩ := bind_eq_ok.1 hfound
    exact Clause.time_of_eval hfound
  have hnamed : AllNamed c.scope.record found := by
    rw [hrecord]
    exact Clause.allNamed_of_first (hfirst ▸ hfound)
  have hsort : ¬ Var.About search.record Sequencing.sortVar := sortVar_not_about search
  have hfree : ∀ b ∈ found, b.get? Sequencing.sortVar = none := by
    intro b hb
    obtain ⟨b₀, hb₀, hsame⟩ :=
      Clause.evalAll_outside (fun hmem => hsort (hplain _ hmem)) hfound b hb
    rw [hsame, List.mem_singleton.1 hb₀, NameMap.get?_empty]
  have hne : c.scope.record ≠ Sequencing.sortVar := fun heq => hsort (Or.inl (heq ▸ hrecord))
  exact Query.evaluate_sequence hl hfound hnamed hfree hne order _ offset size

/-- The parts of one size that a list is cut into are the whole list. -/
theorem flatMap_range_take {α : Type} (xs : List α) (k n : Nat) :
    (List.range n).flatMap (fun i => (xs.drop (i * k)).take k) = xs.take (n * k) := by
  induction n with
  | zero => simp
  | succ n ih =>
    rw [List.range_succ, List.flatMap_append, ih, List.flatMap_singleton, Nat.succ_mul,
      List.take_add]

/-- **Pages are parts of one list.** Where a search is answered at all, there is one list of the
documents that its clauses find, each of them once. Whatever the size of pages, each page is
answered, and pages that follow each other are this list. In the list what has a value to be ordered
by comes before what has none, values run in the direction of the order, and ties go by key. An
order by a property looks at all names of the property, and so at the value that is stored under any
of them. -/
theorem RecordSearch.pages_tile (hsnap : s.Shows snap src) {first : List DocId}
    (hpage : search.page ts l s snap search.paging = .ok first) :
    ∃ c, search.compile ts = .ok c ∧ ∃ all : List DocId, all.Nodup ∧
      (∀ id, id ∈ all ↔ c.Finds l src id) ∧
      (∀ k, 0 < k → k ≤ l.maxPageSize → ∃ pages : Nat → List DocId,
        (∀ i, search.page ts l s snap ⟨i * k, k⟩ = .ok (pages i) ∧
          pages i = (all.drop (i * k)).take k) ∧
        ∀ n, all.length ≤ n * k → (List.range n).flatMap pages = all) ∧
      (∀ attributes direction, c.sortBy? ts search.sequencing = some (attributes, direction) →
        (∀ property, search.sequencing.property? = some property →
          attributes = c.scope.attributes ts property) ∧
        ∀ id d v, src.document? id = some d → d.Shows attributes v →
          sortKey src attributes id = sortValue (v.getD .null)) ∧
      ((∀ attributes direction, c.sortBy? ts search.sequencing = some (attributes, direction) →
          ∀ id ∈ all, (sortKey src attributes id).hasNegativeZero = false) →
        all.Pairwise (Precedes src (c.sortBy? ts search.sequencing))) := by
  obtain ⟨plan, hplan, hpage⟩ := bind_eq_ok.1 hpage
  obtain ⟨rows, hrows, -⟩ := bind_eq_ok.1 hpage
  rw [plan_eq, compile_arranged, map_eq_ok] at hplan
  obtain ⟨c, hcompile, rfl⟩ := hplan
  rw [mapError_eq_ok, hsnap.query] at hrows
  obtain ⟨found, hfound⟩ := Compiled.evalAll_of_evaluate hrows
  obtain ⟨all, hall⟩ : ∃ all, all = search.sequencing.arrange src
    (search.sequencing.keys ts c.scope) (named c.scope.record found) := ⟨_, rfl⟩
  have hmem (id : DocId) : id ∈ all ↔ c.Finds l src id := by
    rw [hall, Sequencing.mem_arrange, mem_named, Compiled.Finds, hfound]
    simp
  refine ⟨c, hcompile, all, hall ▸ Sequencing.nodup_arrange, hmem, fun k hk hle => ?_,
    fun attributes direction hby => ⟨fun property hproperty => ?_, fun id d v hd hshows => ?_⟩,
    fun hzero => ?_⟩
  · refine ⟨fun i => (all.drop (i * k)).take k, fun i => ⟨?_, rfl⟩, fun n hn => ?_⟩
    · obtain ⟨rows, hrows, hrefs⟩ := evaluate_compiled hcompile hfound search.sequencing (i * k)
        (some (l.pageSize ⟨i * k, k⟩))
      have hsize : l.pageSize ⟨i * k, k⟩ = k := by
        rw [QueryLimits.pageSize, if_neg hk.ne', Nat.min_eq_left hle]
      have hanswer : (c.plan ts l search.sequencing ⟨i * k, k⟩).query.evaluate src = .ok rows :=
        hrows
      rw [page, plan_arranged hcompile, ok_bind, hsnap.query, hanswer, mapError_ok, ok_bind]
      show Except.ok (rows.refs c.scope.record) = _
      rw [hrefs, hsize, hall]
      rfl
    · rw [flatMap_range_take, List.take_of_length_le hn]
  · revert hby
    cases hs : search.sequencing <;> rw [hs] at hproperty <;> cases hproperty <;> rintro ⟨⟩ <;> rfl
  · exact sortKey_of_shows hd hshows
  · rw [hall]
    exact Sequencing.pairwise_arrange fun attributes direction hby id hid =>
      hzero attributes direction hby id (hall ▸ Sequencing.mem_arrange.2 hid)

end

/-- By weight, downwards: of a list the first counts, equal weights go by key, and what has none
comes last. -/
theorem pages_tile_by_weight :
    let asset : TypeDef := ⟨"t1", "Asset", .entity, none, [⟨"weight", false⟩], []⟩
    let table : TypeDef := ⟨"t2", "Table", .entity, some "Asset", [⟨"weight", false⟩], []⟩
    let ts := (TypeSystem.ofList [asset, table]).toOption.getD .empty
    let entity (guid : String) (t : TypeDef) (ps : List (String × PropertyValue)) : Document :=
      (Entity.toDocument ts ⟨guid, Header.create ⟨t.guid, t.name⟩ "c" none "user" ⟨0, 0⟩,
        .ofList ps, []⟩).toOption.getD (.ofId "")
    let docs := [entity "d" table [("weight", .int 2)], entity "c" asset [],
      entity "b" asset [("weight", .int 5)],
      entity "a" asset [("weight", .array [.int 2, .int 9])]]
    let events : List (StoreEvent Unit) :=
      [.submit [] ⟨0, 0⟩ (docs.map fun d => .write (.put d)), .openSnapshot ⟨0, 0⟩ none]
    let s := (Store.empty 1).run events
    let snap : Snapshot := ⟨1, 1, ⟨0, 0⟩⟩
    let search : RecordSearch :=
      .entities ⟨none, none, none, none, .present, none, .propertyDescending "weight", ⟨0, 3⟩⟩
    ∃ pages : Nat → List DocId,
      (∀ i, search.page ts .default s snap ⟨i * 3, 3⟩ = .ok (pages i)) ∧
        (List.range 2).flatMap pages = ["e:b", "e:a", "e:d", "e:c"] := by
  intro asset table ts entity docs events s snap search
  obtain ⟨pin, hpin⟩ : ∃ pin, s.pinOf snap = .ok pin :=
    ⟨_, eq_ok_of_isSome (by decide +kernel) ⟨0, 0⟩⟩
  have hpage : search.page ts .default s snap search.paging = .ok _ :=
    eq_ok_of_isSome (by decide +kernel) []
  obtain ⟨c, -, all, -, -, hpages, -⟩ :=
    RecordSearch.pages_tile ⟨pin, hpin, rfl⟩ hpage
  -- A page of five is not full, so it is the whole list.
  obtain ⟨whole, hwhole, -⟩ := hpages 5 (by decide) (by decide)
  have hfive : search.page ts .default s snap ⟨0, 5⟩ = .ok ["e:b", "e:a", "e:d", "e:c"] :=
    eq_ok_of_toOption (by decide +kernel)
  obtain ⟨hzero, htake⟩ := hwhole 0
  have hsame : whole 0 = ["e:b", "e:a", "e:d", "e:c"] := Except.ok.inj (hzero.symm.trans hfive)
  rw [hsame, Nat.zero_mul, List.drop_zero] at htake
  have hall : all = ["e:b", "e:a", "e:d", "e:c"] := by
    have hlength := congrArg List.length htake
    rw [List.length_take, Nat.min_def] at hlength
    split at hlength
    · cases hlength
    · rw [htake, List.take_of_length_le (by omega)]
  obtain ⟨pages, hthree, htile⟩ := hpages 3 (by decide) (by decide)
  exact ⟨pages, fun i => (hthree i).1, hall ▸ htile 2 (by rw [hall]; decide)⟩

end MetadataArchive
