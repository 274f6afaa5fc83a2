import MetadataArchive.Proofs.Fact.Document
import MetadataArchive.Proofs.Search.Hop
import MetadataArchive.Proofs.Store.Latest
import MetadataArchive.Proofs.Store.Snapshot

/-!
# How far a walk gets

Documents with two ends are the edges of an undirected graph with loops and parallel edges; its
nodes are whatever ends refer to, whether it is stored or not. A walk of so many steps finds what is
at most so far away from its start, and the edges that are nearer than that
(`Store.traverse_exact`). The invariant (`Walk.Finds`) says that the walk has found what is within
its number of steps, and that the documents of the next step are those at just that distance.
-/

set_option autoImplicit false

namespace MetadataArchive

/-! ## Distance -/

section

variable {joined : DocId → DocId → DocId → Prop} {root x y r : DocId} {n m : Nat}

/-- So many edges, each followed in either direction, lead from the start to a document. -/
inductive Leads (joined : DocId → DocId → DocId → Prop) (root : DocId) : Nat → DocId → Prop
  | start : Leads joined root 0 root
  | step {n : Nat} {r x y : DocId} : Leads joined root n x → joined r x y →
      Leads joined root (n + 1) y

/-- So many edges lead to a document, and fewer do not. -/
def Distance (joined : DocId → DocId → DocId → Prop) (root x : DocId) (n : Nat) : Prop :=
  Leads joined root n x ∧ ∀ m < n, ¬ Leads joined root m x

theorem Leads.distance (h : Leads joined root n x) : ∃ m ≤ n, Distance joined root x m := by
  classical
  have hex : ∃ m, Leads joined root m x := ⟨n, h⟩
  exact ⟨Nat.find hex, Nat.find_le h, Nat.find_spec hex, fun m hm => Nat.find_min hex hm⟩

namespace Distance

theorem zero_iff : Distance joined root x 0 ↔ x = root := by
  constructor
  · rintro ⟨h, -⟩
    cases h
    rfl
  · rintro rfl
    exact ⟨.start, fun m hm => absurd hm (Nat.not_lt_zero m)⟩

theorem unique (h : Distance joined root x n) (h' : Distance joined root x m) : n = m :=
  Nat.le_antisymm (not_lt.1 fun hlt => h.2 m hlt h'.1) (not_lt.1 fun hlt => h'.2 n hlt h.1)

/-- What is one edge further away than `n` is joined with something at the distance `n`, and not
found within `n` edges. -/
theorem succ_iff :
    Distance joined root y (n + 1) ↔
      (∃ r x, Distance joined root x n ∧ joined r x y) ∧
        ∀ m ≤ n, ¬ Distance joined root y m := by
  constructor
  · rintro ⟨hleads, hmin⟩
    refine ⟨?_, fun m hm h => hmin m (Nat.lt_succ_of_le hm) h.1⟩
    cases hleads with
    | @step n r x y hx hxy =>
      exact ⟨r, x, ⟨hx, fun m hm h => hmin (m + 1) (Nat.succ_lt_succ hm) (h.step hxy)⟩, hxy⟩
  · rintro ⟨⟨r, x, hx, hxy⟩, hfar⟩
    refine ⟨hx.1.step hxy, fun m hm h => ?_⟩
    obtain ⟨k, hk, hdist⟩ := h.distance
    exact hfar k (by omega) hdist

/-- Beyond a distance at which there is nothing there is nothing. -/
theorem none_beyond (h : ∀ x, ¬ Distance joined root x n) :
    ∀ k x, ¬ Distance joined root x (n + k) := by
  intro k
  induction k with
  | zero => exact h
  | succ k ih =>
    intro x hx
    obtain ⟨⟨r, y, hy, -⟩, -⟩ := succ_iff.1 hx
    exact ih y hy

end Distance

end

namespace Walk

variable {joined : DocId → DocId → DocId → Prop} {root : DocId} {w : Walk} {n k : Nat}

/-! ## A step -/

/-- What meeting relationships one after the other adds to a walk: the far ends that are new, each
once, and under each key that is new the first that was met. -/
theorem foldl_meet (root : DocId) (es : List Edge) (w : Walk) (next : List DocId) :
    ∃ added : List DocId,
      (es.foldl (meet root) (w, next)).2 = next ++ added ∧
      (es.foldl (meet root) (w, next)).1.reached = w.reached ++ added ∧
      (es.foldl (meet root) (w, next)).1.hops = w.hops ∧
      (∀ r, (es.foldl (meet root) (w, next)).1.edges.get? r =
        (w.edges.get? r).or (es.find? fun e => e.relationship == r)) ∧
      added.Nodup ∧
      ∀ y, y ∈ added ↔ y ≠ root ∧ y ∉ w.reached ∧ ∃ e ∈ es, e.far = y := by
  induction es generalizing w next with
  | nil => exact ⟨[], by simp⟩
  | cons e es ih =>
    rw [List.foldl_cons]
    -- Whether the far end is new or not, the relationship is kept unless its key is taken.
    have hedges (r : DocId) : ((if w.edges.contains e.relationship then w.edges
        else w.edges.insert e.relationship e).get? r).or
          (es.find? fun e => e.relationship == r) =
        (w.edges.get? r).or ((e :: es).find? fun e => e.relationship == r) := by
      by_cases hr : e.relationship = r
      · subst hr
        cases hget : w.edges.get? e.relationship <;> simp [NameMap.contains, hget]
      · rw [List.find?_cons_of_neg (by simpa using hr)]
        split
        · rfl
        · rw [NameMap.get?_insert_of_ne _ _ (Ne.symm hr)]
    by_cases hfar : e.far = root ∨ e.far ∈ w.reached
    · rw [meet, if_pos (by simpa using hfar)]
      obtain ⟨added, hnext, hreached, hhops, hget, hnodup, hmem⟩ := ih
        { w with edges := if w.edges.contains e.relationship then w.edges
            else w.edges.insert e.relationship e } next
      refine ⟨added, hnext, hreached, hhops, fun r => (hget r).trans (hedges r), hnodup,
        fun y => (hmem y).trans ?_⟩
      simp only [List.mem_cons, exists_eq_or_imp]
      constructor
      · rintro ⟨hy, hnew, h⟩
        exact ⟨hy, hnew, Or.inr h⟩
      · rintro ⟨hy, hnew, rfl | h⟩
        · exact absurd hfar (not_or.2 ⟨hy, hnew⟩)
        · exact ⟨hy, hnew, h⟩
    · rw [meet, if_neg (by simpa using hfar)]
      obtain ⟨added, hnext, hreached, hhops, hget, hnodup, hmem⟩ := ih
        { w with
          edges := if w.edges.contains e.relationship then w.edges
            else w.edges.insert e.relationship e
          reached := w.reached ++ [e.far] } (next ++ [e.far])
      obtain ⟨hroot, hnew⟩ := not_or.1 hfar
      refine ⟨e.far :: added, by simp [hnext], by simp [hreached], hhops,
        fun r => (hget r).trans (hedges r), ?_, fun y => ?_⟩
      · refine List.nodup_cons.2 ⟨fun h => ?_, hnodup⟩
        exact ((hmem _).1 h).2.1 (List.mem_append_right _ (List.mem_singleton_self _))
      · simp only [List.mem_cons, hmem, List.mem_append, List.not_mem_nil, or_false,
          exists_eq_or_imp]
        by_cases hy : e.far = y
        · subst hy
          simp [hroot, hnew]
        · simp [hy, Ne.symm hy]

/-- What a walk has found is all that is within a number of edges: the documents themselves, and the
relationships that have an end nearer than that. -/
structure Finds (joined : DocId → DocId → DocId → Prop) (root : DocId) (w : Walk) (n : Nat) :
    Prop where
  /-- Nothing is reached twice. -/
  distinct : w.reached.Nodup
  /-- What is reached is what is there, the start left out. -/
  reached : ∀ x, x ∈ w.reached ↔ ∃ m, 1 ≤ m ∧ m ≤ n ∧ Distance joined root x m
  /-- A relationship is met where it has an end that the walk has gone on from. -/
  met : ∀ r, w.edges.contains r = true ↔
    ∃ x y m, joined r x y ∧ Distance joined root x m ∧ m < n
  /-- What is kept of a relationship is its own key and its own two ends. -/
  ends : ∀ r e, w.edges.get? r = some e → e.relationship = r ∧ joined r e.near e.far

theorem finds_start : Finds joined root .start 0 where
  distinct := List.nodup_nil
  reached x := by
    simp only [start, List.not_mem_nil, false_iff, not_exists, not_and]
    intro m hm hle
    omega
  met r := by simp [start, NameMap.contains]
  ends r e h := by simp [start] at h

/-- **A step goes one edge further**, where it is answered with the edges of all that is at the
distance that the walk has got to. -/
theorem Finds.step (h : Finds joined root w n) {frontier : List DocId}
    (hfrontier : ∀ x, x ∈ frontier ↔ Distance joined root x n) {rows : Rows}
    (hrows : ∀ e, e ∈ rows.rows.filterMap edge? ↔
      e.near ∈ frontier ∧ joined e.relationship e.near e.far) :
    Finds joined root (w.step root rows).1 (n + 1) ∧
      (∀ x, x ∈ (w.step root rows).2 ↔ Distance joined root x (n + 1)) ∧
      (w.step root rows).1.hops = w.hops + 1 := by
  obtain ⟨added, hnext, hreached, hhops, hedges, hnodup, hmem⟩ :=
    foldl_meet root (rows.rows.filterMap edge?) w []
  have hfound (y : DocId) : y ≠ root ∧ y ∉ w.reached ↔
      ∀ m ≤ n, ¬ Distance joined root y m := by
    rw [h.reached]
    constructor
    · rintro ⟨hroot, hnew⟩ m hm hdist
      rcases Nat.eq_zero_or_pos m with rfl | hpos
      · exact hroot (Distance.zero_iff.1 hdist)
      · exact hnew ⟨m, hpos, hm, hdist⟩
    · intro hfar
      refine ⟨fun hroot => hfar 0 (Nat.zero_le n) (Distance.zero_iff.2 hroot), ?_⟩
      rintro ⟨m, -, hm, hdist⟩
      exact hfar m hm hdist
  have hadded (y : DocId) : y ∈ added ↔ Distance joined root y (n + 1) := by
    rw [hmem, ← and_assoc, hfound, Distance.succ_iff, and_comm]
    refine and_congr_left fun _ => ?_
    constructor
    · rintro ⟨e, he, rfl⟩
      obtain ⟨hnear, hjoined⟩ := (hrows e).1 he
      exact ⟨e.relationship, e.near, (hfrontier _).1 hnear, hjoined⟩
    · rintro ⟨r, x, hx, hxy⟩
      exact ⟨⟨r, x, y⟩, (hrows _).2 ⟨(hfrontier x).2 hx, hxy⟩, rfl⟩
  refine ⟨⟨?_, fun x => ?_, fun r => ?_, fun r e he => ?_⟩, fun x => ?_, ?_⟩
  · show ((rows.rows.filterMap edge?).foldl (meet root) (w, [])).1.reached.Nodup
    rw [hreached]
    refine h.distinct.append hnodup ?_
    intro x hx hx'
    exact ((hmem x).1 hx').2.1 hx
  · show x ∈ ((rows.rows.filterMap edge?).foldl (meet root) (w, [])).1.reached ↔ _
    rw [hreached, List.mem_append, h.reached, hadded]
    constructor
    · rintro (⟨m, hpos, hm, hdist⟩ | hdist)
      · exact ⟨m, hpos, Nat.le_succ_of_le hm, hdist⟩
      · exact ⟨n + 1, Nat.le_add_left 1 n, Nat.le_refl _, hdist⟩
    · rintro ⟨m, hpos, hm, hdist⟩
      rcases Nat.le_succ_iff.1 hm with hm | rfl
      · exact Or.inl ⟨m, hpos, hm, hdist⟩
      · exact Or.inr hdist
  · show ((rows.rows.filterMap edge?).foldl (meet root) (w, [])).1.edges.contains r = true ↔ _
    rw [NameMap.contains, hedges, Option.isSome_or, Bool.or_eq_true, ← NameMap.contains, h.met,
      List.find?_isSome]
    constructor
    · rintro (⟨x, y, m, hxy, hdist, hm⟩ | ⟨e, he, heq⟩)
      · exact ⟨x, y, m, hxy, hdist, Nat.lt_succ_of_lt hm⟩
      · obtain ⟨hnear, hjoined⟩ := (hrows e).1 he
        rw [beq_iff_eq] at heq
        subst heq
        exact ⟨e.near, e.far, n, hjoined, (hfrontier _).1 hnear, Nat.lt_succ_self n⟩
    · rintro ⟨x, y, m, hxy, hdist, hm⟩
      rcases Nat.lt_succ_iff_lt_or_eq.1 hm with hm | rfl
      · exact Or.inl ⟨x, y, m, hxy, hdist, hm⟩
      · exact Or.inr ⟨⟨r, x, y⟩, (hrows _).2 ⟨(hfrontier x).2 hdist, hxy⟩, beq_self_eq_true r⟩
  · have hget := (hedges r).symm.trans he
    rcases Option.or_eq_some_iff.1 hget with hold | ⟨-, hnew⟩
    · exact h.ends r e hold
    · have heq := List.find?_some hnew
      rw [beq_iff_eq] at heq
      subst heq
      exact ⟨rfl, ((hrows e).1 (List.mem_of_find?_eq_some hnew)).2⟩
  · show x ∈ ((rows.rows.filterMap edge?).foldl (meet root) (w, [])).2 ↔ _
    rw [hnext, List.nil_append, hadded]
  · exact congrArg (· + 1) hhops

/-- Where nothing is at the distance that a walk has got to, it has found all there is. -/
theorem Finds.beyond (h : Finds joined root w n) (hnone : ∀ x, ¬ Distance joined root x n)
    (k : Nat) : Finds joined root w (n + k) where
  distinct := h.distinct
  reached x := by
    rw [h.reached]
    constructor
    · rintro ⟨m, hpos, hm, hdist⟩
      exact ⟨m, hpos, by omega, hdist⟩
    · rintro ⟨m, hpos, -, hdist⟩
      refine ⟨m, hpos, not_lt.1 fun hlt => ?_, hdist⟩
      exact Distance.none_beyond hnone (m - n) x (by rwa [Nat.add_sub_cancel' hlt.le])
  met r := by
    rw [h.met]
    constructor
    · rintro ⟨x, y, m, hxy, hdist, hm⟩
      exact ⟨x, y, m, hxy, hdist, by omega⟩
    · rintro ⟨x, y, m, hxy, hdist, -⟩
      refine ⟨x, y, m, hxy, hdist, not_le.1 fun hle => ?_⟩
      exact Distance.none_beyond hnone (m - n) x (by rwa [Nat.add_sub_cancel' hle])
  ends := h.ends

/-! ## A walk -/

/-- **A walk that is answered with edges finds all that is within its steps.** -/
theorem Finds.run {ask : Query → Except StoreError Rows} {l : QueryLimits}
    (hask : ∀ frontier, ∃ rows, ask (hopQuery l frontier) = .ok rows ∧
      ∀ e, e ∈ rows.rows.filterMap edge? ↔
        e.near ∈ frontier ∧ joined e.relationship e.near e.far)
    (h : Finds joined root w n) {frontier : List DocId}
    (hfrontier : ∀ x, x ∈ frontier ↔ Distance joined root x n) :
    ∃ w', Walk.run ask l root k w frontier = (w', none) ∧
      Finds joined root w' (n + k) ∧ w'.hops ≤ w.hops + k := by
  induction k generalizing w n frontier with
  | zero => exact ⟨w, rfl, h, Nat.le_refl _⟩
  | succ k ih =>
    rw [Walk.run]
    split
    next hempty =>
      have hnone : ∀ x, ¬ Distance joined root x n := by
        rw [List.isEmpty_iff.1 hempty] at hfrontier
        exact fun x hx => List.not_mem_nil ((hfrontier x).2 hx)
      exact ⟨w, rfl, h.beyond hnone (k + 1), Nat.le_add_right _ _⟩
    next =>
      obtain ⟨rows, hrows, hmem⟩ := hask frontier
      obtain ⟨hfinds, hnext, hhops⟩ := h.step hfrontier hmem
      obtain ⟨w', hrun, hfinds', hle⟩ := ih hfinds hnext
      rw [hrows]
      refine ⟨w', hrun, ?_, by omega⟩
      rwa [Nat.add_right_comm] at hfinds'

end Walk

/-! ## Walks in a store -/

/-- Two documents are joined by a document that a snapshot shows under a key. -/
def Store.Joined (s : Store) (snap : Snapshot) (r x y : DocId) : Prop :=
  ∃ d, s.get snap r = .ok (some d) ∧ d.Joins x y

theorem Store.Shows.joined_iff {s : Store} {snap : Snapshot} {src : Source}
    (h : s.Shows snap src) : s.Joined snap = src.Joined := by
  funext r x y
  simp only [Store.Joined, Source.Joined, h.get, Except.ok.injEq]

/-- A snapshot that can be read shows the ledger by some pin. -/
theorem Tracks.shown_of_get {s : Store} {l : Ledger} (h : Tracks s l) {snap : Snapshot}
    {id : DocId} {d? : Option Document} (hget : s.get snap id = .ok d?) :
    ∃ pin, s.Shows snap (l.source pin) := by
  rw [Store.get, bind_eq_ok] at hget
  obtain ⟨pin, hpin, -⟩ := hget
  have hshows : s.Shows snap (s.view pin) := ⟨pin, hpin, rfl⟩
  obtain ⟨pin', hsource⟩ := h.source_of_shows hshows
  exact ⟨pin', hsource ▸ hshows⟩

/-- **A walk is exact.** In any store, for any snapshot that shows the start of the walk, and where
the ends of the documents that it shows are single references: a walk of at most so many steps is
answered, takes no more steps, and finds just what is within that distance of its start, whatever
the documents are and however they are connected. -/
theorem Store.traverse_exact {ν : Type} (capacity : Nat) (events : List (StoreEvent ν))
    (l : QueryLimits) (snap : Snapshot) (root : DocId) (depth : Nat)
    (htime : l.timeoutMs ≠ 0)
    (hroot : ∃ d, ((Store.empty capacity).run events).get snap root = .ok (some d))
    (hends : ∀ id d side v, ((Store.empty capacity).run events).get snap id = .ok (some d) →
      d.get? (Attr.side side) = some v → ∃ x, v = .ref x) :
    ∃ w, ((Store.empty capacity).run events).traverse l snap root depth = .ok w ∧
      w.Finds (((Store.empty capacity).run events).Joined snap) root depth ∧
      w.hops ≤ depth := by
  obtain ⟨d, hd⟩ := hroot
  obtain ⟨pin, hshows⟩ := ((Tracks.empty capacity).run events).shown_of_get hd
  have hsrc := Ledger.coherent_source (Ledger.keyed_empty.run events) pin
  generalize (Ledger.empty.run events).source pin = src at hshows hsrc
  have hsingle : src.SingleEnds := fun id d side v hd hv =>
    hends id d side v (by rw [hshows.get, hd]) hv
  have hask (frontier : List DocId) :
      ∃ rows, ((Store.empty capacity).run events).query snap (Walk.hopQuery l frontier) =
          .ok rows ∧
        ∀ e, e ∈ rows.rows.filterMap Walk.edge? ↔
          e.near ∈ frontier ∧ src.Joined e.relationship e.near e.far := by
    rw [hshows.query]
    exact Walk.mem_hop htime hsingle hsrc frontier
  have hstart (x : DocId) : x ∈ [root] ↔ Distance src.Joined root x 0 := by
    rw [List.mem_singleton, Distance.zero_iff]
  obtain ⟨w, hrun, hfinds, hhops⟩ := Walk.finds_start.run (k := depth) hask hstart
  rw [Nat.zero_add] at hfinds
  have hwalk : ((Store.empty capacity).run events).walk l snap root depth = .ok (w, none) := by
    rw [Store.walk, hd, mapError_ok, ok_bind, ← hrun]
  refine ⟨w, ?_, hshows.joined_iff ▸ hfinds, by simpa [Walk.start] using hhops⟩
  rw [Store.traverse, hwalk]
  rfl

/-- From a document with a loop, two parallel edges and an edge that leads to no document. -/
theorem traverse_exact_of_loop :
    let edge (id x y : DocId) : Document :=
      ((Document.ofId id).set (Attr.side .one) (.ref x)).set (Attr.side .two) (.ref y)
    let docs := [.ofId "e:a", edge "r:1" "e:a" "e:a", edge "r:2" "e:a" "e:b",
      edge "r:3" "e:b" "e:a", edge "r:4" "e:c" "e:b"]
    let events : List (StoreEvent Unit) :=
      [.submit [] ⟨0, 0⟩ (docs.map fun d => .write (.put d)), .openSnapshot ⟨0, 0⟩ none]
    let s := (Store.empty 1).run events
    let snap : Snapshot := ⟨1, 1, ⟨0, 0⟩⟩
    (s.traverse .default snap "e:a" 1).toOption.map Walk.reached = some ["e:b"] ∧
      ∃ w, s.traverse .default snap "e:a" 2 = .ok w ∧ w.Finds (s.Joined snap) "e:a" 2 := by
  intro edge docs events s snap
  refine ⟨by decide +kernel, ?_⟩
  -- Whatever a snapshot shows was written, and each of the documents that were has such ends.
  have hwritten : ∀ d ∈ docs, ∀ side v, d.get? (Attr.side side) = some v → ∃ x, v = .ref x := by
    have hedge (id x y : DocId) : ∀ side v, (edge id x y).get? (Attr.side side) = some v →
        ∃ z, v = .ref z := by
      rintro (_ | _) v hv <;>
        simp [edge, Document.get?_set, Attr.side, End.name, Value.stored?] at hv <;>
        exact ⟨_, hv.symm⟩
    simp only [docs, List.forall_mem_cons]
    exact ⟨by simp, hedge _ _ _, hedge _ _ _, hedge _ _ _, hedge _ _ _, by simp⟩
  have hholds : (Ledger.empty.run events).Holds fun d =>
      ∀ side v, d.get? (Attr.side side) = some v → ∃ x, v = .ref x := by
    refine Ledger.holds_empty.submit (Q := fun _ => True) Ledger.keyed_empty
      ⟨fun before w hw hbefore id d hd => ?_, fun name args hc => ?_⟩
    · obtain ⟨d', hd', heq⟩ := List.mem_map.1 hw
      cases heq
      unfold Write.on at hd
      split at hd
      · cases hd
        exact hwritten _ hd'
      · exact hbefore id d hd
    · obtain ⟨d', -, heq⟩ := List.mem_map.1 hc
      cases heq
  have hroot : ∃ d, s.get snap "e:a" = .ok (some d) := by
    obtain ⟨d, hd⟩ := Option.isSome_iff_exists.1
      (show ((s.get snap "e:a").toOption.join).isSome = true by decide +kernel)
    exact ⟨d, eq_ok_of_toOption (Option.join_eq_some_iff.1 hd)⟩
  obtain ⟨w, hw, hfinds, -⟩ := Store.traverse_exact 1 events .default snap "e:a" 2 (by decide) hroot
    (by
      intro id d side v hd
      obtain ⟨pin, hshows⟩ := ((Tracks.empty 1).run events).shown_of_get hd
      rw [hshows.get, Except.ok.injEq] at hd
      exact hholds.shows hd side v)
  exact ⟨w, hw, hfinds⟩

end MetadataArchive
