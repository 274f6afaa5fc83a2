import MetadataArchive.Proofs.Query.Evaluation
import MetadataArchive.Proofs.Search.Truth

/-!
# Clauses as judgements of records

Evaluation takes lists of bindings to lists of bindings, and the bindings of one record may be few
or many, in any order and among those of others. What matters to a search is only which records are
still there. `Judges` says that a part of an evaluation keeps the records of which a verdict is
true, drops those of which it is false, and fails where there is one without a verdict.

A record may be bound more than once, and variables are bound on the way. The numbered variables
that a part takes lie in an interval, and whatever comes to it must have left them free: that is why
a judgement carries two numbers.

Judgements are put together as clauses are: in a row, side by side, and negated.
-/

set_option autoImplicit false

namespace MetadataArchive

/-! ## Variables -/

/-- The variable that is taken as the one of a number. -/
def Var.numbered (n : Nat) : Var := Var.ofName ("v" ++ toString n)

theorem Var.numbered_eq (n : Nat) : Var.numbered n = "?" ++ ("v" ++ toString n) := by
  have hplain : beginsWith "?" ("v" ++ toString n) = false := by
    simp [beginsWith, String.toList_append, List.isPrefixOf]
  rw [Var.numbered, Var.ofName, hplain]
  rfl

theorem Var.numbered_injective {m n : Nat} (h : Var.numbered m = Var.numbered n) : m = n := by
  have hlist := congrArg String.toList h
  simp only [numbered_eq, String.toList_append, Nat.toString_eq_repr, Nat.toList_repr] at hlist
  have hdigits := List.append_cancel_left (List.append_cancel_left hlist)
  have hvalue := congrArg (fun ds => Nat.ofDigitChars 10 ds 0) hdigits
  simpa using hvalue

/-- The variables above a number are free. -/
def Binding.Free (n : Nat) (b : Binding) : Prop := ∀ k, n < k → b.get? (Var.numbered k) = none

theorem Binding.Free.mono {m n : Nat} {b : Binding} (h : b.Free m) (hle : m ≤ n) : b.Free n :=
  fun k hk => h k (Nat.lt_of_le_of_lt hle hk)

/-! ## Judgements -/

section

variable {ι : Type} (about : DocId → ι → Prop) (record : Var)

/-- A binding has one of the records that `about` finds under keys. -/
def Binding.IsOf (i : ι) (b : Binding) : Prop :=
  ∃ id, b.get? record = some (.ref id) ∧ about id i

/-- A binding of some record that leaves the variables above a number free. -/
structure Binding.Ready (n : Nat) (b : Binding) : Prop where
  isOf : ∃ i, b.IsOf about record i
  free : b.Free n

/-- A part of an evaluation gives the verdict: what comes out is what came in, less the records of
which it is false. -/
structure Judges (bad : StoreError → Prop) (lo hi : Nat)
    (f : List Binding → Except StoreError (List Binding)) (verdict : ι → Verdict) : Prop where
  le : lo ≤ hi
  fails : ∀ {bs : List Binding} {e : StoreError}, (∀ b ∈ bs, b.Ready about record lo) →
    f bs = .error e → bad e ∧ ∃ b ∈ bs, ∃ i, b.IsOf about record i ∧ verdict i = none
  keeps : ∀ {bs found : List Binding}, (∀ b ∈ bs, b.Ready about record lo) → f bs = .ok found →
    ∀ b' ∈ found, b'.Free hi ∧ ∃ b ∈ bs, b'.get? record = b.get? record
  selects : ∀ {bs found : List Binding}, (∀ b ∈ bs, b.Ready about record lo) → f bs = .ok found →
    ∀ b ∈ bs, ∀ i, b.IsOf about record i →
      ∃ t, verdict i = some t ∧ (t = true ↔ ∃ b' ∈ found, b'.get? record = b.get? record)

end

section

variable {ι : Type} {about : DocId → ι → Prop} {record : Var} {bad : StoreError → Prop}
variable {lo mid hi n : Nat} {f g : List Binding → Except StoreError (List Binding)}
variable {v w : ι → Verdict}

theorem Binding.IsOf.congr {i : ι} {b b' : Binding} (h : b.IsOf about record i)
    (hsame : b'.get? record = b.get? record) : b'.IsOf about record i := by
  obtain ⟨id, hid, ha⟩ := h
  exact ⟨id, hsame.trans hid, ha⟩

theorem Binding.Ready.mono {m : Nat} {b : Binding} (h : b.Ready about record m) (hle : m ≤ n) :
    b.Ready about record n :=
  ⟨h.isOf, h.free.mono hle⟩

namespace Judges

/-- What comes out may be judged in turn. -/
theorem ready (h : Judges about record bad lo hi f v) {bs found : List Binding}
    (hbs : ∀ b ∈ bs, b.Ready about record lo) (hf : f bs = .ok found) :
    ∀ b ∈ found, b.Ready about record hi := by
  intro b' hb'
  obtain ⟨hfree, b, hb, hsame⟩ := h.keeps hbs hf b' hb'
  obtain ⟨i, hi⟩ := (hbs b hb).isOf
  exact ⟨⟨i, hi.congr hsame⟩, hfree⟩

theorem weaken {lo' hi' : Nat} (h : Judges about record bad lo hi f v) (hlo : lo' ≤ lo)
    (hhi : hi ≤ hi') : Judges about record bad lo' hi' f v := by
  refine ⟨(hlo.trans h.le).trans hhi, fun hbs hf => ?_, fun hbs hf => ?_, fun hbs hf => ?_⟩
  · exact h.fails (fun b hb => (hbs b hb).mono hlo) hf
  · intro b' hb'
    obtain ⟨hfree, hold⟩ := h.keeps (fun b hb => (hbs b hb).mono hlo) hf b' hb'
    exact ⟨hfree.mono hhi, hold⟩
  · exact h.selects (fun b hb => (hbs b hb).mono hlo) hf

/-- A judgement of what is stored is one of what that stands for. -/
theorem transfer {κ : Type} {about' : DocId → κ → Prop} {w : κ → Verdict}
    (h : Judges about record bad lo hi f v)
    (hsome : ∀ id k, about' id k → ∃ i, about id i)
    (hvw : ∀ id k i, about' id k → about id i → v i = w k) :
    Judges about' record bad lo hi f w := by
  have hready {bs : List Binding} (hbs : ∀ b ∈ bs, b.Ready about' record lo) :
      ∀ b ∈ bs, b.Ready about record lo := by
    intro b hb
    obtain ⟨k, id, hid, hk⟩ := (hbs b hb).isOf
    obtain ⟨i, hi⟩ := hsome id k hk
    exact ⟨⟨i, id, hid, hi⟩, (hbs b hb).free⟩
  refine ⟨h.le, fun hbs hf => ?_, fun hbs => h.keeps (hready hbs),
    fun hbs hf b hb k ⟨id, hid, hk⟩ => ?_⟩
  · obtain ⟨hbad, b, hb, i, ⟨id, hid, hi⟩, hnone⟩ := h.fails (hready hbs) hf
    obtain ⟨k, id', hid', hk⟩ := (hbs b hb).isOf
    rw [hid, Option.some.injEq, Value.ref.injEq] at hid'
    subst hid'
    exact ⟨hbad, b, hb, k, ⟨id, hid, hk⟩, (hvw id k i hk hi) ▸ hnone⟩
  · obtain ⟨i, hi⟩ := hsome id k hk
    rw [← hvw id k i hk hi]
    exact h.selects (hready hbs) hf b hb i ⟨id, hid, hi⟩

/-- A judgement of each binding by itself. -/
theorem of_each {step : Binding → Except StoreError (List Binding)} (hle : lo ≤ hi)
    (hfails : ∀ {b e}, b.Ready about record lo → step b = .error e →
      bad e ∧ ∃ i, b.IsOf about record i ∧ v i = none)
    (hkeeps : ∀ {b found}, b.Ready about record lo → step b = .ok found →
      ∀ b' ∈ found, b'.Free hi ∧ b'.get? record = b.get? record)
    (hselects : ∀ {b found}, b.Ready about record lo → step b = .ok found →
      ∀ i, b.IsOf about record i → v i = some (!found.isEmpty)) :
    Judges about record bad lo hi (extendEach step) v := by
  refine ⟨hle, fun {bs e} hbs hf => ?_, fun {bs found} hbs hf b' hb' => ?_,
    fun {bs found} hbs hf b hb i hi => ?_⟩
  · obtain ⟨b, hb, he⟩ := extendEach_error hf
    obtain ⟨hbad, i, hi⟩ := hfails (hbs b hb) he
    exact ⟨hbad, b, hb, i, hi⟩
  · obtain ⟨b, hb, here, hhere, hmem⟩ := ((extendEach_ok hf).2 b').1 hb'
    obtain ⟨hfree, hsame⟩ := hkeeps (hbs b hb) hhere b' hmem
    exact ⟨hfree, b, hb, hsame⟩
  · obtain ⟨here, hhere⟩ := (extendEach_ok hf).1 b hb
    have hv := hselects (hbs b hb) hhere i hi
    refine ⟨!here.isEmpty, hv, fun ht => ?_, fun ⟨b', hb', hsame⟩ => ?_⟩
    · obtain ⟨b', hb'⟩ := List.exists_mem_of_ne_nil here (by simpa using ht)
      exact ⟨b', ((extendEach_ok hf).2 b').2 ⟨b, hb, here, hhere, hb'⟩,
        (hkeeps (hbs b hb) hhere b' hb').2⟩
    · -- `b'` may come from another binding, but that one has the same record.
      obtain ⟨b₀, hb₀, here₀, hhere₀, hmem⟩ := ((extendEach_ok hf).2 b').1 hb'
      have hsame₀ := (hkeeps (hbs b₀ hb₀) hhere₀ b' hmem).2
      have hv₀ := hselects (hbs b₀ hb₀) hhere₀ i (hi.congr (hsame₀.symm.trans hsame))
      rw [hv, Option.some.injEq] at hv₀
      rw [hv₀, Bool.not_eq_true', List.isEmpty_eq_false_iff_exists_mem]
      exact ⟨b', hmem⟩

/-- A judgement of each binding by a test that it passes or not. -/
theorem of_test {test : Binding → Except StoreError Bool} (hle : lo ≤ hi)
    (hfails : ∀ {b e}, b.Ready about record lo → test b = .error e →
      bad e ∧ ∃ i, b.IsOf about record i ∧ v i = none)
    (hpasses : ∀ {b t}, b.Ready about record lo → test b = .ok t →
      ∀ i, b.IsOf about record i → v i = some t) :
    Judges about record bad lo hi (keepEach test) v := by
  refine ⟨hle, fun hbs hf => ?_, fun hbs hf b hb => ?_, fun hbs hf b hb i hi => ?_⟩
  · obtain ⟨b, hb, he⟩ := keepEach_error hf
    obtain ⟨hbad, i, hi⟩ := hfails (hbs b hb) he
    exact ⟨hbad, b, hb, i, hi⟩
  · have hmem := (((keepEach_ok hf).2 b).1 hb).1
    exact ⟨(hbs b hmem).free.mono hle, b, hmem, rfl⟩
  · obtain ⟨t, ht⟩ := (keepEach_ok hf).1 b hb
    have hv := hpasses (hbs b hb) ht i hi
    refine ⟨t, hv, fun htrue => ?_, fun ⟨b', hb', hsame⟩ => ?_⟩
    · subst htrue
      exact ⟨b, ((keepEach_ok hf).2 b).2 ⟨hb, ht⟩, rfl⟩
    · obtain ⟨hmem, htrue⟩ := ((keepEach_ok hf).2 b').1 hb'
      have hv' := hpasses (hbs b' hmem) htrue i (hi.congr hsame)
      rw [hv, Option.some.injEq] at hv'
      exact hv'

/-! ## Clauses in a row -/

section

variable {src : Source} {limit : Option Nat} {c : Clause} {cs : List Clause}

theorem evalAll_nil (n : Nat) :
    Judges about record bad n n (Clause.evalAll src limit []) fun _ => some true := by
  refine ⟨Nat.le_refl n, fun hbs hf => ?_, fun hbs hf b' hb' => ?_, fun hbs hf b hb i hi => ?_⟩
  · rw [Clause.evalAll_nil] at hf
    cases hf
  · rw [Clause.evalAll_nil, Except.ok.injEq] at hf
    subst hf
    exact ⟨(hbs b' hb').free, b', hb', rfl⟩
  · rw [Clause.evalAll_nil, Except.ok.injEq] at hf
    subst hf
    exact ⟨true, rfl, by simpa using ⟨b, hb, rfl⟩⟩

/-- A clause in front of others drops some records and leaves the judgement of the rest to them. -/
theorem evalAll_cons (hc : Judges about record bad lo mid (Clause.eval src limit c) v)
    (hcs : Judges about record bad mid hi (Clause.evalAll src limit cs) w) :
    Judges about record bad lo hi (Clause.evalAll src limit (c :: cs))
      fun i => (v i).and (w i) := by
  refine ⟨hc.le.trans hcs.le, fun {bs e} hbs hf => ?_, fun {bs found} hbs hf => ?_,
    fun {bs found} hbs hf b hb i hi => ?_⟩
  · by_cases hempty : bs = []
    · subst hempty
      rw [Clause.evalAll_no_bindings] at hf
      cases hf
    · rw [Clause.evalAll_cons _ _ hempty, bind_eq_error] at hf
      rcases hf with hf | ⟨here, hhere, hf⟩
      · obtain ⟨hbad, b, hb, i, hi, hv⟩ := hc.fails hbs hf
        exact ⟨hbad, b, hb, i, hi, by rw [hv]; rfl⟩
      · obtain ⟨hbad, b', hb', i, hi, hw⟩ := hcs.fails (hc.ready hbs hhere) hf
        obtain ⟨-, b, hb, hsame⟩ := hc.keeps hbs hhere b' hb'
        -- What the rest fails on has passed the first clause.
        have hi := hi.congr hsame.symm
        obtain ⟨t, hv, ht⟩ := hc.selects hbs hhere b hb i hi
        refine ⟨hbad, b, hb, i, hi, ?_⟩
        rw [hv, ht.2 ⟨b', hb', hsame⟩]
        exact hw
  · by_cases hempty : bs = []
    · subst hempty
      rw [Clause.evalAll_no_bindings, Except.ok.injEq] at hf
      simp [← hf]
    · simp only [Clause.evalAll_cons _ _ hempty, bind_eq_ok] at hf
      obtain ⟨here, hhere, hf⟩ := hf
      intro b' hb'
      obtain ⟨hfree, b₁, hb₁, hsame₁⟩ := hcs.keeps (hc.ready hbs hhere) hf b' hb'
      obtain ⟨-, b, hb, hsame⟩ := hc.keeps hbs hhere b₁ hb₁
      exact ⟨hfree, b, hb, hsame₁.trans hsame⟩
  · simp only [Clause.evalAll_cons _ _ (List.ne_nil_of_mem hb), bind_eq_ok] at hf
    obtain ⟨here, hhere, hf⟩ := hf
    obtain ⟨t, hv, ht⟩ := hc.selects hbs hhere b hb i hi
    rw [hv]
    cases t with
    | false =>
      -- Whatever is found in the end was there after the first clause.
      refine ⟨false, rfl, iff_of_false Bool.false_ne_true fun ⟨b', hb', hsame⟩ => ?_⟩
      obtain ⟨-, b₁, hb₁, hsame₁⟩ := hcs.keeps (hc.ready hbs hhere) hf b' hb'
      exact Bool.false_ne_true (ht.2 ⟨b₁, hb₁, hsame₁.symm.trans hsame⟩)
    | true =>
      obtain ⟨b₁, hb₁, hsame₁⟩ := ht.1 rfl
      obtain ⟨u, hw, hu⟩ := hcs.selects (hc.ready hbs hhere) hf b₁ hb₁ i (hi.congr hsame₁)
      rw [hsame₁] at hu
      exact ⟨u, hw, hu⟩

theorem evalAll_singleton (hc : Judges about record bad lo hi (Clause.eval src limit c) v) :
    Judges about record bad lo hi (Clause.evalAll src limit [c]) v := by
  have heq : v = fun i => (v i).and (some true) := funext fun i => (Verdict.and_some_true _).symm
  rw [heq]
  exact hc.evalAll_cons (evalAll_nil hi)

/-! ## Clauses side by side -/

theorem evalAny_nil (hle : lo ≤ hi) :
    Judges about record bad lo hi (Clause.evalAny src limit []) fun _ => some false := by
  refine ⟨hle, fun hbs hf => ?_, fun hbs hf => ?_, fun hbs hf b hb i hi => ?_⟩
  · rw [Clause.evalAny_nil] at hf
    cases hf
  · rw [Clause.evalAny_nil, Except.ok.injEq] at hf
    simp [← hf]
  · rw [Clause.evalAny_nil, Except.ok.injEq] at hf
    exact ⟨false, rfl, by simp [← hf]⟩

theorem evalAny_cons (hc : Judges about record bad lo hi (Clause.eval src limit c) v)
    (hcs : Judges about record bad lo hi (Clause.evalAny src limit cs) w) :
    Judges about record bad lo hi (Clause.evalAny src limit (c :: cs)) fun i => (v i).or (w i) := by
  refine ⟨hc.le, fun hbs hf => ?_, fun hbs hf b' hb' => ?_, fun hbs hf b hb i hi => ?_⟩
  · simp only [Clause.evalAny_cons, bind_eq_error] at hf
    rcases hf with hf | ⟨here, hhere, hf | ⟨there, -, hf⟩⟩
    · obtain ⟨hbad, b, hb, i, hi, hv⟩ := hc.fails hbs hf
      exact ⟨hbad, b, hb, i, hi, by rw [hv]; rfl⟩
    · obtain ⟨hbad, b, hb, i, hi, hw⟩ := hcs.fails hbs hf
      obtain ⟨t, hv, -⟩ := hc.selects hbs hhere b hb i hi
      exact ⟨hbad, b, hb, i, hi, by rw [hv, hw]; rfl⟩
    · cases hf
  · simp only [Clause.evalAny_cons, bind_eq_ok, Except.ok.injEq] at hf
    obtain ⟨here, hhere, there, hthere, rfl⟩ := hf
    rcases List.mem_append.1 hb' with hb' | hb'
    · exact hc.keeps hbs hhere b' hb'
    · exact hcs.keeps hbs hthere b' hb'
  · -- A record is found where one of the two finds it.
    simp only [Clause.evalAny_cons, bind_eq_ok, Except.ok.injEq] at hf
    obtain ⟨here, hhere, there, hthere, rfl⟩ := hf
    obtain ⟨t, hv, ht⟩ := hc.selects hbs hhere b hb i hi
    obtain ⟨u, hw, hu⟩ := hcs.selects hbs hthere b hb i hi
    refine ⟨t || u, by rw [hv, hw]; rfl, ?_⟩
    simp only [Bool.or_eq_true, ht, hu, List.mem_append, or_and_right, exists_or]

/-- Clauses of which each judges alike, such as one for every attribute of a property. -/
theorem evalAny_map {α : Type} {g : α → Clause} {v : α → ι → Verdict} (hle : lo ≤ hi)
    (h : ∀ a, Judges about record bad lo hi (Clause.eval src limit (g a)) (v a)) (as : List α) :
    Judges about record bad lo hi (Clause.evalAny src limit (as.map g))
      fun i => Verdict.any (as.map fun a => v a i) := by
  induction as with
  | nil => exact evalAny_nil hle
  | cons a as ih => exact (h a).evalAny_cons ih

theorem evalAll_map {α : Type} {g : α → Clause} {v : α → ι → Verdict}
    (h : ∀ a, Judges about record bad n n (Clause.eval src limit (g a)) (v a)) (as : List α) :
    Judges about record bad n n (Clause.evalAll src limit (as.map g))
      fun i => Verdict.all (as.map fun a => v a i) := by
  induction as with
  | nil => exact evalAll_nil n
  | cons a as ih => exact (h a).evalAll_cons ih

/-! ## Whole clauses -/

variable (hl : limit ≠ some 0)

include hl

theorem and (h : Judges about record bad lo hi (Clause.evalAll src limit cs) v) :
    Judges about record bad lo hi (Clause.eval src limit (.and cs)) v := by
  have heq : Clause.eval src limit (.and cs) = Clause.evalAll src limit cs :=
    funext fun _ => Clause.eval_and hl cs
  rwa [heq]

theorem or (h : Judges about record bad lo hi (Clause.evalAny src limit cs) v) :
    Judges about record bad lo hi (Clause.eval src limit (.or cs)) v := by
  have heq : Clause.eval src limit (.or cs) = Clause.evalAny src limit cs :=
    funext fun _ => Clause.eval_or hl cs
  rwa [heq]

/-- The clauses of a negation look at one binding at a time. -/
theorem not (h : Judges about record bad lo hi (Clause.evalAll src limit cs) v) :
    Judges about record bad lo hi (Clause.eval src limit (.not cs)) fun i => (v i).not := by
  have heq : Clause.eval src limit (.not cs) = keepEach fun b => do
      return (← Clause.evalAll src limit cs [b]).isEmpty :=
    funext fun _ => Clause.eval_not hl cs
  rw [heq]
  have hone {b : Binding} (hb : b.Ready about record lo) :
      ∀ b' ∈ [b], b'.Ready about record lo := by simpa using hb
  refine of_test h.le (fun hb hf => ?_) (fun hb ht i hi => ?_)
  · rw [bind_eq_error] at hf
    rcases hf with hf | ⟨rest, -, hf⟩
    · obtain ⟨hbad, b', hb', i, hi, hv⟩ := h.fails (hone hb) hf
      rw [List.mem_singleton] at hb'
      subst hb'
      exact ⟨hbad, i, hi, by rw [hv]; rfl⟩
    · cases hf
  · rw [bind_eq_ok] at ht
    obtain ⟨rest, hrest, ht⟩ := ht
    obtain ⟨u, hv, hu⟩ := h.selects (hone hb) hrest _ List.mem_cons_self i hi
    rw [pure_eq_ok] at ht
    subst ht
    rw [hv]
    -- All that is left of one binding has its record.
    have hiff : u = true ↔ rest ≠ [] := by
      rw [hu]
      refine ⟨fun ⟨b', hb', _⟩ => List.ne_nil_of_mem hb', fun hne => ?_⟩
      obtain ⟨b', hb'⟩ := List.exists_mem_of_ne_nil rest hne
      obtain ⟨-, b₁, hb₁, hsame⟩ := h.keeps (hone hb) hrest b' hb'
      rw [List.mem_singleton] at hb₁
      exact ⟨b', hb', hb₁ ▸ hsame⟩
    show some (!u) = some rest.isEmpty
    rw [Option.some.injEq, Bool.eq_iff_iff, Bool.not_eq_true', List.isEmpty_iff,
      Bool.eq_false_iff, ne_eq, hiff, ne_eq, Decidable.not_not]

/-- A single clause that stands for several side by side. -/
theorem disjunction (h : Judges about record bad lo hi (Clause.evalAny src limit cs) v) :
    Judges about record bad lo hi (Clause.eval src limit (Clause.disjunction cs)) v := by
  match cs with
  | [] => exact h.or hl
  | [c] =>
    have heq : Clause.evalAny src limit [c] = Clause.eval src limit c := by
      funext bs
      rw [Clause.evalAny_cons, Clause.evalAny_nil]
      cases Clause.eval src limit c bs <;> simp [bind, Except.bind]
    rwa [heq] at h
  | _ :: _ :: _ => exact h.or hl

/-- A single clause that stands for several in a row. -/
theorem conjunction (h : Judges about record bad lo hi (Clause.evalAll src limit cs) v) :
    Judges about record bad lo hi (Clause.eval src limit (Clause.conjunction cs)) v := by
  match cs with
  | [] => exact h.and hl
  | [c] => rwa [Clause.evalAll_singleton hl] at h
  | _ :: _ :: _ => exact h.and hl

/-- Clauses of which each judges, together or alone. -/
theorem conjunction_map {α : Type} {g : α → Clause} {v : α → ι → Verdict}
    (h : ∀ a, Judges about record bad n n (Clause.eval src limit (g a)) (v a)) (as : List α) :
    Judges about record bad n n (Clause.eval src limit (Clause.conjunction (as.map g)))
      fun i => Verdict.all (as.map fun a => v a i) :=
  (evalAll_map h as).conjunction hl

end

end Judges

/-! ## Chains -/

/-- Clauses that judge, one after the other, the variables of each above those of the last. -/
inductive Chain (about : DocId → ι → Prop) (record : Var) (bad : StoreError → Prop) (src : Source)
    (limit : Option Nat) : Nat → Nat → List Clause → List (ι → Verdict) → Prop
  | nil (n : Nat) : Chain about record bad src limit n n [] []
  | cons {lo mid hi : Nat} {c : Clause} {cs : List Clause} {v : ι → Verdict}
      {vs : List (ι → Verdict)} (head : Judges about record bad lo mid (Clause.eval src limit c) v)
      (tail : Chain about record bad src limit mid hi cs vs) :
      Chain about record bad src limit lo hi (c :: cs) (v :: vs)

namespace Chain

variable {src : Source} {limit : Option Nat} {cs cs' : List Clause} {vs vs' : List (ι → Verdict)}

theorem single {c : Clause} (h : Judges about record bad lo hi (Clause.eval src limit c) v) :
    Chain about record bad src limit lo hi [c] [v] := .cons h (.nil hi)

theorem append (h : Chain about record bad src limit lo mid cs vs)
    (h' : Chain about record bad src limit mid hi cs' vs') :
    Chain about record bad src limit lo hi (cs ++ cs') (vs ++ vs') := by
  induction h with
  | nil n => exact h'
  | cons head _ ih => exact .cons head (ih h')

theorem le (h : Chain about record bad src limit lo hi cs vs) : lo ≤ hi := by
  induction h with
  | nil n => exact Nat.le_refl n
  | cons head _ ih => exact head.le.trans ih

theorem isEmpty_eq (h : Chain about record bad src limit lo hi cs vs) :
    cs.isEmpty = vs.isEmpty := by
  cases h <;> rfl

theorem evalAll (h : Chain about record bad src limit lo hi cs vs) :
    Judges about record bad lo hi (Clause.evalAll src limit cs)
      fun i => Verdict.all (vs.map fun v => v i) := by
  induction h with
  | nil n => exact Judges.evalAll_nil n
  | cons head _ ih => exact head.evalAll_cons ih

theorem evalAny (h : Chain about record bad src limit lo hi cs vs) :
    Judges about record bad lo hi (Clause.evalAny src limit cs)
      fun i => Verdict.any (vs.map fun v => v i) := by
  induction h with
  | nil n => exact Judges.evalAny_nil (Nat.le_refl n)
  | cons head tail ih =>
    exact (head.weaken (Nat.le_refl _) tail.le).evalAny_cons (ih.weaken head.le (Nat.le_refl _))

end Chain

end

end MetadataArchive
