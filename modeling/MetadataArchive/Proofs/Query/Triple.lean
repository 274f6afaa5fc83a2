import Mathlib.Logic.Function.Basic
import MetadataArchive.Proofs.Fact.Order
import MetadataArchive.Proofs.Query.Binding
import MetadataArchive.Proofs.Store.Staging

/-!
# Patterns as sentences

A pattern is a sentence about a document (`Triple`), true or false once its variables stand for
values (`Triple.Holds`). The evaluator goes through the patterns of a conjunction in a row, and what
it finds can be told from the sentences alone: a pattern demands of an assignment that it is true,
and that a variable which it is the first to mention, as a value, stands for one of the elements
that are found there (`Triple.Met`). One pattern asks for less. Where a variable is first mentioned
as the document and as the value at once, any element will do.

What one pattern finds is `Triple.matchPattern_iff`, what they find together
`mem_evalAll_iff_readOff`.
-/

set_option autoImplicit false

namespace MetadataArchive

/-- Some element of an attribute of a document is a value. -/
structure Triple where
  entity : Term
  attr : String
  value : Term

def Triple.clause (t : Triple) : Clause := .pattern t.entity t.attr t.value

/-- What each variable stands for. -/
abbrev Assignment := Var → Value

/-- What a place of a pattern stands for. -/
def Term.under (σ : Assignment) : Term → Value
  | .var x => σ x
  | .const v => v

/-- The elements that a pattern about a document is matched against; none where the value refers to
no document that is visible. -/
def Source.elements (src : Source) (entity : Value) (attr : String) : List Value :=
  match entity with
  | .ref id => ((src.document? id).map fun d => d.elements attr).getD []
  | _ => []

variable {src : Source} {σ σ' : Assignment} {b b' : Binding} {bs : List Binding}
variable {xs ys : List Var} {x y : Var} {t t' : Triple} {ts before after : List Triple}
variable {e v : Value} {id : DocId} {term : Term} {attr : String}

namespace Triple

def vars (t : Triple) : List Var := t.entity.vars ++ t.value.vars

def varsAll (ts : List Triple) : List Var := ts.flatMap vars

theorem varsAll_cons (t : Triple) (ts : List Triple) : varsAll (t :: ts) = t.vars ++ varsAll ts :=
  rfl

theorem mem_varsAll (ht : t ∈ ts) (hx : x ∈ t.vars) : x ∈ varsAll ts :=
  List.mem_flatMap.2 ⟨t, ht, hx⟩

/-- What the pattern is matched against. -/
def found (src : Source) (σ : Assignment) (t : Triple) : List Value :=
  src.elements (t.entity.under σ) t.attr

/-- The pattern is true: its document is visible and has the value under the attribute, or a list
with that element. -/
def Holds (src : Source) (σ : Assignment) (t : Triple) : Prop :=
  ∃ e ∈ t.found src σ, e.same (t.value.under σ) = true

/-- A variable is first mentioned here, in both places. -/
def SelfFirst (xs : List Var) (t : Triple) : Prop :=
  ∃ x, x ∉ xs ∧ t.entity = .var x ∧ t.value = .var x

/-- A variable is first mentioned here, as the value and not as the document. -/
def ValueFirst (xs : List Var) (t : Triple) (x : Var) : Prop :=
  x ∉ xs ∧ t.value = .var x ∧ t.entity ≠ .var x

/-- What a pattern asks of an assignment, behind patterns that mention some variables. -/
structure Met (src : Source) (σ : Assignment) (xs : List Var) (t : Triple) : Prop where
  ne_nil : t.SelfFirst xs → t.found src σ ≠ []
  holds : ¬t.SelfFirst xs → t.Holds src σ
  mem : ∀ x, t.ValueFirst xs x → σ x ∈ t.found src σ

end Triple

open Triple

/-- What patterns ask of an assignment, one behind the other. -/
def ReadOff (src : Source) (σ : Assignment) : List Var → List Triple → Prop
  | _, [] => True
  | xs, t :: ts => t.Met src σ xs ∧ ReadOff src σ (xs ++ t.vars) ts

/-- A binding has just some variables bound, to what they stand for. -/
def Binding.Reads (b : Binding) (xs : List Var) (σ : Assignment) : Prop :=
  ∀ x, b.get? x = if x ∈ xs then some (σ x) else none

/-! ## Bindings and assignments -/

namespace Binding.Reads

theorem empty (σ : Assignment) : Binding.Reads ∅ [] σ := fun _ => rfl

theorem congr (h : b.Reads xs σ) (hσ : ∀ x ∈ xs, σ x = σ' x) : b.Reads xs σ' := by
  intro x
  rw [h x]
  split
  next hx => rw [hσ x hx]
  · rfl

theorem agree (h : b.Reads xs σ) (h' : b.Reads xs σ') (hx : x ∈ xs) : σ x = σ' x := by
  have heq := (h x).symm.trans (h' x)
  rwa [if_pos hx, if_pos hx, Option.some.injEq] at heq

theorem ext (h : b.Reads xs σ) (h' : b'.Reads xs σ) : b = b' :=
  NameMap.ext_get? fun x => (h x).trans (h' x).symm

theorem get?_of_mem (h : b.Reads xs σ) (hx : x ∈ xs) : b.get? x = some (σ x) := by
  rw [h x, if_pos hx]

theorem get?_of_not_mem (h : b.Reads xs σ) (hx : x ∉ xs) : b.get? x = none := by
  rw [h x, if_neg hx]

theorem insert (h : b.Reads xs σ) (x : Var) :
    Binding.Reads (b.insert x (σ x)) (xs ++ [x]) σ := by
  intro y
  rw [NameMap.get?_insert, h y]
  by_cases hyx : y = x
  · simp [hyx]
  · simp [hyx]

/-- A variable that is free may stand for anything. -/
theorem update (h : b.Reads xs σ) (hx : x ∉ xs) (v : Value) :
    b.Reads xs (Function.update σ x v) :=
  h.congr fun _ hy => (Function.update_of_ne (ne_of_mem_of_not_mem hy hx) _ _).symm

theorem of_mem_iff (h : b.Reads xs σ) (hys : ∀ y, y ∈ xs ↔ y ∈ ys) : b.Reads ys σ :=
  fun y => (h y).trans (if_congr (hys y) rfl rfl)

theorem append_of_subset (h : b.Reads xs σ) (hys : ∀ y ∈ ys, y ∈ xs) : b.Reads (xs ++ ys) σ :=
  h.of_mem_iff fun y => by
    rw [List.mem_append, or_iff_left_of_imp (hys y)]

theorem exists_append (h : b.Reads xs σ) (term : Term) :
    ∃ b' : Binding, b'.Reads (xs ++ term.vars) σ := by
  cases term with
  | const c => exact ⟨b, by simpa [Term.vars] using h⟩
  | var x => exact ⟨b.insert x (σ x), h.insert x⟩

end Binding.Reads

theorem Binding.exists_reads (xs : List Var) (σ : Assignment) : ∃ b : Binding, b.Reads xs σ := by
  induction xs using List.reverseRecOn with
  | nil => exact ⟨∅, .empty σ⟩
  | append_singleton xs x ih =>
    obtain ⟨b, hb⟩ := ih
    exact ⟨b.insert x (σ x), hb.insert x⟩

/-- What a place of a pattern makes of a value: a variable that is first mentioned here takes it,
anything else has to be the same. -/
theorem Term.unify_iff (h : b.Reads xs σ) :
    term.unify b v = some b' ↔ ∃ σ', b.Reads xs σ' ∧ v.same (term.under σ') = true ∧
      (∀ x, term = .var x → x ∉ xs → σ' x = v) ∧ b'.Reads (xs ++ term.vars) σ' := by
  cases term with
  | const c =>
    simp only [unify, under, vars, List.append_nil]
    constructor
    · intro hb
      split at hb <;> cases hb
      next hsame => exact ⟨σ, h, hsame, by rintro _ ⟨⟩, h⟩
    · rintro ⟨σ', hσ', hsame, -, hb'⟩
      rw [if_pos hsame, hσ'.ext hb']
  | var x =>
    simp only [unify, under, vars]
    by_cases hx : x ∈ xs
    · rw [h.get?_of_mem hx]
      constructor
      · intro hb
        dsimp only at hb
        split at hb <;> cases hb
        next hsame =>
          refine ⟨σ, h, hsame, fun y hy hfree => ?_, h.append_of_subset (by simpa using hx)⟩
          cases hy
          exact absurd hx hfree
      · rintro ⟨σ', hσ', hsame, -, hb'⟩
        dsimp only
        rw [h.agree hσ' hx, if_pos hsame,
          (hσ'.append_of_subset (by simpa using hx)).ext hb']
    · rw [h.get?_of_not_mem hx]
      constructor
      · intro hb
        cases hb
        have hx' : Function.update σ x v x = v := Function.update_self _ _ _
        refine ⟨Function.update σ x v, h.update hx v, ?_, fun y hy _ => ?_, ?_⟩
        · rw [hx', Value.same_self]
        · cases hy
          exact hx'
        · have hins := (h.update hx v).insert x
          rwa [hx'] at hins
      · rintro ⟨σ', hσ', -, htakes, hb'⟩
        rw [← htakes x rfl hx, (hσ'.insert x).ext hb']

/-! ## One pattern -/

/-- A pattern is about the document that its first place refers to, where that is no free
variable. -/
theorem mem_matchPattern_of_known (h : b.Reads xs σ) {entity value : Term}
    (hknown : ∀ x, entity = .var x → x ∈ xs) :
    b' ∈ matchPattern src entity attr value b ↔
      ∃ e ∈ src.elements (entity.under σ) attr, value.unify b e = some b' := by
  have hcandidates : entity.candidates src b =
      (none, match entity.under σ with
        | .ref id => (src.document? id).toList
        | _ => []) := by
    cases entity with
    | const c => cases c <;> rfl
    | var x =>
      rw [Term.candidates, h.get?_of_mem (hknown x rfl), Term.under]
      cases σ x <;> rfl
  rw [mem_matchPattern, hcandidates]
  cases entity.under σ with
  | ref id =>
    cases hd : src.document? id with
    | none => simp [Source.elements, hd]
    | some d => simp [Source.elements, hd, bindEntity]
  | _ => simp [Source.elements]

/-- With a free variable in its first place, a pattern is about all documents. -/
theorem mem_matchPattern_of_free (hsrc : src.Coherent) (hx : b.get? x = none) {value : Term} :
    b' ∈ matchPattern src (.var x) attr value b ↔
      ∃ id, ∃ e ∈ src.elements (.ref id) attr, ∃ b₁, value.unify b e = some b₁ ∧
        b₁.insert x (.ref id) = b' := by
  have hcandidates : (Term.var x).candidates src b = (some x, src.documents) := by
    rw [Term.candidates, hx]
  rw [mem_matchPattern, hcandidates]
  constructor
  · rintro ⟨d, hd, e, he, b₁, hunify, rfl⟩
    refine ⟨d.id, e, ?_, b₁, hunify, rfl⟩
    simpa [Source.elements, (hsrc.listed d).1 hd] using he
  · rintro ⟨id, e, he, b₁, hunify, rfl⟩
    cases hd : src.document? id with
    | none => simp [Source.elements, hd] at he
    | some d =>
      obtain rfl := hsrc.keyed id d hd
      refine ⟨d, (hsrc.listed d).2 hd, e, ?_, b₁, hunify, rfl⟩
      simpa [Source.elements, hd] using he

theorem Source.ref_of_mem_elements (h : e ∈ src.elements v attr) : ∃ id, v = .ref id := by
  cases v with
  | ref id => exact ⟨id, rfl⟩
  | _ => cases h

theorem Term.mem_vars : x ∈ term.vars ↔ term = .var x := by
  cases term <;> simp [vars, eq_comm]

namespace Triple

/-- Where no variable is first mentioned in both places, there is one element that the pattern is
true of and that a new variable stands for. -/
theorem met_iff (hnone : ¬t.SelfFirst xs) :
    t.Met src σ xs ↔ ∃ e ∈ t.found src σ, e.same (t.value.under σ) = true ∧
      ∀ x, t.value = .var x → x ∉ xs → σ x = e := by
  have hfirst {x : Var} (hvalue : t.value = .var x) (hx : x ∉ xs) : t.ValueFirst xs x :=
    ⟨hx, hvalue, fun hentity => hnone ⟨x, hx, hentity, hvalue⟩⟩
  constructor
  · intro hmet
    by_cases hnew : ∃ x, t.value = .var x ∧ x ∉ xs
    · obtain ⟨x, hvalue, hx⟩ := hnew
      refine ⟨σ x, hmet.mem x (hfirst hvalue hx), ?_, fun y hy _ => ?_⟩
      · rw [hvalue]
        exact Value.same_self _
      · rw [hvalue] at hy
        cases hy
        rfl
    · obtain ⟨e, he, hsame⟩ := hmet.holds hnone
      exact ⟨e, he, hsame, fun x hvalue hx => absurd ⟨x, hvalue, hx⟩ hnew⟩
  · rintro ⟨e, he, hsame, htakes⟩
    refine ⟨fun hself => absurd hself hnone, fun _ => ⟨e, he, hsame⟩, ?_⟩
    rintro x ⟨hx, hvalue, -⟩
    rwa [htakes x hvalue hx]

/-- **What one pattern finds** whose document is known. -/
theorem matchPattern_iff_of_known (h : b.Reads xs σ) (hknown : ∀ x, t.entity = .var x → x ∈ xs) :
    b' ∈ matchPattern src t.entity t.attr t.value b ↔
      ∃ σ', b.Reads xs σ' ∧ t.Met src σ' xs ∧ b'.Reads (xs ++ t.vars) σ' := by
  have hnone : ¬t.SelfFirst xs := fun ⟨x, hx, hentity, _⟩ => hx (hknown x hentity)
  have hunder {σ' : Assignment} (h' : b.Reads xs σ') : t.entity.under σ = t.entity.under σ' := by
    cases he : t.entity with
    | const c => rfl
    | var x => exact h.agree h' (hknown x he)
  have hmem (y : Var) : y ∈ xs ++ t.value.vars ↔ y ∈ xs ++ t.vars := by
    have hentity : y ∈ t.entity.vars → y ∈ xs := fun hy => hknown y (Term.mem_vars.1 hy)
    simp only [vars, List.mem_append]
    tauto
  rw [mem_matchPattern_of_known h hknown]
  constructor
  · rintro ⟨e, he, hunify⟩
    obtain ⟨σ', hσ', hsame, htakes, hb'⟩ := (Term.unify_iff h).1 hunify
    rw [hunder hσ'] at he
    exact ⟨σ', hσ', (met_iff hnone).2 ⟨e, he, hsame, htakes⟩, hb'.of_mem_iff hmem⟩
  · rintro ⟨σ', hσ', hmet, hb'⟩
    obtain ⟨e, he, hsame, htakes⟩ := (met_iff hnone).1 hmet
    rw [hunder hσ']
    exact ⟨e, he, (Term.unify_iff h).2
      ⟨σ', hσ', hsame, htakes, hb'.of_mem_iff fun y => (hmem y).symm⟩⟩

/-- **What one pattern finds** that has a free variable in both places: every document that has any
element there. -/
theorem matchPattern_iff_of_selfFirst (hsrc : src.Coherent) (h : b.Reads xs σ) (hself : t.SelfFirst xs) :
    b' ∈ matchPattern src t.entity t.attr t.value b ↔
      ∃ σ', b.Reads xs σ' ∧ t.Met src σ' xs ∧ b'.Reads (xs ++ t.vars) σ' := by
  obtain ⟨x, hx, hentity, hvalue⟩ := hself
  have hself : t.SelfFirst xs := ⟨x, hx, hentity, hvalue⟩
  have hmem : ∀ y, y ∈ xs ++ [x] ↔ y ∈ xs ++ t.vars := by
    simp [vars, hentity, hvalue, Term.vars]
  have hfree : b.get? x = none := h.get?_of_not_mem hx
  rw [hentity, hvalue, mem_matchPattern_of_free hsrc hfree]
  constructor
  · rintro ⟨id, e, he, b₁, hunify, rfl⟩
    have hb₁ : b₁ = b.insert x e := by
      rw [Term.unify, hfree] at hunify
      exact (Option.some.inj hunify).symm
    have hx' : Function.update σ x (.ref id) x = .ref id := Function.update_self _ _ _
    have hupdate := h.update hx (.ref id)
    refine ⟨Function.update σ x (.ref id), hupdate, ⟨fun _ => ?_, fun hn => absurd hself hn, ?_⟩, ?_⟩
    · rw [found, hentity, Term.under, hx']
      exact List.ne_nil_of_mem he
    · rintro y ⟨-, hy, hne⟩
      rw [hvalue] at hy
      cases hy
      exact absurd hentity hne
    · have hins := (hupdate.insert x).of_mem_iff hmem
      rwa [hx', ← insert_insert b x e, ← hb₁] at hins
  · rintro ⟨σ', hσ', hmet, hb'⟩
    obtain ⟨e, he⟩ := List.exists_mem_of_ne_nil _ (hmet.ne_nil hself)
    rw [found, hentity, Term.under] at he
    obtain ⟨id, hid⟩ := Source.ref_of_mem_elements he
    refine ⟨id, e, hid ▸ he, b.insert x e, by rw [Term.unify, hfree], ?_⟩
    rw [insert_insert, ← hid]
    exact ((hσ'.insert x).of_mem_iff hmem).ext hb'

/-- **What one pattern finds** that has a free variable as its document, and something else as the
value. -/
theorem matchPattern_iff_of_free (hsrc : src.Coherent) (h : b.Reads xs σ) (hentity : t.entity = .var x)
    (hx : x ∉ xs) (hvalue : t.value ≠ .var x) :
    b' ∈ matchPattern src t.entity t.attr t.value b ↔
      ∃ σ', b.Reads xs σ' ∧ t.Met src σ' xs ∧ b'.Reads (xs ++ t.vars) σ' := by
  have hnone : ¬t.SelfFirst xs := by
    rintro ⟨y, -, hy, hy'⟩
    rw [hentity] at hy
    cases hy
    exact hvalue hy'
  have hfree : x ∉ xs ++ t.value.vars := by
    rw [List.mem_append, Term.mem_vars]
    tauto
  have hmem (y : Var) : y ∈ xs ++ t.value.vars ++ [x] ↔ y ∈ xs ++ t.vars := by
    simp only [vars, hentity, Term.vars, List.mem_append]
    tauto
  rw [hentity, mem_matchPattern_of_free hsrc (h.get?_of_not_mem hx)]
  constructor
  · rintro ⟨id, e, he, b₁, hunify, rfl⟩
    obtain ⟨σ₁, hσ₁, hsame, htakes, hb₁⟩ := (Term.unify_iff h).1 hunify
    have hx' : Function.update σ₁ x (.ref id) x = .ref id := Function.update_self _ _ _
    have hother {y : Var} (hy : t.value = .var y) : Function.update σ₁ x (.ref id) y = σ₁ y :=
      Function.update_of_ne (by rintro rfl; exact hvalue hy) _ _
    have hunder : t.value.under (Function.update σ₁ x (.ref id)) = t.value.under σ₁ := by
      cases hv : t.value with
      | const c => rfl
      | var y => exact hother hv
    refine ⟨Function.update σ₁ x (.ref id), hσ₁.update hx _,
      (met_iff hnone).2 ⟨e, ?_, by rwa [hunder], fun y hy hfree => ?_⟩, ?_⟩
    · rwa [found, hentity, Term.under, hx']
    · rw [hother hy, htakes y hy hfree]
    · have hins := ((hb₁.update hfree (.ref id)).insert x).of_mem_iff hmem
      rwa [hx'] at hins
  · rintro ⟨σ', hσ', hmet, hb'⟩
    obtain ⟨e, he, hsame, htakes⟩ := (met_iff hnone).1 hmet
    rw [found, hentity, Term.under] at he
    obtain ⟨id, hid⟩ := Source.ref_of_mem_elements he
    obtain ⟨b₁, hb₁⟩ := hσ'.exists_append t.value
    refine ⟨id, e, hid ▸ he, b₁, (Term.unify_iff h).2 ⟨σ', hσ', hsame, htakes, hb₁⟩, ?_⟩
    rw [← hid]
    exact ((hb₁.insert x).of_mem_iff hmem).ext hb'

/-- **What one pattern finds.** -/
theorem matchPattern_iff (hsrc : src.Coherent) (h : b.Reads xs σ) :
    b' ∈ matchPattern src t.entity t.attr t.value b ↔
      ∃ σ', b.Reads xs σ' ∧ t.Met src σ' xs ∧ b'.Reads (xs ++ t.vars) σ' := by
  by_cases hself : t.SelfFirst xs
  · exact matchPattern_iff_of_selfFirst hsrc h hself
  · by_cases hknown : ∀ x, t.entity = .var x → x ∈ xs
    · exact matchPattern_iff_of_known h hknown
    · simp only [not_forall] at hknown
      obtain ⟨x, hentity, hx⟩ := hknown
      exact matchPattern_iff_of_free hsrc h hentity hx fun hvalue => hself ⟨x, hx, hentity, hvalue⟩

end Triple

/-! ## Patterns in a row -/

theorem Triple.Met.congr (h : t.Met src σ xs) (hσ : ∀ x ∈ t.vars, σ x = σ' x) :
    t.Met src σ' xs := by
  have hunder {term : Term} (hmem : ∀ x ∈ term.vars, x ∈ t.vars) :
      term.under σ = term.under σ' := by
    cases term with
    | const c => rfl
    | var x => exact hσ x (hmem x (by simp [Term.vars]))
  have hentity : t.entity.under σ = t.entity.under σ' :=
    hunder fun x hx => List.mem_append_left _ hx
  have hvalue : t.value.under σ = t.value.under σ' :=
    hunder fun x hx => List.mem_append_right _ hx
  have hfound : t.found src σ = t.found src σ' := by rw [found, hentity, found]
  refine ⟨fun hself => hfound ▸ h.ne_nil hself, fun hself => ?_, fun x hx => ?_⟩
  · rw [Holds, ← hfound, ← hvalue]
    exact h.holds hself
  · have hmem : x ∈ t.vars := List.mem_append_right _ (Term.mem_vars.2 hx.2.1)
    rw [← hfound, ← hσ x hmem]
    exact h.mem x hx

/-- **What patterns find, one behind the other**, where all bindings have the same variables
bound. -/
theorem mem_evalAll_iff_readOff (hsrc : src.Coherent) (hbs : ∀ b ∈ bs, ∃ σ, b.Reads xs σ) :
    ∃ found, Clause.evalAll src none (ts.map Triple.clause) bs = .ok found ∧
      ∀ b', b' ∈ found ↔ ∃ b ∈ bs, ∃ σ, b.Reads xs σ ∧ ReadOff src σ xs ts ∧
        b'.Reads (xs ++ varsAll ts) σ := by
  induction ts generalizing xs bs with
  | nil =>
    refine ⟨bs, rfl, fun b' => ⟨fun hb' => ?_, ?_⟩⟩
    · obtain ⟨σ, hσ⟩ := hbs b' hb'
      exact ⟨b', hb', σ, hσ, trivial, by simpa [varsAll] using hσ⟩
    · rintro ⟨b, hb, σ, hσ, -, hb'⟩
      rw [varsAll, List.flatMap_nil, List.append_nil] at hb'
      rwa [hb'.ext hσ]
  | cons t ts ih =>
    have hstep : ∀ b₁ ∈ bs.flatMap (matchPattern src t.entity t.attr t.value),
        ∃ σ, b₁.Reads (xs ++ t.vars) σ := by
      intro b₁ hb₁
      obtain ⟨b, hb, hb₁⟩ := List.mem_flatMap.1 hb₁
      obtain ⟨σ, hσ⟩ := hbs b hb
      obtain ⟨σ', -, -, h⟩ := (matchPattern_iff hsrc hσ).1 hb₁
      exact ⟨σ', h⟩
    obtain ⟨found, hfound, hmem⟩ := ih hstep
    refine ⟨found, ?_, fun b' => (hmem b').trans ?_⟩
    · rw [List.map_cons, Triple.clause, Clause.evalAll_pattern (by rintro ⟨⟩), hfound]
    · rw [varsAll_cons, ← List.append_assoc]
      constructor
      · rintro ⟨b₁, hb₁, σ, hσ, hread, hb'⟩
        obtain ⟨b, hb, hb₁⟩ := List.mem_flatMap.1 hb₁
        obtain ⟨σ₀, hσ₀⟩ := hbs b hb
        obtain ⟨σ₁, hσ₁, hmet, hreads⟩ := (matchPattern_iff hsrc hσ₀).1 hb₁
        -- What is found later stands for the same values.
        have hagree : ∀ x ∈ xs ++ t.vars, σ₁ x = σ x := fun x hx => hreads.agree hσ hx
        refine ⟨b, hb, σ, hσ₁.congr fun x hx => hagree x (List.mem_append_left _ hx),
          ⟨hmet.congr fun x hx => hagree x (List.mem_append_right _ hx), hread⟩, hb'⟩
      · rintro ⟨b, hb, σ, hσ, ⟨hmet, hread⟩, hb'⟩
        obtain ⟨_, hentity⟩ := hσ.exists_append t.entity
        obtain ⟨b₁, hb₁⟩ := hentity.exists_append t.value
        rw [List.append_assoc] at hb₁
        exact ⟨b₁, List.mem_flatMap.2 ⟨b, hb, (matchPattern_iff hsrc hσ).2 ⟨σ, hσ, hmet, hb₁⟩⟩, σ, hb₁, hread,
          hb'⟩

/-- What patterns ask in a row is what each of them asks in its place. -/
theorem readOff_iff :
    ReadOff src σ xs ts ↔
      ∀ before t after, ts = before ++ t :: after → t.Met src σ (xs ++ varsAll before) := by
  induction ts generalizing xs with
  | nil => simp [ReadOff]
  | cons t ts ih =>
    rw [ReadOff, ih]
    constructor
    · rintro ⟨hmet, hrest⟩ before t' after h
      cases before with
      | nil =>
        obtain ⟨rfl, rfl⟩ := List.cons_eq_cons.1 h
        simpa [varsAll] using hmet
      | cons u before =>
        obtain ⟨rfl, hts⟩ := List.cons_eq_cons.1 h
        rw [varsAll_cons, ← List.append_assoc]
        exact hrest before t' after hts
    · intro h
      refine ⟨by simpa [varsAll] using h [] t ts rfl, fun before t' after hts => ?_⟩
      rw [List.append_assoc, ← varsAll_cons]
      exact h (t :: before) t' after (congrArg (t :: ·) hts)

end MetadataArchive
