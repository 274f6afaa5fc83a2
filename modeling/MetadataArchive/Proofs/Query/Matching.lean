import MetadataArchive.Proofs.Fact.Zeros
import MetadataArchive.Proofs.Query.Triple

/-!
# What patterns match

Evaluation of patterns is sound but for one form of them: where a variable is first mentioned as the
document and as the value at once, documents are found that do not refer to themselves. It is
complete as far as values can be shared. A variable takes the element that it meets first, and
elements further on have to equal that one; where an assignment gives the integer zero, these may be
two zeros that equal it and not each other.
-/

set_option autoImplicit false

namespace MetadataArchive

open Triple

variable {src : Source} {σ σ' : Assignment} {x : Var} {xs : List Var}
variable {t t' : Triple} {ts before after : List Triple}

/-! ## Soundness -/

/-- A pattern that is met is true, unless a variable is first mentioned there in both places. -/
theorem Triple.Met.holds_or (h : t.Met src σ xs) :
    t.Holds src σ ∨ (t.SelfFirst xs ∧ t.found src σ ≠ []) := by
  by_cases hself : t.SelfFirst xs
  · exact Or.inr ⟨hself, h.ne_nil hself⟩
  · exact Or.inl (h.holds hself)

/-! ## Completeness -/

/-- Where a variable is first mentioned, and as a value, it can stand for an element that equals what
an assignment gives, and that equals an element wherever a later pattern has the variable as its
value. -/
def Shared (src : Source) (σ : Assignment) (t : Triple) (after : List Triple) (x : Var) : Prop :=
  ∃ e ∈ t.found src σ, e.same (σ x) = true ∧
    ∀ t' ∈ after, t'.value = .var x → ∃ e' ∈ t'.found src σ, e'.same e = true

/-- Two assignments that give equal values find the same elements, where either finds any. -/
theorem Triple.found_congr (hσ : ∀ x ∈ t.vars, (σ' x).same (σ x) = true)
    (hne : t.found src σ ≠ []) : t.found src σ' = t.found src σ := by
  obtain ⟨e, he⟩ := List.exists_mem_of_ne_nil _ hne
  obtain ⟨id, hid⟩ := Source.ref_of_mem_elements he
  rw [found, found]
  cases hentity : t.entity with
  | const c => rfl
  | var x =>
    rw [hentity, Term.under] at hid
    have hsame := hσ x (List.mem_append_left _ (Term.mem_vars.2 hentity))
    rw [hid, Value.same_ref] at hsame
    rw [Term.under, Term.under, hid, hsame]

theorem Triple.Holds.ne_nil (h : t.Holds src σ) : t.found src σ ≠ [] :=
  h.elim fun _ he => List.ne_nil_of_mem he.1

/-- Two places in a list, of which the one is in front of the other. -/
theorem exists_between {before' after' : List Triple}
    (h : before ++ t :: after = before' ++ t' :: after') (hx : x ∉ varsAll before)
    (hx' : x ∈ varsAll before') :
    ∃ between, before' = before ++ t :: between ∧ after = between ++ t' :: after' := by
  rcases List.append_eq_append_iff.1 h with ⟨c, hc, hc'⟩ | ⟨c, hc, -⟩
  · cases c with
    | nil =>
      rw [List.append_nil] at hc
      exact absurd (hc ▸ hx') hx
    | cons u between =>
      obtain ⟨rfl, hafter⟩ := List.cons_eq_cons.1 hc'
      exact ⟨between, hc, hafter⟩
  · refine absurd ?_ hx
    rw [hc, varsAll, List.flatMap_append]
    exact List.mem_append_left _ hx'

/-- A variable is first mentioned in one place. -/
theorem first_unique {before' after' : List Triple}
    (h : before ++ t :: after = before' ++ t' :: after') (hx : x ∉ varsAll before)
    (hx' : x ∉ varsAll before') (ht : x ∈ t.vars) (ht' : x ∈ t'.vars) : t = t' ∧ after = after' := by
  have hnot {us : List Triple} {u : Triple} {c : List Triple} (hu : x ∈ u.vars)
      (hus : x ∉ varsAll us) (heq : us = before ++ u :: c ∨ us = before' ++ u :: c) : False := by
    refine hus (mem_varsAll (t := u) ?_ hu)
    rcases heq with rfl | rfl <;> simp
  rcases List.append_eq_append_iff.1 h with ⟨c, hc, hc'⟩ | ⟨c, hc, hc'⟩
  · cases c with
    | nil => exact List.cons_eq_cons.1 hc'
    | cons u c =>
      obtain ⟨rfl, -⟩ := List.cons_eq_cons.1 hc'
      exact (hnot ht hx' (Or.inl hc)).elim
  · cases c with
    | nil => exact (List.cons_eq_cons.1 hc').imp Eq.symm Eq.symm
    | cons u c =>
      obtain ⟨rfl, -⟩ := List.cons_eq_cons.1 hc'
      exact (hnot ht' hx (Or.inr hc)).elim

/-- What an assignment gives is found, up to equality, **only if** variables can be shared. -/
theorem shared_of_readOff (hread : ReadOff src σ' [] ts)
    (hσ : ∀ x ∈ varsAll ts, (σ' x).same (σ x) = true) (hall : ∀ t ∈ ts, t.Holds src σ)
    (hts : ts = before ++ t :: after) (hx : t.ValueFirst (varsAll before) x) :
    Shared src σ t after x := by
  have hsplit := readOff_iff.1 hread
  have hfound {u : Triple} (hu : u ∈ ts) : u.found src σ' = u.found src σ :=
    found_congr (fun y hy => hσ y (mem_varsAll hu hy)) (hall u hu).ne_nil
  have ht : t ∈ ts := by simp [hts]
  have hxt : x ∈ t.vars := List.mem_append_right _ (Term.mem_vars.2 hx.2.1)
  refine ⟨σ' x, ?_, hσ x (mem_varsAll ht hxt), fun t' ht' hvalue => ?_⟩
  · rw [← hfound ht]
    exact (hsplit before t after hts).mem x (by simpa using hx)
  · obtain ⟨between, after', rfl⟩ := List.append_of_mem ht'
    have hts' : ts = (before ++ t :: between) ++ t' :: after' := by simp [hts]
    have hseen : x ∈ varsAll (before ++ t :: between) := mem_varsAll (by simp) hxt
    have hnone : ¬t'.SelfFirst ([] ++ varsAll (before ++ t :: between)) := by
      rintro ⟨y, hy, -, hy'⟩
      rw [hvalue] at hy'
      cases hy'
      exact hy hseen
    obtain ⟨e', he', hsame⟩ := (hsplit _ t' after' hts').holds hnone
    rw [hfound (by simp [hts'])] at he'
    rw [hvalue, Term.under] at hsame
    exact ⟨e', he', hsame⟩

/-- An element for a variable: one that can be shared, where the variable is first mentioned as a
value, and else what the assignment gives. -/
theorem exists_element (x : Var) (hshared : ∀ before t after, ts = before ++ t :: after →
      t.ValueFirst (varsAll before) x → Shared src σ t after x) :
    ∃ v, v.same (σ x) = true ∧
      ((∀ before t after, ts = before ++ t :: after → ¬t.ValueFirst (varsAll before) x) →
        v = σ x) ∧
      ∀ before t after, ts = before ++ t :: after → t.ValueFirst (varsAll before) x →
        v ∈ t.found src σ ∧
          ∀ t' ∈ after, t'.value = .var x → ∃ e' ∈ t'.found src σ, e'.same v = true := by
  by_cases hfirst : ∃ before t after, ts = before ++ t :: after ∧ t.ValueFirst (varsAll before) x
  · obtain ⟨before, t, after, hts, hx⟩ := hfirst
    obtain ⟨e, he, hsame, hlater⟩ := hshared before t after hts hx
    refine ⟨e, hsame, fun hnone => absurd hx (hnone before t after hts),
      fun before' t' after' hts' hx' => ?_⟩
    have hmem {u : Triple} (hu : u.value = .var x) : x ∈ u.vars :=
      List.mem_append_right _ (Term.mem_vars.2 hu)
    obtain ⟨rfl, rfl⟩ := first_unique (hts.symm.trans hts') hx.1 hx'.1 (hmem hx.2.1) (hmem hx'.2.1)
    exact ⟨he, hlater⟩
  · simp only [not_exists, not_and] at hfirst
    exact ⟨σ x, Value.same_self _, fun _ => rfl,
      fun before t after hts hx => absurd hx (hfirst before t after hts)⟩

/-- What an assignment gives is found, up to equality, **if** variables can be shared. -/
theorem exists_readOff (hall : ∀ t ∈ ts, t.Holds src σ)
    (hshared : ∀ before t after x, ts = before ++ t :: after →
      t.ValueFirst (varsAll before) x → Shared src σ t after x) :
    ∃ σ', ReadOff src σ' [] ts ∧ ∀ x, (σ' x).same (σ x) = true := by
  have helement := fun x =>
    exists_element x fun before t after hts hx => hshared before t after x hts hx
  choose σ' hσ' hsame hfirst using helement
  refine ⟨σ', readOff_iff.2 fun before t after hts => ?_, hσ'⟩
  have ht : t ∈ ts := by simp [hts]
  have hfound : t.found src σ' = t.found src σ :=
    found_congr (fun y _ => hσ' y) (hall t ht).ne_nil
  refine ⟨fun _ => hfound ▸ (hall t ht).ne_nil, fun hself => ?_, fun x hx => ?_⟩
  · obtain ⟨e, he, heq⟩ := hall t ht
    rw [Holds, hfound]
    cases hvalue : t.value with
    | const c => exact ⟨e, he, by rwa [hvalue] at heq⟩
    | var x =>
      rw [Term.under]
      by_cases hx : x ∈ varsAll before
      · -- The variable is known by now; what matters is whether it was first a value.
        by_cases hnone : ∀ before t after, ts = before ++ t :: after →
            ¬t.ValueFirst (varsAll before) x
        · rw [hsame x hnone]
          exact ⟨e, he, by rwa [hvalue] at heq⟩
        · simp only [not_forall, not_not] at hnone
          obtain ⟨before₀, t₀, after₀, hts₀, hx₀⟩ := hnone
          obtain ⟨between, -, rfl⟩ := exists_between (hts₀.symm.trans hts) hx₀.1 hx
          exact (hfirst x before₀ t₀ _ hts₀ hx₀).2 t (by simp) hvalue
      · have hnew : t.ValueFirst (varsAll before) x :=
          ⟨hx, hvalue, fun hentity => hself ⟨x, by simpa using hx, hentity, hvalue⟩⟩
        exact ⟨σ' x, (hfirst x before t after hts hnew).1, Value.same_self _⟩
  · rw [hfound]
    exact (hfirst x before t after hts (by simpa using hx)).1

/-- All that is not the integer zero can be shared. -/
theorem shared_of_no_whole (hall : ∀ t ∈ ts, t.Holds src σ) (hts : ts = before ++ t :: after)
    (hvalue : t.value = .var x) (hx : Mark.scalar Value.wholeZero ∉ (σ x).marks) :
    Shared src σ t after x := by
  have hholds {u : Triple} (hu : u ∈ ts) (hvar : u.value = .var x) :
      ∃ e ∈ u.found src σ, e.same (σ x) = true := by
    have h := hall u hu
    rwa [Holds, hvar] at h
  obtain ⟨e, he, hsame⟩ := hholds (by simp [hts]) hvalue
  refine ⟨e, he, hsame, fun t' ht' hvalue' => ?_⟩
  obtain ⟨e', he', hsame'⟩ := hholds (by simp [hts, ht']) hvalue'
  exact ⟨e', he', Value.same_of_same hx hsame hsame'⟩

/-! ## What is found -/

/-- **What patterns match.** Every binding that is found makes each pattern true, unless a variable
is first mentioned there in both places, where any element will do. Every assignment that makes all
patterns true is found, up to equality of values, just if each variable that is first mentioned as a
value can be shared among the patterns; and so it can wherever an assignment is free of the integer
zero, the one value that equals two which differ. -/
theorem patterns_match (hsrc : src.Coherent) (ts : List Triple) :
    ∃ found, Clause.evalAll src none (ts.map Triple.clause) [∅] = .ok found ∧
      (∀ b ∈ found, ∃ σ, b.Reads (varsAll ts) σ ∧
        ∀ before t after, ts = before ++ t :: after →
          t.Holds src σ ∨ (t.SelfFirst (varsAll before) ∧ t.found src σ ≠ [])) ∧
      ∀ σ, (∀ t ∈ ts, t.Holds src σ) →
        ((∃ b ∈ found, ∃ σ', b.Reads (varsAll ts) σ' ∧
            ∀ x ∈ varsAll ts, (σ' x).same (σ x) = true) ↔
          ∀ before t after x, ts = before ++ t :: after →
            t.ValueFirst (varsAll before) x → Shared src σ t after x) ∧
        ((∀ x ∈ varsAll ts, Mark.scalar Value.wholeZero ∉ (σ x).marks) →
          ∃ b ∈ found, ∃ σ', b.Reads (varsAll ts) σ' ∧
            ∀ x ∈ varsAll ts, (σ' x).same (σ x) = true) := by
  have hempty : ∀ b ∈ [(∅ : Binding)], ∃ σ, b.Reads [] σ :=
    List.forall_mem_singleton.2 ⟨fun _ => .null, Binding.Reads.empty _⟩
  obtain ⟨found, hfound, hmem⟩ :
      ∃ found, Clause.evalAll src none (ts.map Triple.clause) [∅] = .ok found ∧ _ :=
    mem_evalAll_iff_readOff hsrc hempty
  have hread {b : Binding} : b ∈ found ↔ ∃ σ, ReadOff src σ [] ts ∧ b.Reads (varsAll ts) σ := by
    rw [hmem]
    constructor
    · rintro ⟨_, -, σ, -, h⟩
      exact ⟨σ, h⟩
    · rintro ⟨σ, h⟩
      exact ⟨∅, List.mem_singleton_self _, σ, Binding.Reads.empty σ, h⟩
  have hcomplete (σ : Assignment) (hall : ∀ t ∈ ts, t.Holds src σ)
      (hshared : ∀ before t after x, ts = before ++ t :: after →
        t.ValueFirst (varsAll before) x → Shared src σ t after x) :
      ∃ b ∈ found, ∃ σ', b.Reads (varsAll ts) σ' ∧
        ∀ x ∈ varsAll ts, (σ' x).same (σ x) = true := by
    obtain ⟨σ', hσ', hsame⟩ := exists_readOff hall hshared
    obtain ⟨b, hb⟩ := Binding.exists_reads (varsAll ts) σ'
    exact ⟨b, hread.2 ⟨σ', hσ', hb⟩, σ', hb, fun x _ => hsame x⟩
  refine ⟨found, hfound, fun b hb => ?_, fun σ hall => ⟨⟨?_, hcomplete σ hall⟩, fun hwhole => ?_⟩⟩
  · obtain ⟨σ, hσ, hreads⟩ := hread.1 hb
    exact ⟨σ, hreads, fun before t after hts => (readOff_iff.1 hσ before t after hts).holds_or⟩
  · rintro ⟨b, hb, σ', hreads, hsame⟩ before t after x hts hx
    obtain ⟨σ₁, hσ₁, hreads₁⟩ := hread.1 hb
    refine shared_of_readOff hσ₁ (fun y hy => ?_) hall hts hx
    rw [hreads₁.agree hreads hy]
    exact hsame y hy
  · refine hcomplete σ hall fun before t after x hts hx => ?_
    refine shared_of_no_whole hall hts hx.2.1 (hwhole x (mem_varsAll (t := t) (by simp [hts]) ?_))
    exact List.mem_append_right _ (Term.mem_vars.2 hx.2.1)

/-- A document that refers to another one is found where one that refers to itself is asked for. -/
theorem self_reference_is_made_up :
    ∃ src : Source, src.Coherent ∧
      ∃ b : Binding,
        Clause.evalAll src none [Triple.clause ⟨.var "?x", "link", .var "?x"⟩] [∅] = .ok [b] ∧
        b.get? "?x" = some (.ref "e:1") ∧
        ∃ σ, b.Reads ["?x", "?x"] σ ∧
          ¬Triple.Holds src σ ⟨.var "?x", "link", .var "?x"⟩ ∧
          Triple.SelfFirst [] ⟨.var "?x", "link", .var "?x"⟩ := by
  let src := Source.ofList [⟨"e:1", (∅ : NameMap Value).insert "link" (.ref "e:2")⟩]
  have hsrc : src.Coherent := Source.coherent_ofList _
  have heval : Clause.evalAll src none [Triple.clause ⟨.var "?x", "link", .var "?x"⟩] [∅] =
      .ok [(∅ : Binding).insert "?x" (.ref "e:1")] := by rfl
  obtain ⟨found, hfound, hsound, -⟩ := patterns_match hsrc [⟨.var "?x", "link", .var "?x"⟩]
  obtain rfl := Except.ok.inj (hfound.symm.trans heval)
  obtain ⟨σ, hreads, hholds⟩ := hsound _ (List.mem_singleton_self _)
  have hx : σ "?x" = .ref "e:1" :=
    (Option.some.inj (hreads.get?_of_mem (x := "?x") List.mem_cons_self)).symm
  have hfalse : ¬Triple.Holds src σ ⟨.var "?x", "link", .var "?x"⟩ := by
    rintro ⟨e, he, hsame⟩
    rw [Triple.found, Term.under, hx] at he
    rw [Term.under, hx, Value.same_ref] at hsame
    have helements : src.elements (.ref "e:1") "link" = [.ref "e:2"] := rfl
    rw [helements, hsame] at he
    simp at he
  exact ⟨src, hsrc, _, heval, rfl, σ, hreads, hfalse, ((hholds [] _ [] rfl).resolve_left hfalse).1⟩

end MetadataArchive
