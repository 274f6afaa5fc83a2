import MetadataArchive.Proofs.Query.Rows
import MetadataArchive.Proofs.Search.Judgement

/-!
# Selections

A judgement that has a verdict on every record is a selection: what comes out is what came in, less
the records that do not pass, and nothing can fail. Selections are put together as judgements are,
and in one way more. What stands behind a selection has only the records to deal with that have
passed it, so it may be a selection of other things, as long as these are what the passing records
show (`Selects.andThen`).
-/

set_option autoImplicit false

namespace MetadataArchive

variable {ι κ : Type} {about : DocId → ι → Prop} {about' : DocId → κ → Prop} {record : Var}
variable {lo mid hi n : Nat} {f g : List Binding → Except StoreError (List Binding)}
variable {p q : ι → Bool} {src : Source} {limit : Option Nat} {c : Clause} {cs cs' : List Clause}

/-- **What a judgement comes to**: it fails where some record has no verdict, and leaves otherwise the
documents of the records of which it is true. -/
theorem Judges.named_cases {bad : StoreError → Prop} {v : ι → Verdict} {bs : List Binding}
    (h : Judges about record bad lo hi f v) (hbs : ∀ b ∈ bs, b.Ready about record lo) :
    ((∃ id ∈ Binding.named record bs, ∃ i, about id i ∧ v i = none) →
      ∃ e, f bs = .error e ∧ bad e) ∧
    ((∀ id ∈ Binding.named record bs, ∀ i, about id i → v i ≠ none) →
      ∃ found, f bs = .ok found ∧ ∀ id, id ∈ Binding.named record found ↔
        id ∈ Binding.named record bs ∧ ∃ i, about id i ∧ v i = some true) := by
  refine ⟨fun ⟨id, hid, i, hi, hnone⟩ => ?_, fun hsome => ?_⟩
  · obtain ⟨b, hb, hid⟩ := Binding.mem_named.1 hid
    cases hf : f bs with
    | error e => exact ⟨e, rfl, (h.fails hbs hf).1⟩
    | ok found =>
      obtain ⟨t, ht, -⟩ := h.selects hbs hf b hb i ⟨id, hid, hi⟩
      rw [hnone] at ht
      cases ht
  · cases hf : f bs with
    | error e =>
      obtain ⟨-, b, hb, i, ⟨id, hid, hi⟩, hnone⟩ := h.fails hbs hf
      exact absurd hnone (hsome id (Binding.mem_named.2 ⟨b, hb, hid⟩) i hi)
    | ok found =>
      refine ⟨found, rfl, fun id => ?_⟩
      have hverdict {b : Binding} {i : ι} (hb : b ∈ bs) (hi : b.IsOf about record i) :
          v i = some true ↔ ∃ b' ∈ found, b'.get? record = b.get? record := by
        obtain ⟨t, ht, hiff⟩ := h.selects hbs hf b hb i hi
        rw [ht, Option.some.injEq, hiff]
      rw [Binding.mem_named, Binding.mem_named]
      constructor
      · rintro ⟨b', hb', hid⟩
        obtain ⟨-, b, hb, hsame⟩ := h.keeps hbs hf b' hb'
        obtain ⟨i, id', hid', hi⟩ := (hbs b hb).isOf
        obtain rfl : id' = id := by simpa [hid'] using hsame.symm.trans hid
        exact ⟨⟨b, hb, hid'⟩, i, hi, (hverdict hb ⟨id', hid', hi⟩).2 ⟨b', hb', hsame⟩⟩
      · rintro ⟨⟨b, hb, hid⟩, i, hi, htrue⟩
        obtain ⟨b', hb', hsame⟩ := (hverdict hb ⟨id, hid, hi⟩).1 htrue
        exact ⟨b', hb', hsame.trans hid⟩

/-- Clauses behind others judge what these have left. -/
theorem Judges.evalAll_append {bad : StoreError → Prop} {v w : ι → Verdict} (hl : limit ≠ some 0)
    (h : Judges about record bad lo mid (Clause.evalAll src limit cs) v)
    (h' : Judges about record bad mid hi (Clause.evalAll src limit cs') w) :
    Judges about record bad lo hi (Clause.evalAll src limit (cs ++ cs'))
      fun i => (v i).and (w i) := by
  have heq : Clause.evalAll src limit (cs ++ cs') =
      Clause.evalAll src limit [.and cs, .and cs'] := by
    funext bs
    by_cases hbs : bs = []
    · rw [hbs, Clause.evalAll_no_bindings, Clause.evalAll_no_bindings]
    · rw [Clause.evalAll_append, Clause.evalAll_cons _ _ hbs, Clause.eval_and hl,
        Clause.evalAll_singleton hl]
      exact congrArg _ (funext fun here => (Clause.eval_and hl cs').symm)
  rw [heq]
  exact (h.and hl).evalAll_cons (h'.and hl).evalAll_singleton

/-- A part of an evaluation keeps the records that pass, and fails nowhere. -/
def Selects (about : DocId → ι → Prop) (record : Var) (lo hi : Nat)
    (f : List Binding → Except StoreError (List Binding)) (p : ι → Bool) : Prop :=
  Judges about record (fun _ => False) lo hi f fun i => some (p i)

namespace Selects

variable {bs found : List Binding} {i : ι} {id : DocId}

/-! ## What is selected -/

theorem exists_ok (h : Selects about record lo hi f p)
    (hbs : ∀ b ∈ bs, b.Ready about record lo) : ∃ found, f bs = .ok found := by
  cases hf : f bs with
  | error e => exact (h.fails hbs hf).1.elim
  | ok found => exact ⟨found, rfl⟩

/-- What is left of a record has passed. -/
theorem passes (h : Selects about record lo hi f p) (hbs : ∀ b ∈ bs, b.Ready about record lo)
    (hf : f bs = .ok found) {b : Binding} (hb : b ∈ found) (hi : b.IsOf about record i) :
    p i = true := by
  obtain ⟨-, b₀, hb₀, hsame⟩ := h.keeps hbs hf b hb
  obtain ⟨t, ht, hiff⟩ := h.selects hbs hf b₀ hb₀ i (hi.congr hsame.symm)
  cases ht
  exact hiff.2 ⟨b, hb, hsame⟩

/-- **The documents that are left are those that were there and whose records pass.** -/
theorem mem_named (h : Selects about record lo hi f p) (hbs : ∀ b ∈ bs, b.Ready about record lo)
    (hf : f bs = .ok found) (hi : about id i) :
    id ∈ Binding.named record found ↔ id ∈ Binding.named record bs ∧ p i = true := by
  rw [Binding.mem_named, Binding.mem_named]
  constructor
  · rintro ⟨b, hb, hid⟩
    obtain ⟨-, b₀, hb₀, hsame⟩ := h.keeps hbs hf b hb
    exact ⟨⟨b₀, hb₀, hsame.symm.trans hid⟩, h.passes hbs hf hb ⟨id, hid, hi⟩⟩
  · rintro ⟨⟨b, hb, hid⟩, hp⟩
    obtain ⟨t, ht, hiff⟩ := h.selects hbs hf b hb i ⟨id, hid, hi⟩
    cases ht
    obtain ⟨b', hb', hsame⟩ := hiff.1 hp
    exact ⟨b', hb', hsame.trans hid⟩

/-- A selection is a judgement, whatever failures are reckoned with. -/
theorem judges {bad : StoreError → Prop} (h : Selects about record lo hi f p) :
    Judges about record bad lo hi f fun i => some (p i) :=
  ⟨h.le, fun hbs hf => (h.fails hbs hf).1.elim, h.keeps, h.selects⟩

/-! ## Putting selections together -/

theorem congr (h : Selects about record lo hi f p) (hpq : ∀ id i, about id i → p i = q i) :
    Selects about record lo hi f q := by
  refine ⟨h.le, fun hbs hf => (h.fails hbs hf).1.elim, h.keeps,
    fun hbs hf b hb i ⟨id, hid, hi⟩ => ?_⟩
  rw [← hpq id i hi]
  exact h.selects hbs hf b hb i ⟨id, hid, hi⟩

/-- A selection by what is known of a record is one of the record. -/
theorem transfer {p : ι → Bool} {q : κ → Bool} (h : Selects about record lo hi f p)
    (hsome : ∀ id k, about' id k → ∃ i, about id i)
    (hpq : ∀ id k i, about' id k → about id i → p i = q k) :
    Selects about' record lo hi f q :=
  Judges.transfer h hsome fun id k i hk hi => congrArg some (hpq id k i hk hi)

/-- **What follows a selection deals with what has passed**, and selects by what that shows. -/
theorem andThen {p p' : ι → Bool} {q : κ → Bool} (hf : Selects about record lo mid f p)
    (hg : Selects about' record mid hi g q)
    (hpass : ∀ id i, about id i → p i = true → ∃ k, about' id k)
    (hsame : ∀ id i k, about id i → about' id k → p' i = q k) :
    Selects about record lo hi (fun bs => f bs >>= g) fun i => p i && p' i := by
  have hready {bs here : List Binding} (hbs : ∀ b ∈ bs, b.Ready about record lo)
      (hhere : f bs = .ok here) : ∀ b ∈ here, b.Ready about' record mid := by
    intro b hb
    obtain ⟨⟨i, id, hid, hi⟩, hfree⟩ := Judges.ready hf hbs hhere b hb
    obtain ⟨k, hk⟩ := hpass id i hi (hf.passes hbs hhere hb ⟨id, hid, hi⟩)
    exact ⟨⟨k, id, hid, hk⟩, hfree⟩
  refine ⟨hf.le.trans hg.le, fun hbs h => ?_, fun hbs h b' hb' => ?_,
    fun {bs found} hbs h b hb i hi => ?_⟩
  · rcases bind_eq_error.1 h with h | ⟨here, hhere, h⟩
    · exact (hf.fails hbs h).1.elim
    · exact (hg.fails (hready hbs hhere) h).1.elim
  · obtain ⟨here, hhere, h⟩ := bind_eq_ok.1 h
    obtain ⟨hfree, b₁, hb₁, hsame₁⟩ := hg.keeps (hready hbs hhere) h b' hb'
    obtain ⟨-, b, hb, hsame⟩ := hf.keeps hbs hhere b₁ hb₁
    exact ⟨hfree, b, hb, hsame₁.trans hsame⟩
  · obtain ⟨here, hhere, h⟩ := bind_eq_ok.1 h
    obtain ⟨id, hid, ha⟩ := hi
    have hmem := hf.mem_named hbs hhere ha
    refine ⟨_, rfl, ?_⟩
    simp only [hid]
    rw [← Binding.mem_named, Bool.and_eq_true]
    constructor
    · rintro ⟨hp, hp'⟩
      obtain ⟨k, hk⟩ := hpass id i ha hp
      have hin : id ∈ Binding.named record bs := Binding.mem_named.2 ⟨b, hb, hid⟩
      exact (hg.mem_named (hready hbs hhere) h hk).2
        ⟨hmem.2 ⟨hin, hp⟩, (hsame id i k ha hk).symm.trans hp'⟩
    · intro hfound
      -- What is left in the end was there in between, and so has passed.
      obtain ⟨b', hb', hid'⟩ := Binding.mem_named.1 hfound
      obtain ⟨-, b₁, hb₁, hsame₁⟩ := hg.keeps (hready hbs hhere) h b' hb'
      have hp : p i = true :=
        hf.passes hbs hhere hb₁ ⟨id, hsame₁.symm.trans hid', ha⟩
      obtain ⟨k, hk⟩ := hpass id i ha hp
      exact ⟨hp, (hsame id i k ha hk).trans
        ((hg.mem_named (hready hbs hhere) h hk).1 hfound).2⟩

theorem evalAll_append {p p' : ι → Bool} {q : κ → Bool}
    (h : Selects about record lo mid (Clause.evalAll src limit cs) p)
    (h' : Selects about' record mid hi (Clause.evalAll src limit cs') q)
    (hpass : ∀ id i, about id i → p i = true → ∃ k, about' id k)
    (hsame : ∀ id i k, about id i → about' id k → p' i = q k) :
    Selects about record lo hi (Clause.evalAll src limit (cs ++ cs')) fun i => p i && p' i := by
  rw [funext (Clause.evalAll_append cs cs')]
  exact h.andThen h' hpass hsame

theorem evalAll_nil (n : Nat) :
    Selects about record n n (Clause.evalAll src limit []) fun _ => true :=
  Judges.evalAll_nil n

/-- Clauses side by side, of which each selects by something of its own. -/
theorem evalAny_map {α : Type} {g : α → Clause} {p : α → ι → Bool}
    (h : ∀ a, Selects about record lo hi (Clause.eval src limit (g a)) (p a)) (hle : lo ≤ hi)
    (as : List α) : Selects about record lo hi (Clause.evalAny src limit (as.map g))
      fun i => as.any fun a => p a i := by
  have hany := Judges.evalAny_map hle h as
  simp only [Verdict.any_some] at hany
  exact hany

section

variable (hl : limit ≠ some 0)

include hl

theorem conjunction (h : Selects about record lo hi (Clause.evalAll src limit cs) p) :
    Selects about record lo hi (Clause.eval src limit (Clause.conjunction cs)) p :=
  Judges.conjunction hl h

theorem not (h : Selects about record lo hi (Clause.evalAll src limit cs) p) :
    Selects about record lo hi (Clause.eval src limit (.not cs)) fun i => !p i :=
  Judges.not hl h

theorem or (h : Selects about record lo hi (Clause.evalAny src limit cs) p) :
    Selects about record lo hi (Clause.eval src limit (.or cs)) p :=
  Judges.or hl h

theorem singleton (h : Selects about record lo hi (Clause.eval src limit c) p) :
    Selects about record lo hi (Clause.evalAll src limit [c]) p := by
  rwa [Clause.evalAll_singleton hl]

end

end Selects

end MetadataArchive
