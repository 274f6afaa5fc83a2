import Mathlib.Algebra.Order.Group.Multiset
import Mathlib.Data.Option.NAry
import MetadataArchive.Proofs.Query.Binding

/-!
# Each binding by itself

Clauses take lists of bindings to lists of bindings, and what a clause makes of a list is what it
makes of its bindings one at a time, put together (`clauses_work_on_each_binding`). It fails where
it fails on one of them. How often a binding comes out counts, but not where: `or` puts what one
branch makes of all bindings in front of what the next one makes of them.

So the order of the bindings that come in does not matter either (`Pointwise.perm`), and that is
what lets one clause take what another has left.
-/

set_option autoImplicit false

namespace MetadataArchive

variable {src : Source} {limit : Option Nat} {bs bs' found found' : List Binding}
variable {f g : List Binding → Except StoreError (List Binding)}

/-! ## Results without their order -/

/-- What comes out of a part of an evaluation, each binding as often as it does; nothing where it
fails. -/
def unordered (f : List Binding → Except StoreError (List Binding)) (bs : List Binding) :
    Option (Multiset Binding) :=
  (f bs).toOption.map Multiset.ofList

theorem unordered_of_ok (h : f bs = .ok found) :
    unordered f bs = some (found : Multiset Binding) := by
  rw [unordered, h]
  rfl

theorem unordered_of_error {e : StoreError} (h : f bs = .error e) : unordered f bs = none := by
  rw [unordered, h]
  rfl

theorem unordered_eq_some {m : Multiset Binding} :
    unordered f bs = some m ↔
      ∃ found : List Binding, f bs = .ok found ∧ (found : Multiset Binding) = m := by
  rw [unordered, Option.map_eq_some_iff]
  constructor
  · rintro ⟨found, hfound, rfl⟩
    exact ⟨found, eq_ok_of_toOption hfound, rfl⟩
  · rintro ⟨found, hfound, rfl⟩
    exact ⟨found, by rw [hfound]; rfl, rfl⟩

/-- A part of an evaluation makes of two lists what it makes of the one and of the other. -/
structure Pointwise (f : List Binding → Except StoreError (List Binding)) : Prop where
  nil : f [] = .ok []
  append : ∀ bs bs',
    unordered f (bs ++ bs') = Option.map₂ (· + ·) (unordered f bs) (unordered f bs')

/-! ## Steps -/

theorem extendEach_append (step : Binding → Except StoreError (List Binding))
    (bs bs' : List Binding) :
    extendEach step (bs ++ bs') = (do
      let here ← extendEach step bs
      let there ← extendEach step bs'
      .ok (here ++ there)) := by
  induction bs with
  | nil => cases h : extendEach step bs' <;> simp [extendEach, bind, Except.bind, h]
  | cons b bs ih =>
    rw [List.cons_append, extendEach_cons, extendEach_cons, ih]
    cases step b with
    | error e => rfl
    | ok here =>
      cases extendEach step bs with
      | error e => rfl
      | ok there =>
        cases extendEach step bs' with
        | error e => rfl
        | ok rest => simp [ok_bind]

/-- A test leaves some of the bindings, as they are. -/
theorem keepEach_sublist {test : Binding → Except StoreError Bool}
    (h : keepEach test bs = .ok found) : found.Sublist bs := by
  unfold keepEach at h
  induction bs generalizing found with
  | nil =>
    cases h
    exact List.Sublist.slnil
  | cons b bs ih =>
    obtain ⟨here, hhere, h⟩ := bind_eq_ok.1 h
    obtain ⟨there, hthere, h⟩ := bind_eq_ok.1 h
    obtain ⟨passes, -, hhere⟩ := bind_eq_ok.1 hhere
    cases h
    cases passes with
    | true =>
      cases hhere
      exact (ih hthere).cons_cons b
    | false =>
      cases hhere
      exact (ih hthere).cons b

namespace Pointwise

theorem congr (heq : ∀ bs, f bs = g bs) (h : Pointwise g) : Pointwise f :=
  funext heq ▸ h

/-- **The order of the bindings does not matter.** -/
theorem perm (h : Pointwise f) (hperm : bs.Perm bs') : unordered f bs = unordered f bs' := by
  induction hperm with
  | nil => rfl
  | cons b _ ih =>
    rw [← List.singleton_append, h.append, ih, ← h.append, List.singleton_append]
  | swap a b bs =>
    have htwo (x y : Binding) : unordered f (x :: y :: bs) =
        Option.map₂ (· + ·) (unordered f [x])
          (Option.map₂ (· + ·) (unordered f [y]) (unordered f bs)) := by
      rw [← h.append, ← h.append]
      rfl
    rw [htwo, htwo, Option.map₂_left_comm add_left_comm]
  | trans _ _ ih ih' => exact ih.trans ih'

theorem of_append (happend : ∀ bs bs', f (bs ++ bs') = (do
      let here ← f bs
      let there ← f bs'
      .ok (here ++ there))) (hnil : f [] = .ok []) : Pointwise f where
  nil := hnil
  append bs bs' := by
    simp only [unordered, happend bs bs']
    cases f bs with
    | error e => rfl
    | ok here => cases f bs' <;> rfl

theorem extendEach (step : Binding → Except StoreError (List Binding)) :
    Pointwise (extendEach step) :=
  of_append (extendEach_append step) rfl

theorem keepEach (test : Binding → Except StoreError Bool) : Pointwise (keepEach test) :=
  extendEach _

theorem flatMap (step : Binding → List Binding) : Pointwise fun bs => .ok (bs.flatMap step) := by
  have heach : (fun bs => Except.ok (bs.flatMap step)) =
      MetadataArchive.extendEach fun b => .ok (step b) :=
    funext fun bs => (extendEach_pure step bs).symm
  rw [heach]
  exact extendEach _

/-- One part takes what another has left. -/
theorem bind (hf : Pointwise f) (hg : Pointwise g) : Pointwise fun bs => f bs >>= g where
  nil := by
    show f [] >>= g = .ok []
    rw [hf.nil, ok_bind, hg.nil]
  append bs bs' := by
    have hthen (bs : List Binding) : unordered (fun bs => f bs >>= g) bs =
        match f bs with
        | .ok found => unordered g found
        | .error _ => none := by
      simp only [unordered]
      cases f bs <;> rfl
    have hboth := hf.append bs bs'
    rw [hthen, hthen, hthen]
    cases hbs : f bs with
    | error e =>
      rw [unordered_of_error hbs, Option.map₂_none_left] at hboth
      cases hall : f (bs ++ bs') with
      | error e => rfl
      | ok all => simp [unordered_of_ok hall] at hboth
    | ok found =>
      cases hbs' : f bs' with
      | error e =>
        rw [unordered_of_error hbs', Option.map₂_none_right] at hboth
        cases hall : f (bs ++ bs') with
        | error e => exact (Option.map₂_none_right _ _).symm
        | ok all => simp [unordered_of_ok hall] at hboth
      | ok found' =>
        rw [unordered_of_ok hbs, unordered_of_ok hbs'] at hboth
        obtain ⟨all, hall, hsum⟩ := unordered_eq_some.1 hboth
        rw [hall, ← hg.append]
        -- What is left of both lists comes in another order than that of one and of the other.
        exact hg.perm (Multiset.coe_eq_coe.1 hsum)

/-- What two parts make of the same bindings, one behind the other. -/
theorem beside (hf : Pointwise f) (hg : Pointwise g) : Pointwise fun bs => do
    let here ← f bs
    let there ← g bs
    .ok (here ++ there) where
  nil := by
    rw [hf.nil, hg.nil]
    rfl
  append bs bs' := by
    have hsum (bs : List Binding) : unordered (fun bs => do
        let here ← f bs
        let there ← g bs
        .ok (here ++ there)) bs = Option.map₂ (· + ·) (unordered f bs) (unordered g bs) := by
      simp only [unordered]
      cases f bs with
      | error e => rfl
      | ok here => cases g bs <;> rfl
    rw [hsum, hsum, hsum, hf.append, hg.append]
    cases unordered f bs <;> cases unordered f bs' <;> cases unordered g bs <;>
      cases unordered g bs' <;> simp [add_add_add_comm]

end Pointwise

/-! ## Clauses -/

mutual

/-- **A clause works on each binding by itself.** -/
theorem Clause.pointwise_eval (hl : limit ≠ some 0) :
    ∀ c : Clause, Pointwise (Clause.eval src limit c)
  | .pattern entity attr value =>
    .congr (fun _ => Clause.eval_pattern hl entity attr value) (.flatMap _)
  | .firstOf entity attributes bind =>
    .congr (fun _ => Clause.eval_firstOf hl entity attributes bind) (.extendEach _)
  | .test t =>
    .congr (fun _ => Clause.eval_test hl t) (.keepEach _)
  | .and cs =>
    .congr (fun _ => Clause.eval_and hl cs) (Clause.pointwise_evalAll hl cs)
  | .or cs =>
    .congr (fun _ => Clause.eval_or hl cs) (Clause.pointwise_evalAny hl cs)
  | .not cs =>
    .congr (fun _ => Clause.eval_not hl cs) (.keepEach _)
  | .oneOf v values =>
    .congr (fun _ => Clause.eval_of_time hl (.oneOf v values)) (.flatMap _)

theorem Clause.pointwise_evalAll (hl : limit ≠ some 0) :
    ∀ cs : List Clause, Pointwise (Clause.evalAll src limit cs)
  | [] => .of_append (fun _ _ => rfl) rfl
  | c :: cs => by
    -- To stop where no binding is left is to go on with none.
    have hthen (bs : List Binding) : Clause.evalAll src limit (c :: cs) bs =
        Clause.eval src limit c bs >>= Clause.evalAll src limit cs := by
      by_cases hbs : bs = []
      · rw [hbs, Clause.evalAll_no_bindings, Clause.eval_no_bindings hl, ok_bind,
          Clause.evalAll_no_bindings]
      · exact Clause.evalAll_cons c cs hbs
    exact .congr hthen ((Clause.pointwise_eval hl c).bind (Clause.pointwise_evalAll hl cs))

theorem Clause.pointwise_evalAny (hl : limit ≠ some 0) :
    ∀ cs : List Clause, Pointwise (Clause.evalAny src limit cs)
  | [] => .of_append (fun _ _ => rfl) rfl
  | c :: cs => (Clause.pointwise_eval hl c).beside (Clause.pointwise_evalAny hl cs)

end

theorem Pointwise.exists_ok_append (h : Pointwise f) (bs bs' : List Binding) :
    (∃ all, f (bs ++ bs') = .ok all) ↔
      (∃ found, f bs = .ok found) ∧ ∃ found, f bs' = .ok found := by
  have hsome (bs : List Binding) :
      (∃ found, f bs = .ok found) ↔ (unordered f bs).isSome = true := by
    rw [Option.isSome_iff_exists]
    simp only [unordered_eq_some]
    exact ⟨fun ⟨found, hfound⟩ => ⟨_, found, hfound, rfl⟩, fun ⟨_, found, hfound, _⟩ =>
      ⟨found, hfound⟩⟩
  rw [hsome, hsome, hsome, h.append]
  cases unordered f bs <;> cases unordered f bs' <;> simp

theorem Pointwise.append_eq (h : Pointwise f) {all : List Binding} (hall : f (bs ++ bs') = .ok all)
    (hfound : f bs = .ok found) (hfound' : f bs' = .ok found') :
    (all : Multiset Binding) = found + found' := by
  have hboth := h.append bs bs'
  rw [unordered_of_ok hall, unordered_of_ok hfound, unordered_of_ok hfound'] at hboth
  exact Option.some.inj hboth

/-- **Clauses work on each binding by itself, and bindings only grow.** Whatever the documents, a
clause that has all the time it needs

* succeeds on two lists of bindings put together exactly if it succeeds on each of them, and then
  what it makes of them is what it makes of the one and of the other, each binding as often;
* makes bindings that have all that one of those that came in had, and maybe more;
* and, where it negates others, lets bindings through or not and does nothing to them. -/
theorem clauses_work_on_each_binding (src : Source) (c : Clause) (bs bs' : List Binding) :
    ((∃ all, c.eval src none (bs ++ bs') = .ok all) ↔
      (∃ found, c.eval src none bs = .ok found) ∧ ∃ found, c.eval src none bs' = .ok found) ∧
    (∀ all found found', c.eval src none (bs ++ bs') = .ok all → c.eval src none bs = .ok found →
      c.eval src none bs' = .ok found' → (all : Multiset Binding) = found + found') ∧
    ∀ found, c.eval src none bs = .ok found →
      (∀ b' ∈ found, ∃ b ∈ bs, b'.Extends b) ∧ ∀ cs, c = .not cs → found.Sublist bs := by
  have htime : (none : Option Nat) ≠ some 0 := by simp
  have hpointwise : Pointwise (c.eval src none) := Clause.pointwise_eval htime c
  refine ⟨hpointwise.exists_ok_append bs bs', ?_, fun found hfound => ⟨?_, ?_⟩⟩
  · intro all found found' hall hfound hfound'
    exact hpointwise.append_eq hall hfound hfound'
  · exact Clause.eval_from (Binding.kept_extends _) hfound
  · rintro cs rfl
    rw [Clause.eval_not htime] at hfound
    exact keepEach_sublist hfound

/-- Of two branches one leaves the first variable free, so a clause that tests it fails on a binding
that has none, and on others together with that. -/
theorem clause_fails_on_empty_binding :
    let c : Clause :=
      .and [.or [.oneOf "?x" [.int 1], .oneOf "?y" [.int 2]], .test (.notNull "?x")]
    let src : Source := .ofList []
    let bound : Binding := NameMap.insert ∅ "?x" (.int 1)
    c.eval src none [bound] = .ok [bound, bound.insert "?y" (.int 2)] ∧
      Binding.Extends (bound.insert "?y" (.int 2)) bound ∧
      c.eval src none [∅] = .error (.invalidQuery (.testUnbound "?x")) ∧
      ¬ ∃ all, c.eval src none ([bound] ++ [∅]) = .ok all := by
  intro c src bound
  have hbound : c.eval src none [bound] = .ok [bound, bound.insert "?y" (.int 2)] := rfl
  have hempty : c.eval src none [∅] = .error (.invalidQuery (.testUnbound "?x")) := rfl
  obtain ⟨hboth, -, hgrows⟩ := clauses_work_on_each_binding src c [bound] [∅]
  refine ⟨hbound, ?_, hempty, fun hall => ?_⟩
  · obtain ⟨b, hb, hextends⟩ := (hgrows _ hbound).1 (bound.insert "?y" (.int 2)) (by simp)
    exact List.mem_singleton.1 hb ▸ hextends
  · obtain ⟨found, hfound⟩ := (hboth.1 hall).2
    cases hempty.symm.trans hfound

end MetadataArchive
