import MetadataArchive.Json.Reader
import MetadataArchive.Proofs.Json.Number

/-!
# Values that texts can hold

Whatever is read of a text is a value whose integers fit into 64 bits, whose doubles are finite and
whose arrays and objects nest no deeper than the reader allows (`fits_of_readWithin?`).
-/

set_option autoImplicit false

namespace MetadataArchive.Json

variable {j : Json} {items : List Json} {members : List (String × Json)}
variable {cs rest rest' : List Char} {steps depth : Nat} {ts : List Token} {t : Token}

/-- A value as texts can hold it: its integers fit into 64 bits and its doubles are finite. -/
inductive Proper : Json → Prop where
  | null : Proper .null
  | bool (b : Bool) : Proper (.bool b)
  | int {i : Int} (hlow : Int64.minValue.toInt ≤ i) (hhigh : i < 2 ^ 64) : Proper (.int i)
  | num {d : Double} (h : d.isFinite = true) : Proper (.num d)
  | str (s : String) : Proper (.str s)
  | arr {items : List Json} (h : ∀ j ∈ items, Proper j) : Proper (.arr items)
  | obj {members : List (String × Json)} (h : ∀ m ∈ members, Proper m.2) : Proper (.obj members)

namespace Proper

mutual

def decide : (j : Json) → Decidable j.Proper
  | .null => .isTrue .null
  | .bool b => .isTrue (.bool b)
  | .int i =>
      decidable_of_iff (Int64.minValue.toInt ≤ i ∧ i < 2 ^ 64)
        ⟨fun h => .int h.1 h.2, fun | .int hlow hhigh => ⟨hlow, hhigh⟩⟩
  | .num d => decidable_of_iff (d.isFinite = true) ⟨.num, fun | .num h => h⟩
  | .str s => .isTrue (.str s)
  | .arr items =>
      have := decideItems items
      decidable_of_iff (∀ j ∈ items, j.Proper) ⟨.arr, fun | .arr h => h⟩
  | .obj members =>
      have := decideMembers members
      decidable_of_iff (∀ m ∈ members, m.2.Proper) ⟨.obj, fun | .obj h => h⟩

def decideItems : (items : List Json) → Decidable (∀ j ∈ items, j.Proper)
  | [] => .isTrue (List.forall_mem_nil _)
  | j :: rest =>
      have := decide j
      have := decideItems rest
      decidable_of_iff (j.Proper ∧ ∀ i ∈ rest, i.Proper) List.forall_mem_cons.symm

def decideMembers : (members : List (String × Json)) → Decidable (∀ m ∈ members, m.2.Proper)
  | [] => .isTrue (List.forall_mem_nil _)
  | (_, j) :: rest =>
      have := decide j
      have := decideMembers rest
      decidable_of_iff (j.Proper ∧ ∀ m ∈ rest, m.2.Proper)
        ⟨fun h => List.forall_mem_cons.2 h, fun h => List.forall_mem_cons.1 h⟩

end

instance : DecidablePred Proper := decide

end Proper

mutual

/-- How deep arrays and objects nest in a value. -/
def nesting : Json → Nat
  | .arr items => itemsNesting items + 1
  | .obj members => membersNesting members + 1
  | _ => 0

def itemsNesting : List Json → Nat
  | [] => 0
  | j :: rest => max j.nesting (itemsNesting rest)

def membersNesting : List (String × Json) → Nat
  | [] => 0
  | (_, j) :: rest => max j.nesting (membersNesting rest)

end

theorem itemsNesting_le : itemsNesting items ≤ depth ↔ ∀ j ∈ items, j.nesting ≤ depth := by
  induction items with
  | nil => simp [itemsNesting]
  | cons j items ih => simp [itemsNesting, ih]

theorem membersNesting_le :
    membersNesting members ≤ depth ↔ ∀ m ∈ members, m.2.nesting ≤ depth := by
  induction members with
  | nil => simp [membersNesting]
  | cons m members ih => simp [membersNesting, ih]

/-! ## Tokens -/

/-- A token that holds no value but a proper one without brackets. -/
def Token.Proper : Token → Prop
  | .scalar j => j.Proper ∧ j.nesting = 0
  | _ => True

theorem isFinite_ofInt {i : Int} (h : i.natAbs ≤ 2 ^ 64) : (Double.ofInt i).isFinite = true :=
  (Double.atMost_ofInt h).isFinite (by decide)

theorem proper_integerValue (negative : Bool) {n : Nat} (hn : n < 2 ^ 64) :
    Token.Proper (.scalar (integerValue negative n)) := by
  have hhigh : (if negative then -(n : Int) else n) < 2 ^ 64 := by split <;> omega
  unfold integerValue
  dsimp only
  generalize (if negative then -(n : Int) else n) = i at *
  split
  · exact ⟨.num (isFinite_signed negative (isFinite_ofInt (by omega))), rfl⟩
  next hfits =>
    simp only [Bool.or_eq_true, decide_eq_true_eq, not_or, Int.not_lt] at hfits
    exact ⟨.int hfits.2 hhigh, rfl⟩

theorem significand_lt {n : Nat} (hn : n < 2 ^ 64) (ds : List Char) :
    (significand n ds).1 < 2 ^ 64 := by
  induction ds generalizing n with
  | nil => exact hn
  | cons c ds ih =>
    unfold significand
    dsimp only
    split
    next hnext => exact ih hnext
    next => exact hn

theorem proper_of_numberValue? {negative : Bool} {whole fraction : List Char}
    {exponent : Option Int} (h : numberValue? negative whole fraction exponent = some j) :
    Token.Proper (.scalar j) := by
  have hwhole := significand_lt (n := 0) (by decide) whole
  unfold numberValue? at h
  dsimp only at h
  split at h
  · cases h
    exact proper_integerValue negative hwhole
  · obtain ⟨d, hd, rfl⟩ := Option.map_eq_some_iff.1 h
    have hdigits := significand_lt hwhole fraction
    exact ⟨.num (isFinite_signed negative (Double.isFinite_of_scaled? hdigits.le hd)), rfl⟩

theorem proper_of_unsignedNumber? {negative : Bool}
    (h : unsignedNumber? negative cs = some (j, rest)) : Token.Proper (.scalar j) := by
  unfold unsignedNumber? at h
  dsimp only at h
  split at h
  · cases h
  · split at h
    · cases h
    · split at h
      · cases h
      · obtain ⟨_, hvalue, heq⟩ := Option.map_eq_some_iff.1 h
        cases heq
        exact proper_of_numberValue? hvalue

theorem proper_of_token? {c : Char} (h : token? c rest = some (t, rest')) : t.Proper := by
  unfold token? at h
  split at h
  case h_7 =>
    obtain ⟨_, -, heq⟩ := Option.map_eq_some_iff.1 h
    cases heq
    trivial
  case h_11 =>
    obtain ⟨_, hnumber, heq⟩ := Option.map_eq_some_iff.1 h
    cases heq
    exact proper_of_unsignedNumber? hnumber
  case h_8 | h_9 | h_10 =>
    simp only [Option.ite_none_right_eq_some, Option.some.injEq, Prod.mk.injEq] at h
    obtain ⟨-, rfl, -⟩ := h
    constructor
    · constructor
    · rfl
  case h_12 =>
    split at h
    · split at h
      next hnumber =>
        simp only [Option.ite_none_right_eq_some, Option.some.injEq, Prod.mk.injEq] at h
        obtain ⟨-, rfl, -⟩ := h
        exact proper_of_unsignedNumber? hnumber
      · cases h
    · cases h
  all_goals
    cases h
    trivial

theorem proper_of_tokens? (h : tokens? cs = some ts) : ∀ t ∈ ts, t.Proper := by
  fun_induction tokens? cs generalizing ts with
  | case1 =>
    cases h
    simp
  | case2 c rest hspace ih => exact ih h
  | case3 => cases h
  | case4 c rest hspace t rest' htoken hlength ih =>
    obtain ⟨ts, hts, rfl⟩ := Option.map_eq_some_iff.1 h
    exact List.forall_mem_cons.2 ⟨proper_of_token? htoken, ih hts⟩

/-! ## Values -/

/-- A proper value that nests no deeper than this. -/
structure Fits (depth : Nat) (j : Json) : Prop where
  proper : j.Proper
  nesting : j.nesting ≤ depth

theorem fits_str (s : String) : (Json.str s).Fits depth := ⟨.str s, Nat.zero_le depth⟩

theorem fits_arr (h : ∀ j ∈ items, j.Fits depth) : (arr items).Fits (depth + 1) where
  proper := .arr fun j hj => (h j hj).proper
  nesting := Nat.succ_le_succ (itemsNesting_le.2 fun j hj => (h j hj).nesting)

theorem fits_obj (h : ∀ m ∈ members, m.2.Fits depth) : (obj members).Fits (depth + 1) where
  proper := .obj fun m hm => (h m hm).proper
  nesting := Nat.succ_le_succ (membersNesting_le.2 fun m hm => (h m hm).nesting)

theorem exists_fits (h : ∀ j ∈ items, j.Proper) : ∃ depth, ∀ j ∈ items, j.Fits depth :=
  ⟨itemsNesting items, fun j hj => ⟨h j hj, itemsNesting_le.1 (Nat.le_refl _) j hj⟩⟩

theorem Fits.of_arr (h : (arr items).Fits depth) :
    ∃ d, depth = d + 1 ∧ ∀ j ∈ items, j.Fits d := by
  have hdeep := h.nesting
  cases depth with
  | zero => cases hdeep
  | succ d =>
    cases h.proper with
    | arr hproper =>
      have hitems := itemsNesting_le.1 (Nat.le_of_succ_le_succ hdeep)
      exact ⟨d, rfl, fun j hj => ⟨hproper j hj, hitems j hj⟩⟩

theorem Fits.of_obj (h : (obj members).Fits depth) :
    ∃ d, depth = d + 1 ∧ ∀ m ∈ members, m.2.Fits d := by
  have hdeep := h.nesting
  cases depth with
  | zero => cases hdeep
  | succ d =>
    cases h.proper with
    | obj hproper =>
      have hmembers := membersNesting_le.1 (Nat.le_of_succ_le_succ hdeep)
      exact ⟨d, rfl, fun m hm => ⟨hproper m hm, hmembers m hm⟩⟩

/-- From proper tokens comes what has this property, and proper tokens are left. -/
def Draws {α : Type} (P : α → Prop) (ts : List Token) (read : Option (α × List Token)) : Prop :=
  (∀ t ∈ ts, t.Proper) → ∀ a rest, read = some (a, rest) → P a ∧ ∀ t ∈ rest, t.Proper

theorem draws_value? (steps : Nat) :
    (∀ depth ts, Draws (Fits depth) ts (value? steps depth ts)) ∧
    (∀ depth ts, Draws (fun js => ∀ j ∈ js, Fits depth j) ts (items? steps depth ts)) ∧
    ∀ depth ts, Draws (fun ms => ∀ m ∈ ms, Fits depth m.2) ts (members? steps depth ts) := by
  induction steps with
  | zero =>
    refine ⟨fun _ _ _ _ _ h => ?_, fun _ _ _ _ _ h => ?_, fun _ _ _ _ _ h => ?_⟩
    · rw [value?] at h
      cases h
    · cases h
    · cases h
  | succ steps ih =>
    obtain ⟨hvalue, hitems, hmembers⟩ := ih
    refine ⟨fun depth ts hts j rest h => ?_, fun depth ts hts js rest h => ?_,
      fun depth ts hts ms rest h => ?_⟩
    · cases ts with
      | nil => cases h
      | cons t ts =>
        obtain ⟨ht, htail⟩ := List.forall_mem_cons.1 hts
        unfold value? at h
        dsimp only at h
        split at h
        · cases h
          exact ⟨⟨.str _, Nat.zero_le _⟩, htail⟩
        · cases h
          exact ⟨⟨ht.1, ht.2 ▸ Nat.zero_le _⟩, htail⟩
        · split at h
          · cases h
            exact ⟨fits_arr (by simp), (List.forall_mem_cons.1 htail).2⟩
          · obtain ⟨⟨js, _⟩, hread, heq⟩ := Option.map_eq_some_iff.1 h
            cases heq
            obtain ⟨hjs, hleft⟩ := hitems _ _ htail _ _ hread
            exact ⟨fits_arr hjs, hleft⟩
        · split at h
          · cases h
            exact ⟨fits_obj (by simp), (List.forall_mem_cons.1 htail).2⟩
          · obtain ⟨⟨ms, _⟩, hread, heq⟩ := Option.map_eq_some_iff.1 h
            cases heq
            obtain ⟨hms, hleft⟩ := hmembers _ _ htail _ _ hread
            exact ⟨fits_obj hms, hleft⟩
        · cases h
    · unfold items? at h
      split at h
      next hread =>
        obtain ⟨hj, hleft⟩ := hvalue _ _ hts _ _ hread
        obtain ⟨⟨js, _⟩, hread, heq⟩ := Option.map_eq_some_iff.1 h
        cases heq
        obtain ⟨hjs, hleft⟩ := hitems _ _ (List.forall_mem_cons.1 hleft).2 _ _ hread
        exact ⟨List.forall_mem_cons.2 ⟨hj, hjs⟩, hleft⟩
      next hread =>
        obtain ⟨hj, hleft⟩ := hvalue _ _ hts _ _ hread
        cases h
        exact ⟨List.forall_mem_singleton.2 hj, (List.forall_mem_cons.1 hleft).2⟩
      · cases h
    · unfold members? at h
      split at h
      next name tokens =>
        have htokens := (List.forall_mem_cons.1 (List.forall_mem_cons.1 hts).2).2
        split at h
        next hread =>
          obtain ⟨hj, hleft⟩ := hvalue _ _ htokens _ _ hread
          obtain ⟨⟨ms, _⟩, hread, heq⟩ := Option.map_eq_some_iff.1 h
          cases heq
          obtain ⟨hms, hleft⟩ := hmembers _ _ (List.forall_mem_cons.1 hleft).2 _ _ hread
          exact ⟨List.forall_mem_cons.2 ⟨hj, hms⟩, hleft⟩
        next hread =>
          obtain ⟨hj, hleft⟩ := hvalue _ _ htokens _ _ hread
          cases h
          exact ⟨List.forall_mem_singleton.2 hj, (List.forall_mem_cons.1 hleft).2⟩
        · cases h
      · cases h

/-- **What is read of a text** is proper, and nests no deeper than it may. -/
theorem fits_of_readWithin? {s : String} (h : readWithin? depth s = some j) : j.Fits depth := by
  simp only [readWithin?, Option.bind_eq_bind, Option.bind_eq_some_iff] at h
  obtain ⟨ts, hts, h⟩ := h
  split at h
  next hread =>
    cases h
    exact ((draws_value? _).1 depth ts (proper_of_tokens? hts) _ _ hread).1
  next => cases h

end MetadataArchive.Json
