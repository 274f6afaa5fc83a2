import Mathlib.Data.List.Induction
import Mathlib.Tactic.IntervalCases

/-!
# Rows of digits

The decimal digits of a number are taken off a text whole, as long as no further digit follows, and
their value is the number.
-/

set_option autoImplicit false

namespace MetadataArchive

variable {ds rest : List Char} {n : Nat}

/-- A text that does not go on with a digit. -/
def Undigited (cs : List Char) : Prop := ∀ c ∈ cs.head?, c.isDigit = false

theorem undigited_nil : Undigited [] := by simp [Undigited]

theorem undigited_cons {c : Char} : Undigited (c :: rest) ↔ c.isDigit = false := by
  simp [Undigited]

theorem Undigited.takeWhile_eq (h : Undigited rest) : rest.takeWhile Char.isDigit = [] := by
  cases rest with
  | nil => rfl
  | cons c rest => simp [undigited_cons.1 h]

theorem takeWhile_digits (hds : ∀ c ∈ ds, c.isDigit = true) (hrest : Undigited rest) :
    (ds ++ rest).takeWhile Char.isDigit = ds := by
  rw [List.takeWhile_append_of_pos hds, hrest.takeWhile_eq, List.append_nil]

theorem dropWhile_digits (hds : ∀ c ∈ ds, c.isDigit = true) (hrest : Undigited rest) :
    (ds ++ rest).dropWhile Char.isDigit = rest := by
  rw [List.dropWhile_append_of_pos hds]
  cases rest with
  | nil => rfl
  | cons c rest => simp [undigited_cons.1 hrest]

theorem isDigit_toDigits (n : Nat) : ∀ c ∈ Nat.toDigits 10 n, c.isDigit = true :=
  fun _ hc => Nat.isDigit_of_mem_toDigits (by decide) (by decide) hc

theorem isDigit_zeros (k : Nat) : ∀ c ∈ List.replicate k '0', c.isDigit = true :=
  fun c hc => by rw [List.eq_of_mem_replicate hc]; rfl

/-- Only the digits of zero begin with a zero. -/
theorem head?_toDigits_ne (hn : 0 < n) : (Nat.toDigits 10 n).head? ≠ some '0' := by
  induction n using Nat.strongRecOn with
  | ind n ih =>
    rw [Nat.toDigits_eq_if (by decide)]
    split
    next hlt =>
      interval_cases n <;> decide
    next hle =>
      obtain ⟨c, cs, hcs⟩ :=
        List.exists_cons_of_ne_nil (Nat.toDigits_ne_nil (n := n / 10) (b := 10))
      have hhead := ih (n / 10) (by omega) (by omega)
      rw [hcs] at hhead ⊢
      exact hhead

/-- The value of digits that follow others. -/
theorem ofDigitChars_append_zero (ds ds' : List Char) :
    Nat.ofDigitChars 10 (ds ++ ds') 0 =
      10 ^ ds'.length * Nat.ofDigitChars 10 ds 0 + Nat.ofDigitChars 10 ds' 0 := by
  rw [Nat.ofDigitChars_append, Nat.ofDigitChars_eq_ofDigitChars_zero]

theorem ofDigitChars_lt (hds : ∀ c ∈ ds, c.isDigit = true) :
    Nat.ofDigitChars 10 ds 0 < 10 ^ ds.length := by
  induction ds using List.reverseRecOn with
  | nil => simp
  | append_singleton ds c ih =>
    rw [List.forall_mem_append] at hds
    have hc := Char.isDigit_iff_toNat.1 (hds.2 c (List.mem_singleton.2 rfl))
    have hlt := ih hds.1
    rw [ofDigitChars_append_zero, List.length_append, List.length_singleton, Nat.pow_succ]
    simp only [Nat.ofDigitChars_cons, Nat.ofDigitChars_nil]
    simp only [Char.reduceToNat] at hc ⊢
    omega

end MetadataArchive
