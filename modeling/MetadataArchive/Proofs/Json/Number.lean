import MetadataArchive.Json.Token
import MetadataArchive.Proofs.Number.Digits
import MetadataArchive.Proofs.Number.Shortest

/-!
# Numbers are read back

An integer that 64 bits hold is read back from its text. A finite double is read back as some finite
double (`unsignedNumber?_storedText`): its text always has a fraction or an exponent, and its digits
are those of the shortest decimal, moved by as many places as they were written apart.
-/

set_option autoImplicit false

namespace MetadataArchive.Json

variable {negative : Bool} {whole fraction ds rest : List Char} {n : Nat}

/-- What follows does not go on with the number. -/
def Ends (rest : List Char) : Prop :=
  ∀ c ∈ rest.head?, c.isDigit = false ∧ c ≠ '.' ∧ c ≠ 'e' ∧ c ≠ 'E'

theorem ends_nil : Ends [] := by simp [Ends]

theorem ends_cons {c : Char} : Ends (c :: rest) ↔
    c.isDigit = false ∧ c ≠ '.' ∧ c ≠ 'e' ∧ c ≠ 'E' := by
  simp [Ends]

theorem Ends.undigited (h : Ends rest) : Undigited rest := fun c hc => (h c hc).1

/-! ## Parts -/

theorem digits_append (hds : ∀ c ∈ ds, c.isDigit = true) (hrest : Undigited rest) :
    digits (ds ++ rest) = (ds, rest) := by
  rw [digits, takeWhile_digits hds hrest, dropWhile_digits hds hrest]

theorem le_ofDigitChars (ds : List Char) (n : Nat) : n ≤ Nat.ofDigitChars 10 ds n := by
  induction ds generalizing n with
  | nil => simp
  | cons c ds ih =>
    rw [Nat.ofDigitChars_cons]
    exact Nat.le_trans (by omega) (ih _)

/-- All digits count as long as 64 bits hold the number. -/
theorem significand_eq (h : Nat.ofDigitChars 10 ds n < 2 ^ 64) :
    significand n ds = (Nat.ofDigitChars 10 ds n, []) := by
  induction ds generalizing n with
  | nil => simp [significand]
  | cons c ds ih =>
    rw [Nat.ofDigitChars_cons] at h ⊢
    have hnext : 10 * n + (c.toNat - 48) < UInt64.size :=
      Nat.lt_of_le_of_lt (le_ofDigitChars ds _) h
    rw [significand, if_pos hnext]
    exact ih h

theorem numberValue?_eq {exponent : Option Int}
    (hvalue : Nat.ofDigitChars 10 (whole ++ fraction) 0 < 2 ^ 64)
    (hdouble : fraction ≠ [] ∨ exponent ≠ none) :
    numberValue? negative whole fraction exponent =
      (Double.scaled? (Nat.ofDigitChars 10 (whole ++ fraction) 0)
        (exponent.getD 0 - fraction.length)).map fun d => .num (signed negative d) := by
  rw [Nat.ofDigitChars_append] at hvalue ⊢
  have hwhole := significand_eq (Nat.lt_of_le_of_lt (le_ofDigitChars fraction _) hvalue)
  have hnot : (fraction.isEmpty && exponent.isNone) = false := by
    rcases hdouble with hne | hne
    · simp [hne]
    · cases exponent with
      | none => exact absurd rfl hne
      | some e => simp
  simp only [numberValue?, hwhole, significand_eq hvalue, hnot, Bool.false_and, Bool.false_eq_true,
    if_false, List.length_nil]
  congr 2
  omega

theorem fractionPart?_dot (hds : ∀ c ∈ ds, c.isDigit = true) (hne : ds ≠ [])
    (hrest : Undigited rest) : fractionPart? ('.' :: (ds ++ rest)) = some (ds, rest) := by
  simp [fractionPart?, digits_append hds hrest, hne]

theorem fractionPart?_none {c : Char} (hc : c ≠ '.') :
    fractionPart? (c :: rest) = some ([], c :: rest) := by
  unfold fractionPart?
  split
  next heq =>
    cases heq
    exact absurd rfl hc
  next => rfl

theorem exponentPart?_none (hrest : Ends rest) : exponentPart? rest = some (none, rest) := by
  unfold exponentPart?
  split
  next => exact absurd rfl (hrest 'e' rfl).2.2.1
  next => exact absurd rfl (hrest 'E' rfl).2.2.2
  next => rfl

theorem exponentPart?_some (e : Int) (hrest : Undigited rest) :
    exponentPart? ('e' :: (if e < 0 then '-' else '+') :: (Nat.toDigits 10 e.natAbs ++ rest)) =
      some (some e, rest) := by
  have hsign : exponentSign ((if e < 0 then '-' else '+') :: (Nat.toDigits 10 e.natAbs ++ rest)) =
      (decide (e < 0), Nat.toDigits 10 e.natAbs ++ rest) := by
    split <;> simp [exponentSign, *]
  have hvalue : digitsValue (Nat.toDigits 10 e.natAbs) = e.natAbs := Nat.ofDigitChars_ten_toDigits
  simp only [exponentPart?, hsign, digits_append (isDigit_toDigits _) hrest, hvalue,
    List.isEmpty_iff, Nat.toDigits_ne_nil, if_false, decide_eq_true_eq]
  congr 3
  split <;> omega

/-- A whole part as it is written: digits, of which the first is no zero unless it is alone. -/
structure Whole (ds : List Char) : Prop where
  digits : ∀ c ∈ ds, c.isDigit = true
  ne_nil : ds ≠ []
  lead : ds.head? = some '0' → ds.length ≤ 1

theorem whole_toDigits (n : Nat) : Whole (Nat.toDigits 10 n) where
  digits := isDigit_toDigits n
  ne_nil := Nat.toDigits_ne_nil
  lead h := by
    rcases Nat.eq_zero_or_pos n with rfl | hpos
    · decide
    · exact absurd h (head?_toDigits_ne hpos)

theorem Whole.unsignedNumber?_eq (negative : Bool) (hwhole : Whole whole) {frac tail : List Char}
    {exponent : Option Int} (hundigited : Undigited frac)
    (hfraction : fractionPart? frac = some (fraction, tail))
    (hexponent : exponentPart? tail = some (exponent, rest)) :
    unsignedNumber? negative (whole ++ frac) =
      (numberValue? negative whole fraction exponent).map fun j => (j, rest) := by
  have hlead : (whole.isEmpty || (decide (whole.head? = some '0') && decide (1 < whole.length))) =
      false := by
    rw [Bool.or_eq_false_iff, Bool.and_eq_false_iff, decide_eq_false_iff_not,
      decide_eq_false_iff_not]
    refine ⟨by simp [hwhole.ne_nil], ?_⟩
    by_cases h : whole.head? = some '0'
    · exact Or.inr (Nat.not_lt.2 (hwhole.lead h))
    · exact Or.inl h
  simp only [unsignedNumber?, digits_append hwhole.digits hundigited, hlead, Bool.false_eq_true,
    if_false, hfraction, hexponent]

/-! ## Integers -/

theorem unsignedNumber?_toDigits (negative : Bool) (hn : n < 2 ^ 64) (hrest : Ends rest) :
    unsignedNumber? negative (Nat.toDigits 10 n ++ rest) =
      some (integerValue negative n, rest) := by
  have hfraction : fractionPart? rest = some ([], rest) := by
    cases rest with
    | nil => rfl
    | cons c rest => exact fractionPart?_none (ends_cons.1 hrest).2.1
  rw [(whole_toDigits n).unsignedNumber?_eq negative hrest.undigited hfraction
    (exponentPart?_none hrest)]
  have hvalue : significand 0 (Nat.toDigits 10 n) = (n, []) := by
    rw [significand_eq (by rwa [Nat.ofDigitChars_ten_toDigits]), Nat.ofDigitChars_ten_toDigits]
  simp [numberValue?, hvalue]

/-! ## Doubles -/

section Doubles

variable {c : Decimal} {k : Nat}

/-- A row of digits, with the power of ten that it is multiplied by, that is read as a finite
double. -/
def ReadsFinite (ds : List Char) (exponent : Int) : Prop :=
  Nat.ofDigitChars 10 ds 0 < 2 ^ 64 ∧
    ∃ x, Double.scaled? (Nat.ofDigitChars 10 ds 0) exponent = some x ∧ x.isFinite = true

/-- A text that is read as a finite double, with whatever follows left over. -/
def ReadsDouble (negative : Bool) (cs : List Char) : Prop :=
  ∃ x : Double, x.isFinite = true ∧ ∀ rest, Ends rest →
    unsignedNumber? negative (cs ++ rest) = some (.num x, rest)

theorem isFinite_signed {x : Double} (negative : Bool) (h : x.isFinite = true) :
    (signed negative x).isFinite = true := by
  cases negative
  · exact h
  · exact x.isFinite_neg h

/-- Digits behind a point. -/
theorem readsDouble_fraction (negative : Bool) (hwhole : Whole whole)
    (hds : ∀ c ∈ fraction, c.isDigit = true)
    (hne : fraction ≠ []) (h : ReadsFinite (whole ++ fraction) (-fraction.length)) :
    ReadsDouble negative (whole ++ '.' :: fraction) := by
  obtain ⟨hvalue, x, hx, hfinite⟩ := h
  refine ⟨signed negative x, isFinite_signed negative hfinite, fun rest hrest => ?_⟩
  have hfraction := fractionPart?_dot hds hne hrest.undigited
  rw [List.append_assoc, List.cons_append, hwhole.unsignedNumber?_eq negative
    (undigited_cons.2 rfl) hfraction (exponentPart?_none hrest),
    numberValue?_eq hvalue (Or.inl hne)]
  simp [hx]

/-- Digits with an exponent, behind a point or without one. -/
theorem readsDouble_exponent (negative : Bool) (hwhole : Whole whole)
    (hds : ∀ c ∈ fraction, c.isDigit = true)
    (e : Int) (h : ReadsFinite (whole ++ fraction) (e - fraction.length)) :
    ReadsDouble negative (whole ++ ((if fraction = [] then [] else '.' :: fraction) ++
      'e' :: (if e < 0 then '-' else '+') :: Nat.toDigits 10 e.natAbs)) := by
  obtain ⟨hvalue, x, hx, hfinite⟩ := h
  refine ⟨signed negative x, isFinite_signed negative hfinite, fun rest hrest => ?_⟩
  have hexponent := exponentPart?_some e hrest.undigited
  let tail := 'e' :: (if e < 0 then '-' else '+') :: (Nat.toDigits 10 e.natAbs ++ rest)
  have htail : Undigited tail := undigited_cons.2 rfl
  have hfraction : fractionPart? ((if fraction = [] then [] else '.' :: fraction) ++ tail) =
      some (fraction, tail) := by
    split
    next heq =>
      rw [heq]
      exact fractionPart?_none (by decide)
    next hne => exact fractionPart?_dot hds hne htail
  have hundigited : Undigited ((if fraction = [] then [] else '.' :: fraction) ++ tail) := by
    split
    · exact htail
    · exact undigited_cons.2 rfl
  have hread := hwhole.unsignedNumber?_eq negative hundigited hfraction hexponent
  simp only [List.append_assoc, List.cons_append]
  rw [hread, numberValue?_eq hvalue (Or.inr (by simp))]
  simp [hx]

theorem readsFinite_of_neg {ds : List Char} (hds : ∀ c ∈ ds, c.isDigit = true)
    (hlength : ds.length ≤ 19) {e : Nat} : ReadsFinite ds (.negSucc e) := by
  have hlt := ofDigitChars_lt hds
  have hpow : 10 ^ ds.length ≤ 10 ^ 19 := Nat.pow_le_pow_right (by decide) hlength
  have hsmall : Nat.ofDigitChars 10 ds 0 < 2 ^ 64 := by omega
  exact ⟨hsmall, Double.scaled?_negSucc hsmall.le e⟩

theorem whole_append_zeros (hzero : n = 0 → k = 0) :
    Whole (Nat.toDigits 10 n ++ List.replicate k '0') where
  digits := List.forall_mem_append.2 ⟨isDigit_toDigits n, isDigit_zeros k⟩
  ne_nil := by simp
  lead h := by
    rcases Nat.eq_zero_or_pos n with rfl | hpos
    · rw [hzero rfl]
      decide
    · obtain ⟨c, cs, hcs⟩ := List.exists_cons_of_ne_nil (Nat.toDigits_ne_nil (n := n) (b := 10))
      have hhead := head?_toDigits_ne hpos
      rw [hcs] at h hhead
      exact absurd h hhead

/-- A decimal that is written without an exponent: zeros are put behind its digits, or the point
before them or among them. -/
theorem readsDouble_positionalText (hzero : c.digits = 0 → c.exponent ≤ 0)
    (hlead : c.exponent + (Nat.toDigits 10 c.digits).length ≤ 16)
    (h : ReadsFinite (Nat.toDigits 10 c.digits) c.exponent) :
    ReadsDouble negative (Decimal.positionalText ".0" c).toList := by
  have hdigits := isDigit_toDigits c.digits
  have hne := Nat.toDigits_ne_nil (n := c.digits) (b := 10)
  unfold Decimal.positionalText
  dsimp only
  rw [Nat.toString_eq_repr, Nat.toList_repr]
  split
  next hpos =>
    have hwhole : Whole (Nat.toDigits 10 c.digits ++ List.replicate c.exponent.toNat '0') :=
      whole_append_zeros fun h => by have := hzero h; omega
    have hzeroDigit : ∀ d ∈ ['0'], d.isDigit = true := List.forall_mem_singleton.2 rfl
    have hread : ReadsFinite ((Nat.toDigits 10 c.digits ++ List.replicate c.exponent.toNat '0') ++
        ['0']) (.negSucc 0) := by
      refine readsFinite_of_neg (List.forall_mem_append.2 ⟨hwhole.digits, hzeroDigit⟩) ?_
      simp only [List.length_append, List.length_replicate, List.length_singleton]
      omega
    have htext := readsDouble_fraction negative hwhole hzeroDigit (List.cons_ne_nil _ _) hread
    simpa [Decimal.zeros] using htext
  next hneg =>
    split
    next hfew =>
      let fraction :=
        List.replicate ((-c.exponent).toNat - (Nat.toDigits 10 c.digits).length) '0' ++
          Nat.toDigits 10 c.digits
      have hlength : (fraction.length : Int) = -c.exponent := by
        simp only [fraction, List.length_append, List.length_replicate]
        omega
      have hread : ReadsFinite (['0'] ++ fraction) (-fraction.length) := by
        rw [hlength, Int.neg_neg]
        simpa [ReadsFinite, fraction, Nat.ofDigitChars_append, Nat.ofDigitChars_cons] using h
      have htext := readsDouble_fraction negative (whole_toDigits 0)
        (List.forall_mem_append.2 ⟨isDigit_zeros _, hdigits⟩) (by simp) hread
      simpa [Decimal.zeros, fraction] using htext
    next hmany =>
      generalize hk : (Nat.toDigits 10 c.digits).length - (-c.exponent).toNat = k
      have hsplit := List.take_append_drop k (Nat.toDigits 10 c.digits)
      have hlength : ((Nat.toDigits 10 c.digits).drop k).length = (-c.exponent).toNat := by
        rw [List.length_drop]
        omega
      have hdrop : (Nat.toDigits 10 c.digits).drop k ≠ [] := fun heq => by
        rw [heq, List.length_nil] at hlength
        omega
      have hwhole : Whole ((Nat.toDigits 10 c.digits).take k) := by
        refine ⟨fun x hx => hdigits x (List.mem_of_mem_take hx), fun heq => ?_, fun hhead => ?_⟩
        · rcases List.take_eq_nil_iff.1 heq with heq | heq
          · omega
          · exact hne heq
        · -- Digits begin with a zero only if there is no other, and then the point is before it.
          rw [List.head?_take] at hhead
          split at hhead
          · cases hhead
          · rcases Nat.eq_zero_or_pos c.digits with hz | hpos
            · rw [hz, show Nat.toDigits 10 0 = ['0'] by decide, List.length_singleton] at hmany
              omega
            · exact absurd hhead (head?_toDigits_ne hpos)
      have htext := readsDouble_fraction negative hwhole
        (fun x hx => hdigits x (List.mem_of_mem_drop hx)) hdrop (by
          rw [hsplit, hlength, show -((-c.exponent).toNat : Int) = c.exponent by omega]
          exact h)
      simpa using htext

theorem readsDouble_scientificText (h : ReadsFinite (Nat.toDigits 10 c.digits) c.exponent) :
    ReadsDouble negative (Decimal.scientificText c).toList := by
  have hdigits := isDigit_toDigits c.digits
  obtain ⟨a, ds, hds⟩ := List.exists_cons_of_ne_nil (Nat.toDigits_ne_nil (n := c.digits) (b := 10))
  rw [hds] at h hdigits
  have hwhole : Whole [a] := ⟨fun x hx => hdigits x (by simp_all), by simp, fun _ => Nat.le_refl 1⟩
  have htext := readsDouble_exponent negative hwhole
    (fun x hx => hdigits x (List.mem_cons_of_mem a hx)) (c.exponent + (a :: ds).length - 1) (by
      rw [List.length_cons, show c.exponent + ((ds.length + 1 : Nat) : Int) - 1 - ds.length =
        c.exponent by omega]
      exact h)
  have hsign (e : Int) : (if e < 0 then "-" else "+").toList = [if e < 0 then '-' else '+'] := by
    split <;> decide
  have hpoint : ".".toList = ['.'] := by decide
  have hletter : "e".toList = ['e'] := by decide
  unfold Decimal.scientificText
  dsimp only
  rw [Nat.toString_eq_repr, Nat.toList_repr, hds]
  cases ds with
  | nil =>
    simp only [String.toList_append, hsign, hletter]
    simpa using htext
  | cons b ds =>
    simp only [String.toList_append, hsign, hletter, hpoint]
    simpa using htext

/-- **What is written of a decimal** is read as a double if its digits are, with their exponent. -/
theorem readsDouble_bodyText (hzero : c.digits = 0 → c.exponent ≤ 0)
    (h : ReadsFinite (Nat.toDigits 10 c.digits) c.exponent) :
    ReadsDouble negative (Decimal.bodyText .stored c).toList := by
  unfold Decimal.bodyText
  dsimp only [Decimal.Layout.stored]
  split
  next hlead =>
    refine readsDouble_positionalText hzero ?_ h
    simp only [Bool.and_eq_true, decide_eq_true_eq, Nat.toString_eq_repr] at hlead
    have hlength : c.digits.repr.length = (Nat.toDigits 10 c.digits).length := by
      rw [← Nat.toList_repr, String.length_toList]
    omega
  next => exact readsDouble_scientificText h

end Doubles

end MetadataArchive.Json
