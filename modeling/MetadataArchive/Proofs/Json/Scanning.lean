import MetadataArchive.Json.Writer
import MetadataArchive.Proofs.Json.Number

/-!
# Texts are scanned as they were written

What is written of a value is scanned as a row of tokens, up to what follows it (`Scans`). Strings
are scanned as they are, and so are integers that 64 bits hold; a finite double is scanned as the
double that its text is read as (`Double.reread`), which is finite too.
-/

set_option autoImplicit false

namespace MetadataArchive

namespace Json

variable {cs rest tail : List Char} {ts us : List Token} {t : Token} {c : Char} {n : Nat}

/-- The text begins with these tokens, and the rest follows. -/
def Scans (cs : List Char) (ts : List Token) (rest : List Char) : Prop :=
  tokens? cs = (tokens? rest).map (ts ++ ·)

theorem Scans.trans (h : Scans cs ts tail) (h' : Scans tail us rest) :
    Scans cs (ts ++ us) rest := by
  rw [Scans, h, h', Option.map_map]
  simp [Function.comp_def]

theorem scans_token (hspace : isSpace c = false) (h : token? c tail = some (t, rest)) :
    Scans (c :: tail) [t] rest := by
  rw [Scans, tokens?, hspace, if_neg (by simp)]
  split
  next heq => rw [h] at heq; cases heq
  next heq =>
    rw [h] at heq
    cases heq
    rfl

/-! ## Strings -/

theorem hexValue4?_hexDigit : ∀ n < 32,
    hexValue4? '0' '0' (hexDigit (n / 16)) (hexDigit (n % 16)) = some n := by
  decide

theorem stringRest_escapeChar (c : Char) (rest : List Char) :
    stringRest none (escapeChar c ++ rest) =
      (stringRest none rest).map fun p => (c :: p.1, p.2) := by
  unfold escapeChar
  split
  next h => subst h; rfl
  split
  next h => subst h; rfl
  split
  next h => subst h; rfl
  split
  next h => subst h; rfl
  split
  next h => subst h; rfl
  split
  next h =>
    have hc : c = Char.ofNat 8 := by rw [← h, Char.ofNat_toNat]
    subst hc
    rfl
  split
  next h =>
    have hc : c = Char.ofNat 12 := by rw [← h, Char.ofNat_toNat]
    subst hc
    rfl
  split
  next hlow =>
    have hhex := hexValue4?_hexDigit _ hlow
    have hhigh : isHighSurrogate c.toNat = false := by simp [isHighSurrogate]; omega
    have hlow' : isLowSurrogate c.toNat = false := by simp [isLowSurrogate]; omega
    simp [stringRest, hhex, hhigh, hlow']
  next hquote hslash _ _ _ _ _ hlow =>
    rw [List.singleton_append, stringRest.eq_def]
    split
    all_goals simp_all

theorem stringRest_quoted (cs rest : List Char) :
    stringRest none (cs.flatMap escapeChar ++ '"' :: rest) = some (cs, rest) := by
  induction cs with
  | nil => rfl
  | cons c cs ih =>
    rw [List.flatMap_cons, List.append_assoc, stringRest_escapeChar, ih]
    rfl

theorem scans_quote (s : String) (rest : List Char) :
    Scans ((quote s).toList ++ rest) [.str s] rest := by
  have hlist : (quote s).toList ++ rest = '"' :: (s.toList.flatMap escapeChar ++ '"' :: rest) := by
    simp [quote]
  rw [hlist]
  refine scans_token rfl ?_
  have htoken (tail : List Char) : token? '"' tail =
      (stringRest none tail).map fun p => (.str (String.ofList p.1), p.2) := rfl
  rw [htoken, stringRest_quoted]
  simp

/-! ## Numbers -/

theorem head_of_unsignedNumber? {negative : Bool} {p : Json × List Char}
    (h : unsignedNumber? negative cs = some p) : ∃ d tail, cs = d :: tail ∧ d.isDigit = true := by
  cases cs with
  | nil => cases h
  | cons d tail =>
    cases hd : d.isDigit with
    | true => exact ⟨d, tail, rfl, hd⟩
    | false =>
      have hdigits : (digits (d :: tail)).1 = [] := List.takeWhile_cons_of_neg (by simp [hd])
      simp [unsignedNumber?, hdigits] at h

theorem token?_digit (hc : c.isDigit = true) : token? c tail =
    match unsignedNumber? false (c :: tail) with
    | some (j, rest) => if rest.length ≤ tail.length then some (.scalar j, rest) else none
    | none => none := by
  unfold token?
  split
  all_goals first
    | cases hc
    | exact if_pos hc

theorem scans_unsigned {j : Json} (h : unsignedNumber? false (cs ++ rest) = some (j, rest))
    (hne : cs ≠ []) : Scans (cs ++ rest) [.scalar j] rest := by
  obtain ⟨d, tail, rfl⟩ := List.exists_cons_of_ne_nil hne
  rw [List.cons_append] at h ⊢
  obtain ⟨d', tail', heq, hd⟩ := head_of_unsignedNumber? h
  cases heq
  have hspace : isSpace d = false := by
    cases hs : isSpace d with
    | false => rfl
    | true =>
      simp only [isSpace, Bool.or_eq_true, decide_eq_true_eq] at hs
      rcases hs with ((rfl | rfl) | rfl) | rfl <;> cases hd
  refine scans_token hspace ?_
  rw [token?_digit hd, h]
  exact if_pos (by simp)

theorem scans_negative {j : Json} (h : unsignedNumber? true (cs ++ rest) = some (j, rest)) :
    Scans ('-' :: (cs ++ rest)) [.scalar j] rest := by
  refine scans_token rfl ?_
  have htoken (tail : List Char) : token? '-' tail =
      (unsignedNumber? true tail).map fun p => (.scalar p.1, p.2) := rfl
  rw [htoken, h]
  rfl

/-- An integer that 64 bits hold is scanned with its sign. -/
theorem scans_int {i : Int} (hlow : Int64.minValue.toInt ≤ i) (hhigh : i < 2 ^ 64)
    (hrest : Ends rest) : Scans ((toString i).toList ++ rest) [.scalar (.int i)] rest := by
  have hmin : Int64.minValue.toInt = -9223372036854775808 := by decide
  rw [hmin] at hlow
  rw [Int.toString_eq_repr, Int.repr_eq_if]
  split
  next hpos =>
    have hread := unsignedNumber?_toDigits false (n := i.toNat) (by omega) hrest
    have hvalue : integerValue false i.toNat = .int i := by
      simp [integerValue, hmin]
      omega
    rw [Nat.toList_repr]
    exact scans_unsigned (hvalue ▸ hread) Nat.toDigits_ne_nil
  next hneg =>
    have hread := unsignedNumber?_toDigits true (n := (-i).toNat) (by omega) hrest
    have hi : -((-i).toNat : Int) = i := by omega
    have hvalue : integerValue true (-i).toNat = .int i := by
      have hfits : (decide ((-i).toNat = 0) || decide (i < Int64.minValue.toInt)) = false := by
        simp only [hmin, Bool.or_eq_false_iff, decide_eq_false_iff_not]
        omega
      simp only [integerValue, if_true, hi, Bool.true_and, hfits, Bool.false_eq_true, if_false]
    have hdash : "-".toList = ['-'] := by decide
    rw [String.toList_append, Nat.toList_repr, hdash]
    exact scans_negative (hvalue ▸ hread)

/-- What is written of a finite double is scanned as a finite double. -/
theorem exists_scans_storedText {d : Double} (h : d.isFinite = true) :
    ∃ x : Double, x.isFinite = true ∧ ∀ rest, Ends rest →
      Scans (d.storedText.toList ++ rest) [.scalar (.num x)] rest := by
  obtain ⟨hfew, hzero, hscaled⟩ := Decimal.scaled?_shortest h
  have hlt : d.magnitude < Double.infinityMagnitude := of_decide_eq_true h
  have hnan : d.isNaN = false := decide_eq_false (Nat.not_lt_of_gt hlt)
  have hinfinite : d.isInfinite = false := decide_eq_false (Nat.ne_of_lt hlt)
  have hreads : ReadsFinite (Nat.toDigits 10 (Decimal.shortest d).digits)
      (Decimal.shortest d).exponent := by
    rw [ReadsFinite, Nat.ofDigitChars_toDigits (by decide) (by decide)]
    exact ⟨Nat.lt_of_le_of_lt hfew (by decide), hscaled⟩
  have hbody (negative : Bool) :
      ReadsDouble negative (Decimal.bodyText .stored (Decimal.shortest d)).toList :=
    readsDouble_bodyText hzero hreads
  have htext : d.storedText = (if d.isNegative then "-" else "") ++
      Decimal.bodyText .stored (Decimal.shortest d) := by
    simp [Double.storedText, Decimal.text, hnan, hinfinite]
  rw [htext, String.toList_append]
  generalize Decimal.bodyText .stored (Decimal.shortest d) = body at *
  cases d.isNegative with
  | false =>
    obtain ⟨x, hx, hread⟩ := hbody false
    have hne : body.toList ≠ [] := fun hnil => by
      have hnone := hread [] ends_nil
      rw [hnil] at hnone
      cases hnone
    exact ⟨x, hx, fun rest hrest => scans_unsigned (hread rest hrest) hne⟩
  | true =>
    obtain ⟨x, hx, hread⟩ := hbody true
    exact ⟨x, hx, fun rest hrest => scans_negative (hread rest hrest)⟩

end Json

/-- The double that is read of the stored text of a double. -/
def Double.reread (d : Double) : Double :=
  match Json.tokens? d.storedText.toList with
  | some [.scalar (.num x)] => x
  | _ => d

theorem Double.reread_spec {d : Double} (h : d.isFinite = true) : d.reread.isFinite = true ∧
    ∀ rest, Json.Ends rest →
      Json.Scans (d.storedText.toList ++ rest) [.scalar (.num d.reread)] rest := by
  obtain ⟨x, hx, hscans⟩ := Json.exists_scans_storedText h
  have hreread : d.reread = x := by
    have htokens := hscans [] Json.ends_nil
    rw [List.append_nil, Json.Scans, show Json.tokens? [] = some [] by rw [Json.tokens?]] at htokens
    rw [Double.reread, htokens]
    rfl
  rw [hreread]
  exact ⟨hx, hscans⟩

end MetadataArchive
