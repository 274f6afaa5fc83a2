import MetadataArchive.Json.Basic

/-!
# Tokens of JSON texts

A text is a row of tokens with blanks between them: marks, and values that hold no others. A
string's escapes are resolved here, and a surrogate that does not stand in a pair is refused. A
number with neither fraction nor exponent is an integer while 64 bits hold it. Every other number is
a double, worked out from the first of its digits that 64 bits hold and its exponent
(`Double.scaled?`): near the number that is written, but not always the double next to it. One
beyond the greatest double is refused.
-/

set_option autoImplicit false

namespace MetadataArchive.Json

inductive Token where
  | openBracket
  | closeBracket
  | openBrace
  | closeBrace
  | comma
  | colon
  | str (s : String)
  | scalar (j : Json)
  deriving Repr, Inhabited

def isSpace (c : Char) : Bool := c = ' ' || c = '\n' || c = '\t' || c = '\r'

def hexValue? (c : Char) : Option Nat :=
  if '0' ≤ c && c ≤ '9' then some (c.toNat - 48)
  else if 'a' ≤ c && c ≤ 'f' then some (c.toNat - 87)
  else if 'A' ≤ c && c ≤ 'F' then some (c.toNat - 55)
  else none

def hexValue4? (a b c d : Char) : Option Nat := do
  some (((← hexValue? a) * 16 + (← hexValue? b)) * 256 + (← hexValue? c) * 16 + (← hexValue? d))

def unescape? (c : Char) : Option Char :=
  match c with
  | '"' => some '"'
  | '\\' => some '\\'
  | '/' => some '/'
  | 'b' => some (Char.ofNat 8)
  | 'f' => some (Char.ofNat 12)
  | 'n' => some '\n'
  | 'r' => some '\r'
  | 't' => some '\t'
  | _ => none

/-- The first half of a surrogate pair. -/
def isHighSurrogate (n : Nat) : Bool := 0xd800 ≤ n && n ≤ 0xdbff

/-- The second half of a surrogate pair. -/
def isLowSurrogate (n : Nat) : Bool := 0xdc00 ≤ n && n ≤ 0xdfff

/-- The rest of a string behind its opening mark, and what follows its closing mark. `high` is the
first half of a surrogate pair whose second half has to come next. -/
def stringRest (high : Option Nat) : List Char → Option (List Char × List Char)
  | [] => none
  | '"' :: rest => if high.isNone then some ([], rest) else none
  | '\\' :: 'u' :: a :: b :: c :: d :: rest =>
      match hexValue4? a b c d, high with
      | none, _ => none
      | some n, some h =>
          if isLowSurrogate n then
            (stringRest none rest).map fun (cs, rest) =>
              (Char.ofNat (0x10000 + (h - 0xd800) * 0x400 + (n - 0xdc00)) :: cs, rest)
          else none
      | some n, none =>
          if isHighSurrogate n then stringRest (some n) rest
          else if isLowSurrogate n then none
          else (stringRest none rest).map fun (cs, rest) => (Char.ofNat n :: cs, rest)
  | '\\' :: c :: rest =>
      match unescape? c, high with
      | some c, none => (stringRest none rest).map fun (cs, rest) => (c :: cs, rest)
      | _, _ => none
  | c :: rest =>
      if high.isNone && 32 ≤ c.toNat && c != '\\' then
        (stringRest none rest).map fun (cs, rest) => (c :: cs, rest)
      else none

theorem length_lt_of_stringRest {high : Option Nat} {cs s rest : List Char}
    (h : stringRest high cs = some (s, rest)) : rest.length < cs.length := by
  fun_induction stringRest high cs generalizing s rest with
  | case1 | case3 | case4 | case6 | case8 | case11 | case13 => simp_all
  | case2 => simp_all
  | case7 =>
    rename_i ih
    have := ih h
    simp only [List.length_cons]
    omega
  | case5 | case9 | case10 | case12 =>
    rename_i ih
    obtain ⟨⟨_, _⟩, hr, he⟩ := Option.map_eq_some_iff.1 h
    cases he
    have := ih hr
    simp only [List.length_cons]
    omega

def digits (cs : List Char) : List Char × List Char :=
  (cs.takeWhile Char.isDigit, cs.dropWhile Char.isDigit)

theorem length_digits_le (cs : List Char) : (digits cs).2.length ≤ cs.length :=
  (List.dropWhile_sublist _).length_le

def digitsValue (ds : List Char) : Nat := ds.foldl (fun n c => 10 * n + (c.toNat - 48)) 0

/-- The number that digits add to the digits of `n`, as far as 64 bits hold it, and the digits that
it leaves out. -/
def significand (n : Nat) : List Char → Nat × List Char
  | [] => (n, [])
  | c :: ds =>
      let next := 10 * n + (c.toNat - 48)
      if next < UInt64.size then significand next ds else (n, c :: ds)

def signed (negative : Bool) (d : Double) : Double := if negative then -d else d

/-- A number without fraction and exponent that 64 bits hold behind its sign. One that they do not
hold with it is a double. -/
def integerValue (negative : Bool) (n : Nat) : Json :=
  let i : Int := if negative then -(n : Int) else n
  -- Minus zero is a double: no integer has a sign without a value.
  if negative && n = 0 || i < Int64.minValue.toInt then .num (signed negative (Double.ofInt n))
  else .int i

/-- A number by its digits on both sides of the point and its exponent. -/
def numberValue? (negative : Bool) (whole fraction : List Char) (exponent : Option Int) :
    Option Json :=
  let (n, left) := significand 0 whole
  if fraction.isEmpty && exponent.isNone && left.isEmpty then some (integerValue negative n)
  else
    -- Digits that are left out before the point count as tens, those behind it not at all.
    let (n, unread) := significand n fraction
    let places : Int := left.length - (fraction.length - unread.length)
    (Double.scaled? n (places + exponent.getD 0)).map fun d => .num (signed negative d)

/-- The fraction digits of a number, none where there is no point. -/
def fractionPart? : List Char → Option (List Char × List Char)
  | '.' :: rest =>
      let (ds, rest) := digits rest
      if ds.isEmpty then none else some (ds, rest)
  | cs => some ([], cs)

theorem length_le_of_fractionPart? {cs ds rest : List Char}
    (h : fractionPart? cs = some (ds, rest)) : rest.length ≤ cs.length := by
  unfold fractionPart? at h
  split at h
  next r =>
    have := length_digits_le r
    simp only [Option.ite_none_left_eq_some, Option.some.injEq, Prod.mk.injEq] at h
    obtain ⟨_, _, rfl⟩ := h
    simp only [List.length_cons]
    omega
  next => simp_all

/-- The sign of an exponent, taken for a plus where there is none. -/
def exponentSign : List Char → Bool × List Char
  | '-' :: rest => (true, rest)
  | '+' :: rest => (false, rest)
  | cs => (false, cs)

theorem length_exponentSign_le (cs : List Char) : (exponentSign cs).2.length ≤ cs.length := by
  unfold exponentSign
  split <;> simp

def exponentPart? : List Char → Option (Option Int × List Char)
  | 'e' :: rest | 'E' :: rest =>
      let (negative, rest) := exponentSign rest
      let (ds, rest) := digits rest
      let n : Int := digitsValue ds
      if ds.isEmpty then none else some (some (if negative then -n else n), rest)
  | cs => some (none, cs)

theorem length_le_of_exponentPart? {cs rest : List Char} {e : Option Int}
    (h : exponentPart? cs = some (e, rest)) : rest.length ≤ cs.length := by
  have key : ∀ r : List Char, (digits (exponentSign r).2).2.length ≤ r.length := fun r =>
    Nat.le_trans (length_digits_le _) (length_exponentSign_le r)
  unfold exponentPart? at h
  split at h
  all_goals
    try
      next r =>
        have := key r
        simp only [Option.ite_none_left_eq_some, Option.some.injEq, Prod.mk.injEq] at h
        obtain ⟨_, _, rfl⟩ := h
        simp only [List.length_cons]
        omega
  simp_all

/-- A number behind its sign. -/
def unsignedNumber? (negative : Bool) (cs : List Char) : Option (Json × List Char) := do
  let (whole, rest) := digits cs
  -- A whole part of more than one digit does not begin with a zero.
  if whole.isEmpty || (whole.head? = some '0' && 1 < whole.length) then none
  else
    match fractionPart? rest with
    | none => none
    | some (fraction, rest) =>
        match exponentPart? rest with
        | none => none
        | some (exponent, rest) =>
            (numberValue? negative whole fraction exponent).map fun j => (j, rest)

theorem length_le_of_unsignedNumber? {negative : Bool} {cs rest : List Char} {j : Json}
    (h : unsignedNumber? negative cs = some (j, rest)) : rest.length ≤ cs.length := by
  have h0 := length_digits_le cs
  unfold unsignedNumber? at h
  simp only at h
  split at h
  · cases h
  · split at h
    · cases h
    next ds r1 h1 =>
      have h1 := length_le_of_fractionPart? h1
      split at h
      · cases h
      next e r2 h2 =>
        have h2 := length_le_of_exponentPart? h2
        simp only [Option.map_eq_some_iff, Prod.mk.injEq] at h
        obtain ⟨_, _, _, rfl⟩ := h
        omega

def token? (c : Char) (rest : List Char) : Option (Token × List Char) :=
  match c with
  | '[' => some (.openBracket, rest)
  | ']' => some (.closeBracket, rest)
  | '\x7b' => some (.openBrace, rest)
  | '\x7d' => some (.closeBrace, rest)
  | ',' => some (.comma, rest)
  | ':' => some (.colon, rest)
  | '"' => (stringRest none rest).map fun (cs, rest) => (.str (String.ofList cs), rest)
  | 't' => if beginsWith "rue" then some (.scalar (.bool true), rest.drop 3) else none
  | 'f' => if beginsWith "alse" then some (.scalar (.bool false), rest.drop 4) else none
  | 'n' => if beginsWith "ull" then some (.scalar .null, rest.drop 3) else none
  | '-' => (unsignedNumber? true rest).map fun (j, rest) => (.scalar j, rest)
  | c =>
      if c.isDigit then
        match unsignedNumber? false (c :: rest) with
        | some (j, rest') => if rest'.length ≤ rest.length then some (.scalar j, rest') else none
        | none => none
      else none
where
  beginsWith (word : String) : Bool := word.toList.isPrefixOf rest

theorem length_le_of_token? {c : Char} {rest rest' : List Char} {t : Token}
    (h : token? c rest = some (t, rest')) : rest'.length ≤ rest.length := by
  unfold token? at h
  split at h
  all_goals
    first
    | (simp only [Option.some.injEq, Prod.mk.injEq] at h; obtain ⟨_, rfl⟩ := h; exact Nat.le_refl _)
    | (simp only [Option.ite_none_right_eq_some, Option.some.injEq, Prod.mk.injEq] at h
       obtain ⟨_, _, rfl⟩ := h; simp)
    | skip
  · simp only [Option.map_eq_some_iff, Prod.mk.injEq] at h
    obtain ⟨⟨s, r⟩, hs, _, rfl⟩ := h
    exact Nat.le_of_lt (length_lt_of_stringRest hs)
  · simp only [Option.map_eq_some_iff, Prod.mk.injEq] at h
    obtain ⟨⟨s, r⟩, hs, _, rfl⟩ := h
    exact length_le_of_unsignedNumber? hs
  · split at h
    · split at h
      · simp only [Option.ite_none_right_eq_some, Option.some.injEq, Prod.mk.injEq] at h
        obtain ⟨hle, _, rfl⟩ := h
        exact hle
      · cases h
    · cases h

def tokens? : List Char → Option (List Token)
  | [] => some []
  | c :: rest =>
      if isSpace c then tokens? rest
      else
        match h : token? c rest with
        | none => none
        | some (t, rest') =>
            have : rest'.length ≤ rest.length := length_le_of_token? h
            (tokens? rest').map (t :: ·)
termination_by cs => cs.length

end MetadataArchive.Json
