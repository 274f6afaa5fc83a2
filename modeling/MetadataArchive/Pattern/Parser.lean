import MetadataArchive.Pattern.Expr

/-!
# Reading patterns

The dialect: literals, `.`, bracketed classes with ranges, nesting and the operators `&&`, `--` and
`~~`, the classes `\\d \\s \\w`, properties `\\p`, POSIX names inside brackets, alternation, groups
(plain, with flags, named), greedy and lazy repetition, assertions, and the flags `i m s R U u x`.
There are no back-references and no look-around.

Flags given in the middle of a group hold to its end. With the flag `x` blanks do not count and `#`
begins a comment that runs to the end of the line.

A reader either succeeds or refuses the pattern; why it refuses is not told. Readers that call each
other recursively take a bound on the depth, which the length of the pattern is enough for.
-/

set_option autoImplicit false

namespace MetadataArchive.Pattern

/-- The flags in force at a place of a pattern. -/
structure Flags where
  anyCase : Bool
  multiLine : Bool
  dotAll : Bool
  crlf : Bool
  unicode : Bool
  spaced : Bool
  deriving Repr

/-- What is left of a pattern, the flags in force, and the names of groups so far. -/
structure Cursor where
  rest : List Char
  flags : Flags
  names : List (List Char)

abbrev Reader := StateT Cursor Option

namespace Reader

variable {α : Type}

def refuse : Reader α := fun _ => none

def check (b : Bool) : Reader Unit := if b then pure () else refuse

def need (o : Option α) : Reader α := fun s => o.map fun a => (a, s)

def peek? : Reader (Option Char) := do return (← get).rest.head?

def peekSecond? : Reader (Option Char) := do return (← get).rest[1]?

/-- The next character; the end of the pattern is refused. -/
def peek : Reader Char := do need (← peek?)

def advance : Reader Unit := modify fun s => { s with rest := s.rest.drop 1 }

/-- The next character, which is passed. -/
def next : Reader Char := do
  let c ← peek
  advance
  return c

def flags : Reader Flags := do return (← get).flags

/-- Whether what is left begins with a word, which is then passed. -/
def passIf (word : String) : Reader Bool := do
  let s ← get
  if word.toList.isPrefixOf s.rest then
    set { s with rest := s.rest.drop word.length }
    return true
  else return false

end Reader

open Reader

def dropSpaced (cs : List Char) : List Char :=
  go cs.length cs
where
  go : Nat → List Char → List Char
    | 0, cs => cs
    | n + 1, cs =>
        match cs with
        | '#' :: rest => go n ((rest.dropWhile (· != '\n')).drop 1)
        | c :: rest => if isBlank c then go n rest else c :: rest
        | [] => []

/-- Pass blanks and comments where the flags say that they do not count. -/
def skipSpaced : Reader Unit :=
  modify fun s => if s.flags.spaced then { s with rest := dropSpaced s.rest } else s

def advanceSpaced : Reader Unit := do
  advance
  skipSpaced

def peekSecondSpaced? : Reader (Option Char) := do
  let s ← get
  let rest := s.rest.drop 1
  return (if s.flags.spaced then dropSpaced rest else rest).head?

def readWhile (p : Char → Bool) : Reader (List Char) := do
  let s ← get
  set { s with rest := s.rest.dropWhile p }
  return s.rest.takeWhile p

def hexValue? (c : Char) : Option Nat :=
  if c.isDigit then some (c.toNat - 48)
  else if 'a' ≤ c && c ≤ 'f' then some (c.toNat - 87)
  else if 'A' ≤ c && c ≤ 'F' then some (c.toNat - 55)
  else none

def charOf? (n : Nat) : Option Char := if h : n.isValidChar then some (Char.ofNatAux n h) else none

def hexDigits : Nat → Nat → Reader Nat
  | 0, n => return n
  | k + 1, n => do
      let d ← need (hexValue? (← peek))
      advanceSpaced
      hexDigits k (16 * n + d)

def hexBraced : Nat → Nat → Reader Nat
  | 0, _ => refuse
  | fuel + 1, n => do
      let c ← peek
      if c = '\x7d' then
        advanceSpaced
        return n
      else
        let d ← need (hexValue? c)
        advanceSpaced
        hexBraced fuel (min (16 * n + d) 0x110000)

/-- A character given by its code point; `letter` says how many digits it has without braces. -/
def hexChar (letter : Char) : Reader Char := do
  advanceSpaced
  if (← peek) = '\x7b' then
    advanceSpaced
    check ((← peek) != '\x7d')
    need (charOf? (← hexBraced (← get).rest.length 0))
  else
    let digits := if letter = 'x' then 2 else if letter = 'u' then 4 else 8
    need (charOf? (← hexDigits digits 0))

/-- The set of a class that is named by a letter, as the flags have it. -/
def classOf (flags : Flags) (letter : Char) : CharSet :=
  match letter with
  | 'd' => if flags.unicode then .property (.categories [.nd]) else CharSet.asciiDigit
  | 's' => if flags.unicode then .property .space else CharSet.asciiSpace
  | _ => if flags.unicode then .property .word else CharSet.asciiWord

/-- A set with the variants in case that the flags ask for. -/
def withCase (flags : Flags) (s : CharSet) : CharSet := if flags.anyCase then .anyCase s else s

def propertyClass (negated : Bool) : Reader CharSet := do
  advanceSpaced
  let flags ← flags
  check flags.unicode
  let c ← peek
  let (negated, s) ←
    if c = '\x7b' then do
      advanceSpaced
      let name ← readWhile (· != '\x7d')
      check ((← next) = '\x7d')
      let name := if flags.spaced then name.filter (fun c => !isBlank c) else name
      let part (sep : Char → Bool) : Option (String × String) :=
        let front := name.takeWhile fun c => !sep c
        let back := name.dropWhile fun c => !sep c
        if back.isEmpty then none
        else some (String.ofList front, String.ofList (back.drop 1))
      match part (· = '!') with
      | some (front, back) =>
          check (back.toList.head? = some '=')
          pure (!negated, ← need (Property.ofNameAndValue? front (String.ofList (back.toList.drop 1))))
      | none =>
          match part fun c => c = ':' || c = '=' with
          | some (front, back) => pure (negated, ← need (Property.ofNameAndValue? front back))
          | none => pure (negated, ← need (Property.ofName? (String.ofList name)))
    else do
      check (c != '\\')
      advanceSpaced
      pure (negated, ← need (Property.ofName? (String.singleton c)))
  let s := withCase flags s
  return if negated then .compl s else s

inductive Atom where
  | literal (c : Char)
  | set (s : CharSet)
  | look (l : Look)

/-- Characters that have a meaning of their own and lose it behind a backslash. -/
def isMeta (c : Char) : Bool :=
  "\\.+*?()|[]\x7b\x7d^$#&-~".toList.contains c

/-- Whether a backslash may stand before a character and then means nothing. -/
def mayEscape (c : Char) : Bool :=
  isMeta c || (c.toNat < 128 && !c.isAlphanum && c != '<' && c != '>')

/-- The word boundary behind `\b`, which may be one of the special ones in braces. -/
def wordBoundary (ascii : Bool) : Reader Look := do
  if (← peek?) != some '\x7b' then return .wordBoundary ascii
  let start ← get
  advanceSpaced
  let nameChar (c : Char) : Bool := c.isAlpha || c = '-'
  if !nameChar (← peek) then
    -- Braces that hold no name are left to be read as a repetition.
    set start
    return .wordBoundary ascii
  let spaced := (← flags).spaced
  let name ← readWhile fun c => nameChar c || (spaced && isBlank c)
  check ((← next) = '\x7d')
  match String.ofList (name.filter nameChar) with
  | "start" => return .wordStart ascii
  | "end" => return .wordEnd ascii
  | "start-half" => return .wordStartHalf ascii
  | "end-half" => return .wordEndHalf ascii
  | _ => refuse

/-- An escape, the backslash not yet passed. -/
def escape : Reader Atom := do
  advance
  let c ← peek
  let flags ← flags
  let ascii := !flags.unicode
  match c with
  | 'x' | 'u' | 'U' => return .literal (← hexChar c)
  | 'p' => return .set (← propertyClass false)
  | 'P' => return .set (← propertyClass true)
  | 'd' | 's' | 'w' =>
      advance
      return .set (classOf flags c)
  | 'D' | 'S' | 'W' =>
      check flags.unicode
      advance
      return .set (.compl (classOf flags c.toLower))
  | _ =>
      advance
      if mayEscape c then return .literal c
      match c with
      | 'a' => return .literal (Char.ofNat 7)
      | 'f' => return .literal (Char.ofNat 12)
      | 't' => return .literal '\t'
      | 'n' => return .literal '\n'
      | 'r' => return .literal '\r'
      | 'v' => return .literal (Char.ofNat 11)
      | 'A' => return .look .textStart
      | 'z' => return .look .textEnd
      | 'b' => return .look (← wordBoundary ascii)
      | 'B' =>
          check flags.unicode
          return .look (.noWordBoundary ascii)
      | '<' => return .look (.wordStart ascii)
      | '>' => return .look (.wordEnd ascii)
      | _ => refuse

/-! ## Bracketed classes -/

/-- A POSIX class inside brackets, such as `[:alpha:]`. Where it is none nothing is passed. -/
def posixClass? : Reader (Option CharSet) := do
  let s ← get
  let flags := s.flags
  let restore : Reader (Option CharSet) := do
    set s
    return none
  match s.rest with
  | '[' :: ':' :: rest =>
      let (negated, rest) := match rest with
        | '^' :: rest => (true, rest)
        | rest => (false, rest)
      let name := rest.takeWhile (· != ':')
      match rest.drop name.length, CharSet.ofAsciiName? (String.ofList name) with
      | ':' :: ']' :: rest, some cls => do
          check (flags.unicode || !negated)
          set { s with rest := rest }
          let cls := withCase flags cls
          return some (if negated then .compl cls else cls)
      | _, _ => restore
  | _ => restore

def classItem : Reader Atom := do
  if (← peek) = '\\' then escape else return .literal (← next)

/-- An item as a set; an assertion is none. -/
def Atom.toSet : Atom → Reader CharSet
  | .literal c => return .single c
  | .set s => return s
  | .look _ => refuse

/-- An item as the end of a range; only a character is one. -/
def Atom.toChar : Atom → Reader Char
  | .literal c => return c
  | _ => refuse

/-- A range, or a single item. -/
def classRange : Reader CharSet := do
  let first ← classItem
  skipSpaced
  let c ← peek
  let after ← peekSecondSpaced?
  -- A hyphen before the closing bracket stands for itself, one before another is an operator.
  if c != '-' || after = some ']' || after = some '-' then first.toSet
  else
    advanceSpaced
    let low ← first.toChar
    let high ← (← classItem).toChar
    check (low ≤ high)
    return .range low high

inductive ClassOp where
  | inter
  | diff
  | symmDiff

def ClassOp.apply (flags : Flags) (op : ClassOp) (a b : CharSet) : CharSet :=
  let a := withCase flags a
  let b := withCase flags b
  match op with
  | .inter => .inter a b
  | .diff => .diff a b
  | .symmDiff => .symmDiff a b

/-- The hyphens at the front of a class, which stand for themselves. -/
def leadingHyphens : Nat → List CharSet → Reader (List CharSet)
  | 0, _ => refuse
  | fuel + 1, acc => do
      if (← peek) = '-' then
        advanceSpaced
        leadingHyphens fuel (.single '-' :: acc)
      else return acc

mutual

/-- A bracketed class, its opening bracket not yet passed. -/
def bracketed : Nat → Reader CharSet
  | 0 => refuse
  | fuel + 1 => do
      advanceSpaced
      let negated ← passIf "^"
      if negated then skipSpaced
      let items ← leadingHyphens (fuel + 1) []
      let items ←
        if items.isEmpty && (← peek) = ']' then do
          advanceSpaced
          pure [CharSet.single ']']
        else pure items
      let s := withCase (← flags) (← classBody fuel none items)
      check (!negated || (← flags).unicode)
      return if negated then .compl s else s

/-- The rest of a class up to its closing bracket. `left` is what stands left of the last operator
and `items` what came since. -/
def classBody : Nat → Option (ClassOp × CharSet) → List CharSet → Reader CharSet
  | 0, _, _ => refuse
  | fuel + 1, left, items => do
      skipSpaced
      let flags ← flags
      let joined (_ : Unit) : CharSet :=
        match left with
        | none => CharSet.unionOf items
        | some (op, a) => op.apply flags a (CharSet.unionOf items)
      let c ← peek
      let second ← peekSecond?
      if c = '[' then
        match ← posixClass? with
        | some cls => classBody fuel left (cls :: items)
        | none => do
            let inner ← bracketed fuel
            classBody fuel left (inner :: items)
      else if c = ']' then
        advance
        return joined ()
      else if c = '&' && second = some '&' then
        advance
        advance
        classBody fuel (some (.inter, joined ())) []
      else if c = '-' && second = some '-' then
        advance
        advance
        classBody fuel (some (.diff, joined ())) []
      else if c = '~' && second = some '~' then
        advance
        advance
        classBody fuel (some (.symmDiff, joined ())) []
      else
        let s ← classRange
        classBody fuel left (s :: items)

end

/-! ## Groups -/

def Flags.switch? (f : Flags) (letter : Char) (on : Bool) : Option Flags :=
  match letter with
  | 'i' => some { f with anyCase := on }
  | 'm' => some { f with multiLine := on }
  | 's' => some { f with dotAll := on }
  | 'R' => some { f with crlf := on }
  | 'U' => some f
  | 'u' => some { f with unicode := on }
  | 'x' => some { f with spaced := on }
  | _ => none

/-- The flags up to a closing parenthesis or a colon. -/
def switchFlags (letters : List Char) (f : Flags) : Option Flags :=
  -- No letter comes twice, and neither does the minus.
  if letters.getLast? = some '-' || !letters.Nodup then none
  else go true letters f
where
  go (on : Bool) : List Char → Flags → Option Flags
    | [], f => some f
    | '-' :: rest, f => go false rest f
    | c :: rest, f => (f.switch? c on).bind (go on rest)

def isNameChar (first : Bool) (c : Char) : Bool :=
  c = '_' || isAlphabetic c ||
    (!first && (c = '.' || c = '[' || c = ']' || isNumeric c))

def groupName : Reader Unit := do
  let name ← readWhile (· != '>')
  check ((← next) = '>')
  match name with
  | [] => refuse
  | c :: rest =>
      check (isNameChar true c && rest.all (isNameChar false))
      let s ← get
      check (!s.names.contains name)
      set { s with names := name :: s.names }

inductive Opening where
  /-- Flags for what follows, and no group. -/
  | flags
  /-- A group, whose flags are in force. -/
  | group

def groupOpening : Reader Opening := do
  skipSpaced
  let rest := (← get).rest
  check (!(["?=", "?!", "?<=", "?<!"].any fun (word : String) => word.toList.isPrefixOf rest))
  if ← passIf "?P<" then
    groupName
    return .group
  if ← passIf "?<" then
    groupName
    return .group
  if ← passIf "?" then
    let letters ← readWhile fun c => c != ':' && c != ')'
    let close ← next
    let s ← get
    set { s with flags := ← need (switchFlags letters s.flags) }
    if close = ')' then
      check (!letters.isEmpty)
      return .flags
    return .group
  return .group

/-! ## Expressions -/

/-- A decimal number, blanks around it allowed; nothing where there are no digits. -/
def decimal? : Reader (Option Nat) := do
  let _ ← readWhile isBlank
  let spaced := (← flags).spaced
  let ds ← readWhile fun c => c.isDigit || (spaced && isBlank c)
  let _ ← readWhile isBlank
  let ds := ds.filter Char.isDigit
  if ds.isEmpty then return none
  let n := ds.foldl (fun n c => 10 * n + (c.toNat - 48)) 0
  check (n < UInt32.size)
  return some n

/-- The bounds of a counted repetition, its opening brace not yet passed. -/
def repetitionBounds : Reader (Nat × Option Nat) := do
  advanceSpaced
  let low ← decimal?
  let bounds ←
    if (← peek) != ',' then do
      let n ← need low
      pure (n, some n)
    else do
      advanceSpaced
      if (← peek) = '\x7d' then pure (← need low, none)
      else do
        let low ← need low
        pure (low, some (← need (← decimal?)))
  check ((← next) = '\x7d')
  skipSpaced
  check (bounds.2.all fun most => bounds.1 ≤ most)
  return bounds

def dot (flags : Flags) : Option CharSet :=
  if !flags.unicode then none
  else if flags.dotAll then some .any
  else if flags.crlf then some (.compl (.union (.single '\n') (.single '\r')))
  else some (.compl (.single '\n'))

/-- One character of a pattern, an escape or a class without brackets. -/
def primitive : Reader Expr := do
  let flags ← flags
  let literal (c : Char) : Reader Expr := do
    check (flags.unicode || c.toNat < 128)
    return .chars (withCase flags (.single c))
  match ← peek with
  | '\\' =>
      match ← escape with
      | .literal c => literal c
      | .set s => return .chars s
      | .look l => return .look l
  | '.' =>
      advance
      return .chars (← need (dot flags))
  | '^' =>
      advance
      return .look (if flags.multiLine then .lineStart flags.crlf else .textStart)
  | '$' =>
      advance
      return .look (if flags.multiLine then .lineEnd flags.crlf else .textEnd)
  | c =>
      advance
      literal c

/-- The expressions of a branch, one after the other; flags in between are nothing. -/
def sequence (parts : List (Option Expr)) : Expr :=
  parts.foldl (fun e part => match part with
    | none => e
    | some p => .seq p e) .empty

mutual

/-- Branches up to the end of a group or of the pattern. -/
def alternation : Nat → Reader Expr
  | 0 => refuse
  | fuel + 1 => do
      let first := sequence (← branch fuel [])
      if ← passIf "|" then return .alt first (← alternation fuel)
      else return first

/-- The rest of a branch. `parts` are the expressions so far, the last one first; in place of flags
stands nothing. -/
def branch : Nat → List (Option Expr) → Reader (List (Option Expr))
  | 0, _ => refuse
  | fuel + 1, parts => do
      skipSpaced
      -- There has to be an expression in front, and flags are none.
      let repeatLast (least : Nat) (most : Option Nat) : Reader (List (Option Expr)) := do
        match parts with
        | some e :: rest => branch fuel (some (.rep e least most) :: rest)
        | _ => refuse
      let simple (least : Nat) (most : Option Nat) : Reader (List (Option Expr)) := do
        advance
        let _ ← passIf "?"
        repeatLast least most
      match ← peek? with
      | none | some ')' | some '|' => return parts
      | some '(' =>
          let outer ← flags
          advance
          match ← groupOpening with
          | .flags => branch fuel (none :: parts)
          | .group =>
              let e ← alternation fuel
              check ((← next) = ')')
              -- Flags that were set inside end with the group.
              modify fun s => { s with flags := outer }
              branch fuel (some e :: parts)
      | some '[' =>
          let s ← bracketed fuel
          branch fuel (some (.chars s) :: parts)
      | some '?' => simple 0 (some 1)
      | some '*' => simple 0 none
      | some '+' => simple 1 none
      | some '\x7b' =>
          let (least, most) ← repetitionBounds
          let _ ← passIf "?"
          repeatLast least most
      | some _ =>
          let e ← primitive
          branch fuel (some e :: parts)

end

def Flags.initial : Flags := ⟨false, false, false, false, true, false⟩

end Pattern

structure Pattern where
  expr : Pattern.Expr
  deriving Repr

namespace Pattern

/-- The pattern that a text denotes, nothing where the text is no pattern or one that is too
large. -/
def read? (s : String) : Option Pattern :=
  match (alternation (2 * s.length + 4)).run ⟨s.toList, Flags.initial, []⟩ with
  | some (e, ⟨[], _, _⟩) => if e.size ≤ Expr.sizeLimit then some ⟨e⟩ else none
  | _ => none

def isValid (s : String) : Bool := (read? s).isSome

/-- The pattern that matches a whole text where the pattern of `s` does. What `s` holds is put
between the marks of a group as it stands. -/
def readWhole? (s : String) : Option Pattern := read? ("^(?:" ++ s ++ ")$")

def occursIn (p : Pattern) (s : String) : Bool := p.expr.occursIn s

end Pattern

end MetadataArchive
