import MetadataArchive.Pattern.CharSet

/-!
# `Pattern.Expr` -- what a pattern matches

Only one question is asked of a pattern, whether it matches somewhere in a text, so an expression is
given the set of places at which a match that begins at a place can end. Which of several matches
would be preferred does not show, and neither do the names and numbers of groups.

A place is the number of characters in front of it.
-/

set_option autoImplicit false

namespace MetadataArchive.Pattern

/-- A condition on a place, which takes no characters. -/
inductive Look where
  | textStart
  | textEnd
  /-- The start of a line; with `crlf` both line ends count, alone and as a pair. -/
  | lineStart (crlf : Bool)
  | lineEnd (crlf : Bool)
  /-- One side is a word character and the other is not. -/
  | wordBoundary (ascii : Bool)
  | noWordBoundary (ascii : Bool)
  | wordStart (ascii : Bool)
  | wordEnd (ascii : Bool)
  /-- No word character in front. -/
  | wordStartHalf (ascii : Bool)
  /-- No word character behind. -/
  | wordEndHalf (ascii : Bool)
  deriving Repr

inductive Expr where
  | empty
  | chars (s : CharSet)
  | look (l : Look)
  | seq (a b : Expr)
  | alt (a b : Expr)
  /-- From `least` to `most` times, or without bound. -/
  | rep (e : Expr) (least : Nat) (most : Option Nat)
  deriving Repr

/-- How many sets of characters an expression holds once its counted repetitions are written out. -/
def Expr.size : Expr → Nat
  -- What takes no characters is the same however often it is repeated.
  | .empty | .look _ => 0
  | .chars _ => 1
  | .seq a b | .alt a b => a.size + b.size
  | .rep e least none => e.size * max 1 least
  | .rep e _ (some most) => e.size * most

/-- The greatest size of an expression that is taken: ten mebibytes at thirty-two bytes a set. -/
def Expr.sizeLimit : Nat := 327680

def isWordAt (ascii : Bool) : Option Char → Bool
  | none => false
  | some c => if ascii then CharSet.asciiWord.holds c else isWordChar c

/-- Whether a condition holds between the character in front of a place and the one behind it. -/
def Look.holds (l : Look) (before after : Option Char) : Bool :=
  match l with
  | .textStart => before.isNone
  | .textEnd => after.isNone
  | .lineStart false => before.isNone || before = some '\n'
  | .lineStart true =>
      before.isNone || before = some '\n' || (before = some '\r' && after != some '\n')
  | .lineEnd false => after.isNone || after = some '\n'
  | .lineEnd true =>
      after.isNone || after = some '\r' || (after = some '\n' && before != some '\r')
  | .wordBoundary ascii => isWordAt ascii before != isWordAt ascii after
  | .noWordBoundary ascii => isWordAt ascii before == isWordAt ascii after
  | .wordStart ascii => !isWordAt ascii before && isWordAt ascii after
  | .wordEnd ascii => isWordAt ascii before && !isWordAt ascii after
  | .wordStartHalf ascii => !isWordAt ascii before
  | .wordEndHalf ascii => !isWordAt ascii after

/-- The places of two lists, those of the second that are not in the first behind those of it. -/
def addPlaces (seen new : List Nat) : List Nat :=
  new.foldl (fun acc p => if acc.contains p then acc else acc ++ [p]) seen

/-- The places that one step leads to from any of several. -/
def stepFrom (step : Nat → List Nat) (places : List Nat) : List Nat :=
  places.foldl (fun acc p => addPlaces acc (step p)) []

/-- The places after exactly `n` steps. -/
def stepTimes (step : Nat → List Nat) : Nat → List Nat → List Nat
  | 0, places => places
  | n + 1, places =>
      let reached := stepFrom step places
      -- Where a step leads from places to themselves, so does every later one.
      if reached = places then places else stepTimes step n reached

/-- The places after at most `n` steps. `fresh` are those that were reached last and `seen` all so
far. -/
def stepUpTo (step : Nat → List Nat) : Nat → List Nat → List Nat → List Nat
  | 0, _, seen => seen
  | n + 1, fresh, seen =>
      let reached := (stepFrom step fresh).filter fun p => !seen.contains p
      -- Where a step reaches none that is new, neither does a later one.
      if reached.isEmpty then seen else stepUpTo step n reached (seen ++ reached)

/-- Where a match of an expression that begins at a place of a text can end. -/
def Expr.ends (text : Array Char) : Expr → Nat → List Nat
  | .empty, i => [i]
  | .chars s, i =>
      match text[i]? with
      | some c => if s.holds c then [i + 1] else []
      | none => []
  | .look l, i =>
      if l.holds (if i = 0 then none else text[i - 1]?) text[i]? then [i] else []
  | .seq a b, i => stepFrom (b.ends text) (a.ends text i)
  | .alt a b, i => addPlaces (a.ends text i) (b.ends text i)
  | .rep e least most, i =>
      let first := stepTimes (e.ends text) least [i]
      -- A text has no more places than this, so more rounds would reach nothing.
      let more :=
        match most with
        | none => text.size + 1
        | some m => min (m - least) (text.size + 1)
      stepUpTo (e.ends text) more first first

def Expr.occursIn (e : Expr) (s : String) : Bool :=
  let text := s.toList.toArray
  (List.range (text.size + 1)).any fun i => !(e.ends text i).isEmpty

end MetadataArchive.Pattern
