import MetadataArchive.Text.Blank
import MetadataArchive.Text.CaseFolding
import MetadataArchive.Text.Category

/-!
# Sets of characters in patterns

What a pattern allows in one place: a range, a named property, and what the operators of a bracketed
class make of other sets. `CharSet.anyCase` adds to a set every character that differs from one of
its members in case only.
-/

set_option autoImplicit false

namespace MetadataArchive.Pattern

inductive Property where
  | any
  | ascii
  | assigned
  | unassigned
  | space
  | word
  | alphabetic
  | lowercase
  | uppercase
  | categories (gs : List Category)
  deriving Repr

def Property.holds (p : Property) (c : Char) : Bool :=
  match p with
  | .any => true
  | .ascii => c.toNat < 128
  | .assigned => isAssigned c
  | .unassigned => !isAssigned c
  | .space => isBlank c
  | .word => isWordChar c
  | .alphabetic => isAlphabetic c
  | .lowercase => Category.ll.holds c || otherLowercase.holds c
  | .uppercase => Category.lu.holds c || otherUppercase.holds c
  | .categories gs => gs.any fun g => g.holds c

inductive CharSet where
  | empty
  | range (low high : Char)
  | property (p : Property)
  | union (a b : CharSet)
  | inter (a b : CharSet)
  | diff (a b : CharSet)
  | symmDiff (a b : CharSet)
  | compl (a : CharSet)
  | anyCase (a : CharSet)
  deriving Repr

namespace CharSet

def holds : CharSet → Char → Bool
  | .empty, _ => false
  | .range low high, c => low ≤ c && c ≤ high
  | .property p, c => p.holds c
  | .union a b, c => a.holds c || b.holds c
  | .inter a b, c => a.holds c && b.holds c
  | .diff a b, c => a.holds c && !b.holds c
  | .symmDiff a b, c => a.holds c != b.holds c
  | .compl a, c => !a.holds c
  | .anyCase a, c => a.holds c || (caseVariants c).any fun v => a.holds v

def single (c : Char) : CharSet := .range c c

def unionOf (sets : List CharSet) : CharSet := sets.foldr .union .empty

def any : CharSet := .property .any

def asciiDigit : CharSet := .range '0' '9'

def asciiLetter : CharSet := .union (.range 'a' 'z') (.range 'A' 'Z')

def asciiSpace : CharSet := .union (.range '\t' '\r') (single ' ')

def asciiWord : CharSet := .union (.union asciiLetter asciiDigit) (single '_')

def ofAsciiName? (name : String) : Option CharSet :=
  match name with
  | "alnum" => some (.union asciiLetter asciiDigit)
  | "alpha" => some asciiLetter
  | "ascii" => some (.property .ascii)
  | "blank" => some (.union (single ' ') (single '\t'))
  | "cntrl" => some (.union (.range (Char.ofNat 0) (Char.ofNat 31)) (single (Char.ofNat 127)))
  | "digit" => some asciiDigit
  | "graph" => some (.range '!' '~')
  | "lower" => some (.range 'a' 'z')
  | "print" => some (.range ' ' '~')
  | "punct" =>
      some (unionOf [.range '!' '/', .range ':' '@', .range '[' (Char.ofNat 0x60),
        .range (Char.ofNat 0x7b) '~'])
  | "space" => some asciiSpace
  | "upper" => some (.range 'A' 'Z')
  | "word" => some asciiWord
  | "xdigit" => some (unionOf [asciiDigit, .range 'A' 'F', .range 'a' 'f'])
  | _ => none

end CharSet

namespace Property

/-- The groups of categories, by their short and long names. -/
def groups : List (List String × List Category) :=
  [(["l", "letter"], [.lu, .ll, .lt, .lm, .lo]),
   (["lc", "casedletter"], [.lu, .ll, .lt]),
   (["m", "mark", "combiningmark"], [.mn, .mc, .me]),
   (["n", "number"], [.nd, .nl, .no]),
   (["p", "punctuation", "punct"], [.pc, .pd, .ps, .pe, .pi, .pf, .po]),
   (["s", "symbol"], [.sm, .sc, .sk, .so]),
   (["z", "separator"], [.zs, .zl, .zp]),
   (["lu", "uppercaseletter"], [.lu]), (["ll", "lowercaseletter"], [.ll]),
   (["lt", "titlecaseletter"], [.lt]), (["lm", "modifierletter"], [.lm]),
   (["lo", "otherletter"], [.lo]), (["mn", "nonspacingmark"], [.mn]),
   (["mc", "spacingmark"], [.mc]), (["me", "enclosingmark"], [.me]),
   (["nd", "decimalnumber", "digit"], [.nd]), (["nl", "letternumber"], [.nl]),
   (["no", "othernumber"], [.no]), (["pc", "connectorpunctuation"], [.pc]),
   (["pd", "dashpunctuation"], [.pd]), (["ps", "openpunctuation"], [.ps]),
   (["pe", "closepunctuation"], [.pe]), (["pi", "initialpunctuation"], [.pi]),
   (["pf", "finalpunctuation"], [.pf]), (["po", "otherpunctuation"], [.po]),
   (["sm", "mathsymbol"], [.sm]), (["sc", "currencysymbol"], [.sc]),
   (["sk", "modifiersymbol"], [.sk]), (["so", "othersymbol"], [.so]),
   (["zs", "spaceseparator"], [.zs]), (["zl", "lineseparator"], [.zl]),
   (["zp", "paragraphseparator"], [.zp]), (["cc", "control", "cntrl"], [.cc]),
   (["cf", "format"], [.cf]), (["cs", "surrogate"], [.cs]), (["co", "privateuse"], [.co])]

/-- The letters and digits of a property's name in lower case; blanks, hyphens and underscores do
not count. -/
def normalize (name : String) : String :=
  String.ofList ((name.toList.filter fun c => !(c = ' ' || c = '_' || c = '-')).map Char.toLower)

def ofName? (name : String) : Option CharSet :=
  match normalize name with
  | "any" => some .any
  | "ascii" => some (.property .ascii)
  | "assigned" => some (.property .assigned)
  | "cn" | "unassigned" => some (.property .unassigned)
  | "c" | "other" =>
      some (.union (.property (.categories [.cc, .cf, .cs, .co])) (.property .unassigned))
  | "alphabetic" | "alpha" => some (.property .alphabetic)
  | "lowercase" | "lower" => some (.property .lowercase)
  | "uppercase" | "upper" => some (.property .uppercase)
  | "whitespace" | "wspace" | "space" => some (.property .space)
  | n => (groups.find? fun g => g.1.contains n).map fun g => .property (.categories g.2)

/-- The set that a category stands for where the property is named with it. -/
def ofNameAndValue? (name value : String) : Option CharSet :=
  match normalize name with
  | "gc" | "generalcategory" | "category" => ofName? value
  | _ => none

end Property

end MetadataArchive.Pattern
