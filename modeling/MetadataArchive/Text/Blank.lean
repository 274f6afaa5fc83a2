/-!
# Blank characters

The characters with the Unicode property White_Space. They may surround the parts of a written
instant, and a collection needs a name that is more than these.
-/

set_option autoImplicit false

namespace MetadataArchive

/-- White_Space. -/
def isBlank (c : Char) : Bool :=
  let n := c.toNat
  (0x9 ≤ n && n ≤ 0xd) || n == 0x20 || n == 0x85 || n == 0xa0 || n == 0x1680 ||
    (0x2000 ≤ n && n ≤ 0x200a) || n == 0x2028 || n == 0x2029 || n == 0x202f || n == 0x205f ||
    n == 0x3000

def skipBlanks (cs : List Char) : List Char := cs.dropWhile isBlank

end MetadataArchive
