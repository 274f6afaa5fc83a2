import MetadataArchive.Fact.Document

/-!
# Version histories

Every document has a history: its versions in the order of the transactions that wrote them. A
version that holds no document is an eviction; it takes away the document and, for everyone who
comes later, all that was before it.

A reader is pinned to two transactions. Up to the *basis* it reads; evictions up to the *horizon*,
the last transaction that was there when the reader came, have taken their past away from it. A
reader of the present has both at the last transaction; one of the past has an earlier basis.
-/

set_option autoImplicit false

namespace MetadataArchive

/-- What one transaction wrote under a key: a document, or nothing for an eviction. -/
structure Version where
  tx : Nat
  doc : Option Document

namespace Version

def isEviction (v : Version) : Bool := v.doc.isNone

def isEvictionBy (horizon : Nat) (v : Version) : Bool := v.isEviction && v.tx ≤ horizon

end Version

/-- What a reader is pinned to. -/
structure Pin where
  basis : Nat
  horizon : Nat
  deriving DecidableEq, Repr

/-- The versions of one document, oldest first. -/
abbrev History := List Version

namespace History

/-- What follows the last version that passes a test. -/
def afterLast (test : Version → Bool) (h : History) : History :=
  (h.reverse.takeWhile fun v => !test v).reverse

/-- What a pinned reader sees: of the versions after the last eviction by its horizon, the last one
by its basis. -/
def visible (pin : Pin) (h : History) : Option Document :=
  ((afterLast (Version.isEvictionBy pin.horizon) h).reverse.find? fun v =>
    v.tx ≤ pin.basis).bind Version.doc

def isLive (h : History) : Bool := h.getLast?.any fun v => !v.isEviction

def documentCount (h : History) : Nat := (h.filter fun v => !v.isEviction).length

/-- What has to be kept while `oldest` is the least horizon of the readers there are: what follows
the last eviction that all of them have passed. Without readers no eviction is kept. -/
def prune (oldest : Option Nat) (h : History) : History :=
  afterLast
    (match oldest with
      | none => Version.isEviction
      | some n => Version.isEvictionBy n)
    h

end History

end MetadataArchive
