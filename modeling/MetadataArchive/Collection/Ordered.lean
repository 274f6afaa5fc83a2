/-!
# Ordered lists

Two ways in which answers are put in order, each by insertion into a list that is already in order:

* `distinct` keeps one element of each class of equals, the first one met, in ascending order;
* `sortStable` keeps all elements and leaves equals in the order in which they came.

Both take the comparison as an argument. They ask nothing of it: where a comparison is not
transitive the result is still the one that insertion from the stated side gives.
-/

set_option autoImplicit false

namespace MetadataArchive.Ordered

variable {α : Type}

/-- Insert from the front: before the first element that is greater, not at all where an equal one
is met first. -/
def insertNew (cmp : α → α → Ordering) (x : α) : List α → List α
  | [] => [x]
  | y :: rest =>
      match cmp x y with
      | .lt => x :: y :: rest
      | .eq => y :: rest
      | .gt => y :: insertNew cmp x rest

/-- One element of each class of equals, the first met, ascending. -/
def distinct (cmp : α → α → Ordering) (xs : List α) : List α :=
  xs.foldl (fun acc x => insertNew cmp x acc) []

/-- Insert into a list that descends: behind every element that `x` is less than, counted from the
greatest. -/
def insertDown (less : α → α → Bool) (x : α) : List α → List α
  | [] => [x]
  | y :: rest => if less x y then y :: insertDown less x rest else x :: y :: rest

/-- All elements in ascending order, equals in the order in which they came. -/
def sortStable (less : α → α → Bool) (xs : List α) : List α :=
  (xs.foldl (fun acc x => insertDown less x acc) []).reverse

/-- Lexicographic order of two lists of which the first that ends is the smaller. -/
def lexicographic (cmp : α → α → Ordering) : List α → List α → Ordering
  | [], [] => .eq
  | [], _ :: _ => .lt
  | _ :: _, [] => .gt
  | x :: xs, y :: ys => (cmp x y).then (lexicographic cmp xs ys)

end MetadataArchive.Ordered
