import MetadataArchive.Proofs.Fact.Document
import MetadataArchive.Proofs.Text.Utf8

/-!
# Attributes that begin alike

A record's properties lie side by side in its document, under names that begin alike, and are read
by a scan that never looks at the rest: it starts where the beginning itself would stand and ends
with the first name that does not have it. It misses nothing (`Document.scans_are_complete`), because
names in order are not torn apart by what they have in common: no name that begins with a stem comes
before the stem, and none after a name that is past the stem and begins otherwise. That is so of
bytes, which the scan compares, as it is of characters.

What is taken away with a beginning is all that such a scan would have met.
-/

set_option autoImplicit false

namespace MetadataArchive

/-- What a scan over the bytes of names yields: the entries from the first name whose bytes are not
less than those of the stem, up to the first after it that does not begin with them. -/
def NameMap.scan {α : Type} (m : NameMap α) (stem : String) : List (String × α) :=
  (m.entries.dropWhile fun e => utf8 e.1 < utf8 stem).takeWhile fun e =>
    (utf8 stem).isPrefixOf (utf8 e.1)

theorem isPrefixOf_utf8 (stem k : String) :
    (utf8 stem).isPrefixOf (utf8 k) = beginsWith stem k := by
  rw [Bool.eq_iff_iff, List.isPrefixOf_iff_prefix, utf8_prefix_iff, beginsWith_iff]

/-- The order of names, in which entries stand, is that of their bytes. -/
theorem NameMap.pairwise_utf8 {α : Type} (m : NameMap α) :
    m.entries.Pairwise fun e f => utf8 e.1 < utf8 f.1 :=
  (List.pairwise_map.1 m.ascending).imp utf8_lt_iff.2

/-- Going by bytes or by characters comes to the same. -/
theorem NameMap.scan_eq {α : Type} (m : NameMap α) (stem : String) :
    m.scan stem = m.startingWith stem := by
  simp only [scan, startingWith, utf8_lt_iff, isPrefixOf_utf8]

namespace Document

variable {d : Document} {stem name : String} {v : Value}

theorem get?_eraseStartingWith_eq_some : (d.eraseStartingWith stem).get? name = some v ↔
    d.get? name = some v ∧ beginsWith stem name = false := by
  rw [get?_eraseStartingWith]
  cases beginsWith stem name <;> simp

/-- What is left and what a scan meets are together all that there was. -/
theorem size_eraseStartingWith (d : Document) (stem : String) :
    (d.startingWith stem).length + (d.eraseStartingWith stem).attributes.size =
      d.attributes.size := by
  rw [startingWith, NameMap.startingWith_eq]
  exact (List.length_eq_length_filter_add fun e : String × Value => beginsWith stem e.1).symm

/-- **Scans over attributes that begin alike are complete.** Every document has its attributes in the
order of the bytes of their names. For every stem, whether it is empty, the name of an attribute or
of any characters, a scan that goes by these bytes yields the attributes whose names begin with the
stem and no others, in the order of names. They are one stretch of the document: what is in front of
them is less than the stem, and what is behind them is greater and does not begin with it. Removing
takes exactly these attributes away, and answers how many they are. -/
theorem scans_are_complete (d : Document) (stem : String) :
    let found := d.attributes.scan stem
    let count := (d.removeStartingWith stem).1
    let kept := (d.removeStartingWith stem).2
    d.attributes.entries.Pairwise (fun e f => utf8 e.1 < utf8 f.1) ∧
      found = d.startingWith stem ∧
      found.Pairwise (fun e f => e.1 < f.1 ∧ utf8 e.1 < utf8 f.1) ∧
      (∀ name v, (name, v) ∈ found ↔ d.get? name = some v ∧ ∃ more, name = stem ++ more) ∧
      (∃ front back, d.attributes.entries = front ++ found ++ back ∧
        (∀ e ∈ front, utf8 e.1 < utf8 stem) ∧
        ∀ e ∈ back, utf8 stem < utf8 e.1 ∧ ¬ ∃ more, e.1 = stem ++ more) ∧
      kept.id = d.id ∧
      (∀ name v, kept.get? name = some v ↔
        d.get? name = some v ∧ ¬ ∃ more, name = stem ++ more) ∧
      count = found.length ∧ count + kept.attributes.size = d.attributes.size := by
  intro found count kept
  have hfound : found = d.startingWith stem := d.attributes.scan_eq stem
  have hsize : found.length + kept.attributes.size = d.attributes.size :=
    hfound ▸ d.size_eraseStartingWith stem
  have hcount : count = found.length := Nat.sub_eq_of_eq_add hsize.symm
  refine ⟨d.attributes.pairwise_utf8, hfound, ?ordered, fun name v => ?met, ?stretch, rfl,
    fun name v => ?kept, hcount, hcount ▸ hsize⟩
  case ordered =>
    have hasc : Entries.Ascending found := hfound ▸ d.attributes.startingWith_ascending stem
    exact (List.pairwise_map.1 hasc).imp fun hlt => ⟨hlt, utf8_lt_iff.2 hlt⟩
  case met =>
    rw [hfound, mem_startingWith, beginsWith_iff_exists, and_comm]
  case stretch =>
    obtain ⟨front, back, hparts, hfront, hback⟩ := d.attributes.exists_stretch stem
    refine ⟨front, back, by rw [hfound]; exact hparts, fun e he => utf8_lt_iff.2 (hfront e he),
      fun e he => ?_⟩
    obtain ⟨hlt, hnot⟩ := hback e he
    rw [← beginsWith_iff_exists, Bool.not_eq_true]
    exact ⟨utf8_lt_iff.2 hlt, hnot⟩
  case kept =>
    rw [← beginsWith_iff_exists, Bool.not_eq_true]
    exact get?_eraseStartingWith_eq_some

/-- The stem is the name of an attribute itself, with one name in front of it and two behind it. -/
example : (NameMap.ofList [("é/1", 3), ("～", 1), ("é", 4), ("😀", 2), ("e", 5)]).scan "é" =
    [("é", 4), ("é/1", 3)] := by
  decide +kernel

end Document

end MetadataArchive
