import MetadataArchive.Json.Reader
import MetadataArchive.Lifecycle.Rejections
import MetadataArchive.Lifecycle.Request
import MetadataArchive.Search.Encoding
import MetadataArchive.Text.Blank

/-!
# Settings of an archive

Settings are written as JSON; a field that is left out has its default. They are valid where the
home collection has a name, nothing that bounds is zero, and a rejected request is remembered for at
least as long as its caller may wait.
-/

set_option autoImplicit false

namespace MetadataArchive

inductive SettingsFault where
  | blankCollection
  /-- A field that bounds is zero. -/
  | notPositive (field : String)
  /-- Failures are dropped before their callers have to give up, both in milliseconds. -/
  | forgetful (ttl commit : Nat)
  | other (reason : String)
  deriving DecidableEq, Repr

def SettingsFault.message : SettingsFault → String
  | .blankCollection => "local_collection_id must not be empty"
  | .notPositive field => field ++ " must be positive"
  | .forgetful ttl commit =>
      "error_cache.ttl_ms (" ++ toString ttl ++ ") is shorter than commit_timeout_ms (" ++
        toString commit ++ ")"
  | .other reason => reason

inductive SettingsError where
  /-- The text is no JSON of settings. -/
  | unreadable
  | invalid (fault : SettingsFault)
  deriving DecidableEq, Repr

def SettingsError.kindName : SettingsError → String
  | .unreadable => "Parse"
  | .invalid _ => "Invalid"

def SettingsError.message : SettingsError → String
  | .unreadable => "failed to parse configuration"
  | .invalid fault => "invalid configuration: " ++ fault.message

def Failure.ofSettings (e : SettingsError) : Failure := ⟨.invalidParameter, e.message⟩

instance : MonadLift (Except SettingsError) (Except Failure) :=
  ⟨Except.mapError Failure.ofSettings⟩

structure Settings where
  /-- The home of all that the archive creates. -/
  collection : Collection
  /-- How long a change waits for its transaction, in milliseconds. -/
  commitTimeoutMs : Nat
  query : QueryLimits
  rejections : RejectionLimits
  deriving DecidableEq, Repr

namespace Settings

/-- The settings where nothing is set. -/
def default : Settings := ⟨⟨"local", none⟩, 30000, .default, .default⟩

def isBlankName (name : String) : Bool := name.toList.all isBlank

/-- Settings have to be valid; the first fault counts. -/
def validate (s : Settings) : Except SettingsFault Unit := do
  if isBlankName s.collection.id then throw .blankCollection
  if s.commitTimeoutMs = 0 then throw (.notPositive "commit_timeout_ms")
  if s.query.timeoutMs = 0 then throw (.notPositive "query.query_timeout_ms")
  if s.query.maxDepth = 0 then throw (.notPositive "query.max_traversal_depth")
  if s.query.maxPageSize = 0 then throw (.notPositive "query.max_page_size")
  if s.rejections.maxEntries = 0 then throw (.notPositive "error_cache.max_entries")
  if s.rejections.ttlMs < s.commitTimeoutMs then
    throw (.forgetful s.rejections.ttlMs s.commitTimeoutMs)

def toJson (s : Settings) : Json :=
  .obj
    [("local_collection_id", .str s.collection.id),
     ("local_collection_name", .ofString? s.collection.name),
     ("commit_timeout_ms", .int s.commitTimeoutMs),
     ("query", s.query.toJson),
     ("error_cache", s.rejections.toJson)]

def ofJson? (j : Json) : Option Settings := do
  let ms ← j.fields? ["local_collection_id", "local_collection_name", "commit_timeout_ms", "query",
    "error_cache"]
  let id ← Json.defaulted ms "local_collection_id" Json.toString? default.collection.id
  let name ← Json.optional ms "local_collection_name" Json.toString?
  some
    { collection := ⟨id, name⟩
      commitTimeoutMs :=
        ← Json.defaulted ms "commit_timeout_ms" (Json.toNat? 64) default.commitTimeoutMs
      query := ← Json.defaulted ms "query" QueryLimits.ofJson? .default
      rejections := ← Json.defaulted ms "error_cache" RejectionLimits.ofJson? .default }

def ofText (text : String) : Except SettingsError Settings := do
  match (Json.read? text).bind ofJson? with
  | none => throw .unreadable
  | some s =>
      s.validate.mapError SettingsError.invalid
      return s

def withCollection (s : Settings) (c : Collection) : Settings := { s with collection := c }

end Settings

end MetadataArchive
