import MetadataArchive.Lifecycle.Copy
import MetadataArchive.Lifecycle.Encoding
import MetadataArchive.Lifecycle.Home

/-!
# The catalog of functions

For every kind of request a store knows one function. It reads the invocation from its arguments and
carries the request out. A request that is rejected commits nothing; the failure is left as a note
for whoever submitted it. Only arguments that are no invocation, or one of another kind, abort the
transaction.
-/

set_option autoImplicit false

namespace MetadataArchive

def Request.carryOut (a : Acting) : Request → Except Failure (List Write)
  | .createEntity guid typeName ps cs status => a.createEntity guid typeName ps cs status
  | .createStub proxy => a.createStub proxy
  | .changeEntity guid change => a.changeEntity guid change
  | .purgeEntity guid force => a.purgeEntity guid force
  | .classify guid name ps mode => a.classify guid name ps mode
  | .declassify guid name => a.declassify guid name
  | .createRelationship guid typeName ps status endOne endTwo =>
      a.createRelationship guid typeName ps status endOne endTwo
  | .changeRelationship guid change => a.changeRelationship guid change
  | .purgeRelationship guid force => a.purgeRelationship guid force
  | .storeEntityCopy entity => a.storeEntityCopy entity
  | .purgeEntityCopy guid home => a.purgeEntityCopy guid home
  | .storeRelationshipCopy relationship => a.storeRelationshipCopy relationship
  | .storeHomeRelationship relationship => a.storeHomeRelationship relationship
  | .purgeRelationshipCopy guid home => a.purgeRelationshipCopy guid home
  | .storeClassificationCopy guid classification => a.storeClassificationCopy guid classification
  | .purgeClassificationCopy guid name home => a.purgeClassificationCopy guid name home

namespace Catalog

/-- The reply to an invocation: its writes, or nothing and a note of the failure. -/
def reply (ts : TypeSystem) (ctx : TxContext) (i : Invocation) : Reply Failure :=
  match i.request.carryOut ⟨ts, i.user, i.collection, ctx⟩ with
  | .ok writes => .writes writes none
  | .error failure => .writes [] (some failure)

def function (ts : TypeSystem) (name : String) : TxFunction Failure where
  name := name
  run ctx args :=
    match Invocation.ofJson? args with
    | none => .fault ("malformed arguments to " ++ name)
    | some i =>
        if i.request.function = name then reply ts ctx i
        else .fault (name ++ " invoked with a " ++ i.request.function ++ " request")

def functions (ts : TypeSystem) : List (TxFunction Failure) := Request.functions.map (function ts)

end Catalog

def Invocation.toOp (i : Invocation) : TxOp := .call i.request.function i.toJson

end MetadataArchive
