import Cabinet.Key.SoftDelete
import Cabinet.Record.Row

/-! What can go wrong with a request, and how it is said. -/

namespace Cabinet

structure Issue where
  field : String
  message : String
  deriving DecidableEq

def Issue.text (issue : Issue) : String := issue.field ++ ": " ++ issue.message

def Issue.listText (issues : List Issue) : String := Text.joinWith "; " (issues.map Issue.text)

inductive Error where
  | notFound (kind : RecordKind) (id : String)
  | batchTooLarge (requested limit : Nat)
  | documentExists (id : String)
  | unreadableToken
  | invalid (issues : List Issue)
  | unmarked (fault : SoftDelete.Unmarked)
  | tenant (fault : Tenant.Fault)
  deriving DecidableEq

def Error.message : Error → String
  | .notFound kind id => "Storage error: Record not found: " ++ kind.name ++ " with id " ++ id
  | .batchTooLarge requested limit =>
    "Storage error: Batch of " ++ Text.decimal requested ++
      " keys exceeds the backend limit of " ++ Text.decimal limit
  | .documentExists id =>
    "Storage error: Precondition failed: document " ++ id ++ " already exists"
  | .unreadableToken => "Storage error: Serialization failed"
  | .invalid issues => "Validation error: " ++ Issue.listText issues
  | .unmarked fault => "Key error: " ++ fault.message
  | .tenant fault => "Key error: " ++ fault.message

end Cabinet
