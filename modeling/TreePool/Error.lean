import TreePool.IoError
import TreePool.Json.Fault

/-! # Errors

One type for all that an operation on pools, errands, trees and settings can answer in place of a
result. Each error has one text.
-/

namespace TreePool

/-- The path fields of an errand, in the order in which they are checked. -/
inductive PathField where
  | directory
  | source
  | destination
deriving DecidableEq, Repr

def PathField.label : PathField → String
  | .directory => "directory"
  | .source => "from"
  | .destination => "to"

/-- What can be wrong with settings that are well formed. -/
inductive SettingFault where
  | negativeWorkers (workers : Int)
  | serverWorkers (server : String) (workers : Int)
  | other (text : String)
deriving DecidableEq, Repr

def SettingFault.message : SettingFault → String
  | .negativeWorkers workers => "workers must not be negative, got " ++ toString workers
  | .serverWorkers server workers =>
    "workers of server " ++ server ++ " must be -1 or more, got " ++ toString workers
  | .other text => text

inductive Error where
  | io (cause : IoError)
  | json (cause : Json.Error)
  /-- A path that is to be written as text is no text. -/
  | pathNotText
  | invalidSize (size : Int)
  | invalidGateValue (value : Int)
  | poolDestroyed
  | pathTooLong (field : PathField) (length limit : Nat)
  | tooDeep (depth : Nat)
  | unknownServer (index : Nat)
  | invalidSettings (fault : SettingFault)
deriving DecidableEq, Repr

def Error.message : Error → String
  | .io cause => cause.message
  | .json cause => cause.message
  | .pathNotText => "path contains invalid UTF-8 characters"
  | .invalidSize size => "invalid pool size " ++ toString size ++ ": must be at least 1"
  | .invalidGateValue value => "invalid gate value " ++ toString value ++ ": must be 0 or 1"
  | .poolDestroyed => "worker pool has been destroyed"
  | .pathTooLong field length limit =>
    field.label ++ " is " ++ toString length ++ " bytes long, limit is " ++ toString limit
  | .tooDeep depth => "directory depth " ++ toString depth ++ " does not fit a level"
  | .unknownServer index => "unknown server " ++ toString index
  | .invalidSettings fault => fault.message

end TreePool
