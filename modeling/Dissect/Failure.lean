import Dissect.Document.Cause

/-! Failures that are not about the data of one file: files that cannot be read or written, and
documents that give no definition. -/
namespace Dissect

inductive Failure where
  | read (path reason : String)
  | write (path reason : String)
  | document (error : Document.Error)
  deriving DecidableEq, Repr

namespace Failure

def message : Failure → String
  | .read path reason => "failed to read file '" ++ path ++ "': " ++ reason
  | .write path reason => "failed to write file '" ++ path ++ "': " ++ reason
  | .document e => "invalid format definition: " ++ e.message

def source : Failure → String
  | .read _ reason => reason
  | .write _ reason => reason
  | .document e => e.message

def isRecoverable : Failure → Bool
  | .document _ => false
  | _ => true

end Failure

end Dissect
