import ObjectFlow.Config.Error

/-!
# Refusals

An analysis refuses a program with a defect, and settings that contradict themselves.
-/

namespace ObjectFlow

/-- Why an analysis is not begun. -/
inductive Refusal where
  | program (reason : String)
  | config (error : Config.Error)
  deriving DecidableEq, Repr

def Refusal.message : Refusal → String
  | program reason => "Invalid program: " ++ reason
  | config error => "Configuration error: " ++ error.message

end ObjectFlow
