import ProgramLint.Linking.Fault

/-!
Why a validator gives no answer, and the two ways in which work on a program can fail as
a whole.
-/

namespace ProgramLint

inductive Refusal where
  | unknownNode (node : NodeId)
  | unknownRule (code : String)
  deriving DecidableEq

def Refusal.message : Refusal → String
  | unknownNode node => "node " ++ NodeId.text node ++ " does not belong to the environment"
  | unknownRule code => "unknown rule: " ++ code

inductive Failure where
  | linking (fault : LinkFault)
  | validating (refusal : Refusal)
  deriving DecidableEq

def Failure.message : Failure → String
  | linking fault => "Failed to link the environment: " ++ fault.message
  | validating refusal => "Validation could not run: " ++ refusal.message

end ProgramLint
