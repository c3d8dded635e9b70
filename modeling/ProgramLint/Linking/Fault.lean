import ProgramLint.Node.Basic

/-!
Why a draft is not a tree. Of several faults in one draft only the first one met is told.
-/

namespace ProgramLint

inductive LinkFault where
  /-- A slot of `owner` holds a number that was never given out. -/
  | missing (node owner : NodeId)
  /-- A node is held by a second slot, or the root by any. -/
  | shared (node : NodeId)
  /-- No chain of slots leads from the root to the node. -/
  | detached (node : NodeId)
  deriving DecidableEq

def LinkFault.message : LinkFault → String
  | missing node owner =>
    "node " ++ NodeId.text node ++ " referenced by " ++ NodeId.text owner ++ " does not exist"
  | shared node => "node " ++ NodeId.text node ++ " has more than one parent"
  | detached node =>
    "node " ++ NodeId.text node ++ " is not reachable from the environment root"

end ProgramLint
