import ProgramLint.Problem
import ProgramLint.Tree.Basic

/-!
A rule is one thing that can be wrong with a node. It is known by its code, and it looks at
a node together with the tree around it. A number that names no node breaks no rule.
-/

namespace ProgramLint

structure Rule where
  code : String
  description : String
  level : Level
  /-- A rule that is not meant to run by itself can still be asked for. -/
  enabledByDefault : Bool := true
  accepts : Tree → NodeId → Node → Bool

def Rule.holds (rule : Rule) (tree : Tree) (id : NodeId) : Bool :=
  (tree.node? id).all (rule.accepts tree id)

end ProgramLint
