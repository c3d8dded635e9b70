import ProgramLint.Node.Basic

/-!
A container with its members in another order. It is still of its kind, has its name, and holds
the same nodes; what it holds beside its members stays where it is.
-/

namespace ProgramLint.Node
open scoped List

/-- A container with other members; a node that is no container has none and stays as it is. -/
def withMembers (members : List NodeId) : Node → Node
  | environment _ => environment members
  | package declared => package { declared with members }
  | describe name _ => describe name members
  | classDecl declared => classDecl { declared with members }
  | mixinDecl declared => mixinDecl { declared with members }
  | singleton declared => singleton { declared with members }
  | plain => plain

variable {members : List NodeId} (node : Node)

@[simp]
theorem withMembers_members : node.withMembers node.members = node := by
  cases node <;> rfl

@[simp]
theorem kind_withMembers : (node.withMembers members).kind = node.kind := by
  cases node <;> rfl

@[simp]
theorem name?_withMembers : (node.withMembers members).name? = node.name? := by
  cases node <;> rfl

variable {node}

theorem members_withMembers_perm (order : members ~ node.members) :
    (node.withMembers members).members ~ node.members := by
  cases node
  case environment | package | describe | classDecl | mixinDecl | singleton => exact order
  all_goals exact .refl _

theorem children_withMembers_perm (order : members ~ node.members) :
    (node.withMembers members).children ~ node.children := by
  cases node
  case environment | describe => exact order
  case package | classDecl | mixinDecl | singleton => exact order.append_left _
  all_goals exact .refl _

end ProgramLint.Node
