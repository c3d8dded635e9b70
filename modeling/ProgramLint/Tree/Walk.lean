import ProgramLint.Tree.Basic

/-!
Walks through a tree: up from a node to the root, and down through a whole subtree,
every node before its children and the children in the order in which they are written.
No walk takes more steps than the tree has nodes, which is the bound that each is given.
-/

namespace ProgramLint.Tree

/-- The parents met on the way up, nearest first, in at most `steps` steps. -/
def climb (tree : Tree) : (steps : Nat) → NodeId → List NodeId
  | 0, _ => []
  | steps + 1, id =>
    match tree.parent? id with
    | none => []
    | some parent => parent :: tree.climb steps parent

def ancestors (tree : Tree) (id : NodeId) : List NodeId :=
  tree.climb tree.size id

/-- Takes the first waiting node and puts its children in front of the others that wait. -/
def walk (tree : Tree) : (steps : Nat) → (waiting : List NodeId) → List NodeId
  | 0, _ => []
  | _ + 1, [] => []
  | steps + 1, id :: waiting => id :: tree.walk steps (tree.childrenOf id ++ waiting)

/-- A node and all nodes below it. -/
def subtree (tree : Tree) (id : NodeId) : List NodeId :=
  if tree.contains id then tree.walk tree.size [id] else []

/-- Carries a value through a subtree, from node to node. -/
def foldSubtree (tree : Tree) (id : NodeId) (initial : α) (visit : α → NodeId → Node → α) : α :=
  (tree.subtree id).foldl
    (fun value below =>
      match tree.node? below with
      | some node => visit value below node
      | none => value)
    initial

end ProgramLint.Tree
