import ProgramLint.Draft

/-!
A tree is a draft whose nodes hang together under one root, with the parent of each.
Questions about a number that names no node have an empty answer.
-/

namespace ProgramLint

structure Tree extends Draft where
  root : NodeId
  parents : Array (Option NodeId)
  deriving DecidableEq

namespace Tree

/-- Only the root, and numbers that name no node, are without a parent. -/
def parent? (tree : Tree) (id : NodeId) : Option NodeId :=
  tree.parents[id]?.join

def parentNode? (tree : Tree) (id : NodeId) : Option Node :=
  (tree.parent? id).bind tree.node?

def nameOf? (tree : Tree) (id : NodeId) : Option String :=
  (tree.node? id).bind Node.name?

/-- The sentences of a body; no other node has any. -/
def sentences (tree : Tree) (id : NodeId) : List NodeId :=
  match tree.node? id with
  | some (.body sentences) => sentences
  | _ => []

/-- The members of the node around a given one, which is among them if it is a member itself. -/
def siblings (tree : Tree) (id : NodeId) : List NodeId :=
  (tree.parentNode? id).elim [] Node.members

/-- Whether two numbers stand for nodes of the same form; two that name no node do. -/
def sameForm (tree : Tree) (first second : NodeId) : Bool :=
  match tree.node? first, tree.node? second with
  | some here, some there => here.sameAs there
  | none, none => true
  | _, _ => false

def isVariadic (tree : Tree) (id : NodeId) : Bool :=
  match tree.node? id with
  | some (.parameter declared) => declared.variadic
  | _ => false

end Tree
end ProgramLint
