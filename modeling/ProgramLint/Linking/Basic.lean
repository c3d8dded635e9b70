import ProgramLint.Event
import ProgramLint.Tree.Basic
import ProgramLint.Linking.Search

/-!
Linking puts a root over a draft and accepts it if the result is one tree: every slot
holds a node of the draft, no node is held twice, and none is left over.
-/

namespace ProgramLint.Draft

/-- The root comes after all nodes of the draft, so its number is the size of the draft. -/
def withRoot (draft : Draft) (members : List NodeId) : Draft :=
  (draft.add (.environment members)).2

/-- The least number, other than that of the root, that nothing has claimed. -/
def leftOver? (root : NodeId) (claims : Array (Option NodeId)) : Option NodeId :=
  (List.range claims.size).find? fun id => id ≠ root ∧ claims[id]?.join.isNone

def link (draft : Draft) (members : List NodeId) : Except LinkFault Tree := do
  let root := draft.size
  let rooted := draft.withRoot members
  let claims ← Search.run rooted root (Search.start rooted.size root)
  match leftOver? root claims with
  | some lost => .error (.detached lost)
  | none => return { toDraft := rooted, root, parents := claims }

/-- What the journal tells about linking: the size of the tree, and no word about a draft
that is none. -/
def linkEvents : Except LinkFault Tree → List Event
  | .ok tree => [.linked tree.size]
  | .error _ => []

end ProgramLint.Draft
