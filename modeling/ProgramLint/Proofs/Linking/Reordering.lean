import ProgramLint.Proofs.Linking.OneTree
import ProgramLint.Proofs.Node.Members

/-!
Linking does not depend on the order in which containers hold their members. The search visits
nodes in another order then, but it still finds one tree if there is one, and records the parents
it recorded before.
-/

namespace ProgramLint
open scoped List

namespace Draft

/-- The same nodes under the same numbers, up to the order in which they hold their members. -/
def Reordered (draft other : Draft) : Prop :=
  ∀ id, ∃ order, other.node? id = (draft.node? id).map (Node.withMembers order) ∧
    ∀ node, draft.node? id = some node → order ~ node.members

/-- A draft in which one node, if there is one under the number, holds other members. -/
def withMembers (draft : Draft) (id : NodeId) (members : List NodeId) : Draft :=
  { draft with
    arena := draft.arena.modify id (Node.withMembers members)
    aligned := by rw [Array.size_modify, draft.aligned] }

/-- Links a draft in which one node holds other members. The root is not in the draft yet, and
holds the members that linking gives it. -/
def linkWith (draft : Draft) (members : List NodeId) (id : NodeId) (others : List NodeId) :
    Except LinkFault Tree :=
  if id = draft.size then draft.link others else (draft.withMembers id others).link members

variable {draft other : Draft} {id owner child root : NodeId} {members others : List NodeId}

theorem node?_withMembers (draft : Draft) (id other : NodeId) (members : List NodeId) :
    (draft.withMembers id members).node? other =
      if id = other then (draft.node? other).map (Node.withMembers members)
      else draft.node? other := by
  simp only [withMembers, node?, Array.getElem?_modify]

theorem reordered_withMembers
    (order : ∀ node, draft.node? id = some node → members ~ node.members) :
    draft.Reordered (draft.withMembers id members) := by
  intro other
  rw [node?_withMembers]
  by_cases same : id = other
  · subst same
    exact ⟨members, if_pos rfl, order⟩
  · rw [if_neg same]
    cases found : draft.node? other with
    | none => exact ⟨[], rfl, by simp⟩
    | some node => exact ⟨node.members, by simp, by simp⟩

namespace Reordered
variable (same : draft.Reordered other)

include same

/-- What can be said of no node, and of a node with its members in another order beside the node
as it is, can be said of the two nodes under a number. -/
@[elab_as_elim]
theorem node?_elim (id : NodeId) {motive : Option Node → Option Node → Prop}
    (absent : motive none none)
    (present : ∀ node order, order ~ node.members →
      motive (some (node.withMembers order)) (some node)) :
    motive (other.node? id) (draft.node? id) := by
  obtain ⟨order, there, perm⟩ := same id
  rw [there]
  cases found : draft.node? id with
  | none => exact absent
  | some node => exact present node order (perm node found)

theorem contains_eq (id : NodeId) : other.contains id = draft.contains id := by
  rw [contains_eq_isSome, contains_eq_isSome]
  exact same.node?_elim id rfl fun _ _ _ => rfl

theorem size_eq : other.size = draft.size := by
  have within : ∀ id, id < other.size ↔ id < draft.size := by
    intro id
    rw [← contains_iff, ← contains_iff, same.contains_eq id]
  have upper := within draft.size
  have lower := within other.size
  omega

theorem childrenOf_perm (id : NodeId) : other.childrenOf id ~ draft.childrenOf id := by
  unfold childrenOf
  exact same.node?_elim id (.refl _) fun _ _ order => Node.children_withMembers_perm order

theorem held_perm : other.held ~ draft.held := by
  rw [held_eq, held_eq, same.size_eq]
  exact List.Perm.flatMap_left _ fun id _ => same.childrenOf_perm id

theorem reaches_iff : other.Reaches owner child ↔ draft.Reaches owner child := by
  have step : (fun owner child => child ∈ other.childrenOf owner) =
      fun owner child => child ∈ draft.childrenOf owner := by
    ext owner child
    exact (same.childrenOf_perm owner).mem_iff
  unfold Reaches
  rw [step]

theorem oneTree (tree : draft.OneTree root) : other.OneTree root where
  known := by
    intro id held
    rw [same.size_eq]
    exact tree.known id (same.held_perm.mem_iff.mp held)
  unheld := fun held => tree.unheld (same.held_perm.mem_iff.mp held)
  once := by
    intro id inside lower
    rw [same.held_perm.count_eq]
    exact tree.once id (same.size_eq ▸ inside) lower
  reached := fun id inside => same.reaches_iff.mpr (tree.reached id (same.size_eq ▸ inside))

end Reordered

theorem size_parents_of_link {tree : Tree} (linked : draft.link members = .ok tree) :
    tree.parents.size = tree.size := by
  obtain ⟨visited, sound, -⟩ := exists_visited_of_link linked
  exact sound.size

end Draft

namespace Tree
variable {tree other : Tree}

/-- Parents are read off the slots, and in which order a node holds its slots does not matter. -/
theorem parent?_reordered (same : tree.toDraft.Reordered other.toDraft) (linked : tree.Linked)
    (otherLinked : other.Linked) (id : NodeId) : other.parent? id = tree.parent? id := by
  ext owner
  rw [linked.parent?_eq_some_iff, otherLinked.parent?_eq_some_iff]
  exact (same.childrenOf_perm owner).mem_iff

end Tree

namespace Draft
variable {draft elsewhere : Draft} {members others : List NodeId} {tree other : Tree}

theorem parents_reordered (same : tree.toDraft.Reordered other.toDraft)
    (linked : draft.link members = .ok tree) (otherLinked : elsewhere.link others = .ok other) :
    other.parents = tree.parents := by
  have size : other.parents.size = tree.parents.size := by
    rw [size_parents_of_link linked, size_parents_of_link otherLinked, same.size_eq]
  apply Array.ext size
  intro id there here
  have parent := Tree.parent?_reordered same (Tree.linked_of_link linked)
    (Tree.linked_of_link otherLinked) id
  simpa [Tree.parent?, there, here] using parent

/-- Drafts whose nodes differ in the order of members alone are linked alike. -/
theorem exists_link_reordered (linked : draft.link members = .ok tree)
    (same : (draft.withRoot members).Reordered (elsewhere.withRoot others)) :
    ∃ other, elsewhere.link others = .ok other ∧ other.toDraft = elsewhere.withRoot others ∧
      other.root = tree.root ∧ other.parents = tree.parents := by
  obtain ⟨here, top, -, -⟩ := link_eq_ok_iff.mp linked
  have size : elsewhere.size = draft.size := by simpa using same.size_eq
  have single : (elsewhere.withRoot others).OneTree elsewhere.size :=
    size ▸ same.oneTree (oneTree_of_link linked)
  obtain ⟨other, otherLinked⟩ := exists_link_of_oneTree single
  obtain ⟨there, otherTop, -, -⟩ := link_eq_ok_iff.mp otherLinked
  refine ⟨other, otherLinked, there, by rw [otherTop, top, size], ?_⟩
  exact parents_reordered (by rwa [here, there]) linked otherLinked

/-- Giving a node other members and putting the root over the draft can be done in any order. -/
theorem withRoot_withMembers {id : NodeId} (below : id ≠ draft.size) :
    (draft.withMembers id others).withRoot members =
      (draft.withRoot members).withMembers id others := by
  refine Draft.ext (Array.ext_getElem? fun place => ?_) rfl
  simp only [withRoot, add, withMembers, Array.getElem?_push, Array.getElem?_modify,
    Array.size_modify]
  by_cases last : place = draft.arena.size
  · have apart : id ≠ place := last ▸ below
    rw [if_pos last, if_pos last, if_neg apart]
  · rw [if_neg last, if_neg last]

theorem withRoot_eq_withMembers (draft : Draft) (members others : List NodeId) :
    draft.withRoot others = (draft.withRoot members).withMembers draft.size others := by
  refine Draft.ext (Array.ext_getElem? fun place => ?_) rfl
  simp only [withRoot, add, withMembers, size, Array.getElem?_push, Array.getElem?_modify]
  by_cases last : place = draft.arena.size
  · simp [last, Node.withMembers]
  · rw [if_neg last, if_neg last, if_neg (Ne.symm last)]

theorem linked_of_linkWith {id : NodeId} (linked : draft.linkWith members id others = .ok tree) :
    tree.Linked := by
  unfold linkWith at linked
  split at linked
  · exact Tree.linked_of_link linked
  · exact Tree.linked_of_link linked

/-- Members of one node in another order: the draft is linked as before. -/
theorem exists_linkWith (linked : draft.link members = .ok tree) {id : NodeId}
    (order : ∀ node, tree.node? id = some node → others ~ node.members) :
    ∃ other, draft.linkWith members id others = .ok other ∧
      other.toDraft = tree.toDraft.withMembers id others ∧ other.root = tree.root ∧
      other.parents = tree.parents := by
  obtain ⟨here, -, -, -⟩ := link_eq_ok_iff.mp linked
  have same := reordered_withMembers order
  unfold linkWith
  rw [here] at same ⊢
  split
  next top =>
    rw [top, ← withRoot_eq_withMembers] at same ⊢
    exact exists_link_reordered linked same
  next below =>
    rw [← withRoot_withMembers below] at same ⊢
    exact exists_link_reordered linked same

end Draft
end ProgramLint
