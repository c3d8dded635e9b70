import ProgramLint.Proofs.Linking.Faults
import ProgramLint.Proofs.Tree.Ancestors

/-!
Drafts that are built from the leaves up: a node refers only to nodes that are there before it.
Linking such a draft comes down to counting. If every node is in one slot, the way up from it leads
to larger and larger numbers, and so to the root, whose number is the largest.
-/

namespace ProgramLint
open scoped List

namespace Draft

/-- No slot holds the number of its own node or of a later one. -/
def BottomUp (draft : Draft) : Prop :=
  ∀ owner, ∀ child ∈ draft.childrenOf owner, child < owner

variable {draft : Draft} {node : Node} {members : List NodeId} {top : NodeId}

theorem bottomUp_iff :
    draft.BottomUp ↔ ∀ owner < draft.size, ∀ child ∈ draft.childrenOf owner, child < owner := by
  apply Iff.intro
  · intro ordered owner _
    exact ordered owner
  · intro ordered owner child holds
    exact ordered owner (lt_of_mem_childrenOf holds) child holds

instance (draft : Draft) : Decidable draft.BottomUp :=
  decidable_of_iff _ bottomUp_iff.symm

/-- Nodes that refer to what is there keep a draft in this shape. -/
theorem BottomUp.add (ordered : draft.BottomUp)
    (known : ∀ child ∈ node.children, child < draft.size) : (draft.add node).2.BottomUp := by
  intro owner child holds
  unfold childrenOf at holds
  rw [node?_add] at holds
  split at holds
  next last =>
    rw [last]
    exact known child holds
  next => exact ordered owner child holds

theorem held_withRoot (draft : Draft) (members : List NodeId) :
    (draft.withRoot members).held = draft.held ++ members := by
  rw [held, nodes_withRoot, List.flatMap_append]
  simp [held, Node.children]

/-- The way up from a node that is in a slot leads to a larger number, and this can go on only up
to the one node that is in none. -/
theorem BottomUp.reaches (ordered : draft.BottomUp)
    (held : ∀ id < draft.size, id ≠ top → id ∈ draft.held) (id : NodeId)
    (inside : id < draft.size) : draft.Reaches top id := by
  by_cases last : id = top
  · rw [last]
    exact .refl
  · obtain ⟨owner, holds⟩ := mem_held.mp (held id inside last)
    have larger : id < owner := ordered owner id holds
    have known : owner < draft.size := lt_of_mem_childrenOf holds
    exact (ordered.reaches held owner known).tail holds
termination_by draft.size - id
decreasing_by exact Nat.sub_lt_sub_left inside larger

section Rooted
variable (ordered : draft.BottomUp) (known : ∀ member ∈ members, member < draft.size)

include ordered known

theorem BottomUp.withRoot : (draft.withRoot members).BottomUp :=
  ordered.add known

theorem BottomUp.lt_of_mem_held_withRoot {id : NodeId}
    (held : id ∈ (draft.withRoot members).held) : id < draft.size := by
  obtain ⟨owner, holds⟩ := mem_held.mp held
  have smaller := ordered.withRoot known owner id holds
  have inside := lt_of_mem_childrenOf holds
  rw [size_withRoot] at inside
  exact Nat.lt_of_lt_of_le smaller (Nat.le_of_lt_succ inside)

theorem BottomUp.oneTree_iff :
    (draft.withRoot members).OneTree draft.size ↔
      ∀ id < draft.size, (draft.held ++ members).count id = 1 := by
  rw [← held_withRoot]
  apply Iff.intro
  · intro tree id inside
    have known : id < (draft.withRoot members).size := by
      rw [size_withRoot]
      exact Nat.lt_succ_of_lt inside
    exact tree.once id known (Nat.ne_of_lt inside)
  · intro counted
    have once : ∀ id < (draft.withRoot members).size, id ≠ draft.size →
        (draft.withRoot members).held.count id = 1 := by
      intro id inside lower
      rw [size_withRoot] at inside
      exact counted id (Nat.lt_of_le_of_ne (Nat.le_of_lt_succ inside) lower)
    exact {
      known := by
        intro id held
        rw [size_withRoot]
        exact Nat.lt_succ_of_lt (ordered.lt_of_mem_held_withRoot known held)
      unheld := fun held => Nat.lt_irrefl _ (ordered.lt_of_mem_held_withRoot known held)
      once := once
      reached := (ordered.withRoot known).reaches fun id inside lower =>
        List.count_pos_iff.mp (by rw [once id inside lower]; decide)
    }

theorem BottomUp.link_ne_missing (id owner : NodeId) :
    draft.link members ≠ .error (.missing id owner) := by
  intro refused
  obtain ⟨-, holds, outside⟩ := of_link_missing refused
  have inside := ordered.lt_of_mem_held_withRoot known (mem_held.mpr ⟨owner, holds⟩)
  rw [size_withRoot] at outside
  exact Nat.not_lt.mpr outside (Nat.lt_succ_of_lt inside)

theorem BottomUp.exists_link_iff :
    (∃ tree, draft.link members = .ok tree) ↔
      ∀ id < draft.size, (draft.held ++ members).count id = 1 := by
  rw [← ordered.oneTree_iff known]
  refine ⟨fun success => ?_, exists_link_of_oneTree⟩
  obtain ⟨tree, linked⟩ := success
  exact oneTree_of_link linked

end Rooted

/-- A draft that is built from the leaves up has no slot with an unknown number, and it is linked
exactly if every node is in one slot. From every node of the tree the numbers rise to the root. -/
theorem link_bottomUp (ordered : draft.BottomUp) (known : ∀ member ∈ members, member < draft.size) :
    (∀ id owner, draft.link members ≠ .error (.missing id owner)) ∧
    ((∃ tree, draft.link members = .ok tree) ↔
      ∀ id < draft.size, (draft.held ++ members).count id = 1) ∧
    ∀ tree, draft.link members = .ok tree →
      (∀ id, tree.contains id = true → id ≠ tree.root →
        ∃ owner, tree.parent? id = some owner ∧ id < owner) ∧
      ∀ id, (id :: tree.ancestors id).Pairwise (· < ·) := by
  refine ⟨ordered.link_ne_missing known, ordered.exists_link_iff known, fun tree linked => ?_⟩
  have sound := Tree.linked_of_link linked
  have rising : tree.BottomUp := by
    rw [(link_eq_ok_iff.mp linked).1]
    exact ordered.withRoot known
  refine ⟨fun id inside lower => ?_, fun id => ?_⟩
  · have held := mt (sound.parent?_eq_none_iff (contains_iff.mp inside)).mp lower
    obtain ⟨owner, above⟩ := Option.ne_none_iff_exists'.mp held
    exact ⟨owner, above, rising owner id (sound.parent?_eq_some_iff.mp above)⟩
  · exact sound.rank_lt_of_upward rising (sound.upward_ancestors id)

/-- With the package as its one member the root is on top of everything. With the class as its
only member it leaves the package out. -/
theorem link_bottomUp_specimen :
    specimen.BottomUp ∧ specimen.link [7] = .ok Tree.specimen ∧
      (2 :: Tree.specimen.ancestors 2).Pairwise (· < ·) ∧
      ¬∃ tree, specimen.link [5] = .ok tree := by
  have ordered : specimen.BottomUp := by decide
  have whole := link_bottomUp ordered (show ∀ member ∈ [7], member < specimen.size by decide)
  have part := link_bottomUp ordered (show ∀ member ∈ [5], member < specimen.size by decide)
  refine ⟨ordered, link_specimen, (whole.2.2 Tree.specimen link_specimen).2 2, ?_⟩
  rw [part.2.1]
  decide

end Draft
end ProgramLint
