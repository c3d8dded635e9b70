import ProgramLint.Proofs.Linking.OneTree

/-!
Members and siblings. A member of a node has that node as its parent, so its siblings are the
members of the node, itself among them once. Nodes have no member in common, so members of
different nodes differ in their siblings.
-/

namespace ProgramLint.Tree

/-- The members of a node; a number that names no node has none. -/
def membersOf (tree : Tree) (id : NodeId) : List NodeId :=
  (tree.node? id).elim [] Node.members

theorem membersOf_suffix_childrenOf (tree : Tree) (id : NodeId) :
    tree.membersOf id <:+ tree.childrenOf id := by
  unfold membersOf Draft.childrenOf
  cases tree.node? id with
  | none => exact List.suffix_rfl
  | some node => exact node.members_suffix_children

namespace Linked
variable {tree : Tree} {owner other member fellow : NodeId}

theorem parent?_of_mem_membersOf (linked : tree.Linked) (held : member ∈ tree.membersOf owner) :
    tree.parent? member = some owner :=
  linked.parent?_eq_some_iff.mpr ((tree.membersOf_suffix_childrenOf owner).subset held)

theorem nodup_membersOf (linked : tree.Linked) (owner : NodeId) :
    (tree.membersOf owner).Nodup :=
  (Draft.nodup_childrenOf linked.held_nodup owner).sublist
    (tree.membersOf_suffix_childrenOf owner).sublist

theorem siblings_of_mem_membersOf (linked : tree.Linked) (held : member ∈ tree.membersOf owner) :
    tree.siblings member = tree.membersOf owner := by
  rw [siblings, parentNode?, linked.parent?_of_mem_membersOf held, Option.bind_some]
  rfl

/-- Members with the same siblings are members of the same node. -/
theorem siblings_eq_iff (linked : tree.Linked) (held : member ∈ tree.membersOf owner)
    (also : fellow ∈ tree.membersOf other) :
    tree.siblings member = tree.siblings fellow ↔
      ∃ around, member ∈ tree.membersOf around ∧ fellow ∈ tree.membersOf around := by
  rw [linked.siblings_of_mem_membersOf held, linked.siblings_of_mem_membersOf also]
  apply Iff.intro
  · intro same
    exact ⟨owner, held, same ▸ also⟩
  · intro common
    obtain ⟨around, here, there⟩ := common
    have first : tree.membersOf owner = tree.membersOf around := by
      rw [← linked.siblings_of_mem_membersOf held, linked.siblings_of_mem_membersOf here]
    have second : tree.membersOf other = tree.membersOf around := by
      rw [← linked.siblings_of_mem_membersOf also, linked.siblings_of_mem_membersOf there]
    rw [first, second]

end Linked

/-- Members are the last children of every node, and in a linked tree the siblings of a member
are the members of its parent, the member itself among them once. Two members have the same
siblings, which are some, exactly if they are members of the same node. -/
theorem members_with_siblings :
    (∀ node : Node, node.members <:+ node.children) ∧
    ∀ (draft : Draft) (members : List NodeId) (tree : Tree), draft.link members = .ok tree →
      (∀ owner, ∀ member ∈ tree.membersOf owner,
        tree.parent? member = some owner ∧ tree.siblings member = tree.membersOf owner ∧
          (tree.siblings member).count member = 1) ∧
      ∀ member fellow, (∃ owner, member ∈ tree.membersOf owner) →
        (∃ owner, fellow ∈ tree.membersOf owner) →
        ((tree.siblings member = tree.siblings fellow ∧ tree.siblings member ≠ []) ↔
          ∃ owner, member ∈ tree.membersOf owner ∧ fellow ∈ tree.membersOf owner) := by
  refine ⟨Node.members_suffix_children, fun draft members tree accepted => ?_⟩
  have linked := linked_of_link accepted
  refine ⟨fun owner member held => ?_, fun member fellow among amongst => ?_⟩
  · have siblings := linked.siblings_of_mem_membersOf held
    refine ⟨linked.parent?_of_mem_membersOf held, siblings, ?_⟩
    rw [siblings]
    exact List.count_eq_one_of_mem (linked.nodup_membersOf owner) held
  · obtain ⟨owner, held⟩ := among
    obtain ⟨other, also⟩ := amongst
    have inhabited : tree.siblings member ≠ [] := by
      rw [linked.siblings_of_mem_membersOf held]
      exact List.ne_nil_of_mem held
    rw [and_iff_left inhabited]
    exact linked.siblings_eq_iff held also

theorem members_with_siblings_specimen :
    Draft.specimen.link [7] = .ok Tree.specimen ∧
      Tree.specimen.siblings 3 = [4, 3] ∧ Tree.specimen.siblings 4 = [4, 3] ∧
      ∃ owner, 3 ∈ Tree.specimen.membersOf owner ∧ 4 ∈ Tree.specimen.membersOf owner := by
  have coherent := members_with_siblings.2 Draft.specimen [7] Tree.specimen Draft.link_specimen
  have field := coherent.1 5 4 (by decide)
  have method := coherent.1 5 3 (by decide)
  refine ⟨Draft.link_specimen, method.2.1, field.2.1, ?_⟩
  apply (coherent.2 3 4 ⟨5, by decide⟩ ⟨5, by decide⟩).mp
  exact ⟨by rw [method.2.1, field.2.1], by rw [method.2.1]; decide⟩

end ProgramLint.Tree
