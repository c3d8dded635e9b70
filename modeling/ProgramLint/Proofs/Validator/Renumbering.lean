import ProgramLint.Proofs.Linking.Faults
import ProgramLint.Proofs.Linking.Renumbering
import ProgramLint.Proofs.Validator.Alike

/-!
The numbers of nodes mean nothing by themselves. If the nodes of a draft trade numbers, then every
question about the linked program has the answer it had, told about the new numbers.
-/

namespace ProgramLint

def Refusal.renumber (change : NodeId → NodeId) : Refusal → Refusal
  | unknownNode node => unknownNode (change node)
  | unknownRule code => unknownRule code

section Everywhere
open Draft (Alike)
variable {change : Equiv.Perm NodeId} {tree other : Tree}
  (alike : Alike change Set.univ tree.toDraft other.toDraft)
  (linked : tree.Linked) (otherLinked : other.Linked)

namespace Tree

include alike linked otherLinked in
theorem parent?_alike (id : NodeId) :
    other.parent? (change id) = (tree.parent? id).map change := by
  ext owner
  obtain ⟨holder, rfl⟩ := change.surjective owner
  rw [otherLinked.parent?_eq_some_iff, alike.childrenOf (Set.mem_univ holder),
    List.mem_map_of_injective change.injective, ← linked.parent?_eq_some_iff]
  simp

include alike linked otherLinked in
theorem climb_alike (steps : Nat) (id : NodeId) :
    other.climb steps (change id) = (tree.climb steps id).map change := by
  induction steps generalizing id with
  | zero => rfl
  | succ steps ih =>
    rw [climb, climb, parent?_alike alike linked otherLinked]
    cases tree.parent? id with
    | none => rfl
    | some owner => exact congrArg (change owner :: ·) (ih owner)

include alike linked otherLinked in
theorem ancestors_alike (size : other.size = tree.size) (id : NodeId) :
    other.ancestors (change id) = (tree.ancestors id).map change := by
  rw [ancestors, ancestors, size]
  exact climb_alike alike linked otherLinked tree.size id

include alike linked otherLinked in
theorem outward_alike (id : NodeId) : tree.AlikeOutward change Set.univ other id :=
  fun _ _ _ => .of_parent? alike (parent?_alike alike linked otherLinked id)
    fun owner _ => Set.mem_univ owner

include alike linked otherLinked in
theorem subtree_renumber (id : NodeId) :
    other.subtree (change id) = (tree.subtree id).map change := by
  by_cases known : id < tree.size
  · exact subtree_alike alike linked otherLinked (Set.mem_univ id) known
  · have unknown : ¬tree.contains id = true := mt Draft.contains_iff.mp known
    rw [subtree, subtree, alike.contains (Set.mem_univ id), if_neg unknown, if_neg unknown]
    rfl

end Tree

namespace Validator
variable (settings : Settings)

include alike linked otherLinked

theorem check_renumber (code : String) (id : NodeId) :
    ({ settings } : Validator).check other code (change id) =
      ((({ settings } : Validator).check tree code id).map
        (Option.map (Problem.renumber change))).mapError (Refusal.renumber change) := by
  unfold check
  cases known : ({ settings } : Validator).registry.find? code with
  | none => rfl
  | some rule =>
    have listed : rule ∈ Rule.catalogue := by
      rw [← Registry.rules_standard]
      exact (Registry.indexed_standard.find?_eq_some_iff.mp known).1
    simp only
    rw [alike.contains (Set.mem_univ id), judge_alike settings alike (Set.mem_univ id)
      (Tree.outward_alike alike linked otherLinked id) listed]
    split <;> rfl

theorem validate_renumber (id : NodeId) :
    ({ settings } : Validator).validate other (change id) =
      ((({ settings } : Validator).validate tree id).map
        (List.map (Problem.renumber change))).mapError (Refusal.renumber change) := by
  by_cases known : id < tree.size
  · rw [validate_alike settings alike (Set.mem_univ id) linked otherLinked known
      fun below _ => Tree.outward_alike alike linked otherLinked below, validate_eq,
      if_pos (Draft.contains_iff.mpr known)]
    rfl
  · have unknown : ¬tree.contains id = true := mt Draft.contains_iff.mp known
    rw [validate_eq, validate_eq, alike.contains (Set.mem_univ id), if_neg unknown, if_neg unknown]
    rfl

end Validator
end Everywhere

/-- Two trees in which every question has the same answer, told about other numbers. -/
structure Tree.SameUnder (change : NodeId → NodeId) (tree other : Tree) : Prop where
  node? : ∀ id, other.node? (change id) = (tree.node? id).map (Node.renumber change)
  span? : ∀ id, other.span? (change id) = tree.span? id
  parent? : ∀ id, other.parent? (change id) = (tree.parent? id).map change
  ancestors : ∀ id, other.ancestors (change id) = (tree.ancestors id).map change
  subtree : ∀ id, other.subtree (change id) = (tree.subtree id).map change
  check : ∀ settings code id, ({ settings } : Validator).check other code (change id) =
    ((({ settings } : Validator).check tree code id).map
      (Option.map (Problem.renumber change))).mapError (Refusal.renumber change)
  validate : ∀ settings id, ({ settings } : Validator).validate other (change id) =
    ((({ settings } : Validator).validate tree id).map
      (List.map (Problem.renumber change))).mapError (Refusal.renumber change)

namespace Draft
variable {draft : Draft} {members : List NodeId} {tree other : Tree}
  {order : Equiv.Perm (Fin draft.size)}

theorem sameUnder_renumber (linked : draft.link members = .ok tree)
    (moved : (draft.renumber order).link (members.map (NodeId.permute order)) = .ok other) :
    tree.SameUnder (NodeId.permute order) other := by
  have sound := Tree.linked_of_link linked
  have otherSound := Tree.linked_of_link moved
  obtain ⟨here, -, -, -⟩ := link_eq_ok_iff.mp linked
  obtain ⟨there, -, -, -⟩ := link_eq_ok_iff.mp moved
  have alike : Alike (NodeId.permute order) Set.univ tree.toDraft other.toDraft := by
    rw [here, there]
    exact alike_renumber members
  exact {
    node? := fun id => alike.node? id (Set.mem_univ id)
    span? := by
      intro id
      rw [here, there, span?_withRoot, span?_withRoot, span?_renumber]
    parent? := Tree.parent?_alike alike sound otherSound
    ancestors := Tree.ancestors_alike alike sound otherSound
      (by rw [here, there, size_withRoot, size_withRoot, size_renumber])
    subtree := Tree.subtree_renumber alike sound otherSound
    check := Validator.check_renumber alike sound otherSound
    validate := Validator.validate_renumber alike sound otherSound
  }

/-- Nodes may trade numbers before they are linked: linking succeeds or fails as before, and what
there is to ask about the program has the same answer at the new numbers. -/
theorem renumber_preserves (draft : Draft) (members : List NodeId)
    (order : Equiv.Perm (Fin draft.size)) :
    let change := NodeId.permute order
    let moved := (draft.renumber order).link (members.map change)
    ((∃ other, moved = .ok other) ↔ ∃ tree, draft.link members = .ok tree) ∧
    (∀ node owner, draft.link members = .error (.missing node owner) →
      moved = .error (.missing (change node) (change owner))) ∧
    (∀ node, draft.link members = .error (.shared node) →
      moved = .error (.shared (change node))) ∧
    (∀ node, draft.link members = .error (.detached node) →
      ∃ other, moved = .error (.detached other)) ∧
    ∀ tree other, draft.link members = .ok tree → moved = .ok other →
      tree.SameUnder change other := by
  intro change moved
  obtain ⟨accepted, refused⟩ := link_renumber draft members order
  refine ⟨⟨fun success => ?_, fun success => ?_⟩, fun node owner told => ?_, fun node told => ?_,
    fun node told => ?_, fun tree other linked there => sameUnder_renumber linked there⟩
  · obtain ⟨other, there⟩ := success
    cases linked : draft.link members with
    | ok tree => exact ⟨tree, rfl⟩
    | error fault =>
      obtain same | ⟨lost, least, -, same⟩ := refused fault linked
      · exact absurd (there.symm.trans same) (by simp)
      · exact absurd (there.symm.trans same) (by simp)
  · obtain ⟨tree, linked⟩ := success
    exact accepted tree linked
  · obtain same | ⟨lost, least, other, -⟩ := refused _ told
    · exact same
    · contradiction
  · obtain same | ⟨lost, least, other, -⟩ := refused _ told
    · exact same
    · contradiction
  · obtain same | ⟨lost, least, -, same⟩ := refused _ told
    · exact ⟨_, same⟩
    · exact ⟨least, same⟩

/-- The nodes of a draft in the opposite order. -/
def reversal (draft : Draft) : Equiv.Perm (Fin draft.size) :=
  Fin.revPerm

theorem renumber_preserves_reversed :
    (specimen.link [7] = .ok Tree.specimen ∧
      ∃ other, (specimen.renumber specimen.reversal).link
          ([7].map (NodeId.permute specimen.reversal)) = .ok other ∧
        Tree.specimen.SameUnder (NodeId.permute specimen.reversal) other) ∧
    (dangling.link [0, 1] = .error (.missing 7 1) ∧
      (dangling.renumber dangling.reversal).link ([0, 1].map (NodeId.permute dangling.reversal)) =
        .error (.missing (NodeId.permute dangling.reversal 7)
          (NodeId.permute dangling.reversal 1))) ∧
    (crossed.link [1] = .error (.shared 0) ∧
      (crossed.renumber crossed.reversal).link ([1].map (NodeId.permute crossed.reversal)) =
        .error (.shared (NodeId.permute crossed.reversal 0))) ∧
    circular.link [2] = .error (.detached 0) ∧
      ∃ other, (circular.renumber circular.reversal).link
        ([2].map (NodeId.permute circular.reversal)) = .error (.detached other) := by
  obtain ⟨accepted, -, -, -, same⟩ := renumber_preserves specimen [7] specimen.reversal
  obtain ⟨other, there⟩ := accepted.mpr ⟨_, link_specimen⟩
  refine ⟨⟨link_specimen, other, there, same _ _ link_specimen there⟩, ⟨link_dangling, ?_⟩,
    ⟨link_crossed, ?_⟩, link_circular, ?_⟩
  · exact (renumber_preserves dangling [0, 1] dangling.reversal).2.1 7 1 link_dangling
  · exact (renumber_preserves crossed [1] crossed.reversal).2.2.1 0 link_crossed
  · exact (renumber_preserves circular [2] circular.reversal).2.2.2.1 0 link_circular

end Draft
end ProgramLint
