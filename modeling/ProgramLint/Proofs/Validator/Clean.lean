import ProgramLint.Proofs.Rule.Demands
import ProgramLint.Proofs.Validator.Findings

/-!
A validation of a whole tree finds nothing exactly if every node meets the demands on it by
itself and each of its children fits into it. Nothing here asks for the parent of a node.
-/

namespace ProgramLint
open scoped List

namespace Tree
variable {tree : Tree}

/-- Every node is tidy, and the children of every node fit into it. -/
def Clean (tree : Tree) : Prop :=
  ∀ id node, tree.node? id = some node →
    tree.Tidy node ∧ ∀ child ∈ node.children, ∀ below, tree.node? child = some below →
      tree.Fits node child below

/-- Demands on the node around a node are demands on a node and each of its children. -/
theorem Linked.clean_iff (linked : tree.Linked) :
    tree.Clean ↔ ∀ id node, tree.node? id = some node →
      tree.Tidy node ∧ ∀ around, tree.parentNode? id = some around → tree.Fits around id node := by
  apply Iff.intro
  · intro clean id node found
    refine ⟨(clean id node found).1, fun around above => ?_⟩
    obtain ⟨owner, known, holds⟩ := linked.parentNode?_eq_some_iff.mp above
    exact (clean owner around known).2 id holds node found
  · intro clean id node found
    refine ⟨(clean id node found).1, fun child holds below known => ?_⟩
    exact (clean child below known).2 node (linked.parentNode?_eq_some_iff.mpr ⟨id, found, holds⟩)

end Tree

namespace Validator
variable {draft : Draft} {members : List NodeId} {tree : Tree} {id : NodeId} {node : Node}

theorem judge_eq_none_iff {validator : Validator} {rule : Rule}
    (found : tree.node? id = some node) :
    validator.judge tree rule id = none ↔ rule.accepts tree id node = true := by
  simp [judge, Rule.holds, found]

/-- With nothing switched off, nothing is found exactly if every rule accepts. -/
theorem findings_eq_nil_iff (found : tree.node? id = some node) :
    ({} : Validator).findings tree id = [] ↔
      ∀ rule ∈ Rule.catalogue, rule.accepts tree id node = true := by
  rw [findings_eq {} found, List.reduceOption, List.filterMap_eq_nil_iff]
  simp only [enabledRules, List.forall_mem_map, List.mem_filter, List.not_mem_nil,
    not_false_eq_true, decide_true, and_true, id_eq]
  exact forall₂_congr fun rule _ => judge_eq_none_iff found

/-- The validation of a whole tree is without findings exactly for clean trees. -/
theorem validate_root_eq_nil_iff_clean (linked : draft.link members = .ok tree) :
    ({} : Validator).validate tree tree.root = .ok [] ↔ tree.Clean := by
  have sound := Tree.linked_of_link linked
  rw [validate_eq, if_pos (Draft.contains_iff.mpr sound.root_lt), Except.ok.injEq,
    List.flatMap_eq_nil_iff, sound.clean_iff]
  apply Iff.intro
  · intro silent id node found
    have member := sound.subtree_root.mem_iff.mpr (List.mem_range.mpr (Draft.node?_lt found))
    apply (Rule.accepts_catalogue_iff (sound.members_nodup found)).mp
    exact (findings_eq_nil_iff found).mp (silent id member)
  · intro met id member
    cases found : tree.node? id with
    | none => simp [findings, verdicts, found]
    | some node =>
      apply (findings_eq_nil_iff found).mpr
      exact (Rule.accepts_catalogue_iff (sound.members_nodup found)).mpr (met id node found)

theorem specimen_not_clean :
    Draft.specimen.link [7] = .ok Tree.specimen ∧ ¬Tree.specimen.Clean := by
  refine ⟨Draft.link_specimen, fun clean => ?_⟩
  have silent : ({} : Validator).validate Tree.specimen 8 = .ok [] :=
    (validate_root_eq_nil_iff_clean Draft.link_specimen).mpr clean
  have told : ({} : Validator).validate Tree.specimen 8 =
      .ok [⟨"nameIsCamelCase", .warning, 6⟩, ⟨"singletonIsNotUnnamed", .error, 6⟩,
        ⟨"nameIsPascalCase", .warning, 5⟩, ⟨"fieldNameDifferentFromTheMethods", .error, 4⟩] := by
    cbv
  rw [told] at silent
  contradiction

end Validator
end ProgramLint
