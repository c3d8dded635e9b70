import ProgramLint.Proofs.Rule.Reordering
import ProgramLint.Proofs.Validator.Findings

/-!
In which order a container holds its members has no influence on what is found. The same nodes
stand below any target, at each of them the same rules fail, and so a validation finds the same
problems, in an order that follows that of the members.
-/

namespace ProgramLint
open scoped List

namespace Tree
variable {tree other : Tree}

theorem subtree_reordered (same : tree.Reordered other) (linked : tree.Linked)
    (otherLinked : other.Linked) (id : NodeId) : other.subtree id ~ tree.subtree id := by
  by_cases known : tree.contains id = true
  · have inside := Draft.contains_iff.mp known
    have there : id < other.size := same.nodes.size_eq ▸ inside
    apply (List.perm_ext_iff_of_nodup (otherLinked.nodup_subtree id) (linked.nodup_subtree id)).mpr
    intro below
    rw [otherLinked.mem_subtree_iff_reaches there, linked.mem_subtree_iff_reaches inside]
    exact same.nodes.reaches_iff
  · have unknown : ¬other.contains id = true := by rwa [same.nodes.contains_eq]
    rw [subtree, subtree, if_neg known, if_neg unknown]

end Tree

namespace Validator

/-- The same problems in some order, or the same refusal. -/
inductive SameProblems :
    Except Refusal (List Problem) → Except Refusal (List Problem) → Prop where
  | ok {here there : List Problem} : here ~ there → SameProblems (.ok here) (.ok there)
  | error (refusal : Refusal) : SameProblems (.error refusal) (.error refusal)

variable {tree other : Tree} (same : tree.Reordered other) (settings : Settings)

include same

theorem judge_reordered {rule : Rule} (listed : rule ∈ Rule.catalogue) (id : NodeId) :
    ({ settings } : Validator).judge other rule id =
      ({ settings } : Validator).judge tree rule id := by
  unfold judge
  rw [Rule.holds_reordered same listed]

theorem findings_reordered (id : NodeId) :
    ({ settings } : Validator).findings other id =
      ({ settings } : Validator).findings tree id := by
  unfold findings verdicts
  refine same.nodes.node?_elim id rfl fun node order _ => ?_
  rw [Option.elim_some, Option.elim_some, Node.kind_withMembers]
  congr 1
  apply List.map_congr_left
  intro rule member
  exact judge_reordered same settings (mem_catalogue_of_mem_rulesFor settings member) id

theorem validate_reordered (linked : tree.Linked) (otherLinked : other.Linked) (target : NodeId) :
    SameProblems (({ settings } : Validator).validate tree target)
      (({ settings } : Validator).validate other target) := by
  rw [validate_eq, validate_eq, same.nodes.contains_eq,
    funext (findings_reordered same settings)]
  split
  · exact .ok ((Tree.subtree_reordered same linked otherLinked target).symm.flatMap_right _)
  · exact .error _

end Validator

namespace Draft
variable {draft : Draft} {members shuffled : List NodeId} {tree : Tree} {owner : NodeId}
  {holder : Node}

/-- A container of a linked program, and the root as well, may hold its members in any order. The
draft is linked with the parents it had, every rule says the same about every node, and every
validation finds the same problems up to their order. -/
theorem members_unordered (linked : draft.link members = .ok tree)
    (found : tree.node? owner = some holder) (order : shuffled ~ holder.members) :
    ∃ other, draft.linkWith members owner shuffled = .ok other ∧
      other.toDraft = tree.toDraft.withMembers owner shuffled ∧ other.root = tree.root ∧
      other.parents = tree.parents ∧
      (∀ rule ∈ Registry.standard.rules, ∀ id, rule.holds other id = rule.holds tree id) ∧
      ∀ (settings : Settings) (target : NodeId),
        Validator.SameProblems (({ settings } : Validator).validate tree target)
          (({ settings } : Validator).validate other target) := by
  have perm : ∀ node, tree.node? owner = some node → shuffled ~ node.members := by
    intro node here
    rw [found, Option.some_inj] at here
    exact here ▸ order
  obtain ⟨other, moved, nodes, top, parents⟩ := exists_linkWith linked perm
  have same : tree.Reordered other := {
    nodes := nodes ▸ reordered_withMembers perm
    parent? := fun id => by rw [Tree.parent?, parents, Tree.parent?]
  }
  refine ⟨other, moved, nodes, top, parents, fun rule listed => ?_, fun settings target => ?_⟩
  · exact Rule.holds_reordered same (Registry.rules_standard ▸ listed)
  · exact Validator.validate_reordered same settings (Tree.linked_of_link linked)
      (linked_of_linkWith moved) target

/-- The field and the method of a class trade places. -/
theorem members_unordered_specimen :
    specimen.link [7] = .ok Tree.specimen ∧ ∃ other,
      specimen.linkWith [7] 5 [3, 4] = .ok other ∧ other.parents = Tree.specimen.parents ∧
      Rule.fieldApart.holds other 4 = Rule.fieldApart.holds Tree.specimen 4 ∧
      Validator.SameProblems (({} : Validator).validate Tree.specimen 8)
        (({} : Validator).validate other 8) := by
  obtain ⟨other, moved, -, -, parents, rules, problems⟩ :=
    members_unordered link_specimen
      (show Tree.specimen.node? 5 = some (.classDecl { name := "c", members := [4, 3] }) from rfl)
      (show [3, 4] ~ [4, 3] from .swap 4 3 [])
  have listed : Rule.fieldApart ∈ Registry.standard.rules := by
    simp [Registry.rules_standard, Rule.catalogue]
  exact ⟨link_specimen, other, moved, parents, rules _ listed 4, problems {} 8⟩

end Draft
end ProgramLint
