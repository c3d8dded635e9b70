import ProgramLint.Proofs.Rule.Alike
import ProgramLint.Proofs.Validator.Findings

/-!
What a validator says about a region that appears in two trees. The problems are the same ones in
the same order, each at the new number of its node.
-/

namespace ProgramLint

def Problem.renumber (change : NodeId → NodeId) (problem : Problem) : Problem :=
  { problem with node := change problem.node }

namespace Tree

/-- Nodes whose rules look around have the same around them in both trees. -/
def AlikeOutward (change : NodeId → NodeId) (region : Set NodeId) (tree other : Tree)
    (id : NodeId) : Prop :=
  ∀ node, tree.node? id = some node → node.kind ∈ Kind.outward →
    AlikeAround change region tree other id

end Tree

namespace Validator
open Draft (Alike)
variable {change : NodeId → NodeId} {region : Set NodeId} {tree other : Tree} {id : NodeId}
  (settings : Settings) (alike : Alike change region tree.toDraft other.toDraft)
  (inside : id ∈ region) (outward : tree.AlikeOutward change region other id)

include alike inside outward

theorem judge_alike {rule : Rule} (listed : rule ∈ Rule.catalogue) :
    ({ settings } : Validator).judge other rule (change id) =
      (({ settings } : Validator).judge tree rule id).map (Problem.renumber change) := by
  have holds : rule.holds other (change id) = rule.holds tree id := by
    unfold Rule.holds
    rw [alike.node? id inside]
    cases found : tree.node? id with
    | none => rfl
    | some node => exact Rule.accepts_alike listed alike inside found (outward node found)
  rw [judge, judge, holds]
  split <;> rfl

theorem findings_alike :
    ({ settings } : Validator).findings other (change id) =
      (({ settings } : Validator).findings tree id).map (Problem.renumber change) := by
  unfold findings verdicts
  rw [alike.node? id inside]
  cases found : tree.node? id with
  | none => rfl
  | some node =>
    rw [Option.map_some, Option.elim_some, Option.elim_some, Node.kind_renumber,
      ← List.reduceOption_map, List.map_map]
    congr 1
    apply List.map_congr_left
    intro rule member
    exact judge_alike settings alike inside outward (mem_catalogue_of_mem_rulesFor settings member)

omit outward

/-- A subtree in the region is validated alike if its nodes look around alike. -/
theorem validate_alike (linked : tree.Linked) (otherLinked : other.Linked) (known : id < tree.size)
    (outward : ∀ below ∈ tree.subtree id, tree.AlikeOutward change region other below) :
    ({ settings } : Validator).validate other (change id) =
      (({ settings } : Validator).validate tree id).map (List.map (Problem.renumber change)) := by
  have ordered := linked.depthFirst_subtree known
  have within := alike.depthFirst_subset ordered (by simpa using inside)
  rw [validate_of_lt _ (alike.lt_size inside known), validate_of_lt _ known,
    Tree.subtree_alike alike linked otherLinked inside known, Except.map, List.flatMap_map,
    List.map_flatMap]
  congr 1
  apply List.flatMap_congr
  intro below member
  exact findings_alike settings alike (within below member) (outward below member)

end Validator
end ProgramLint
