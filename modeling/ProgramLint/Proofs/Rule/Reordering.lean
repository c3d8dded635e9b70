import ProgramLint.Proofs.Linking.Reordering
import ProgramLint.Proofs.Rule.Competition
import ProgramLint.Rule.Catalogue

/-!
No rule sees in which order a container holds its members. Three rules ask whether all members
around a node are apart from it, and the rule for methods takes the members of a class in pairs;
since two methods compete whichever comes first, it makes no difference which one that is.
-/

namespace ProgramLint
open scoped List

namespace Tree

/-- The same nodes under the same parents, up to the order in which nodes hold their members. -/
structure Reordered (tree other : Tree) : Prop where
  nodes : tree.toDraft.Reordered other.toDraft
  parent? : ∀ id, other.parent? id = tree.parent? id

variable {tree other : Tree}

namespace Reordered
variable (same : tree.Reordered other)

include same

theorem nameOf?_eq : other.nameOf? = tree.nameOf? := by
  funext id
  unfold nameOf?
  refine same.nodes.node?_elim id rfl fun node order _ => ?_
  exact Node.name?_withMembers node

theorem sentences_eq : other.sentences = tree.sentences := by
  funext id
  unfold sentences
  refine same.nodes.node?_elim id rfl fun node order _ => ?_
  cases node <;> rfl

theorem isVariadic_eq : other.isVariadic = tree.isVariadic := by
  funext id
  unfold isVariadic
  refine same.nodes.node?_elim id rfl fun node order _ => ?_
  cases node <;> rfl

theorem arity_eq : other.arity = tree.arity := by
  funext parameters
  unfold arity
  rw [same.isVariadic_eq]

theorem signature?_eq : other.signature? = tree.signature? := by
  funext id
  unfold signature?
  rw [same.arity_eq]
  refine same.nodes.node?_elim id rfl fun node order _ => ?_
  cases node <;> rfl

theorem constructorArity?_eq : other.constructorArity? = tree.constructorArity? := by
  funext id
  unfold constructorArity?
  rw [same.arity_eq]
  refine same.nodes.node?_elim id rfl fun node order _ => ?_
  cases node <;> rfl

@[elab_as_elim]
theorem parentNode?_elim (id : NodeId) {motive : Option Node → Option Node → Prop}
    (absent : motive none none)
    (present : ∀ node order, order ~ node.members →
      motive (some (node.withMembers order)) (some node)) :
    motive (other.parentNode? id) (tree.parentNode? id) := by
  unfold parentNode?
  rw [same.parent?]
  cases tree.parent? id with
  | none => exact absent
  | some owner =>
    show motive (other.node? owner) (tree.node? owner)
    exact same.nodes.node?_elim owner absent present

theorem siblings_perm (id : NodeId) : other.siblings id ~ tree.siblings id := by
  unfold siblings
  exact same.parentNode?_elim id (.refl _) fun _ _ order => Node.members_withMembers_perm order

theorem all_siblings_eq (id : NodeId) (test : NodeId → Bool) :
    (other.siblings id).all test = (tree.siblings id).all test :=
  (same.siblings_perm id).all_eq

theorem compete_iff {first second : NodeId} :
    other.Compete first second ↔ tree.Compete first second := by
  rw [← competes_iff, ← competes_iff, competes, competes, same.signature?_eq]

/-- Two methods compete whichever is listed first, so their order decides nothing. -/
theorem clashingMethods_eq_nil_iff {members others : List NodeId} (order : others ~ members) :
    other.clashingMethods others = [] ↔ tree.clashingMethods members = [] := by
  rw [clashingMethods_eq_nil_iff_pairwise, clashingMethods_eq_nil_iff_pairwise]
  simp only [same.compete_iff]
  exact order.pairwise_iff fun apart compete => apart compete.symm

end Reordered
end Tree

namespace Rule
variable {tree other : Tree} {id : NodeId} {node : Node} {order : List NodeId}
  (same : tree.Reordered other)

include same

theorem variadicLast_reordered :
    variadicLast.accepts other id (node.withMembers order) =
      variadicLast.accepts tree id node := by
  cases node with
  | method declared => simp only [variadicLast, Node.withMembers, same.isVariadic_eq]
  | _ => rfl

theorem tryGuarded_reordered :
    tryGuarded.accepts other id (node.withMembers order) = tryGuarded.accepts tree id node := by
  cases node with
  | tryBlock attempt catches always =>
    simp only [tryGuarded, Node.withMembers, same.sentences_eq]
  | _ => rfl

theorem targetLocal_reordered :
    targetLocal.accepts other id (node.withMembers order) = targetLocal.accepts tree id node := by
  cases node with
  | assignment target value => simp only [targetLocal, Node.withMembers, same.nameOf?_eq]
  | _ => rfl

theorem isSuperCall_reordered : isSuperCall other = isSuperCall tree := by
  funext id
  unfold isSuperCall
  refine same.nodes.node?_elim id rfl fun node order _ => ?_
  cases node <;> rfl

theorem methodOwn_reordered :
    methodOwn.accepts other id (node.withMembers order) = methodOwn.accepts tree id node := by
  cases node with
  | method declared =>
    simp only [methodOwn, Node.withMembers, same.sentences_eq, isSuperCall_reordered same]
  | _ => rfl

theorem methodsApart_reordered (perm : order ~ node.members) :
    methodsApart.accepts other id (node.withMembers order) =
      methodsApart.accepts tree id node := by
  cases node with
  | classDecl declared =>
    simp only [methodsApart, Node.withMembers]
    rw [Bool.eq_iff_iff, List.isEmpty_iff, List.isEmpty_iff]
    exact same.clashingMethods_eq_nil_iff perm
  | _ => rfl

theorem objectNamed_reordered :
    objectNamed.accepts other id (node.withMembers order) = objectNamed.accepts tree id node := by
  cases node with
  | singleton declared =>
    simp only [objectNamed, Node.withMembers]
    refine same.parentNode?_elim id rfl fun around order _ => ?_
    cases around <;> rfl
  | _ => rfl

theorem importForeign_reordered :
    importForeign.accepts other id (node.withMembers order) =
      importForeign.accepts tree id node := by
  cases node with
  | importDecl imported generic =>
    simp only [importForeign, Node.withMembers, same.nameOf?_eq, same.all_siblings_eq]
  | _ => rfl

theorem fieldApart_reordered :
    fieldApart.accepts other id (node.withMembers order) = fieldApart.accepts tree id node := by
  cases node with
  | field declared =>
    simp only [fieldApart, Node.withMembers, same.all_siblings_eq]
    congr 1
    funext member
    refine same.nodes.node?_elim member rfl fun sibling order _ => ?_
    cases sibling <;> rfl
  | _ => rfl

theorem constructorsApart_reordered :
    constructorsApart.accepts other id (node.withMembers order) =
      constructorsApart.accepts tree id node := by
  cases node with
  | constructorDecl declared =>
    simp only [constructorsApart, Node.withMembers, same.all_siblings_eq, same.arity_eq,
      same.constructorArity?_eq]
  | _ => rfl

/-- A rule of the catalogue accepts a node whatever the order of members in and around it. -/
theorem accepts_reordered {rule : Rule} (listed : rule ∈ catalogue)
    (perm : order ~ node.members) :
    rule.accepts other id (node.withMembers order) = rule.accepts tree id node := by
  simp only [catalogue, List.mem_cons, List.not_mem_nil, or_false] at listed
  rcases listed with rfl | rfl | rfl | rfl | rfl | rfl | rfl | rfl | rfl | rfl | rfl | rfl
  · cases node <;> rfl
  · cases node <;> rfl
  · exact variadicLast_reordered same
  · cases node <;> rfl
  · exact tryGuarded_reordered same
  · exact objectNamed_reordered same
  · exact importForeign_reordered same
  · exact targetLocal_reordered same
  · exact fieldApart_reordered same
  · exact methodsApart_reordered same perm
  · exact constructorsApart_reordered same
  · exact methodOwn_reordered same

theorem holds_reordered {rule : Rule} (listed : rule ∈ catalogue) (id : NodeId) :
    rule.holds other id = rule.holds tree id := by
  unfold holds
  exact same.nodes.node?_elim id rfl fun _ _ order => accepts_reordered same listed order

end Rule
end ProgramLint
