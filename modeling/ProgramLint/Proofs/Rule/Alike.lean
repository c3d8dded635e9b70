import ProgramLint.Proofs.Tree.Alike
import ProgramLint.Rule.Catalogue

/-!
How far the rules look. Most of them see a node and what is below it; those for objects, fields,
imports and constructors also see the node around it and the other members there. A rule that
sees the same in two trees, up to the numbers of nodes, says the same.
-/

namespace ProgramLint

/-- The kinds of node whose rules look at the node around. -/
def Kind.outward : List Kind :=
  [.singleton, .field, .importDecl, .constructorDecl]

namespace Rule
open Draft (Alike)
variable {change : NodeId → NodeId} {region : Set NodeId} {tree other : Tree} {id : NodeId}
  {node : Node}

theorem typeNameCapital_alike :
    typeNameCapital.accepts other (change id) (node.renumber change) =
      typeNameCapital.accepts tree id node := by
  cases node <;> rfl

theorem valueNameSmall_alike :
    valueNameSmall.accepts other (change id) (node.renumber change) =
      valueNameSmall.accepts tree id node := by
  cases node <;> rfl

theorem nameFree_alike :
    nameFree.accepts other (change id) (node.renumber change) = nameFree.accepts tree id node := by
  cases node <;> rfl

theorem findIdx?_congr {α : Type} {here there : α → Bool} {list : List α}
    (same : ∀ entry ∈ list, there entry = here entry) :
    list.findIdx? there = list.findIdx? here := by
  induction list with
  | nil => rfl
  | cons first rest ih =>
    rw [List.findIdx?_cons, List.findIdx?_cons, same first (by simp),
      ih fun entry later => same entry (List.mem_cons_of_mem _ later)]

section Below
variable (alike : Alike change region tree.toDraft other.toDraft) (inside : id ∈ region)
  (found : tree.node? id = some node)

include alike inside found

theorem variadicLast_alike :
    variadicLast.accepts other (change id) (node.renumber change) =
      variadicLast.accepts tree id node := by
  cases node with
  | method declared =>
    have slots := alike.slots inside found
    have same : (declared.parameters.map change).findIdx? other.isVariadic =
        declared.parameters.findIdx? tree.isVariadic := by
      rw [List.findIdx?_map]
      exact findIdx?_congr fun slot member =>
        Tree.isVariadic_alike alike (slots slot (List.mem_append_left _ member))
    simp only [variadicLast, Node.renumber, same, List.length_map]
  | _ => rfl

theorem tryGuarded_alike :
    tryGuarded.accepts other (change id) (node.renumber change) =
      tryGuarded.accepts tree id node := by
  cases node with
  | tryBlock attempt catches always =>
    have slots := alike.slots inside found
    have first := Tree.sentences_alike alike (slots attempt (by simp [Node.children]))
    have last := Tree.sentences_alike alike (slots always (by simp [Node.children]))
    simp only [tryGuarded, Node.renumber, first, last, List.isEmpty_map]
  | _ => rfl

theorem targetLocal_alike :
    targetLocal.accepts other (change id) (node.renumber change) =
      targetLocal.accepts tree id node := by
  cases node with
  | assignment target value =>
    have slots := alike.slots inside found
    have named := Tree.nameOf?_alike alike (slots target (by simp [Node.children]))
    simp only [targetLocal, Node.renumber, named]
  | _ => rfl

theorem methodsApart_alike :
    methodsApart.accepts other (change id) (node.renumber change) =
      methodsApart.accepts tree id node := by
  cases node with
  | classDecl declared =>
    have slots := alike.slots inside found
    have members : ∀ member ∈ declared.members, member ∈ region := fun member listed =>
      slots member ((Node.members_suffix_children (.classDecl declared)).subset listed)
    simp only [methodsApart, Node.renumber]
    rw [Tree.clashingMethods_alike alike members, List.isEmpty_map]
  | _ => rfl

omit found in
theorem isSuperCall_alike : isSuperCall other (change id) = isSuperCall tree id := by
  unfold isSuperCall
  rw [alike.node? id inside]
  cases tree.node? id with
  | none => rfl
  | some node => cases node <;> rfl

theorem methodOwn_alike :
    methodOwn.accepts other (change id) (node.renumber change) = methodOwn.accepts tree id node := by
  cases node with
  | method declared =>
    have slots := alike.slots inside found
    cases slot : declared.body with
    | none => simp only [methodOwn, Node.renumber, slot, Option.map_none, Option.all_none]
    | some body =>
      have block : body ∈ region := slots body (by simp [Node.children, slot])
      simp only [methodOwn, Node.renumber, slot, Option.map_some, Option.all_some]
      rw [Tree.sentences_alike alike block]
      have below : ∀ sentence ∈ tree.sentences body, sentence ∈ region := fun sentence listed =>
        alike.closed body block sentence (tree.sentences_subset_childrenOf body listed)
      cases written : tree.sentences body with
      | nil => rfl
      | cons only rest =>
        cases rest with
        | nil =>
          have called := isSuperCall_alike alike (below only (by simp [written]))
          simp only [List.map_cons, List.map_nil, called]
        | cons second rest => rfl
  | _ => rfl

end Below

section Around
variable (alike : Alike change region tree.toDraft other.toDraft) (inside : id ∈ region)
  (found : tree.node? id = some node)
  (around : node.kind ∈ Kind.outward → Tree.AlikeAround change region tree other id)

theorem all_siblings_alike (around : Tree.AlikeAround change region tree other id)
    {here there : NodeId → Bool}
    (same : ∀ member ∈ region, there (change member) = here member) :
    (other.siblings (change id)).all there = (tree.siblings id).all here := by
  rw [around.siblings, List.all_map, Bool.eq_iff_iff, List.all_eq_true, List.all_eq_true]
  refine forall₂_congr fun member listed => ?_
  rw [Function.comp_apply, same member (around.siblings_mem member listed)]

include around in
theorem objectNamed_alike :
    objectNamed.accepts other (change id) (node.renumber change) =
      objectNamed.accepts tree id node := by
  cases node with
  | singleton declared =>
    have near := around (by simp [Node.kind, Kind.outward])
    simp only [objectNamed, Node.renumber, near.parentNode?]
    cases tree.parentNode? id with
    | none => rfl
    | some holder => cases holder <;> rfl
  | _ => rfl

include alike inside found around in
theorem importForeign_alike :
    importForeign.accepts other (change id) (node.renumber change) =
      importForeign.accepts tree id node := by
  cases node with
  | importDecl imported generic =>
    have near := around (by simp [Node.kind, Kind.outward])
    have slots := alike.slots inside found
    have named := Tree.nameOf?_alike alike (slots imported (by simp [Node.children]))
    simp only [importForeign, Node.renumber, named]
    congr 1
    funext name
    apply all_siblings_alike near
    intro member listed
    rw [Tree.nameOf?_alike alike listed]
  | _ => rfl

include alike around in
theorem fieldApart_alike :
    fieldApart.accepts other (change id) (node.renumber change) =
      fieldApart.accepts tree id node := by
  cases node with
  | field declared =>
    have near := around (by simp [Node.kind, Kind.outward])
    simp only [fieldApart, Node.renumber]
    apply all_siblings_alike near
    intro member listed
    rw [alike.node? member listed]
    cases tree.node? member with
    | none => rfl
    | some sibling => cases sibling <;> rfl
  | _ => rfl

include alike inside found around in
theorem constructorsApart_alike :
    constructorsApart.accepts other (change id) (node.renumber change) =
      constructorsApart.accepts tree id node := by
  cases node with
  | constructorDecl declared =>
    have near := around (by simp [Node.kind, Kind.outward])
    have slots := alike.slots inside found
    have own := Tree.arity_alike alike fun slot member =>
      slots slot (List.mem_append_left _ (List.mem_append_left _ member))
    simp only [constructorsApart, Node.renumber]
    apply all_siblings_alike near
    intro member listed
    -- A constructor leaves itself out by its number, so no two members may get the same one.
    have itself : (change member == change id) = (member == id) := by
      rw [Bool.eq_iff_iff, beq_iff_eq, beq_iff_eq]
      exact alike.injective.eq_iff listed inside
    rw [own, itself, Tree.constructorArity?_alike alike listed]
  | _ => rfl

/-- A rule of the catalogue sees nothing but the region and what is around the node. -/
theorem accepts_alike {rule : Rule} (listed : rule ∈ catalogue)
    (alike : Alike change region tree.toDraft other.toDraft) (inside : id ∈ region)
    (found : tree.node? id = some node)
    (around : node.kind ∈ Kind.outward → Tree.AlikeAround change region tree other id) :
    rule.accepts other (change id) (node.renumber change) = rule.accepts tree id node := by
  simp only [catalogue, List.mem_cons, List.not_mem_nil, or_false] at listed
  rcases listed with rfl | rfl | rfl | rfl | rfl | rfl | rfl | rfl | rfl | rfl | rfl | rfl
  · exact typeNameCapital_alike
  · exact valueNameSmall_alike
  · exact variadicLast_alike alike inside found
  · exact nameFree_alike
  · exact tryGuarded_alike alike inside found
  · exact objectNamed_alike around
  · exact importForeign_alike alike inside found around
  · exact targetLocal_alike alike inside found
  · exact fieldApart_alike alike around
  · exact methodsApart_alike alike inside found
  · exact constructorsApart_alike alike inside found around
  · exact methodOwn_alike alike inside found

end Around

end Rule
end ProgramLint
