import ProgramLint.Arity
import ProgramLint.Proofs.Node.Renumber
import ProgramLint.Proofs.Tree.DepthFirst

/-!
A region of a tree that is closed under children may appear in another tree under other numbers.
What can be asked about a node of the region by looking at it and below it has the same answer in
both trees, and the walk through a subtree meets the same nodes in the same order.
-/

namespace ProgramLint

namespace Draft

/-- The nodes of a region, and of no other, appear under new numbers in another draft. -/
structure Alike (change : NodeId → NodeId) (region : Set NodeId) (draft other : Draft) : Prop where
  injective : Set.InjOn change region
  closed : ∀ owner ∈ region, ∀ child ∈ draft.childrenOf owner, child ∈ region
  node? : ∀ id ∈ region, other.node? (change id) = (draft.node? id).map (Node.renumber change)

namespace Alike
variable {change : NodeId → NodeId} {region : Set NodeId} {draft other : Draft} {id : NodeId}
  {node : Node}

theorem contains (alike : Alike change region draft other) (inside : id ∈ region) :
    other.contains (change id) = draft.contains id := by
  rw [contains_eq_isSome, contains_eq_isSome, alike.node? id inside, Option.isSome_map]

theorem lt_size (alike : Alike change region draft other) (inside : id ∈ region)
    (known : id < draft.size) : change id < other.size :=
  contains_iff.mp ((alike.contains inside).trans (contains_iff.mpr known))

theorem childrenOf (alike : Alike change region draft other) (inside : id ∈ region) :
    other.childrenOf (change id) = (draft.childrenOf id).map change := by
  unfold Draft.childrenOf
  rw [alike.node? id inside]
  cases draft.node? id <;> simp

/-- The slots of a node of the region hold nodes of the region. -/
theorem slots (alike : Alike change region draft other) (inside : id ∈ region)
    (found : draft.node? id = some node) : ∀ child ∈ node.children, child ∈ region := by
  intro child holds
  apply alike.closed id inside child
  rwa [Draft.childrenOf, found, Option.elim_some]

theorem depthFirst_subset (alike : Alike change region draft other) {ids order : List NodeId}
    (ordered : draft.DepthFirst ids order) (inside : ∀ id ∈ ids, id ∈ region) :
    ∀ id ∈ order, id ∈ region := by
  induction ordered with
  | nil => simp
  | @cons top rest below after _ _ inner outer =>
    intro id member
    rcases List.mem_cons.mp member with rfl | later
    · exact inside id (by simp)
    · rcases List.mem_append.mp later with under | beside
      · exact inner (alike.closed top (inside top (by simp))) id under
      · exact outer (fun other later => inside other (List.mem_cons_of_mem _ later)) id beside

theorem depthFirst (alike : Alike change region draft other) {ids order : List NodeId}
    (ordered : draft.DepthFirst ids order) (inside : ∀ id ∈ ids, id ∈ region) :
    other.DepthFirst (ids.map change) (order.map change) := by
  induction ordered with
  | nil => exact .nil
  | @cons id rest below after _ _ inner outer =>
    have top : id ∈ region := inside id (by simp)
    have first := inner (alike.closed id top)
    rw [← alike.childrenOf top] at first
    rw [List.map_cons, List.map_cons, List.map_append]
    exact .cons first (outer fun other later => inside other (List.mem_cons_of_mem _ later))

end Alike
end Draft

theorem pairs_map {α β : Type} (change : α → β) (list : List α) :
    pairs (list.map change) = (pairs list).map (Prod.map change change) := by
  induction list with
  | nil => rfl
  | cons first rest ih => simp [pairs, ih]

namespace Tree
open Draft (Alike)
variable {change : NodeId → NodeId} {region : Set NodeId} {tree other : Tree} {id : NodeId}
  (alike : Alike change region tree.toDraft other.toDraft)

include alike

theorem nameOf?_alike (inside : id ∈ region) : other.nameOf? (change id) = tree.nameOf? id := by
  unfold nameOf?
  rw [alike.node? id inside]
  cases tree.node? id <;> simp

theorem sentences_alike (inside : id ∈ region) :
    other.sentences (change id) = (tree.sentences id).map change := by
  unfold sentences
  rw [alike.node? id inside]
  cases tree.node? id with
  | none => rfl
  | some node => cases node <;> rfl

omit alike in
theorem sentences_subset_childrenOf (tree : Tree) (id : NodeId) :
    tree.sentences id ⊆ tree.childrenOf id := by
  unfold sentences
  split
  next sentences found => simp [Draft.childrenOf, found, Node.children]
  next => exact List.nil_subset _

theorem isVariadic_alike (inside : id ∈ region) :
    other.isVariadic (change id) = tree.isVariadic id := by
  unfold isVariadic
  rw [alike.node? id inside]
  cases tree.node? id with
  | none => rfl
  | some node => cases node <;> rfl

theorem arity_alike {parameters : List NodeId} (inside : ∀ slot ∈ parameters, slot ∈ region) :
    other.arity (parameters.map change) = tree.arity parameters := by
  unfold arity
  rw [List.length_map, List.getLast?_map, Option.any_map]
  congr 1
  cases last : parameters.getLast? with
  | none => rfl
  | some slot => exact isVariadic_alike alike (inside slot (List.mem_of_getLast? last))

theorem signature?_alike (inside : id ∈ region) :
    other.signature? (change id) = tree.signature? id := by
  unfold signature?
  rw [alike.node? id inside]
  cases found : tree.node? id with
  | none => rfl
  | some node =>
    cases node with
    | method declared =>
      have slots := alike.slots inside found
      simp only [Option.map_some, Node.renumber]
      rw [arity_alike alike fun slot member => slots slot (List.mem_append_left _ member)]
    | _ => rfl

theorem constructorArity?_alike (inside : id ∈ region) :
    other.constructorArity? (change id) = tree.constructorArity? id := by
  unfold constructorArity?
  rw [alike.node? id inside]
  cases found : tree.node? id with
  | none => rfl
  | some node =>
    cases node with
    | constructorDecl declared =>
      have slots := alike.slots inside found
      simp only [Option.map_some, Node.renumber]
      rw [arity_alike alike fun slot member =>
        slots slot (List.mem_append_left _ (List.mem_append_left _ member))]
    | _ => rfl

theorem signatures_alike {members : List NodeId} (inside : ∀ member ∈ members, member ∈ region) :
    other.signatures (members.map change) =
      (tree.signatures members).map fun method => (change method.1, method.2) := by
  unfold signatures
  rw [List.filterMap_map, List.map_filterMap]
  apply List.filterMap_congr
  intro member listed
  rw [Function.comp_apply, signature?_alike alike (inside member listed), Option.map_map]
  rfl

theorem clashingMethods_alike {members : List NodeId}
    (inside : ∀ member ∈ members, member ∈ region) :
    other.clashingMethods (members.map change) =
      (tree.clashingMethods members).map (Prod.map change change) := by
  unfold clashingMethods
  rw [signatures_alike alike inside, pairs_map, List.filterMap_map, List.map_filterMap]
  apply List.filterMap_congr
  intro pair _
  by_cases clash : pair.1.2.clashes pair.2.2 = true <;> simp [clash]

theorem subtree_alike (linked : tree.Linked) (otherLinked : other.Linked) (inside : id ∈ region)
    (known : id < tree.size) : other.subtree (change id) = (tree.subtree id).map change := by
  have ordered := alike.depthFirst (linked.depthFirst_subtree known) (by simpa using inside)
  have there := alike.lt_size inside known
  exact (otherLinked.depthFirst_subtree there).unique ordered

omit alike

/-- The node around a node is the same in both trees up to numbers, and its members are part of
the region. -/
structure AlikeAround (change : NodeId → NodeId) (region : Set NodeId) (tree other : Tree)
    (id : NodeId) : Prop where
  parentNode? : other.parentNode? (change id) = (tree.parentNode? id).map (Node.renumber change)
  siblings_mem : ∀ member ∈ tree.siblings id, member ∈ region

theorem AlikeAround.of_parent? (alike : Alike change region tree.toDraft other.toDraft)
    (same : other.parent? (change id) = (tree.parent? id).map change)
    (inside : ∀ owner, tree.parent? id = some owner → owner ∈ region) :
    AlikeAround change region tree other id where
  parentNode? := by
    unfold Tree.parentNode?
    rw [same]
    cases above : tree.parent? id with
    | none => rfl
    | some owner => exact alike.node? owner (inside owner above)
  siblings_mem := by
    intro member listed
    unfold siblings Tree.parentNode? at listed
    cases above : tree.parent? id with
    | none => simp [above] at listed
    | some owner =>
      cases found : tree.node? owner with
      | none => simp [above, found] at listed
      | some around =>
        simp only [above, found, Option.bind_some, Option.elim_some] at listed
        exact alike.slots (inside owner above) found member
          (around.members_suffix_children.subset listed)

/-- Two linked trees agree on what is around the children of the region. -/
theorem AlikeAround.of_owner (alike : Alike change region tree.toDraft other.toDraft)
    (linked : tree.Linked) (otherLinked : other.Linked) {owner : NodeId} (inside : owner ∈ region)
    (holds : id ∈ tree.childrenOf owner) : AlikeAround change region tree other id := by
  have above : tree.parent? id = some owner := linked.parent?_eq_some_iff.mpr holds
  have there : other.parent? (change id) = some (change owner) := by
    apply otherLinked.parent?_eq_some_iff.mpr
    rw [alike.childrenOf inside]
    exact List.mem_map_of_mem holds
  apply AlikeAround.of_parent? alike
  · rw [there, above, Option.map_some]
  · intro holder found
    rw [above, Option.some_inj] at found
    exact found ▸ inside

theorem AlikeAround.siblings (around : AlikeAround change region tree other id) :
    other.siblings (change id) = (tree.siblings id).map change := by
  unfold Tree.siblings
  rw [around.parentNode?]
  cases tree.parentNode? id <;> simp

end Tree

end ProgramLint
