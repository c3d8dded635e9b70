import ProgramLint.Proofs.Tree.DepthFirst

/-!
A walk through a subtree as a cursor on a stack, without a bound on its steps. Each step takes the
top of the stack and pushes its children, and nothing marks a node as met. In a linked tree the
cursor still comes to its end, having met the nodes below its target depth first, each of them once.
-/

namespace ProgramLint
open scoped List

section Exhausts
variable {σ α : Type} {next? : σ → Option (α × σ)} {state : σ} {values others : List α}

/-- From a state, a cursor gives some values one after the other and is then at its end. -/
inductive Exhausts (next? : σ → Option (α × σ)) : σ → List α → Prop where
  | done {state : σ} : next? state = none → Exhausts next? state []
  | step {state after : σ} {value : α} {values : List α} :
      next? state = some (value, after) → Exhausts next? after values →
      Exhausts next? state (value :: values)

theorem Exhausts.unique (first : Exhausts next? state values)
    (again : Exhausts next? state others) : values = others := by
  induction first generalizing others with
  | done ended =>
    cases again with
    | done => rfl
    | step given => simp [ended] at given
  | step given _ ih =>
    cases again with
    | done ended => simp [given] at ended
    | step given' later =>
      rw [given, Option.some_inj, Prod.mk.injEq] at given'
      obtain ⟨rfl, rfl⟩ := given'
      rw [ih later]

/-- A cursor that comes to its end gives nothing else. -/
theorem Exhausts.iff_eq (run : Exhausts next? state values) :
    Exhausts next? state others ↔ others = values :=
  ⟨fun again => again.unique run, fun same => same ▸ run⟩

end Exhausts

namespace Draft
variable {draft : Draft} {ids order : List NodeId}

/-- Numbers of nodes can be listed together with the nodes. -/
theorem exists_visits (known : ∀ id ∈ ids, id < draft.size) :
    ∃ visits : List (NodeId × Node), visits.map Prod.fst = ids ∧
      ∀ visit ∈ visits, draft.node? visit.1 = some visit.2 := by
  induction ids with
  | nil => exact ⟨[], rfl, by simp⟩
  | cons id rest ih =>
    obtain ⟨visits, listed, found⟩ := ih fun other later => known other (.tail _ later)
    have first := contains_iff.mpr (known id (by simp))
    rw [contains_eq_isSome] at first
    obtain ⟨node, here⟩ := Option.isSome_iff_exists.mp first
    refine ⟨(id, node) :: visits, by rw [List.map_cons, listed], ?_⟩
    exact List.forall_mem_cons.mpr ⟨here, found⟩

end Draft

namespace Tree
variable {tree : Tree} {target : NodeId} {ids order stack met : List NodeId}

/-- Takes the node on top of a stack and pushes its children, the last one first. -/
def descend? (tree : Tree) : List NodeId → Option (NodeId × List NodeId)
  | [] => none
  | id :: stack =>
    some (id, (tree.childrenOf id).reverse.foldl (fun stack child => child :: stack) stack)

/-- A cursor starts with its target, or with nothing if the target is no node of the tree. -/
def stackOf (tree : Tree) (target : NodeId) : List NodeId :=
  if tree.contains target then [target] else []

/-- The children come to lie on top of the stack, the first one uppermost. -/
theorem descend?_cons (tree : Tree) (id : NodeId) (stack : List NodeId) :
    tree.descend? (id :: stack) = some (id, tree.childrenOf id ++ stack) := by
  simp [descend?]

/-- What lies on a stack is met subtree by subtree. -/
theorem exhausts_append (ordered : tree.DepthFirst ids order)
    (rest : Exhausts tree.descend? stack met) :
    Exhausts tree.descend? (ids ++ stack) (order ++ met) := by
  induction ordered generalizing stack met with
  | nil => exact rest
  | @cons id beside below after _ _ inner outer =>
    have later := inner (outer rest)
    rw [← List.append_assoc below] at later
    exact .step (descend?_cons tree id (beside ++ stack)) later

theorem Linked.exhausts_subtree (linked : tree.Linked) (target : NodeId) :
    Exhausts tree.descend? (tree.stackOf target) (tree.subtree target) := by
  have empty : Exhausts tree.descend? [] [] := .done rfl
  unfold stackOf
  split
  next known =>
    have ordered := linked.depthFirst_subtree (Draft.contains_iff.mp known)
    simpa using exhausts_append ordered empty
  next unknown =>
    rw [subtree, if_neg unknown]
    exact empty

universe u

/-- With the nodes at hand, nothing is left out of a fold. -/
theorem foldSubtree_eq {visits : List (NodeId × Node)}
    (listed : visits.map Prod.fst = tree.subtree target)
    (found : ∀ visit ∈ visits, tree.node? visit.1 = some visit.2) {α : Type u} (initial : α)
    (combine : α → NodeId → Node → α) :
    tree.foldSubtree target initial combine =
      visits.foldl (fun value visit => combine value visit.1 visit.2) initial := by
  rw [foldSubtree, ← listed, List.foldl_map]
  apply List.foldl_ext
  intro value visit member
  rw [found visit member]

/-- A walk from any target ends and meets, depth first, the nodes that chains of slots lead to, each
of them once, and a fold is the fold over these nodes. -/
theorem subtree_in_depthFirst_order {draft : Draft} {members : List NodeId}
    (linked : draft.link members = .ok tree) (target : NodeId) :
    (∀ met, Exhausts tree.descend? (tree.stackOf target) met ↔ met = tree.subtree target) ∧
    (tree.contains target = false → tree.subtree target = []) ∧
    (tree.contains target = true → tree.DepthFirst [target] (tree.subtree target) ∧
      ∀ id, id ∈ tree.subtree target ↔ tree.Reaches target id) ∧
    (tree.subtree target).Nodup ∧ (∀ id ∈ tree.subtree target, tree.contains id = true) ∧
    tree.subtree tree.root ~ List.range tree.size ∧
    ∃ visits : List (NodeId × Node), visits.map Prod.fst = tree.subtree target ∧
      (∀ visit ∈ visits, tree.node? visit.1 = some visit.2) ∧
      ∀ (α : Type u) (initial : α) (combine : α → NodeId → Node → α),
        tree.foldSubtree target initial combine =
          visits.foldl (fun value visit => combine value visit.1 visit.2) initial := by
  have sound := linked_of_link linked
  obtain ⟨visits, listed, found⟩ :=
    Draft.exists_visits fun id (member : id ∈ tree.subtree target) =>
      sound.lt_of_mem_subtree member
  refine ⟨fun met => (sound.exhausts_subtree target).iff_eq, subtree_of_unknown, fun known => ?_,
    sound.nodup_subtree target, fun id member => ?_, sound.subtree_root, visits, listed, found,
    fun α => foldSubtree_eq listed found⟩
  · have inside := Draft.contains_iff.mp known
    exact ⟨sound.depthFirst_subtree inside, fun id => sound.mem_subtree_iff_reaches inside⟩
  · exact Draft.contains_iff.mpr (sound.lt_of_mem_subtree member)

theorem subtree_in_depthFirst_order_specimen :
    Draft.specimen.link [7] = .ok specimen ∧ specimen.contains 7 = true ∧
      Exhausts specimen.descend? (specimen.stackOf 7) [7, 1, 0, 6, 5, 4, 3, 2] ∧
      specimen.DepthFirst [7] [7, 1, 0, 6, 5, 4, 3, 2] ∧ specimen.Reaches 7 2 ∧
      specimen.contains 9 = false ∧ specimen.subtree 9 = [] := by
  have met : specimen.subtree 7 = [7, 1, 0, 6, 5, 4, 3, 2] := by decide
  obtain ⟨exhausts, -, inside, -⟩ := subtree_in_depthFirst_order.{0} Draft.link_specimen 7
  obtain ⟨ordered, reached⟩ := inside (by decide)
  rw [met] at exhausts ordered reached
  have nothing := (subtree_in_depthFirst_order.{0} Draft.link_specimen 9).2.1
  exact ⟨Draft.link_specimen, by decide, (exhausts _).mpr rfl, ordered, (reached 2).mp (by simp),
    by decide, nothing (by decide)⟩

end Tree
end ProgramLint
