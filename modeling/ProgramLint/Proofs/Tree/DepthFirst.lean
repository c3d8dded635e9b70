import ProgramLint.Proofs.Linking.OneTree
import ProgramLint.Tree.Walk

/-!
The walk through a subtree meets the nodes depth first: a node, and then the subtrees of its
children one after the other. In a linked tree every node has exactly one such order. That of
the root lists all nodes, each of them once, and that of any other node is a block of it.
-/

namespace ProgramLint
open scoped List

namespace Draft

/-- The subtrees of some nodes in a row, each with its top first and the subtrees of the
children after it. -/
inductive DepthFirst (draft : Draft) : List NodeId → List NodeId → Prop where
  | nil : DepthFirst draft [] []
  | cons {id : NodeId} {rest below after : List NodeId} :
      DepthFirst draft (draft.childrenOf id) below → DepthFirst draft rest after →
      DepthFirst draft (id :: rest) (id :: (below ++ after))

namespace DepthFirst
variable {draft : Draft} {id : NodeId} {ids others order second : List NodeId}

theorem append (first : draft.DepthFirst ids order) (last : draft.DepthFirst others second) :
    draft.DepthFirst (ids ++ others) (order ++ second) := by
  induction first with
  | nil => exact last
  | cons below _ _ ih => simpa using DepthFirst.cons below ih

/-- There is at most one order. -/
theorem unique (first : draft.DepthFirst ids order) (again : draft.DepthFirst ids second) :
    order = second := by
  induction first generalizing second with
  | nil =>
    cases again
    rfl
  | cons _ _ below after =>
    cases again with
    | cons below' after' => rw [below below', after after']

/-- What is listed are the given nodes and the children of what is listed. -/
theorem perm (ordered : draft.DepthFirst ids order) :
    order ~ ids ++ order.flatMap draft.childrenOf := by
  induction ordered with
  | nil => exact .refl _
  | @cons id rest below after _ _ inner outer =>
    rw [List.flatMap_cons, List.flatMap_append, List.cons_append]
    apply List.Perm.cons
    calc
      below ++ after
      _ ~ draft.childrenOf id ++ below.flatMap draft.childrenOf ++
            (rest ++ after.flatMap draft.childrenOf) := inner.append outer
      _ ~ rest ++ (draft.childrenOf id ++ below.flatMap draft.childrenOf ++
            after.flatMap draft.childrenOf) := List.perm_append_comm_assoc ..
      _ = rest ++ (draft.childrenOf id ++
            (below.flatMap draft.childrenOf ++ after.flatMap draft.childrenOf)) := by
        rw [List.append_assoc (draft.childrenOf id)]

/-- What is listed are the nodes that chains of slots lead to from the given ones. -/
theorem mem_iff (ordered : draft.DepthFirst ids order) :
    id ∈ order ↔ ∃ top ∈ ids, draft.Reaches top id := by
  induction ordered with
  | nil => simp
  | @cons top rest below after _ _ inner outer =>
    have chain : draft.Reaches top id ↔
        id = top ∨ ∃ child ∈ draft.childrenOf top, draft.Reaches child id := by
      rw [eq_comm (a := id)]
      exact Relation.ReflTransGen.cases_head_iff
    rw [List.mem_cons, List.mem_append, inner, outer, List.exists_mem_cons_iff, chain, or_assoc]

/-- The subtree of a listed node is listed without a gap. -/
theorem block (ordered : draft.DepthFirst ids order) (member : id ∈ order) :
    ∃ subtree, draft.DepthFirst [id] subtree ∧ subtree <:+: order := by
  induction ordered with
  | nil => cases member
  | @cons top rest below after inside _ inner outer =>
    rcases List.mem_cons.mp member with rfl | later
    · exact ⟨id :: below, by simpa using DepthFirst.cons inside .nil, [], after, by simp⟩
    · rcases List.mem_append.mp later with under | beside
      · obtain ⟨subtree, ordered, placed⟩ := inner under
        exact ⟨subtree, ordered, placed.trans ⟨[top], after, by simp⟩⟩
      · obtain ⟨subtree, ordered, placed⟩ := outer beside
        exact ⟨subtree, ordered, placed.trans ⟨top :: below, [], by simp⟩⟩

theorem exists_of_each (each : ∀ id ∈ ids, ∃ order, draft.DepthFirst [id] order) :
    ∃ order, draft.DepthFirst ids order := by
  induction ids with
  | nil => exact ⟨[], .nil⟩
  | cons id rest ih =>
    obtain ⟨first, here⟩ := each id (by simp)
    obtain ⟨last, there⟩ := ih fun other member => each other (List.mem_cons_of_mem _ member)
    exact ⟨first ++ last, here.append there⟩

/-- A walk with enough steps left lists the subtrees of the nodes that wait in front. -/
theorem walk {tree : Tree} (ordered : tree.DepthFirst ids order) (steps : Nat)
    (waiting : List NodeId) :
    tree.walk (order.length + steps) (ids ++ waiting) = order ++ tree.walk steps waiting := by
  induction ordered generalizing steps waiting with
  | nil => simp
  | @cons id rest below after _ _ inner outer =>
    have length : (id :: (below ++ after)).length + steps =
        below.length + (after.length + steps) + 1 := by
      simp only [List.length_cons, List.length_append]
      omega
    rw [length, List.cons_append, Tree.walk, inner, outer]
    simp

end DepthFirst
end Draft

theorem Tree.subtree_of_unknown {tree : Tree} {id : NodeId} (unknown : tree.contains id = false) :
    tree.subtree id = [] := by
  rw [subtree, unknown]
  rfl

namespace Tree.Linked
variable {tree : Tree} {owner child id : NodeId} {order : List NodeId}

/-- A child is met as often as the node that holds it. -/
theorem count_children (linked : tree.Linked) (holds : child ∈ tree.childrenOf owner)
    (order : List NodeId) :
    (order.flatMap tree.childrenOf).count child = order.count owner := by
  induction order with
  | nil => rfl
  | cons id rest ih =>
    rw [List.flatMap_cons, List.count_append, ih, List.count_cons]
    by_cases same : id = owner
    · subst same
      rw [List.count_eq_one_of_mem (Draft.nodup_childrenOf linked.held_nodup id) holds]
      simp [Nat.add_comm]
    · have apart : child ∉ tree.childrenOf id := fun other =>
        same (Draft.owner_unique linked.held_nodup other holds)
      simp [List.count_eq_zero_of_not_mem apart, same]

theorem exists_depthFirst (linked : tree.Linked) (ids : List NodeId) :
    ∃ order, tree.DepthFirst ids order := by
  obtain ⟨rank, -, falls⟩ := linked.ranked
  have single : ∀ bound id, rank id < bound → ∃ order, tree.DepthFirst [id] order := by
    intro bound
    induction bound with
    | zero => exact fun id absurd => (Nat.not_lt_zero _ absurd).elim
    | succ bound ih =>
      intro id small
      obtain ⟨below, inside⟩ := Draft.DepthFirst.exists_of_each fun child holds =>
        ih child (Nat.lt_of_lt_of_le (falls id child holds) (Nat.le_of_lt_succ small))
      exact ⟨_, .cons inside .nil⟩
  exact Draft.DepthFirst.exists_of_each fun id _ => single _ id (Nat.lt_succ_self _)

/-- The order of the root lists every node once. -/
theorem depthFirst_root (linked : tree.Linked) (ordered : tree.DepthFirst [tree.root] order) :
    order ~ List.range tree.size := by
  have met : order ~ tree.root :: order.flatMap tree.childrenOf := ordered.perm
  have children : ∀ {child}, child ∈ order.flatMap tree.childrenOf → child ∈ tree.held := by
    intro child member
    obtain ⟨owner, -, holds⟩ := List.mem_flatMap.mp member
    exact Draft.mem_held.mpr ⟨owner, holds⟩
  have once : ∀ id, tree.Reaches tree.root id → order.count id = 1 := by
    intro id chain
    induction chain with
    | refl =>
      rw [met.count_eq, List.count_cons_self,
        List.count_eq_zero_of_not_mem fun member => linked.unheld (children member)]
    | @tail owner child _ holds ih =>
      have below : tree.root ≠ child := by
        intro same
        exact linked.unheld (Draft.mem_held.mpr ⟨owner, same ▸ holds⟩)
      rw [met.count_eq, List.count_cons_of_ne below, linked.count_children holds, ih]
  apply List.perm_iff_count.mpr
  intro id
  rw [List.count_range]
  by_cases inside : id < tree.size
  · rw [once id (linked.reached id inside), if_pos inside]
  · rw [if_neg inside]
    apply List.count_eq_zero_of_not_mem
    intro member
    rcases List.mem_cons.mp (met.mem_iff.mp member) with rfl | below
    · exact inside linked.root_lt
    · exact inside (linked.lt_of_mem_held (children below))

/-- The order of any node is a block of the order of the root. -/
theorem depthFirst_infix (linked : tree.Linked) (inside : id < tree.size)
    (whole : tree.DepthFirst [tree.root] order) {subtree : List NodeId}
    (ordered : tree.DepthFirst [id] subtree) : subtree <:+: order := by
  have member := (linked.depthFirst_root whole).mem_iff.mpr (List.mem_range.mpr inside)
  obtain ⟨other, same, placed⟩ := whole.block member
  rwa [ordered.unique same]

theorem lt_of_mem_depthFirst (linked : tree.Linked) (inside : id < tree.size)
    (ordered : tree.DepthFirst [id] order) {below : NodeId} (member : below ∈ order) :
    below < tree.size := by
  obtain ⟨all, whole⟩ := linked.exists_depthFirst [tree.root]
  have listed := (linked.depthFirst_infix inside whole ordered).subset member
  exact List.mem_range.mp ((linked.depthFirst_root whole).mem_iff.mp listed)

theorem depthFirst_nodup (linked : tree.Linked) (inside : id < tree.size)
    (ordered : tree.DepthFirst [id] order) : order.Nodup := by
  obtain ⟨all, whole⟩ := linked.exists_depthFirst [tree.root]
  have distinct := (linked.depthFirst_root whole).nodup_iff.mpr List.nodup_range
  exact distinct.sublist (linked.depthFirst_infix inside whole ordered).sublist

/-- The bound on the steps of a walk is never what ends it. -/
theorem depthFirst_subtree (linked : tree.Linked) (inside : id < tree.size) :
    tree.DepthFirst [id] (tree.subtree id) := by
  obtain ⟨order, ordered⟩ := linked.exists_depthFirst [id]
  obtain ⟨all, whole⟩ := linked.exists_depthFirst [tree.root]
  have length : order.length ≤ tree.size := by
    have short := (linked.depthFirst_infix inside whole ordered).length_le
    rwa [(linked.depthFirst_root whole).length_eq, List.length_range] at short
  have walked := ordered.walk (tree.size - order.length) []
  have done : tree.walk (tree.size - order.length) [] = [] := by
    cases tree.size - order.length <;> rfl
  rw [Nat.add_sub_cancel' length, done] at walked
  rw [subtree, if_pos (Draft.contains_iff.mpr inside)]
  simp only [List.append_nil] at walked
  rwa [walked]

/-- Below a node are the node itself and the children of what is below it. -/
theorem mem_subtree_iff (linked : tree.Linked) (inside : id < tree.size) {below : NodeId} :
    below ∈ tree.subtree id ↔
      below = id ∨ ∃ owner ∈ tree.subtree id, below ∈ tree.childrenOf owner := by
  have met := (linked.depthFirst_subtree inside).perm
  rw [met.mem_iff, List.mem_append, List.mem_singleton, List.mem_flatMap]

theorem mem_subtree_iff_reaches (linked : tree.Linked) (inside : id < tree.size)
    {below : NodeId} : below ∈ tree.subtree id ↔ tree.Reaches id below := by
  rw [(linked.depthFirst_subtree inside).mem_iff]
  simp

theorem nodup_subtree (linked : tree.Linked) (id : NodeId) : (tree.subtree id).Nodup := by
  cases known : tree.contains id with
  | true =>
    have inside := Draft.contains_iff.mp known
    exact linked.depthFirst_nodup inside (linked.depthFirst_subtree inside)
  | false =>
    rw [subtree_of_unknown known]
    exact List.nodup_nil

theorem lt_of_mem_subtree (linked : tree.Linked) {below : NodeId}
    (member : below ∈ tree.subtree id) : below < tree.size := by
  cases known : tree.contains id with
  | true =>
    have inside := Draft.contains_iff.mp known
    exact linked.lt_of_mem_depthFirst inside (linked.depthFirst_subtree inside) member
  | false => simp [subtree_of_unknown known] at member

/-- A walk from the root meets every node once. -/
theorem subtree_root (linked : tree.Linked) : tree.subtree tree.root ~ List.range tree.size :=
  linked.depthFirst_root (linked.depthFirst_subtree linked.root_lt)

theorem mem_subtree_root (linked : tree.Linked) (inside : id < tree.size) :
    id ∈ tree.subtree tree.root :=
  linked.subtree_root.mem_iff.mpr (List.mem_range.mpr inside)

end Tree.Linked
end ProgramLint
