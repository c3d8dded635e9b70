import ProgramLint.Proofs.Tree.Cursor

/-!
The way up from a node. In a linked tree it ends at the root, since ranks rise from a node to the
node that holds it, and for the same reason it meets no node twice. What it meets are the nodes,
other than the first one, that have the first one below them.
-/

namespace ProgramLint

namespace Tree
variable {tree : Tree} {id owner child upper lower : NodeId} {above : List NodeId}

/-- From a node, the nodes around it from the nearest one on, up to one that stands in no other. -/
inductive Upward (tree : Tree) : NodeId → List NodeId → Prop where
  | top {id : NodeId} : tree.parent? id = none → Upward tree id []
  | step {id owner : NodeId} {above : List NodeId} :
      tree.parent? id = some owner → Upward tree owner above → Upward tree id (owner :: above)

/-- Takes a node, if there is one, and goes on with the node around it. -/
def ascend? (tree : Tree) (next : Option NodeId) : Option (NodeId × Option NodeId) :=
  next.map fun id => (id, tree.parent? id)

namespace Upward

/-- A cursor that follows the parents comes to its end with the way up. -/
theorem exhausts (upward : tree.Upward id above) :
    Exhausts tree.ascend? (tree.parent? id) above := by
  induction upward with
  | top free =>
    rw [free]
    exact .done rfl
  | step held _ ih =>
    rw [held]
    exact .step rfl ih

/-- As many steps as there are nodes above are enough. -/
theorem climb (upward : tree.Upward id above) {steps : Nat} (enough : above.length ≤ steps) :
    tree.climb steps id = above := by
  induction upward generalizing steps with
  | top free =>
    cases steps with
    | zero => rfl
    | succ steps => rw [Tree.climb, free]
  | @step id owner above held _ ih =>
    cases steps with
    | zero => simp at enough
    | succ steps =>
      rw [Tree.climb, held]
      exact congrArg (owner :: ·) (ih (Nat.le_of_succ_le_succ enough))

theorem eq_nil_iff (upward : tree.Upward id above) : above = [] ↔ tree.parent? id = none := by
  cases upward with
  | top free => simp [free]
  | step held => simp [held]

end Upward

theorem rank_le_of_reaches {rank : NodeId → Nat}
    (falls : ∀ owner, ∀ child ∈ tree.childrenOf owner, rank child < rank owner)
    (chain : tree.Reaches upper lower) : rank lower ≤ rank upper := by
  induction chain with
  | refl => exact Nat.le_refl _
  | tail _ holds ih => exact Nat.le_trans (Nat.le_of_lt (falls _ _ holds)) ih

namespace Linked

theorem parent?_eq_none_iff (linked : tree.Linked) (inside : id < tree.size) :
    tree.parent? id = none ↔ id = tree.root := by
  apply Iff.intro
  · intro free
    have member := linked.order.mem_iff.mpr (List.mem_range.mpr inside)
    rcases List.mem_cons.mp member with top | held
    · exact top
    · obtain ⟨owner, holds⟩ := Draft.mem_held.mp held
      rw [linked.parent?_eq_some_iff.mpr holds] at free
      contradiction
  · intro top
    exact linked.parent?_of_not_mem_held (top ▸ linked.unheld)

theorem child_lt (linked : tree.Linked) (holds : child ∈ tree.childrenOf owner) :
    child < tree.size :=
  linked.lt_of_mem_held (Draft.mem_held.mpr ⟨owner, holds⟩)

/-- Every way up ends, since ranks rise on it and are bounded. -/
theorem exists_upward (linked : tree.Linked) (id : NodeId) : ∃ above, tree.Upward id above := by
  obtain ⟨rank, bounded, falls⟩ := linked.ranked
  -- By induction on what is left between the rank of a node and the bound.
  have within : ∀ gap id, tree.size ≤ rank id + gap → ∃ above, tree.Upward id above := by
    intro gap
    induction gap with
    | zero =>
      intro id high
      refine ⟨[], .top (Option.eq_none_iff_forall_ne_some.mpr fun owner held => ?_)⟩
      have inside := linked.child_lt (linked.parent?_eq_some_iff.mp held)
      exact absurd (bounded id inside) (Nat.not_lt.mpr high)
    | succ gap ih =>
      intro id high
      cases held : tree.parent? id with
      | none => exact ⟨[], .top held⟩
      | some owner =>
        have rises := falls owner id (linked.parent?_eq_some_iff.mp held)
        obtain ⟨above, upward⟩ := ih owner (by omega)
        exact ⟨owner :: above, .step held upward⟩
  exact within tree.size id (Nat.le_add_left ..)

theorem rank_lt_of_upward (linked : tree.Linked) {rank : NodeId → Nat}
    (falls : ∀ owner, ∀ child ∈ tree.childrenOf owner, rank child < rank owner)
    (upward : tree.Upward id above) :
    (id :: above).Pairwise fun lower upper => rank lower < rank upper := by
  induction upward with
  | top => exact List.pairwise_singleton ..
  | @step id owner above held _ ih =>
    have rises := falls owner id (linked.parent?_eq_some_iff.mp held)
    refine List.pairwise_cons.mpr ⟨List.forall_mem_cons.mpr ⟨rises, fun upper later => ?_⟩, ih⟩
    exact Nat.lt_trans rises ((List.pairwise_cons.mp ih).1 upper later)

/-- No node is met twice on the way up, and none is met again. -/
theorem nodup_upward (linked : tree.Linked) (upward : tree.Upward id above) :
    (id :: above).Nodup := by
  obtain ⟨rank, -, falls⟩ := linked.ranked
  refine (linked.rank_lt_of_upward falls upward).imp fun {lower upper} rises same => ?_
  exact absurd (same ▸ rises) (Nat.lt_irrefl _)

theorem lt_of_mem_upward (linked : tree.Linked) (upward : tree.Upward id above)
    (member : upper ∈ above) : upper < tree.size := by
  induction upward with
  | top => cases member
  | step held _ ih =>
    rcases List.mem_cons.mp member with rfl | later
    · exact Draft.lt_of_mem_childrenOf (linked.parent?_eq_some_iff.mp held)
    · exact ih later

/-- The bound on the steps is never what ends a way up. -/
theorem upward_ancestors (linked : tree.Linked) (id : NodeId) :
    tree.Upward id (tree.ancestors id) := by
  obtain ⟨above, upward⟩ := linked.exists_upward id
  have distinct := (List.nodup_cons.mp (linked.nodup_upward upward)).2
  have enough := Draft.length_le_size distinct fun _ => linked.lt_of_mem_upward upward
  rwa [ancestors, upward.climb enough]

theorem length_ancestors_lt (linked : tree.Linked) (inside : id < tree.size) :
    (tree.ancestors id).length < tree.size := by
  have upward := linked.upward_ancestors id
  exact Draft.length_le_size (linked.nodup_upward upward)
    (List.forall_mem_cons.mpr ⟨inside, fun _ => linked.lt_of_mem_upward upward⟩)

theorem getLast?_upward (linked : tree.Linked) (inside : id < tree.size)
    (upward : tree.Upward id above) : (id :: above).getLast? = some tree.root := by
  induction upward with
  | top free => rw [(linked.parent?_eq_none_iff inside).mp free, List.getLast?_singleton]
  | step held _ ih =>
    rw [List.getLast?_cons_cons]
    exact ih (Draft.lt_of_mem_childrenOf (linked.parent?_eq_some_iff.mp held))

theorem ancestors_eq_nil_iff (linked : tree.Linked) (inside : id < tree.size) :
    tree.ancestors id = [] ↔ id = tree.root := by
  rw [← linked.parent?_eq_none_iff inside]
  exact (linked.upward_ancestors id).eq_nil_iff

theorem getLast?_ancestors (linked : tree.Linked) (inside : id < tree.size)
    (lower : id ≠ tree.root) : (tree.ancestors id).getLast? = some tree.root := by
  have last := linked.getLast?_upward inside (linked.upward_ancestors id)
  cases listed : tree.ancestors id with
  | nil => exact absurd ((linked.ancestors_eq_nil_iff inside).mp listed) lower
  | cons owner above => rwa [listed, List.getLast?_cons_cons] at last

/-- No chain of slots leads from a node to the node that holds it. -/
theorem ne_of_reaches_owner (linked : tree.Linked) (chain : tree.Reaches upper owner)
    (holds : child ∈ tree.childrenOf owner) : upper ≠ child := by
  obtain ⟨rank, -, falls⟩ := linked.ranked
  have highest := rank_le_of_reaches falls chain
  have lower := falls owner child holds
  intro same
  rw [same] at highest
  omega

/-- A chain to another node comes in from the node around that one. -/
theorem reaches_and_ne_iff (linked : tree.Linked) :
    tree.Reaches upper id ∧ upper ≠ id ↔
      ∃ owner, tree.parent? id = some owner ∧ tree.Reaches upper owner := by
  simp only [linked.parent?_eq_some_iff]
  apply Iff.intro
  · intro both
    obtain ⟨chain, different⟩ := both
    rcases (Relation.ReflTransGen.cases_tail_iff _ _ _).mp chain with same | ⟨owner, before, last⟩
    · exact absurd same.symm different
    · exact ⟨owner, last, before⟩
  · intro found
    obtain ⟨owner, holds, chain⟩ := found
    exact ⟨chain.tail holds, linked.ne_of_reaches_owner chain holds⟩

theorem mem_upward_iff (linked : tree.Linked) (upward : tree.Upward id above) :
    upper ∈ above ↔ tree.Reaches upper id ∧ upper ≠ id := by
  induction upward with
  | top free => simp [linked.reaches_and_ne_iff, free]
  | @step id owner above held _ ih =>
    have top : upper = owner ∨ tree.Reaches upper owner ∧ upper ≠ owner ↔
        tree.Reaches upper owner := by
      apply Iff.intro
      · rintro (rfl | ⟨chain, -⟩)
        · exact .refl
        · exact chain
      · intro chain
        exact (em (upper = owner)).imp_right fun different => ⟨chain, different⟩
    rw [List.mem_cons, ih, top, linked.reaches_and_ne_iff, held]
    simp

/-- What is above a node is what has it below. -/
theorem mem_ancestors_iff (linked : tree.Linked) (inside : upper < tree.size) :
    upper ∈ tree.ancestors lower ↔ upper ≠ lower ∧ lower ∈ tree.subtree upper := by
  rw [linked.mem_upward_iff (linked.upward_ancestors lower), and_comm,
    linked.mem_subtree_iff_reaches inside]

theorem mem_subtree_iff_eq_or_above (linked : tree.Linked) (inside : upper < tree.size) :
    lower ∈ tree.subtree upper ↔ lower = upper ∨ upper ∈ tree.ancestors lower := by
  rw [linked.mem_ancestors_iff inside]
  by_cases same : lower = upper
  · have top : upper ∈ tree.subtree upper := (linked.mem_subtree_iff inside).mpr (.inl rfl)
    simp [same, top]
  · simp [same, Ne.symm same]

/-- Of two nodes that have a third one below them, one has the other below it. -/
theorem reaches_or_reaches (linked : tree.Linked) (first : tree.Reaches upper id)
    (second : tree.Reaches lower id) : tree.Reaches upper lower ∨ tree.Reaches lower upper := by
  -- Chains are followed backwards, since a node has many children and stands in one node only.
  have single : Relator.RightUnique
      (Function.swap fun owner child => child ∈ tree.childrenOf owner) :=
    fun _ _ _ here there => Draft.owner_unique linked.held_nodup here there
  have total := Relation.ReflTransGen.total_of_right_unique single
    (Relation.reflTransGen_swap.mpr first) (Relation.reflTransGen_swap.mpr second)
  exact total.symm.imp Relation.reflTransGen_swap.mp Relation.reflTransGen_swap.mp

end Linked

/-- The way up from a node ends at the root after fewer steps than there are nodes, meets no node
twice, and meets exactly the other nodes that have the first one below them. -/
theorem ancestors_above_subtree {draft : Draft} {members : List NodeId}
    (linked : draft.link members = .ok tree) :
    (∀ id, tree.contains id = true →
      (∀ met, Exhausts tree.ascend? (tree.parent? id) met ↔ met = tree.ancestors id) ∧
      (tree.ancestors id).length < tree.size ∧
      (tree.ancestors id).Nodup ∧ id ∉ tree.ancestors id ∧
      (tree.ancestors id = [] ↔ id = tree.root) ∧
      (id ≠ tree.root → (tree.ancestors id).getLast? = some tree.root)) ∧
    ∀ upper lower, tree.contains upper = true → tree.contains lower = true →
      (upper ∈ tree.ancestors lower ↔ upper ≠ lower ∧ lower ∈ tree.subtree upper) := by
  have sound := linked_of_link linked
  refine ⟨fun id known => ?_, fun upper lower known _ => ?_⟩
  · have inside := Draft.contains_iff.mp known
    have upward := sound.upward_ancestors id
    have distinct := List.nodup_cons.mp (sound.nodup_upward upward)
    exact ⟨fun met => upward.exhausts.iff_eq, sound.length_ancestors_lt inside, distinct.2,
      distinct.1, sound.ancestors_eq_nil_iff inside, sound.getLast?_ancestors inside⟩
  · exact sound.mem_ancestors_iff (Draft.contains_iff.mp known)

theorem ancestors_above_subtree_specimen :
    Draft.specimen.link [7] = .ok specimen ∧ specimen.contains 2 = true ∧
      Exhausts specimen.ascend? (specimen.parent? 2) [3, 5, 7, 8] ∧
      (2 ≠ specimen.root ∧ (specimen.ancestors 2).getLast? = some 8) ∧
      5 ∈ specimen.ancestors 2 ∧ 2 ∈ specimen.subtree 5 := by
  obtain ⟨upward, dual⟩ := ancestors_above_subtree Draft.link_specimen
  obtain ⟨exhausts, -, -, -, -, last⟩ := upward 2 (by decide)
  have above : 5 ∈ specimen.ancestors 2 := by decide
  exact ⟨Draft.link_specimen, by decide, (exhausts _).mpr (by decide),
    ⟨by decide, last (by decide)⟩, above, ((dual 5 2 (by decide) (by decide)).mp above).2⟩

end Tree
end ProgramLint
