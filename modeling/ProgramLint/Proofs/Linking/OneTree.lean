import Mathlib
import ProgramLint.Proofs.Linking.Visits

/-!
A draft is linked exactly if its nodes form one tree under the new root, and the parents that
linking records are then the slots of all nodes, read backwards.
-/

namespace ProgramLint
open scoped List

namespace Draft

/-- Every slot holds a node, the root is in no slot, every other node is in one slot, and a
chain of slots leads from the root to every node. -/
structure OneTree (draft : Draft) (root : NodeId) : Prop where
  known : ∀ id ∈ draft.held, id < draft.size
  unheld : root ∉ draft.held
  once : ∀ id < draft.size, id ≠ root → draft.held.count id = 1
  reached : ∀ id < draft.size, draft.Reaches root id

variable {draft : Draft} {root owner other child : NodeId}

/-- Counting slots: the root and the held numbers are all numbers of nodes. -/
theorem oneTree_iff (known : root < draft.size) :
    draft.OneTree root ↔
      root :: draft.held ~ List.range draft.size ∧ ∀ id < draft.size, draft.Reaches root id := by
  apply Iff.intro
  · intro tree
    refine ⟨List.perm_iff_count.mpr fun id => ?_, tree.reached⟩
    rw [List.count_cons, List.count_range]
    by_cases top : id = root
    · subst top
      simp [List.count_eq_zero_of_not_mem tree.unheld, known]
    · by_cases inside : id < draft.size
      · simp [tree.once id inside top, Ne.symm top, inside]
      · have absent : id ∉ draft.held := fun member => inside (tree.known id member)
        simp [List.count_eq_zero_of_not_mem absent, Ne.symm top, inside]
  · intro counted
    obtain ⟨order, reached⟩ := counted
    have distinct := List.nodup_cons.mp (order.nodup_iff.mpr List.nodup_range)
    refine ⟨fun id member => ?_, distinct.1, fun id inside lower => ?_, reached⟩
    · exact List.mem_range.mp (order.mem_iff.mp (List.mem_cons_of_mem _ member))
    · have member := order.mem_iff.mpr (List.mem_range.mpr inside)
      exact List.count_eq_one_of_mem distinct.2 ((List.mem_cons.mp member).resolve_left lower)

theorem nodup_childrenOf (distinct : draft.held.Nodup) (owner : NodeId) :
    (draft.childrenOf owner).Nodup := by
  by_cases inside : owner < draft.size
  · rw [held_eq, List.nodup_flatMap] at distinct
    exact distinct.1 owner (List.mem_range.mpr inside)
  · rw [childrenOf_of_le (Nat.le_of_not_lt inside)]
    exact List.nodup_nil

/-- If no number is held twice, no two nodes hold the same one. -/
theorem owner_unique (distinct : draft.held.Nodup) (first : child ∈ draft.childrenOf owner)
    (second : child ∈ draft.childrenOf other) : owner = other := by
  by_contra different
  rw [held_eq, List.nodup_flatMap] at distinct
  have symmetric : Std.Symm (Function.onFun List.Disjoint draft.childrenOf) :=
    ⟨fun _ _ disjoint _ here there => disjoint there here⟩
  have apart := distinct.2.forall (List.mem_range.mpr (lt_of_mem_childrenOf first))
    (List.mem_range.mpr (lt_of_mem_childrenOf second)) different
  exact apart first second

/-- No more different numbers than there are nodes are numbers of nodes. -/
theorem length_le_size {ids : List NodeId} (different : ids.Nodup)
    (inside : ∀ id ∈ ids, id < draft.size) : ids.length ≤ draft.size := by
  have among : ids ⊆ List.range draft.size := fun id member =>
    List.mem_range.mpr (inside id member)
  simpa using (List.subperm_of_subset different among).length_le

theorem nodes_add (draft : Draft) (node : Node) :
    (draft.add node).2.nodes = draft.nodes ++ [node] := by
  simp [add, nodes]

@[simp]
theorem nodes_withRoot (draft : Draft) (members : List NodeId) :
    (draft.withRoot members).nodes = draft.nodes ++ [.environment members] :=
  nodes_add ..

@[simp]
theorem size_withRoot (draft : Draft) (members : List NodeId) :
    (draft.withRoot members).size = draft.size + 1 :=
  size_add ..

theorem span?_withRoot (draft : Draft) (members : List NodeId) (id : NodeId) :
    (draft.withRoot members).span? id = draft.span? id :=
  span?_add ..

theorem leftOver?_eq_none_iff {claims : Array (Option NodeId)} :
    leftOver? root claims = none ↔ ∀ id < claims.size, id ≠ root → claims[id]?.join ≠ none := by
  simp [leftOver?, List.find?_eq_none]

end Draft

namespace Search
variable {draft : Draft} {root : NodeId} {visited : List NodeId} {search : Search}
  {claims : Array (Option NodeId)}

/-- With nothing left to visit, the nodes that were met are those that were visited. -/
theorem Sound.visited_met (sound : Sound draft root visited ⟨[], claims⟩) :
    visited ~ root :: visited.flatMap draft.childrenOf := by
  simpa using sound.met

theorem Sound.mem_visited_iff (sound : Sound draft root visited ⟨[], claims⟩) {id : NodeId} :
    id ∈ visited ↔ draft.Reaches root id := by
  have order := sound.visited_met
  apply Iff.intro
  · intro seen
    exact sound.reached id (by simpa using seen)
  · intro chain
    induction chain with
    | refl => exact order.mem_iff.mpr (by simp)
    | tail _ holds ih =>
      exact order.mem_iff.mpr (List.mem_cons_of_mem _ (List.mem_flatMap.mpr ⟨_, ih, holds⟩))

theorem Sound.leftOver?_eq_none_iff (sound : Sound draft root visited ⟨[], claims⟩) :
    Draft.leftOver? root claims = none ↔ ∀ id < draft.size, id ∈ visited := by
  have size : claims.size = draft.size := sound.size
  rw [Draft.leftOver?_eq_none_iff, size]
  refine forall₂_congr fun id _ => ?_
  have unclaimed : claims[id]?.join = none ↔ id ∉ visited.flatMap draft.childrenOf :=
    sound.unclaimed_iff
  rw [sound.visited_met.mem_iff, List.mem_cons, ne_eq, ne_eq, unclaimed, not_not,
    or_iff_not_imp_left]

/-- If nothing is left over, the nodes were visited in some order, and each of them once. -/
theorem Sound.visited_perm (sound : Sound draft root visited ⟨[], claims⟩)
    (complete : ∀ id < draft.size, id ∈ visited) : visited ~ List.range draft.size := by
  have order := sound.visited_met
  apply (List.perm_ext_iff_of_nodup (order.nodup_iff.mpr sound.distinct) List.nodup_range).mpr
  intro id
  rw [List.mem_range]
  exact ⟨fun seen => sound.known id (order.mem_iff.mp seen), complete id⟩

theorem Sound.held_perm (sound : Sound draft root visited ⟨[], claims⟩)
    (complete : ∀ id < draft.size, id ∈ visited) :
    root :: draft.held ~ List.range draft.size := by
  have visits := sound.visited_perm complete
  rw [Draft.held_eq]
  calc
    root :: (List.range draft.size).flatMap draft.childrenOf
    _ ~ root :: visited.flatMap draft.childrenOf := (visits.symm.flatMap_right _).cons root
    _ ~ visited := sound.visited_met.symm
    _ ~ List.range draft.size := visits

/-- The latest visit comes first, so a child stands before every node that holds it. -/
theorem Sound.idxOf_lt (sound : Sound draft root visited ⟨[], claims⟩)
    (complete : ∀ id < draft.size, id ∈ visited) {owner child : NodeId}
    (holds : child ∈ draft.childrenOf owner) : visited.idxOf child < visited.idxOf owner := by
  have member : child ∈ root :: draft.held :=
    List.mem_cons_of_mem _ (Draft.mem_held.mpr ⟨owner, holds⟩)
  have seen : child ∈ visited :=
    complete child (List.mem_range.mp ((sound.held_perm complete).mem_iff.mp member))
  have distinct := (sound.visited_perm complete).nodup_iff.mpr List.nodup_range
  obtain ⟨later, earlier, split⟩ :=
    List.append_of_mem (complete owner (Draft.lt_of_mem_childrenOf holds))
  have after := sound.downward owner earlier ⟨later, split.symm⟩ child holds
  rw [split] at seen distinct ⊢
  have fresh : owner ∉ later := fun again =>
    (List.nodup_append'.mp distinct).2.2 again (by simp)
  have before : child ∈ later := (List.mem_append.mp seen).resolve_right after
  rw [List.idxOf_append_of_mem before, List.idxOf_append_of_notMem fresh]
  have place := List.idxOf_lt_length_of_mem before
  omega

/-- In one tree, no child of a pending node has been met. -/
theorem Sound.unmet (sound : Sound draft root visited search) (tree : draft.OneTree root)
    {owner : NodeId} (waiting : owner ∈ search.pending) :
    Unmet draft root visited (draft.childrenOf owner) := by
  have known : root < draft.size := sound.known root (by simp)
  have order := ((Draft.oneTree_iff known).mp tree).1
  have distinct : draft.held.Nodup :=
    (List.nodup_cons.mp (order.nodup_iff.mpr List.nodup_range)).2
  have held : ∀ child ∈ draft.childrenOf owner, child ∈ draft.held := fun child holds =>
    Draft.mem_held.mpr ⟨owner, holds⟩
  have apart := List.nodup_append'.mp sound.nodup
  exact {
    known := fun child holds => tree.known child (held child holds)
    fresh := by
      intro child holds member
      rcases List.mem_cons.mp member with rfl | claimed
      · exact tree.unheld (held child holds)
      · obtain ⟨other, seen, again⟩ := List.mem_flatMap.mp claimed
        obtain rfl := Draft.owner_unique distinct holds again
        exact apart.2.2 seen waiting
    distinct := Draft.nodup_childrenOf distinct owner
  }

end Search

namespace Draft
variable {draft : Draft} {members : List NodeId} {tree : Tree}

/-- Linking succeeds exactly if the search ends and leaves no node over. -/
theorem link_eq_ok_iff :
    draft.link members = .ok tree ↔
      tree.toDraft = draft.withRoot members ∧ tree.root = draft.size ∧
        Search.run (draft.withRoot members) draft.size
          (.start (draft.withRoot members).size draft.size) = .ok tree.parents ∧
        leftOver? draft.size tree.parents = none := by
  simp only [link]
  cases Search.run (draft.withRoot members) draft.size
      (.start (draft.withRoot members).size draft.size) with
  | error told => simp [bind, Except.bind]
  | ok claims =>
    simp only [bind, Except.bind, pure, Except.pure]
    cases lost : leftOver? draft.size claims with
    | none =>
      apply Iff.intro
      · intro accepted
        cases accepted
        exact ⟨rfl, rfl, rfl, lost⟩
      · intro parts
        obtain ⟨same, top, found, -⟩ := parts
        cases tree
        cases same
        cases top
        cases found
        rfl
    | some id =>
      apply Iff.intro
      · intro accepted
        contradiction
      · intro parts
        obtain ⟨-, -, found, complete⟩ := parts
        cases found
        rw [lost] at complete
        contradiction

/-- The search behind an accepted draft has visited all of its nodes. -/
theorem exists_visited_of_link (linked : draft.link members = .ok tree) :
    ∃ visited, Search.Sound tree.toDraft tree.root visited ⟨[], tree.parents⟩ ∧
      ∀ id < tree.size, id ∈ visited := by
  obtain ⟨same, top, ran, complete⟩ := link_eq_ok_iff.mp linked
  have outcome := Search.run_outcome
    (.start : Search.Visits (draft.withRoot members) draft.size [] _)
  rw [ran] at outcome
  obtain ⟨visited, met⟩ := outcome
  have sound := met.sound (by simp)
  rw [same, top]
  exact ⟨visited, sound, sound.leftOver?_eq_none_iff.mp complete⟩

/-- One tree leaves the search no fault to find. -/
theorem exists_link_of_oneTree (tree : (draft.withRoot members).OneTree draft.size) :
    ∃ linked, draft.link members = .ok linked := by
  have outcome := Search.run_outcome
    (.start : Search.Visits (draft.withRoot members) draft.size [] _)
  cases ran : Search.run (draft.withRoot members) draft.size
      (.start (draft.withRoot members).size draft.size) with
  | error told =>
    rw [ran] at outcome
    obtain ⟨visited, search, owner, rest, met, pending, refused⟩ := outcome
    have sound := met.sound (by simp)
    have unmet := sound.unmet tree (by simp [pending] : owner ∈ search.pending)
    rw [Search.claimAll_eq_ok_iff.mpr ⟨sound.claimable_iff.mpr unmet, rfl⟩] at refused
    contradiction
  | ok claims =>
    rw [ran] at outcome
    obtain ⟨visited, met⟩ := outcome
    have sound := met.sound (by simp)
    have complete := sound.leftOver?_eq_none_iff.mpr fun id inside =>
      sound.mem_visited_iff.mpr (tree.reached id inside)
    exact ⟨⟨draft.withRoot members, draft.size, claims⟩,
      link_eq_ok_iff.mpr ⟨rfl, rfl, ran, complete⟩⟩

end Draft

namespace Tree

/-- What holds of every tree that linking gives. The parents are the slots read backwards, and
no chain of slots runs in a circle, since ranks fall from a node to its children. -/
structure Linked (tree : Tree) : Prop where
  root_lt : tree.root < tree.size
  order : tree.root :: tree.held ~ List.range tree.size
  parent?_eq_some_iff : ∀ {child owner : NodeId},
    tree.parent? child = some owner ↔ child ∈ tree.childrenOf owner
  reached : ∀ id < tree.size, tree.Reaches tree.root id
  ranked : ∃ rank : NodeId → Nat, (∀ id < tree.size, rank id < tree.size) ∧
    ∀ owner, ∀ child ∈ tree.childrenOf owner, rank child < rank owner

theorem linked_of_link {draft : Draft} {members : List NodeId} {tree : Tree}
    (linked : draft.link members = .ok tree) : tree.Linked := by
  obtain ⟨visited, sound, complete⟩ := Draft.exists_visited_of_link linked
  have visits := sound.visited_perm complete
  exact {
    root_lt := sound.known _ (by simp)
    order := sound.held_perm complete
    parent?_eq_some_iff := by
      intro child owner
      refine (sound.parents child owner).trans ⟨And.right, fun holds => ⟨?_, holds⟩⟩
      exact complete owner (Draft.lt_of_mem_childrenOf holds)
    reached := fun id inside => sound.mem_visited_iff.mp (complete id inside)
    ranked := by
      refine ⟨visited.idxOf, fun id inside => ?_, fun owner child holds => ?_⟩
      · have place := List.idxOf_lt_length_of_mem (complete id inside)
        simpa [visits.length_eq] using place
      · exact sound.idxOf_lt complete holds
  }

namespace Linked
variable {tree : Tree} {id : NodeId}

theorem distinct (linked : tree.Linked) : (tree.root :: tree.held).Nodup :=
  linked.order.nodup_iff.mpr List.nodup_range

theorem unheld (linked : tree.Linked) : tree.root ∉ tree.held :=
  (List.nodup_cons.mp linked.distinct).1

theorem held_nodup (linked : tree.Linked) : tree.held.Nodup :=
  (List.nodup_cons.mp linked.distinct).2

theorem lt_of_mem_held (linked : tree.Linked) (member : id ∈ tree.held) : id < tree.size :=
  List.mem_range.mp (linked.order.mem_iff.mp (List.mem_cons_of_mem _ member))

theorem parent?_of_not_mem_held (linked : tree.Linked) (free : id ∉ tree.held) :
    tree.parent? id = none := by
  apply Option.eq_none_iff_forall_ne_some.mpr
  intro owner found
  exact free (Draft.mem_held.mpr ⟨owner, linked.parent?_eq_some_iff.mp found⟩)

theorem parentNode?_eq_some_iff (linked : tree.Linked) {node : Node} :
    tree.parentNode? id = some node ↔
      ∃ owner, tree.node? owner = some node ∧ id ∈ node.children := by
  simp only [parentNode?, Option.bind_eq_some_iff, linked.parent?_eq_some_iff]
  refine exists_congr fun owner => ?_
  rw [and_comm]
  refine and_congr_right fun found => ?_
  rw [Draft.childrenOf, found, Option.elim_some]

theorem members_nodup (linked : tree.Linked) {node : Node} (found : tree.node? id = some node) :
    node.members.Nodup := by
  have children := Draft.nodup_childrenOf linked.held_nodup id
  rw [Draft.childrenOf, found, Option.elim_some] at children
  exact children.sublist node.members_suffix_children.sublist

end Linked
end Tree

namespace Draft

theorem oneTree_of_link {draft : Draft} {members : List NodeId} {tree : Tree}
    (linked : draft.link members = .ok tree) :
    (draft.withRoot members).OneTree draft.size := by
  obtain ⟨same, top, -, -⟩ := link_eq_ok_iff.mp linked
  have sound := Tree.linked_of_link linked
  rw [← same, ← top]
  exact (oneTree_iff sound.root_lt).mpr ⟨sound.order, sound.reached⟩

/-- A draft is accepted exactly if it is one tree, and its nodes and parents are then those of
the draft. -/
theorem link_accepts_one_tree (draft : Draft) (members : List NodeId) :
    (draft.withRoot members).nodes = draft.nodes ++ [.environment members] ∧
    ((∃ tree, draft.link members = .ok tree) ↔ (draft.withRoot members).OneTree draft.size) ∧
    ∀ tree, draft.link members = .ok tree →
      tree.nodes = draft.nodes ++ [.environment members] ∧ tree.size = draft.size + 1 ∧
      tree.root = draft.size ∧ tree.parent? tree.root = none ∧
      (∀ id, draft.size + 1 ≤ id → tree.parent? id = none) ∧
      ∀ child owner, tree.parent? child = some owner ↔
        owner < draft.size + 1 ∧ child ∈ tree.childrenOf owner := by
  refine ⟨nodes_withRoot draft members, ⟨?_, exists_link_of_oneTree⟩, ?_⟩
  · intro success
    obtain ⟨tree, accepted⟩ := success
    obtain ⟨same, top, -, -⟩ := link_eq_ok_iff.mp accepted
    have linked := Tree.linked_of_link accepted
    rw [← same, ← top]
    exact (oneTree_iff linked.root_lt).mpr ⟨linked.order, linked.reached⟩
  · intro tree accepted
    obtain ⟨same, top, -, -⟩ := link_eq_ok_iff.mp accepted
    have linked := Tree.linked_of_link accepted
    have size : tree.size = draft.size + 1 := by rw [same, size_withRoot]
    refine ⟨by rw [same, nodes_withRoot], size, top, ?_, ?_, ?_⟩
    · exact linked.parent?_of_not_mem_held linked.unheld
    · intro id outside
      apply linked.parent?_of_not_mem_held
      intro member
      have known := linked.lt_of_mem_held member
      exact absurd (size ▸ known) (Nat.not_lt.mpr outside)
    · intro child owner
      refine linked.parent?_eq_some_iff.trans ⟨fun holds => ⟨?_, holds⟩, And.right⟩
      exact size ▸ lt_of_mem_childrenOf holds

/-- A package that holds an object where imports are expected, and a class in which a field and a
method have one name. -/
def specimen : Draft :=
  (({} : Draft).addAll
    [.reference "thing", .importDecl 0 false, .parameter { name := "x", variadic := true },
      .method { name := "m", parameters := [2] }, .field { name := "m" },
      .classDecl { name := "c", members := [4, 3] }, .singleton {},
      .package { name := "p", imports := [1, 6], members := [5] }]).2

end Draft

def Tree.specimen : Tree where
  toDraft := Draft.specimen.withRoot [7]
  root := 8
  parents := #[some 1, some 7, some 3, some 5, some 5, some 7, some 7, some 8, none]

namespace Draft

theorem link_specimen : specimen.link [7] = .ok Tree.specimen := by
  cbv

theorem link_accepts_specimen :
    specimen.link [7] = .ok Tree.specimen ∧ Tree.specimen.root = specimen.size ∧
      Tree.specimen.parent? 6 = some 7 := by
  have accepted := (link_accepts_one_tree specimen [7]).2.2 Tree.specimen link_specimen
  obtain ⟨-, -, top, -, -, parents⟩ := accepted
  exact ⟨link_specimen, top, (parents 6 7).mpr ⟨by decide, by decide⟩⟩

end Draft
end ProgramLint
