import Mathlib
import ProgramLint.Proofs.Linking.OneTree

/-!
What linking tells of a draft that is no tree is true of it. A missing node and a shared one are
children of nodes that chains of slots lead to from the root, and a detached node is told only if
those chains meet no other fault.
-/

namespace ProgramLint
open scoped List

namespace Draft
open Classical in
/-- The nodes to which chains of slots lead. -/
noncomputable def reached (draft : Draft) (root : NodeId) : List NodeId :=
  (List.range draft.size).filter fun id => draft.Reaches root id

/-- The numbers in the slots of all nodes that the root reaches. -/
noncomputable def heldBelow (draft : Draft) (root : NodeId) : List NodeId :=
  (draft.reached root).flatMap draft.childrenOf

variable {draft : Draft} {root owner child id : NodeId} {ids : List NodeId}

theorem mem_reached : id ∈ draft.reached root ↔ id < draft.size ∧ draft.Reaches root id := by
  simp [reached]

theorem mem_heldBelow :
    child ∈ draft.heldBelow root ↔
      ∃ owner, draft.Reaches root owner ∧ child ∈ draft.childrenOf owner := by
  simp only [heldBelow, List.mem_flatMap, mem_reached]
  refine exists_congr fun owner => ⟨fun held => ⟨held.1.2, held.2⟩, fun held => ?_⟩
  exact ⟨⟨lt_of_mem_childrenOf held.2, held.1⟩, held.2⟩

theorem nodup_reached (draft : Draft) (root : NodeId) : (draft.reached root).Nodup :=
  List.nodup_range.filter _

/-- What some reached nodes hold is held below the root as often. -/
theorem count_le_heldBelow (some : ids <+~ draft.reached root) (child : NodeId) :
    (ids.flatMap draft.childrenOf).count child ≤ (draft.heldBelow root).count child := by
  obtain ⟨chosen, same, among⟩ := some
  rw [← (same.flatMap_right draft.childrenOf).count_eq]
  exact (among.flatMap draft.childrenOf).count_le child

/-- No slot below the root is at fault: each holds a node, none holds the root, and no two hold
the same node. -/
structure Faultless (draft : Draft) (root : NodeId) : Prop where
  known : ∀ child ∈ draft.heldBelow root, child < draft.size
  unheld : root ∉ draft.heldBelow root
  once : (draft.heldBelow root).Nodup

/-- A slot below the root that does not hold a node of its own. -/
structure Faulty (draft : Draft) (root owner child : NodeId) : Prop where
  reached : draft.Reaches root owner
  holds : child ∈ draft.childrenOf owner
  twice : child < draft.size → child ≠ root → 2 ≤ (draft.heldBelow root).count child

theorem Faulty.not_faultless (faulty : draft.Faulty root owner child) :
    ¬draft.Faultless root := by
  intro faultless
  have held : child ∈ draft.heldBelow root := mem_heldBelow.mpr ⟨owner, faulty.reached, faulty.holds⟩
  have below : child ≠ root := fun same => faultless.unheld (same ▸ held)
  have often := faulty.twice (faultless.known child held) below
  rw [List.count_eq_one_of_mem faultless.once held] at often
  omega

end Draft

namespace Search
variable {draft : Draft} {root owner child : NodeId} {visited rest before after : List NodeId}
  {search : Search} {claims : Array (Option NodeId)}

theorem fault_eq_missing_iff {size : Nat} {node holder : NodeId} :
    fault size owner child = .missing node holder ↔ size ≤ child ∧ child = node ∧ owner = holder := by
  by_cases inside : child < size
  · simp [fault, inside]
  · simp [fault, inside, Nat.le_of_not_lt inside]

theorem fault_eq_shared_iff {size : Nat} {node : NodeId} :
    fault size owner child = .shared node ↔ child < size ∧ child = node := by
  by_cases inside : child < size <;> simp [fault, inside]

theorem fault_ne_detached {size : Nat} {node : NodeId} :
    fault size owner child ≠ .detached node := by
  by_cases inside : child < size <;> simp [fault, inside]

/-- No two of the nodes that a search has met are the same, and the root reaches all of them. -/
theorem Sound.subperm_reached (sound : Sound draft root visited search) :
    visited ++ search.pending <+~ draft.reached root := by
  apply List.subperm_of_subset sound.nodup
  intro id member
  exact Draft.mem_reached.mpr ⟨sound.known id (sound.mem_iff.mp member), sound.reached id member⟩

/-- A child that is neither new among its siblings nor to the search is held twice. -/
theorem Sound.two_le_count (sound : Sound draft root visited search)
    (pending : search.pending = owner :: rest)
    (split : draft.childrenOf owner = before ++ child :: after)
    (met : child ∈ before ++ visited.flatMap draft.childrenOf) :
    2 ≤ (draft.heldBelow root).count child := by
  have among : owner :: visited <+~ draft.reached root := by
    have all := sound.subperm_reached
    rw [pending] at all
    have front : owner :: visited <+~ visited ++ owner :: rest :=
      ⟨visited ++ [owner], List.perm_append_singleton owner visited,
        List.Sublist.append_left (List.singleton_sublist.mpr (by simp)) visited⟩
    exact front.trans all
  -- This slot holds the child once; the other time is among what was met before it.
  have again : 0 < (before ++ visited.flatMap draft.childrenOf).count child :=
    List.count_pos_iff.mpr met
  calc
    2 ≤ ((owner :: visited).flatMap draft.childrenOf).count child := by
      rw [List.flatMap_cons, split, List.append_assoc, List.cons_append]
      simp only [List.count_append, List.count_cons_self] at again ⊢
      omega
    _ ≤ (draft.heldBelow root).count child := Draft.count_le_heldBelow among child

/-- The claim that ends a search is one of a faulty slot. -/
theorem Sound.faulty (sound : Sound draft root visited search)
    (pending : search.pending = owner :: rest) {told : LinkFault}
    (refused : claimAll root owner (draft.childrenOf owner) { search with pending := rest } =
      .error told) :
    ∃ child, draft.Faulty root owner child ∧ told = fault draft.size owner child := by
  obtain ⟨before, child, after, split, claimable, taken, rfl⟩ := claimAll_eq_error refused
  refine ⟨child, ⟨?_, by simp [split], fun inside below => ?_⟩, by simp [sound.size]⟩
  · exact sound.reached owner (by simp [pending])
  · apply sound.two_le_count pending split
    by_contra fresh
    have new := not_or.mp (mt List.mem_append.mpr fresh)
    refine taken ⟨by simpa [sound.size] using inside, below, ?_⟩
    rw [parent?_grantAll fun other member => (claimable.free other member).known, if_neg new.1]
    exact sound.unclaimed_iff.mpr new.2

/-- A search that ends has met every slot below the root. -/
theorem Sound.heldBelow_perm (sound : Sound draft root visited ⟨[], claims⟩) :
    draft.heldBelow root ~ visited.flatMap draft.childrenOf := by
  have distinct : visited.Nodup := by
    simpa using sound.nodup
  apply List.Perm.flatMap_right
  apply (List.perm_ext_iff_of_nodup (draft.nodup_reached root) distinct).mpr
  intro id
  rw [Draft.mem_reached, sound.mem_visited_iff]
  refine ⟨And.right, fun chain => ⟨?_, chain⟩⟩
  exact sound.known id (sound.visited_met.mem_iff.mp (sound.mem_visited_iff.mpr chain))

theorem Sound.faultless (sound : Sound draft root visited ⟨[], claims⟩) :
    draft.Faultless root := by
  have distinct := List.nodup_cons.mp sound.distinct
  have same := sound.heldBelow_perm
  exact {
    known := fun child held => sound.known child (List.mem_cons_of_mem _ (same.mem_iff.mp held))
    unheld := fun held => distinct.1 (same.mem_iff.mp held)
    once := same.nodup_iff.mpr distinct.2
  }

theorem Sound.leftOver?_eq_some (sound : Sound draft root visited ⟨[], claims⟩) {lost : NodeId}
    (told : Draft.leftOver? root claims = some lost) :
    IsLeast {id | id < draft.size ∧ ¬draft.Reaches root id} lost := by
  have size : claims.size = draft.size := sound.size
  -- What is left over is what the visits have not met, and they have met all that is reached.
  have missed : ∀ id, (id ≠ root ∧ claims[id]?.join = none) ↔ ¬draft.Reaches root id := by
    intro id
    have unclaimed : claims[id]?.join = none ↔ id ∉ visited.flatMap draft.childrenOf :=
      sound.unclaimed_iff
    rw [← sound.mem_visited_iff, sound.visited_met.mem_iff, unclaimed, List.mem_cons, not_or]
  simp only [Draft.leftOver?, List.find?_range_eq_some, Option.isNone_iff_eq_none, missed,
    List.mem_range, size, decide_eq_true_eq, Bool.not_eq_true', decide_eq_false_iff_not] at told
  obtain ⟨unreached, inside, least⟩ := told
  refine ⟨⟨inside, unreached⟩, fun id other => ?_⟩
  by_contra smaller
  exact least id (Nat.lt_of_not_le smaller) other.2

end Search

namespace Draft
variable {draft : Draft} {members : List NodeId} {told : LinkFault}

/-- Linking tells of a faulty slot below the root, or, if there is none, of the least node that
the root does not reach. -/
theorem link_eq_error (refused : draft.link members = .error told) :
    (∃ owner child, (draft.withRoot members).Faulty draft.size owner child ∧
      told = Search.fault (draft.withRoot members).size owner child) ∨
    ∃ lost, (draft.withRoot members).Faultless draft.size ∧
      IsLeast {id | id < (draft.withRoot members).size ∧
        ¬(draft.withRoot members).Reaches draft.size id} lost ∧ told = .detached lost := by
  have outcome := Search.run_outcome
    (.start : Search.Visits (draft.withRoot members) draft.size [] _)
  simp only [link, bind, Except.bind] at refused
  cases ran : Search.run (draft.withRoot members) draft.size
      (.start (draft.withRoot members).size draft.size) with
  | error fault =>
    simp only [ran] at outcome refused
    obtain ⟨visited, search, owner, rest, met, pending, stopped⟩ := outcome
    obtain ⟨child, faulty, same⟩ := (met.sound (by simp)).faulty pending stopped
    cases refused
    exact .inl ⟨owner, child, faulty, same⟩
  | ok claims =>
    simp only [ran] at outcome refused
    obtain ⟨visited, met⟩ := outcome
    have sound := met.sound (by simp)
    cases left : leftOver? draft.size claims with
    | none => simp [left, pure, Except.pure] at refused
    | some lost =>
      simp only [left, Except.error.injEq] at refused
      exact .inr ⟨lost, sound.faultless, sound.leftOver?_eq_some left, refused.symm⟩

theorem of_link_missing {node owner : NodeId}
    (refused : draft.link members = .error (.missing node owner)) :
    (draft.withRoot members).Reaches draft.size owner ∧
      node ∈ (draft.withRoot members).childrenOf owner ∧ (draft.withRoot members).size ≤ node := by
  obtain ⟨holder, child, faulty, same⟩ | ⟨lost, -, -, same⟩ := link_eq_error refused
  · obtain ⟨outside, rfl, rfl⟩ := Search.fault_eq_missing_iff.mp same.symm
    exact ⟨faulty.reached, faulty.holds, outside⟩
  · contradiction

theorem of_link_shared {node : NodeId} (refused : draft.link members = .error (.shared node)) :
    node < (draft.withRoot members).size ∧
      ∃ owner, (draft.withRoot members).Faulty draft.size owner node := by
  obtain ⟨owner, child, faulty, same⟩ | ⟨lost, -, -, same⟩ := link_eq_error refused
  · obtain ⟨inside, rfl⟩ := Search.fault_eq_shared_iff.mp same.symm
    exact ⟨inside, owner, faulty⟩
  · contradiction

theorem link_eq_detached_iff {node : NodeId} :
    draft.link members = .error (.detached node) ↔
      (draft.withRoot members).Faultless draft.size ∧
        IsLeast {id | id < (draft.withRoot members).size ∧
          ¬(draft.withRoot members).Reaches draft.size id} node := by
  apply Iff.intro
  · intro refused
    obtain ⟨owner, child, -, same⟩ | ⟨lost, faultless, least, same⟩ := link_eq_error refused
    · exact absurd same.symm Search.fault_ne_detached
    · cases same
      exact ⟨faultless, least⟩
  · intro told
    obtain ⟨faultless, least⟩ := told
    cases linked : draft.link members with
    | ok tree =>
      obtain ⟨same, top, -, -⟩ := link_eq_ok_iff.mp linked
      have reached := (Tree.linked_of_link linked).reached node
      rw [same, top] at reached
      exact absurd (reached least.1.1) least.1.2
    | error fault =>
      obtain ⟨owner, child, faulty, -⟩ | ⟨lost, -, other, rfl⟩ := link_eq_error linked
      · exact absurd faultless faulty.not_faultless
      · rw [least.unique other]

/-- Whatever linking tells of a draft is true of it. -/
theorem link_faults_true (draft : Draft) (members : List NodeId) :
    let root := draft.size
    let rooted := draft.withRoot members
    (∀ node owner, draft.link members = .error (.missing node owner) →
      rooted.Reaches root owner ∧ node ∈ rooted.childrenOf owner ∧ rooted.size ≤ node) ∧
    (∀ node, draft.link members = .error (.shared node) →
      (node = root ∧ ∃ owner, rooted.Reaches root owner ∧ node ∈ rooted.childrenOf owner) ∨
      (node ≠ root ∧ node < rooted.size ∧ 2 ≤ (rooted.heldBelow root).count node)) ∧
    ∀ node, draft.link members = .error (.detached node) ↔
      rooted.Faultless root ∧ IsLeast {id | id < rooted.size ∧ ¬rooted.Reaches root id} node := by
  intro root rooted
  refine ⟨fun node owner => of_link_missing, fun node refused => ?_,
    fun node => link_eq_detached_iff⟩
  obtain ⟨inside, owner, faulty⟩ := of_link_shared refused
  by_cases top : node = root
  · exact .inl ⟨top, owner, faulty.reached, faulty.holds⟩
  · exact .inr ⟨top, inside, faulty.twice inside top⟩

/-- The last body holds a number that was never given out. -/
def dangling : Draft :=
  (({} : Draft).addAll [.body [], .body [7]]).2

/-- A body that another body holds twice. -/
def crossed : Draft :=
  (({} : Draft).addAll [.body [], .body [0, 0]]).2

/-- Two bodies that hold each other. -/
def circular : Draft :=
  (({} : Draft).addAll [.body [1], .body [0], .body []]).2

theorem link_dangling : dangling.link [0, 1] = .error (.missing 7 1) := by
  cbv

theorem link_crossed : crossed.link [1] = .error (.shared 0) := by
  cbv

theorem link_circular : circular.link [2] = .error (.detached 0) := by
  cbv

theorem link_faults_true_specimens :
    (dangling.link [0, 1] = .error (.missing 7 1) ∧ (dangling.withRoot [0, 1]).Reaches 2 1) ∧
      (crossed.link [1] = .error (.shared 0) ∧
        2 ≤ ((crossed.withRoot [1]).heldBelow 2).count 0) ∧
      circular.link [2] = .error (.detached 0) ∧ ¬(circular.withRoot [2]).Reaches 3 0 := by
  refine ⟨⟨link_dangling, ((link_faults_true dangling [0, 1]).1 7 1 link_dangling).1⟩,
    ⟨link_crossed, ?_⟩, link_circular,
    (((link_faults_true circular [2]).2.2 0).mp link_circular).2.1.2⟩
  obtain ⟨top, -⟩ | ⟨-, -, twice⟩ := (link_faults_true crossed [1]).2.1 0 link_crossed
  · exact absurd top (by decide)
  · exact twice

end Draft
end ProgramLint
