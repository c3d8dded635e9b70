import ProgramLint.Proofs.Validator.Alike

/-!
Validation is local. What is found in a subtree depends on the nodes of the subtree, and, if the
top is an object, a field, an import or a constructor, on the subtree of the node around it.
Where the subtree stands in the program, and what else there is, makes no difference.
-/

namespace ProgramLint

namespace Tree.Linked
open Draft (Alike)
variable {tree other : Tree} {top target : NodeId}

/-- A tree that has the nodes of a subtree under the same numbers looks alike there. -/
theorem alike_subtree (linked : tree.Linked) (inside : top < tree.size)
    (same : ∀ below ∈ tree.subtree top, tree.node? below = other.node? below) :
    Alike id {below | below ∈ tree.subtree top} tree.toDraft other.toDraft where
  injective := Set.injOn_id _
  closed := fun owner above child holds =>
    (linked.mem_subtree_iff inside).mpr (.inr ⟨owner, above, holds⟩)
  node? := by
    intro below member
    have unchanged : Node.renumber id = id := funext Node.renumber_id
    rw [unchanged, Option.map_id_fun, id_eq, id_eq]
    exact (same below member).symm

/-- Validating a part of a subtree gives the same in a tree that agrees on the subtree. -/
theorem validate_eq_of_agree (linked : tree.Linked) (otherLinked : other.Linked)
    (settings : Settings) (inside : top < tree.size)
    (same : ∀ below ∈ tree.subtree top, tree.node? below = other.node? below)
    (member : target ∈ tree.subtree top)
    (held : ∀ node, tree.node? target = some node → node.kind ∈ Kind.outward →
      ∃ owner ∈ tree.subtree top, target ∈ tree.childrenOf owner) :
    ({ settings } : Validator).validate tree target =
      ({ settings } : Validator).validate other target := by
  have alike := linked.alike_subtree inside same
  have known : target < tree.size := linked.lt_of_mem_subtree member
  have within : ∀ below ∈ tree.subtree target, below ∈ tree.subtree top :=
    alike.depthFirst_subset (linked.depthFirst_subtree known) (by simpa using member)
  have outward : ∀ below ∈ tree.subtree target,
      tree.AlikeOutward id {below | below ∈ tree.subtree top} other below := by
    intro below listed node found looks
    -- Below the target the owner stands in the subtree; for the target itself it has to be given.
    obtain rfl | ⟨owner, above, holds⟩ := (linked.mem_subtree_iff known).mp listed
    · obtain ⟨owner, above, holds⟩ := held node found looks
      exact .of_owner alike linked otherLinked above holds
    · exact .of_owner alike linked otherLinked (within owner above) holds
  have validated := Validator.validate_alike settings alike member linked otherLinked known outward
  have unchanged : Problem.renumber id = id := rfl
  rw [unchanged, List.map_id_fun] at validated
  rw [id_eq] at validated
  rw [validated]
  cases ({ settings } : Validator).validate tree target <;> rfl

end Tree.Linked

namespace Draft
variable {draft : Draft} {members : List NodeId} {tree : Tree}

theorem node?_root_of_link (linked : draft.link members = .ok tree) :
    tree.node? tree.root = some (.environment members) := by
  obtain ⟨same, top, -, -⟩ := link_eq_ok_iff.mp linked
  rw [same, top, withRoot, node?_add, if_pos rfl]

/-- A node that looks around stands in another one. -/
theorem exists_owner_of_outward (linked : draft.link members = .ok tree) {target : NodeId}
    {node : Node} (found : tree.node? target = some node) (looks : node.kind ∈ Kind.outward) :
    ∃ owner, target ∈ tree.childrenOf owner := by
  have member : target ∈ tree.root :: tree.held :=
    (Tree.linked_of_link linked).order.mem_iff.mpr (List.mem_range.mpr (node?_lt found))
  rcases List.mem_cons.mp member with top | held
  · rw [top, node?_root_of_link linked] at found
    cases found
    simp [Node.kind, Kind.outward] at looks
  · exact mem_held.mp held

/-- The class of the specimen, right under the root of a smaller program. -/
def neighbour : Draft :=
  (({} : Draft).addAll
    [.selfRef, .body [0], .parameter { name := "x", variadic := true },
      .method { name := "m", parameters := [2] }, .field { name := "m" },
      .classDecl { name := "c", members := [4, 3] }]).2

end Draft

def Tree.neighbour : Tree where
  toDraft := Draft.neighbour.withRoot [5, 1]
  root := 6
  parents := #[some 1, some 6, some 3, some 5, some 5, some 6, none]

namespace Validator
variable {draft elsewhere : Draft} {members others : List NodeId} {tree other : Tree}

/-- Two programs that agree on a subtree agree on what is found there. For a node that looks
around they have to agree on the subtree of the node that holds it. -/
theorem validate_local (linked : draft.link members = .ok tree)
    (otherLinked : elsewhere.link others = .ok other) (settings : Settings) {target : NodeId}
    {node : Node} (found : tree.node? target = some node) :
    let validator : Validator := { settings }
    (node.kind ∉ Kind.outward →
      (∀ below ∈ tree.subtree target, tree.node? below = other.node? below) →
      validator.validate tree target = validator.validate other target) ∧
    (node.kind ∈ Kind.outward → ∃ holder, tree.parent? target = some holder ∧
      ((∀ below ∈ tree.subtree holder, tree.node? below = other.node? below) →
        validator.validate tree target = validator.validate other target)) := by
  intro validator
  have sound := Tree.linked_of_link linked
  have otherSound := Tree.linked_of_link otherLinked
  have inside : target < tree.size := Draft.node?_lt found
  refine ⟨fun quiet same => ?_, fun looks => ?_⟩
  · refine sound.validate_eq_of_agree otherSound settings inside same
      ((sound.mem_subtree_iff inside).mpr (.inl rfl)) fun known there looks => ?_
    rw [found, Option.some_inj] at there
    exact absurd (there ▸ looks) quiet
  · obtain ⟨holder, holds⟩ := Draft.exists_owner_of_outward linked found looks
    have above : holder < tree.size := Draft.lt_of_mem_childrenOf holds
    have top : holder ∈ tree.subtree holder := (sound.mem_subtree_iff above).mpr (.inl rfl)
    refine ⟨holder, sound.parent?_eq_some_iff.mpr holds, fun same => ?_⟩
    exact sound.validate_eq_of_agree otherSound settings above same
      ((sound.mem_subtree_iff above).mpr (.inr ⟨holder, top, holds⟩))
      fun _ _ _ => ⟨holder, top, holds⟩

theorem validate_local_neighbour :
    let validator : Validator := { settings := ({} : Settings).disable "nameIsCamelCase" }
    Draft.neighbour.link [5, 1] = .ok Tree.neighbour ∧
      validator.validate Tree.specimen 5 = validator.validate Tree.neighbour 5 ∧
      ∃ holder, Tree.specimen.parent? 4 = some holder ∧
        validator.validate Tree.specimen 4 = validator.validate Tree.neighbour 4 := by
  intro validator
  have linked : Draft.neighbour.link [5, 1] = .ok Tree.neighbour := by cbv
  have agree : ∀ below ∈ Tree.specimen.subtree 5,
      Tree.specimen.node? below = Tree.neighbour.node? below := by decide
  have inClass := validate_local Draft.link_specimen linked validator.settings
    (show Tree.specimen.node? 5 = some (.classDecl { name := "c", members := [4, 3] }) from rfl)
  have inField := validate_local Draft.link_specimen linked validator.settings
    (show Tree.specimen.node? 4 = some (.field { name := "m" }) from rfl)
  obtain ⟨holder, above, nearby⟩ := inField.2 (by decide)
  have around : holder = 5 := Option.some.inj (above.symm.trans (by decide))
  exact ⟨linked, inClass.1 (by decide) agree, holder, above, nearby (around ▸ agree)⟩

end Validator
end ProgramLint
