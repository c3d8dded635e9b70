import ProgramLint.Proofs.Tree.Ancestors
import ProgramLint.Proofs.Validator.Findings

/-!
Validating a part of a program is a window on validating all of it. The problems of a subtree stand
side by side among those of any larger subtree, and those of subtrees that do not overlap have
nothing in common.
-/

namespace ProgramLint

/-- If what comes from the elements of a block is kept and all else is not, the block is left. -/
theorem filter_flatMap_of_infix {α β : Type} [DecidableEq α] {give : α → List β} {keep : β → Bool}
    {block whole : List α} (distinct : whole.Nodup) (placed : block <:+: whole)
    (kept : ∀ source ∈ whole, ∀ given ∈ give source, keep given = decide (source ∈ block)) :
    (whole.flatMap give).filter keep = block.flatMap give := by
  obtain ⟨before, after, rfl⟩ := placed
  rw [List.append_assoc] at distinct kept
  obtain ⟨-, distinct, apart⟩ := List.nodup_append'.mp distinct
  obtain ⟨-, -, apart'⟩ := List.nodup_append'.mp distinct
  have stays : ∀ source ∈ block, (give source).filter keep = give source := by
    intro source member
    apply List.filter_eq_self.mpr
    intro given come
    rw [kept source (by simp [member]) given come, decide_eq_true member]
  have goes : ∀ source ∈ before ++ (block ++ after), source ∉ block →
      (give source).filter keep = [] := by
    intro source listed outside
    apply List.filter_eq_nil_iff.mpr
    intro given come
    simp [kept source listed given come, outside]
  have first : before.flatMap (fun source => (give source).filter keep) = [] := by
    apply List.flatMap_eq_nil_iff.mpr
    intro source member
    exact goes source (by simp [member]) fun inside => apart member (by simp [inside])
  have last : after.flatMap (fun source => (give source).filter keep) = [] := by
    apply List.flatMap_eq_nil_iff.mpr
    intro source member
    exact goes source (by simp [member]) fun inside => apart' inside member
  rw [List.filter_flatMap, List.flatMap_append, List.flatMap_append, first, last, List.nil_append,
    List.append_nil]
  exact List.flatMap_congr stays

namespace Tree.Linked
variable {tree : Tree} {upper lower : NodeId}

/-- The walk through a subtree passes through any smaller one without a detour. -/
theorem subtree_infix (linked : tree.Linked) (inside : upper < tree.size)
    (member : lower ∈ tree.subtree upper) : tree.subtree lower <:+: tree.subtree upper := by
  obtain ⟨block, ordered, placed⟩ := (linked.depthFirst_subtree inside).block member
  have below := linked.depthFirst_subtree (linked.lt_of_mem_subtree member)
  rwa [below.unique ordered]

/-- Subtrees of which neither top is in the other have no node in common. -/
theorem subtree_disjoint (linked : tree.Linked) (inside : upper < tree.size)
    (inside' : lower < tree.size) (apart : lower ∉ tree.subtree upper)
    (apart' : upper ∉ tree.subtree lower) : (tree.subtree upper).Disjoint (tree.subtree lower) := by
  intro id here there
  rw [linked.mem_subtree_iff_reaches inside] at here apart
  rw [linked.mem_subtree_iff_reaches inside'] at there apart'
  rcases linked.reaches_or_reaches here there with below | above
  · exact apart below
  · exact apart' above

end Tree.Linked

namespace Validator
variable {tree : Tree} {target upper lower : NodeId} (validator : Validator) (linked : tree.Linked)

/-- What a validation finds in a subtree. -/
def findingsBelow (validator : Validator) (tree : Tree) (target : NodeId) : List Problem :=
  (tree.subtree target).flatMap (validator.findings tree)

theorem validate_eq_findingsBelow (inside : target < tree.size) :
    validator.validate tree target = .ok (validator.findingsBelow tree target) :=
  validate_of_lt validator inside

theorem mem_subtree_of_mem_findingsBelow {validator : Validator} {problem : Problem}
    (member : problem ∈ validator.findingsBelow tree target) :
    problem.node ∈ tree.subtree target := by
  obtain ⟨id, below, found⟩ := List.mem_flatMap.mp member
  exact node_of_mem_findings found ▸ below

include linked

theorem findingsBelow_infix (inside : upper < tree.size) (member : lower ∈ tree.subtree upper) :
    validator.findingsBelow tree lower <:+: validator.findingsBelow tree upper :=
  (linked.subtree_infix inside member).flatMap _

theorem findingsBelow_infix_root (inside : target < tree.size) :
    validator.findingsBelow tree target <:+: validator.findingsBelow tree tree.root :=
  findingsBelow_infix validator linked linked.root_lt (linked.mem_subtree_root inside)

/-- The problems of a part are told from all others by what is above their nodes. -/
theorem findingsBelow_eq_filter (inside : target < tree.size) :
    validator.findingsBelow tree target =
      (validator.findingsBelow tree tree.root).filter fun problem =>
        problem.node = target ∨ target ∈ tree.ancestors problem.node := by
  symm
  apply filter_flatMap_of_infix (linked.nodup_subtree tree.root)
    (linked.subtree_infix linked.root_lt (linked.mem_subtree_root inside))
  intro id _ problem found
  rw [node_of_mem_findings found, decide_eq_decide, linked.mem_subtree_iff_eq_or_above inside]

theorem findingsBelow_disjoint (inside : upper < tree.size) (inside' : lower < tree.size)
    (apart : lower ∉ tree.subtree upper) (apart' : upper ∉ tree.subtree lower) :
    (validator.findingsBelow tree upper).Disjoint (validator.findingsBelow tree lower) := by
  intro problem here there
  exact linked.subtree_disjoint inside inside' apart apart'
    (mem_subtree_of_mem_findingsBelow here) (mem_subtree_of_mem_findingsBelow there)

omit linked

/-- The problems of a part are a block of all problems, and they are those whose node is the top of
the part or has it among its ancestors. The problems of two parts are disjoint or one block is part
of the other. -/
theorem validate_window {draft : Draft} {members : List NodeId}
    (linked : draft.link members = .ok tree) (validator : Validator) :
    (∃ whole, validator.validate tree tree.root = .ok whole ∧
      ∀ target, tree.contains target = true →
        ∃ part, validator.validate tree target = .ok part ∧ part <:+: whole ∧
          part = whole.filter fun problem =>
            problem.node = target ∨ target ∈ tree.ancestors problem.node) ∧
    ∀ upper lower, tree.contains upper = true → tree.contains lower = true →
      ∃ outer inner, validator.validate tree upper = .ok outer ∧
        validator.validate tree lower = .ok inner ∧
        (lower = upper ∨ upper ∈ tree.ancestors lower → inner <:+: outer) ∧
        (¬(lower = upper ∨ upper ∈ tree.ancestors lower ∨ lower ∈ tree.ancestors upper) →
          outer.Disjoint inner) := by
  have sound := Tree.linked_of_link linked
  refine ⟨⟨_, validate_eq_findingsBelow validator sound.root_lt, fun target known => ?_⟩,
    fun upper lower known known' => ?_⟩
  · have inside := Draft.contains_iff.mp known
    exact ⟨_, validate_eq_findingsBelow validator inside,
      findingsBelow_infix_root validator sound inside,
      findingsBelow_eq_filter validator sound inside⟩
  · have inside := Draft.contains_iff.mp known
    have inside' := Draft.contains_iff.mp known'
    refine ⟨_, _, validate_eq_findingsBelow validator inside,
      validate_eq_findingsBelow validator inside', fun above => ?_, fun unrelated => ?_⟩
    · apply findingsBelow_infix validator sound inside
      exact (sound.mem_subtree_iff_eq_or_above inside).mpr above
    · obtain ⟨different, others⟩ := not_or.mp unrelated
      obtain ⟨apart, apart'⟩ := not_or.mp others
      apply findingsBelow_disjoint validator sound inside inside'
      · exact mt (sound.mem_subtree_iff_eq_or_above inside).mp (not_or.mpr ⟨different, apart⟩)
      · exact mt (sound.mem_subtree_iff_eq_or_above inside').mp
          (not_or.mpr ⟨Ne.symm different, apart'⟩)

theorem validate_window_specimen :
    let validator : Validator := { settings := ({} : Settings).withStrict true }
    Draft.specimen.link [7] = .ok Tree.specimen ∧
      (∃ whole, validator.validate Tree.specimen 8 = .ok whole ∧
        ∃ part, validator.validate Tree.specimen 5 = .ok part ∧ part <:+: whole) ∧
      (5 ∈ Tree.specimen.ancestors 4 ∧ ∃ outer inner,
        validator.validate Tree.specimen 5 = .ok outer ∧
        validator.validate Tree.specimen 4 = .ok inner ∧ inner <:+: outer) ∧
      ∃ outer inner, validator.validate Tree.specimen 5 = .ok outer ∧
        validator.validate Tree.specimen 6 = .ok inner ∧ outer.Disjoint inner := by
  intro validator
  obtain ⟨⟨whole, all, parts⟩, pairs⟩ := validate_window Draft.link_specimen validator
  obtain ⟨part, some, placed, -⟩ := parts 5 (by decide)
  have above : 5 ∈ Tree.specimen.ancestors 4 := by decide
  obtain ⟨outer, inner, large, small, nested, -⟩ := pairs 5 4 (by decide) (by decide)
  obtain ⟨left, right, first, second, -, apart⟩ := pairs 5 6 (by decide) (by decide)
  exact ⟨Draft.link_specimen, ⟨whole, all, part, some, placed⟩,
    ⟨above, outer, inner, large, small, nested (.inr above)⟩,
    left, right, first, second, apart (by decide)⟩

end Validator
end ProgramLint
