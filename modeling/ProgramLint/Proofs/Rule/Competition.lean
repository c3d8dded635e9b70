import Mathlib.Data.List.Nodup
import Mathlib.Data.List.Pairwise
import ProgramLint.Arity

/-!
When two nodes compete for a call, and which pairs of a list the search for competing methods
tells. It leaves everything that is no method aside and meets every pair of positions once.
-/

namespace ProgramLint

theorem forall_mem_pairs {α : Type} {list : List α} {allowed : α × α → Prop} :
    (∀ pair ∈ pairs list, allowed pair) ↔
      list.Pairwise fun first second => allowed (first, second) := by
  induction list with
  | nil => simp [pairs]
  | cons first rest ih =>
    rw [pairs, List.forall_mem_append, ih, List.pairwise_cons, List.forall_mem_map]

namespace Tree
variable {tree : Tree} {first second : NodeId} {members : List NodeId}

/-- Two methods of one name that some call fits both. -/
def Compete (tree : Tree) (first second : NodeId) : Prop :=
  ∃ here there, tree.node? first = some (.method here) ∧ tree.node? second = some (.method there) ∧
    here.name = there.name ∧ (tree.arity here.parameters).clashes (tree.arity there.parameters)

theorem signature?_eq_some {id : NodeId} {signature : Signature} :
    tree.signature? id = some signature ↔
      ∃ declared, tree.node? id = some (.method declared) ∧
        signature = ⟨declared.name, tree.arity declared.parameters⟩ := by
  unfold signature?
  split
  next declared found => simp [found, eq_comm]
  next other =>
    apply Iff.intro
    · intro wrong
      contradiction
    · intro found
      obtain ⟨declared, found, -⟩ := found
      exact absurd found (other declared)

def competes (tree : Tree) (first second : NodeId) : Bool :=
  (tree.signature? first).any fun here => (tree.signature? second).any here.clashes

theorem competes_iff : tree.competes first second = true ↔ tree.Compete first second := by
  simp only [competes, Option.any_eq_true, signature?_eq_some, Signature.clashes,
    Bool.and_eq_true, beq_iff_eq]
  apply Iff.intro
  · intro compete
    obtain ⟨_, ⟨here, left, rfl⟩, _, ⟨there, right, rfl⟩, same, clash⟩ := compete
    exact ⟨here, there, left, right, same, clash⟩
  · intro compete
    obtain ⟨here, there, left, right, same, clash⟩ := compete
    exact ⟨_, ⟨here, left, rfl⟩, _, ⟨there, right, rfl⟩, same, clash⟩

theorem Compete.symm (compete : tree.Compete first second) : tree.Compete second first := by
  obtain ⟨here, there, left, right, same, clash⟩ := compete
  exact ⟨there, here, right, left, same.symm, Arity.clashes_comm .. ▸ clash⟩

/-- The methods that compete with the first one of a list. -/
theorem filterMap_signatures {signature : Signature}
    (found : tree.signature? first = some signature) (members : List NodeId) :
    ((tree.signatures members).map ((first, signature), ·)).filterMap
        (fun (here, there) =>
          if here.2.clashes there.2 then some (here.1, there.1) else none) =
      (members.map (first, ·)).filter fun pair => tree.competes pair.1 pair.2 := by
  induction members with
  | nil => rfl
  | cons other rest ih =>
    rw [signatures, List.filterMap_cons, List.map_cons]
    cases known : tree.signature? other with
    | none =>
      rw [List.filter_cons_of_neg (by simp [competes, known])]
      exact ih
    | some competing =>
      by_cases clash : signature.clashes competing = true
      · rw [List.filter_cons_of_pos (by simp [competes, found, known, clash]), ← ih]
        simp [clash, signatures]
      · rw [List.filter_cons_of_neg (by simp [competes, found, known, clash]), ← ih]
        simp [clash, signatures]

/-- Competing methods are found pair by pair, in the order of the list. -/
theorem clashingMethods_eq (tree : Tree) (members : List NodeId) :
    tree.clashingMethods members =
      (pairs members).filter fun pair => tree.competes pair.1 pair.2 := by
  induction members with
  | nil => rfl
  | cons first rest ih =>
    rw [pairs, List.filter_append, ← ih, clashingMethods, signatures, List.filterMap_cons]
    cases found : tree.signature? first with
    | none =>
      have silent :
          ((rest.map (first, ·)).filter fun pair => tree.competes pair.1 pair.2) = [] := by
        simp [competes, found]
      rw [silent]
      rfl
    | some signature =>
      rw [← filterMap_signatures found]
      simp only [Option.map_some, pairs, List.filterMap_append]
      rfl

/-- None are told exactly if no member competes with one listed later. -/
theorem clashingMethods_eq_nil_iff_pairwise :
    tree.clashingMethods members = [] ↔
      members.Pairwise fun first second => ¬tree.Compete first second := by
  rw [clashingMethods_eq, List.filter_eq_nil_iff, forall_mem_pairs]
  simp only [competes_iff]

/-- Among different members none are told exactly if no two of them compete. -/
theorem clashingMethods_eq_nil_iff (distinct : members.Nodup) :
    tree.clashingMethods members = [] ↔
      ∀ first ∈ members, ∀ second ∈ members, first ≠ second → ¬tree.Compete first second := by
  rw [clashingMethods_eq_nil_iff_pairwise]
  apply Iff.intro
  · intro apart first here second there different
    have symmetric : Std.Symm fun first second => ¬tree.Compete first second :=
      ⟨fun _ _ apart compete => apart compete.symm⟩
    exact apart.forall here there different
  · intro apart
    exact distinct.pairwise_of_forall_ne apart

end Tree
end ProgramLint
