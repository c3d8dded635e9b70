import Mathlib.Data.List.FinRange
import Mathlib.Data.Sym.Sym2
import ProgramLint.Proofs.Rule.Calls
import ProgramLint.Proofs.Tree.Alike

/-!
Which pairs the search for competing methods tells, for any list of numbers. It goes by the
positions of the list and not by what stands there, so a method that is listed twice is told as
competing with itself. In a list without repetitions a pair is always one of two different methods.
-/

namespace ProgramLint
open scoped List

section Pairs
variable {α : Type} {list other part : List α} {first second : α}

theorem mem_pairs : (first, second) ∈ pairs list ↔ [first, second] <+ list := by
  induction list with
  | nil => simp [pairs]
  | cons head rest ih =>
    rw [pairs, List.mem_append, ih, List.mem_map, List.sublist_cons_iff, or_comm]
    refine or_congr_right ?_
    simp [and_comm, eq_comm]

theorem pairs_sublist (kept : part <+ list) : pairs part <+ pairs list := by
  induction kept with
  | slnil => exact .refl _
  | cons head _ ih => exact ih.trans (List.sublist_append_right ..)
  | cons_cons head later ih => exact (later.map _).append ih

/-- The pairs of an ordered list are ordered by their first entries, then by their second ones. -/
theorem pairwise_pairs {before : α → α → Prop} (ordered : list.Pairwise before) :
    (pairs list).Pairwise (Prod.Lex before before) := by
  induction list with
  | nil => exact .nil
  | cons head rest ih =>
    obtain ⟨least, sorted⟩ := List.pairwise_cons.mp ordered
    refine List.pairwise_append.mpr ⟨?row, ih sorted, ?later⟩
    case row => exact List.pairwise_map.mpr (sorted.imp fun lower => .right head lower)
    case later =>
      intro pair here later there
      obtain ⟨second, -, rfl⟩ := List.mem_map.mp here
      exact .left _ _ (least later.1 ((mem_pairs.mp there).subset (by simp)))

theorem pair_sublist_or (here : first ∈ list) (there : second ∈ list) (different : first ≠ second) :
    [first, second] <+ list ∨ [second, first] <+ list := by
  obtain ⟨before, after, rfl⟩ := List.append_of_mem here
  rcases List.mem_append.mp there with earlier | later
  · have ends : [first] <+ first :: after := by simp
    exact .inr ((List.singleton_sublist.mpr earlier).append ends)
  · have later := (List.mem_cons.mp later).resolve_left different.symm
    have begins := (List.singleton_sublist.mpr later).cons_cons first
    exact .inl (begins.trans (List.sublist_append_right ..))

theorem mem_pairs_finRange {size : Nat} {first second : Fin size} :
    (first, second) ∈ pairs (List.finRange size) ↔ first < second := by
  have rising := List.pairwise_lt_finRange size
  rw [mem_pairs]
  apply Iff.intro
  · intro kept
    simpa using rising.sublist kept
  · intro lower
    have either := pair_sublist_or (List.mem_finRange first) (List.mem_finRange second) lower.ne
    refine either.resolve_right fun swapped => ?_
    have higher : second < first := by simpa using rising.sublist swapped
    exact lower.asymm higher

/-- The same pairs, without a word on which of the two comes first. -/
def unordered (pairs : List (α × α)) : List (Sym2 α) :=
  pairs.map fun pair => s(pair.1, pair.2)

theorem mem_unordered {pairs : List (α × α)} :
    s(first, second) ∈ unordered pairs ↔ (first, second) ∈ pairs ∨ (second, first) ∈ pairs := by
  simp only [unordered, List.mem_map, Prod.exists, Sym2.eq_iff]
  apply Iff.intro
  · intro found
    obtain ⟨_, _, member, ⟨rfl, rfl⟩ | ⟨rfl, rfl⟩⟩ := found
    · exact .inl member
    · exact .inr member
  · intro member
    cases member with
    | inl same => exact ⟨first, second, same, .inl ⟨rfl, rfl⟩⟩
    | inr swapped => exact ⟨second, first, swapped, .inr ⟨rfl, rfl⟩⟩

theorem unordered_pairs_perm (order : list ~ other) :
    unordered (pairs list) ~ unordered (pairs other) := by
  induction order with
  | nil => exact .refl _
  | cons head later ih =>
    simp only [unordered, pairs, List.map_append, List.map_map] at ih ⊢
    exact (later.map _).append ih
  | swap first second rest =>
    simp only [unordered, pairs, List.map_append, List.map_map, List.map_cons, List.cons_append]
    -- The two heads make one pair, and their rows stand side by side.
    rw [Sym2.eq_swap, ← List.append_assoc, ← List.append_assoc]
    exact (List.perm_append_comm.append_right _).cons _
  | trans _ _ here there => exact here.trans there

end Pairs

namespace Tree
variable {tree : Tree} {members others : List NodeId} {first second : NodeId}

/-- The positions of competing methods in a list, the earlier one first. -/
def clashingPlaces (tree : Tree) (members : List NodeId) :
    List (Fin members.length × Fin members.length) :=
  (pairs (List.finRange members.length)).filter fun places =>
    tree.competes (members.get places.1) (members.get places.2)

theorem mem_clashingPlaces {first second : Fin members.length} :
    (first, second) ∈ tree.clashingPlaces members ↔
      first < second ∧ tree.Compete (members.get first) (members.get second) := by
  rw [clashingPlaces, List.mem_filter, mem_pairs_finRange, competes_iff]

theorem clashingMethods_eq_map (tree : Tree) (members : List NodeId) :
    tree.clashingMethods members =
      (tree.clashingPlaces members).map (Prod.map members.get members.get) := by
  have entries := List.map_get_finRange members
  calc
    tree.clashingMethods members
    _ = (pairs members).filter fun pair => tree.competes pair.1 pair.2 :=
      tree.clashingMethods_eq members
    _ = ((pairs (List.finRange members.length)).map (Prod.map members.get members.get)).filter
        fun pair => tree.competes pair.1 pair.2 := by rw [← pairs_map, entries]
    _ = (tree.clashingPlaces members).map (Prod.map members.get members.get) := by
      rw [List.filter_map]
      rfl

theorem competes_comm (tree : Tree) (first second : NodeId) :
    tree.competes first second = tree.competes second first := by
  rw [Bool.eq_iff_iff, competes_iff, competes_iff]
  exact ⟨Compete.symm, Compete.symm⟩

/-- Whether nodes compete can be asked of an unordered pair. -/
theorem unordered_clashingMethods (tree : Tree) (members : List NodeId) :
    unordered (tree.clashingMethods members) =
      (unordered (pairs members)).filter (Sym2.lift ⟨tree.competes, tree.competes_comm⟩) := by
  rw [clashingMethods_eq, unordered, unordered, List.filter_map]
  rfl

/-- The search tells the entries of exactly those two positions that hold competing methods, row by
row and each two positions once. The order of the list decides nothing but the order of what is
told, and a part of the list tells a part of it. -/
theorem clashingMethods_by_position (tree : Tree) (members : List NodeId) :
    (tree.clashingMethods members =
      (tree.clashingPlaces members).map (Prod.map members.get members.get) ∧
    (tree.clashingPlaces members).Pairwise (Prod.Lex (· < ·) (· < ·)) ∧
    ∀ first second, (first, second) ∈ tree.clashingPlaces members ↔
      first < second ∧ tree.Compete (members.get first) (members.get second)) ∧
    (∀ others, others ~ members →
      unordered (tree.clashingMethods others) ~ unordered (tree.clashingMethods members)) ∧
    ∀ part, part <+ members → tree.clashingMethods part <+ tree.clashingMethods members := by
  refine ⟨⟨tree.clashingMethods_eq_map members, ?rows, fun _ _ => mem_clashingPlaces⟩, ?order,
    ?part⟩
  case rows => exact (pairwise_pairs (List.pairwise_lt_finRange _)).filter _
  case order =>
    intro others order
    rw [unordered_clashingMethods, unordered_clashingMethods]
    exact (unordered_pairs_perm order).filter _
  case part =>
    intro part kept
    rw [clashingMethods_eq, clashingMethods_eq]
    exact (pairs_sublist kept).filter _

/-- One method is listed twice, and one number names no node. -/
theorem clashingMethods_by_position_rivals :
    rivals.clashingMethods [3, 99, 1, 3] = [(3, 1), (3, 3), (1, 3)] ∧
      unordered (rivals.clashingMethods [1, 3, 3, 99]) ~
        unordered (rivals.clashingMethods [3, 99, 1, 3]) ∧
      rivals.clashingMethods [3, 1] <+ rivals.clashingMethods [3, 99, 1, 3] := by
  have told := clashingMethods_by_position rivals [3, 99, 1, 3]
  exact ⟨by decide, told.2.1 [1, 3, 3, 99] (by decide), told.2.2 [3, 1] (by decide)⟩

theorem mem_unordered_clashingMethods :
    s(first, second) ∈ unordered (tree.clashingMethods members) ↔
      tree.Compete first second ∧ ([first, second] <+ members ∨ [second, first] <+ members) := by
  rw [unordered_clashingMethods, List.mem_filter, Sym2.lift_mk, competes_iff, mem_unordered,
    mem_pairs, mem_pairs, and_comm]

/-- Two numbers have a position each: for one number that makes two. -/
theorem pair_sublist_or_iff :
    [first, second] <+ members ∨ [second, first] <+ members ↔
      first ∈ members ∧ second ∈ members ∧ (first = second → 2 ≤ members.count first) := by
  by_cases same : first = second
  · subst same
    have twice : [first, first] <+ members ↔ 2 ≤ members.count first := by
      rw [← List.replicate_sublist_iff]
      rfl
    simp only [or_self, twice, forall_const]
    refine ⟨fun enough => ?_, fun listed => listed.2.2⟩
    have member : first ∈ members := List.count_pos_iff.mp (by omega)
    exact ⟨member, member, enough⟩
  · simp only [same, false_implies, and_true]
    refine ⟨fun kept => ?_, fun listed => pair_sublist_or listed.1 listed.2 same⟩
    rcases kept with kept | kept <;> simpa [and_comm] using kept.subset

/-- Two methods that compete are told exactly if the list has a position for each of them. So a
method is told with itself exactly if it is listed twice, which happens in no list without
repetitions. -/
theorem clashing_pair_told_iff (tree : Tree) (members : List NodeId) :
    (∀ first second, s(first, second) ∈ unordered (tree.clashingMethods members) ↔
      first ∈ members ∧ second ∈ members ∧ (first = second → 2 ≤ members.count first) ∧
        tree.Compete first second) ∧
    (members.Nodup → ∀ first second,
      s(first, second) ∈ unordered (tree.clashingMethods members) ↔
        first ≠ second ∧ first ∈ members ∧ second ∈ members ∧ tree.Compete first second) := by
  have told (first second : NodeId) :
      s(first, second) ∈ unordered (tree.clashingMethods members) ↔
        first ∈ members ∧ second ∈ members ∧ (first = second → 2 ≤ members.count first) ∧
          tree.Compete first second := by
    rw [mem_unordered_clashingMethods, pair_sublist_or_iff, and_comm, and_assoc, and_assoc]
  refine ⟨told, fun distinct first second => ?_⟩
  have once := List.nodup_iff_count_le_one.mp distinct first
  rw [told]
  apply Iff.intro
  · intro listed
    obtain ⟨here, there, places, compete⟩ := listed
    refine ⟨fun same => ?_, here, there, compete⟩
    have twice := places same
    omega
  · intro listed
    obtain ⟨different, here, there, compete⟩ := listed
    exact ⟨here, there, fun same => absurd same different, compete⟩

theorem clashing_pair_told_rivals :
    [3, 99, 1].Nodup ∧ s(1, 3) ∈ unordered (rivals.clashingMethods [3, 99, 1]) := by
  have distinct : [3, 99, 1].Nodup := by decide
  have told := (clashing_pair_told_iff rivals [3, 99, 1]).2 distinct 1 3
  refine ⟨distinct, told.mpr ⟨by decide, by decide, by decide, ?_⟩⟩
  exact competes_iff.mp (by decide)

/-- Identity is not by number: of a list that repeats a method, the search tells a pair of equal
numbers. -/
theorem method_told_with_itself :
    Draft.rivals.link [12] = .ok rivals ∧
      ¬∀ members first second, s(first, second) ∈ unordered (rivals.clashingMethods members) ↔
        first ≠ second ∧ first ∈ members ∧ second ∈ members ∧ rivals.Compete first second := by
  refine ⟨Draft.link_rivals, fun claimed => ?_⟩
  have told : rivals.clashingMethods [1, 1] = [(1, 1)] := by decide
  have member : s(1, 1) ∈ unordered (rivals.clashingMethods [1, 1]) := by simp [told, unordered]
  exact ((claimed [1, 1] 1 1).mp member).1 rfl

end Tree
end ProgramLint
