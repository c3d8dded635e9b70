import ProgramLint.Proofs.Linking.Reordering

/-!
What a tree keeps of the calls that its draft was put together by. Nodes have the numbers in whose
order they came, and each is where its own call left it. A span stays with a node if it was given
after the node came and if no later span was given to the same node.
-/

namespace ProgramLint

namespace Draft

/-- The node that a call adds, if it adds one. -/
def Call.node? : Call → Option Node
  | add node => some node
  | write form => some form.node
  | place .. => none

/-- The span that a call gives to a number, if it gives one. -/
def Call.span? (id : NodeId) : Call → Option Span
  | place other span => if other = id then some span else none
  | _ => none

/-- The nodes that calls add, one after the other. -/
def added (calls : List Call) : List Node :=
  calls.filterMap Call.node?

/-- The last of the spans that calls give to a number. -/
def lastSpan? (calls : List Call) (id : NodeId) : Option Span :=
  (calls.filterMap (Call.span? id)).getLast?

variable {draft : Draft} {call : Call} {calls : List Call} {node : Node} {id : NodeId}

@[simp]
theorem length_nodes (draft : Draft) : draft.nodes.length = draft.size := by
  simp [nodes, size]

theorem getElem?_nodes (draft : Draft) (id : NodeId) : draft.nodes[id]? = draft.node? id := by
  simp [nodes, node?]

theorem perform_of_node? (adds : call.node? = some node) :
    draft.perform call = draft.add node := by
  cases call with
  | add other => cases adds; rfl
  | write form => cases adds; rfl
  | place id span => contradiction

theorem nodes_perform (draft : Draft) (call : Call) :
    (draft.perform call).2.nodes = draft.nodes ++ call.node?.toList := by
  cases call with
  | add node => exact nodes_add draft node
  | write form => exact nodes_add draft form.node
  | place id span =>
    apply List.ext_getElem?
    intro other
    simp [perform, Call.node?, getElem?_nodes]

theorem span?_perform (inside : id < draft.size) (call : Call) :
    (draft.perform call).2.span? id = (call.span? id).or (draft.span? id) := by
  cases call with
  | add node => exact span?_add draft node id
  | write form => exact span?_add draft form.node id
  | place other span =>
    rw [perform, span?_place, Call.span?]
    by_cases same : other = id <;> simp [same, inside]

theorem lastSpan?_cons (call : Call) (rest : List Call) (id : NodeId) :
    lastSpan? (call :: rest) id = (lastSpan? rest id).or (call.span? id) := by
  unfold lastSpan?
  cases told : call.span? id with
  | none => rw [List.filterMap_cons_none told, Option.or_none]
  | some span =>
    rw [List.filterMap_cons_some told, List.getLast?_cons]
    cases (rest.filterMap (Call.span? id)).getLast? <;> rfl

theorem performAll_cons (draft : Draft) (call : Call) (rest : List Call) :
    draft.performAll (call :: rest) =
      ((draft.perform call).1 :: ((draft.perform call).2.performAll rest).1,
        ((draft.perform call).2.performAll rest).2) :=
  rfl

theorem performAll_append (draft : Draft) (before after : List Call) :
    draft.performAll (before ++ after) =
      ((draft.performAll before).1 ++ ((draft.performAll before).2.performAll after).1,
        ((draft.performAll before).2.performAll after).2) := by
  induction before generalizing draft with
  | nil => rfl
  | cons call rest ih =>
    rw [List.cons_append, performAll_cons, performAll_cons, ih]
    rfl

theorem length_performAll (draft : Draft) (calls : List Call) :
    (draft.performAll calls).1.length = calls.length := by
  induction calls generalizing draft with
  | nil => rfl
  | cons call rest ih => exact congrArg Nat.succ (ih _)

/-- Calls leave the nodes that are there as they are, and add theirs behind them. -/
theorem nodes_performAll (draft : Draft) (calls : List Call) :
    (draft.performAll calls).2.nodes = draft.nodes ++ added calls := by
  induction calls generalizing draft with
  | nil => exact (List.append_nil _).symm
  | cons call rest ih =>
    have later := ih (draft.perform call).2
    rw [nodes_perform, List.append_assoc] at later
    refine later.trans (congrArg (draft.nodes ++ ·) ?_)
    rw [added, added, List.filterMap_cons]
    cases call.node? <;> rfl

theorem size_performAll (draft : Draft) (calls : List Call) :
    (draft.performAll calls).2.size = draft.size + (added calls).length := by
  rw [← length_nodes, nodes_performAll, List.length_append, length_nodes]

/-- A node that is there has the last span it is given, or else the one that it has. -/
theorem span?_performAll (inside : id < draft.size) (calls : List Call) :
    (draft.performAll calls).2.span? id = (lastSpan? calls id).or (draft.span? id) := by
  induction calls generalizing draft with
  | nil => rfl
  | cons call rest ih =>
    have size := size_performAll draft [call]
    have known : id < (draft.perform call).2.size :=
      size ▸ Nat.lt_add_right _ inside
    rw [lastSpan?_cons, Option.or_assoc, ← span?_perform inside]
    exact ih known

section Step
variable (draft) (before after : List Call) (adds : call.node? = some node)

include adds

/-- The answer to a call that adds a node is the number of nodes that came before. -/
theorem getElem?_performAll :
    (draft.performAll (before ++ call :: after)).1[before.length]? =
      some (draft.size + (added before).length) := by
  rw [performAll_append, performAll_cons, List.getElem?_append_right (length_performAll ..).le,
    length_performAll, Nat.sub_self, List.getElem?_cons_zero, perform_of_node? adds]
  exact congrArg some (size_performAll draft before)

theorem node?_performAll :
    (draft.performAll (before ++ call :: after)).2.node? (draft.size + (added before).length) =
      some node := by
  have rest : added (call :: after) = node :: added after := List.filterMap_cons_some adds
  have same : added (before ++ call :: after) = added before ++ node :: added after := by
    rw [added, List.filterMap_append]
    exact congrArg (added before ++ ·) rest
  rw [← getElem?_nodes, nodes_performAll, same, ← List.append_assoc]
  have size : draft.size + (added before).length = (draft.nodes ++ added before).length := by
    rw [List.length_append, length_nodes]
  rw [size, List.getElem?_append_right (Nat.le_refl _), Nat.sub_self]
  rfl

/-- Of the spans given to a new node, those given before it came are lost. -/
theorem span?_performAll_added :
    (draft.performAll (before ++ call :: after)).2.span? (draft.size + (added before).length) =
      lastSpan? after (draft.size + (added before).length) := by
  have size := size_performAll draft before
  have inside : draft.size + (added before).length <
      ((draft.performAll before).2.add node).2.size := by
    rw [size_add, size]
    exact Nat.lt_succ_self _
  rw [performAll_append, performAll_cons, perform_of_node? adds]
  show (((draft.performAll before).2.add node).2.performAll after).2.span? _ = _
  rw [span?_performAll inside, span?_add, span?_of_le (Nat.le_of_eq size), Option.or_none]

end Step

/-- The tree over a draft that was put together by any calls has the nodes that were added, in this
order and under the numbers that were told, and the root behind them. A node has the last span that
it was given after it came; the root has none. There are as many spans and parents as nodes. -/
theorem link_performAll {calls : List Call} {members : List NodeId} {tree : Tree}
    (linked : (({} : Draft).performAll calls).2.link members = .ok tree) :
    (∀ before call after node, calls = before ++ call :: after → call.node? = some node →
      (({} : Draft).performAll calls).1[before.length]? = some (added before).length ∧
      tree.node? (added before).length = some node ∧
      tree.span? (added before).length = lastSpan? after (added before).length) ∧
    tree.nodes = added calls ++ [.environment members] ∧
    tree.root = (added calls).length ∧ tree.span? tree.root = none ∧
    tree.nodes.length = tree.size ∧ tree.spans.size = tree.size ∧
    tree.parents.size = tree.size ∧
    ∀ id, (tree.contains id = true ↔ id < tree.size) ∧
      tree.contains id = (tree.node? id).isSome := by
  obtain ⟨same, top, -, -⟩ := link_eq_ok_iff.mp linked
  have empty : ({} : Draft).size = 0 := rfl
  have size := size_performAll {} calls
  rw [empty, Nat.zero_add] at size
  refine ⟨?each, ?nodes, top.trans size, ?root, length_nodes _, tree.aligned,
    size_parents_of_link linked, fun id => ⟨contains_iff, contains_eq_isSome _ id⟩⟩
  case each =>
    intro before call after node split adds
    subst split
    have answer := getElem?_performAll {} before after adds
    have found := node?_performAll {} before after adds
    have placed := span?_performAll_added {} before after adds
    rw [empty, Nat.zero_add] at answer found placed
    refine ⟨answer, ?_, ?_⟩
    · rw [same, withRoot, node?_add, if_neg (Nat.ne_of_lt (node?_lt found)), found]
    · rw [same, span?_withRoot, placed]
  case nodes =>
    rw [same, nodes_withRoot, nodes_performAll]
    rfl
  case root =>
    rw [same, top, span?_withRoot]
    exact span?_of_le (Nat.le_refl _)

/-- Some spans come before their nodes, and one has the number that the root will get. -/
def sketch : List Call :=
  [.place 0 ⟨⟨1, 1⟩, ⟨1, 2⟩⟩, .write (.parameter "x"), .place 1 ⟨⟨1, 1⟩, ⟨1, 9⟩⟩,
    .place 0 ⟨⟨1, 3⟩, ⟨1, 4⟩⟩, .add (.method { name := "m", parameters := [0] }),
    .place 2 ⟨⟨1, 1⟩, ⟨9, 9⟩⟩, .place 0 ⟨⟨1, 5⟩, ⟨1, 6⟩⟩]

end Draft

def Tree.sketch : Tree where
  toDraft := (({} : Draft).performAll Draft.sketch).2.withRoot [1]
  root := 2
  parents := #[some 1, some 2, none]

namespace Draft

theorem link_sketch : (({} : Draft).performAll sketch).2.link [1] = .ok Tree.sketch := by
  cbv

theorem link_performAll_sketch :
    (({} : Draft).performAll sketch).2.link [1] = .ok Tree.sketch ∧
      (({} : Draft).performAll sketch).1 = [0, 0, 1, 0, 1, 2, 0] ∧
      Tree.sketch.span? 0 = some ⟨⟨1, 5⟩, ⟨1, 6⟩⟩ ∧ Tree.sketch.span? 1 = none ∧
      Tree.sketch.span? 2 = none := by
  obtain ⟨each, -, -, root, -⟩ := link_performAll link_sketch
  have parameter := each (sketch.take 1) (.write (.parameter "x")) (sketch.drop 2) _ rfl rfl
  have method := each (sketch.take 4) (.add (.method { name := "m", parameters := [0] }))
    (sketch.drop 5) _ rfl rfl
  exact ⟨link_sketch, rfl, parameter.2.2, method.2.2, root⟩

end Draft
end ProgramLint
