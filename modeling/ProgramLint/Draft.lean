import ProgramLint.Node.Form

/-!
A draft collects nodes before they are joined into a tree. The nth node added gets the
number n, counted from zero, and can be given the stretch of text it was read from.
-/

namespace ProgramLint

structure Position where
  line : Nat
  column : Nat
  deriving DecidableEq

structure Span where
  start : Position
  stop : Position
  deriving DecidableEq

/-- Two columns, with a row for each number. -/
@[ext]
structure Draft where
  arena : Array Node
  spans : Array (Option Span)
  aligned : spans.size = arena.size
  deriving DecidableEq

namespace Draft

instance : EmptyCollection Draft where
  emptyCollection := { arena := #[], spans := #[], aligned := rfl }

def size (draft : Draft) : Nat :=
  draft.arena.size

def isEmpty (draft : Draft) : Bool :=
  draft.arena.isEmpty

def contains (draft : Draft) (id : NodeId) : Bool :=
  id < draft.size

def node? (draft : Draft) (id : NodeId) : Option Node :=
  draft.arena[id]?

def span? (draft : Draft) (id : NodeId) : Option Span :=
  draft.spans[id]?.join

/-- The children of a node; a number that names no node has none. -/
def childrenOf (draft : Draft) (id : NodeId) : List NodeId :=
  (draft.node? id).elim [] Node.children

/-- Appends a node and tells its number. -/
def add (draft : Draft) (node : Node) : NodeId × Draft :=
  (draft.size, {
    arena := draft.arena.push node
    spans := draft.spans.push none
    aligned := by simp [draft.aligned] })

/-- Appends the node that a form stands for and tells its number. -/
def write (draft : Draft) (form : Form) : NodeId × Draft :=
  draft.add form.node

/-- Appends nodes from left to right and tells their numbers. -/
def addAll (draft : Draft) : List Node → List NodeId × Draft
  | [] => ([], draft)
  | node :: rest =>
    let (id, grown) := draft.add node
    let (ids, full) := grown.addAll rest
    (id :: ids, full)

/-- Places a node in the text. A number not given out yet is ignored, also later on. -/
def place (draft : Draft) (id : NodeId) (span : Span) : Draft :=
  { draft with
    spans := draft.spans.setIfInBounds id (some span)
    aligned := by simp [draft.aligned] }

/-- One call to a draft that is being put together. -/
inductive Call where
  | add (node : Node)
  | write (form : Form)
  | place (id : NodeId) (span : Span)
  deriving DecidableEq

/-- Every call is answered with a number: that of the new node, or the one that it names. -/
def perform (draft : Draft) : Call → NodeId × Draft
  | .add node => draft.add node
  | .write form => draft.write form
  | .place id span => (id, draft.place id span)

/-- Performs calls from left to right and tells the answers. -/
def performAll (draft : Draft) : List Call → List NodeId × Draft
  | [] => ([], draft)
  | call :: rest =>
    let (id, next) := draft.perform call
    let (ids, last) := next.performAll rest
    (id :: ids, last)

theorem node?_lt {draft : Draft} {id : NodeId} {node : Node} (found : draft.node? id = some node) :
    id < draft.size :=
  (Array.getElem?_eq_some_iff.mp found).1

theorem span?_of_le {draft : Draft} {id : NodeId} (outside : draft.size ≤ id) :
    draft.span? id = none := by
  rw [span?, Array.getElem?_eq_none (Nat.le_trans (Nat.le_of_eq draft.aligned) outside)]
  rfl

@[simp]
theorem size_add (draft : Draft) (node : Node) : (draft.add node).2.size = draft.size + 1 := by
  simp [add, size]

@[simp]
theorem size_place (draft : Draft) (id : NodeId) (span : Span) :
    (draft.place id span).size = draft.size :=
  rfl

/-- The new node is found under its number, and every other number stands for what it stood for. -/
theorem node?_add (draft : Draft) (node : Node) (id : NodeId) :
    (draft.add node).2.node? id = if id = draft.size then some node else draft.node? id :=
  Array.getElem?_push

/-- A new node has no place in the text. -/
theorem span?_add (draft : Draft) (node : Node) (id : NodeId) :
    (draft.add node).2.span? id = draft.span? id := by
  simp only [add, span?, Array.getElem?_push]
  split
  next last =>
    rw [Array.getElem?_eq_none (Nat.le_of_eq last.symm)]
    rfl
  next => rfl

@[simp]
theorem node?_place (draft : Draft) (id other : NodeId) (span : Span) :
    (draft.place id span).node? other = draft.node? other :=
  rfl

/-- Only a node that is already there can be placed. -/
theorem span?_place (draft : Draft) (id other : NodeId) (span : Span) :
    (draft.place id span).span? other =
      if id = other ∧ other < draft.size then some span else draft.span? other := by
  simp only [place, span?, Array.getElem?_setIfInBounds, size, ← draft.aligned]
  by_cases same : id = other
  · subst same
    by_cases known : id < draft.spans.size <;> simp [known]
  · simp [same]

theorem contains_iff {draft : Draft} {id : NodeId} :
    draft.contains id = true ↔ id < draft.size :=
  decide_eq_true_iff

theorem contains_eq_isSome (draft : Draft) (id : NodeId) :
    draft.contains id = (draft.node? id).isSome := by
  by_cases known : id < draft.arena.size <;> simp [contains, node?, size, known]

end Draft
end ProgramLint
