import ProgramLint.Tree.Basic

/-!
Which numbers of arguments a declaration accepts, and when two declarations compete for
one call. A variadic last parameter takes any number of arguments, none included, but a
call that competes through it gives at least as many arguments as there are parameters.
-/

namespace ProgramLint

structure Arity where
  parameters : Nat
  variadic : Bool
  deriving DecidableEq

namespace Arity

/-- Whether a call with one argument for each parameter of `first` can go to `second`. -/
def fits (first second : Arity) : Bool :=
  (second.variadic && second.parameters ≤ first.parameters) ||
    first.parameters == second.parameters

def clashes (first second : Arity) : Bool :=
  first.fits second || second.fits first

theorem clashes_comm (first second : Arity) : first.clashes second = second.clashes first :=
  Bool.or_comm ..

end Arity

/-- What a call names and what it gives. -/
structure Signature where
  name : String
  arity : Arity
  deriving DecidableEq

def Signature.clashes (first second : Signature) : Bool :=
  first.name == second.name && first.arity.clashes second.arity

/-- Each entry of a list with each later one. -/
def pairs : List α → List (α × α)
  | [] => []
  | first :: rest => rest.map (first, ·) ++ pairs rest

namespace Tree

/-- Only the last slot can make a list of parameters variadic. -/
def arity (tree : Tree) (parameters : List NodeId) : Arity :=
  ⟨parameters.length, parameters.getLast?.any tree.isVariadic⟩

/-- The signature of a method; other nodes have none. -/
def signature? (tree : Tree) (id : NodeId) : Option Signature :=
  match tree.node? id with
  | some (.method declared) => some ⟨declared.name, tree.arity declared.parameters⟩
  | _ => none

/-- The arity of a constructor; other nodes have none. -/
def constructorArity? (tree : Tree) (id : NodeId) : Option Arity :=
  match tree.node? id with
  | some (.constructorDecl declared) => some (tree.arity declared.parameters)
  | _ => none

/-- The methods of a list of nodes, each with its signature. -/
def signatures (tree : Tree) (members : List NodeId) : List (NodeId × Signature) :=
  members.filterMap fun id => (tree.signature? id).map (id, ·)

/-- The pairs of methods that compete for a call, the one listed earlier first. -/
def clashingMethods (tree : Tree) (members : List NodeId) : List (NodeId × NodeId) :=
  (pairs (tree.signatures members)).filterMap fun (first, second) =>
    if first.2.clashes second.2 then some (first.1, second.1) else none

end Tree
end ProgramLint
