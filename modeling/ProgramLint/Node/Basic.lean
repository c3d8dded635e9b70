import ProgramLint.Node.Kind
import ProgramLint.Node.Number

/-!
Nodes of a program. A node refers to the nodes below it by their numbers, and any slot may
hold any number; which numbers make sense is settled when a draft is linked.
-/

namespace ProgramLint

/-- A node is known by the number it was given when it entered its draft. -/
abbrev NodeId := Nat

/-- The printed form of a node's number. -/
def NodeId.text (id : NodeId) : String :=
  "#" ++ id.repr

inductive Literal where
  | null
  | boolean (value : Bool)
  | number (value : Number)
  | text (value : String)
  | object (declaration : NodeId)
  deriving DecidableEq

/-- Numbers are compared as numbers, everything else by its form. -/
def Literal.sameAs : Literal → Literal → Bool
  | .number first, .number second => first.sameAs second
  | first, second => first = second

structure Package where
  name : String
  imports : List NodeId := []
  members : List NodeId := []
  deriving DecidableEq

structure ClassDecl where
  name : String
  superclass : Option NodeId := none
  mixins : List NodeId := []
  members : List NodeId := []
  deriving DecidableEq

structure MixinDecl where
  name : String
  mixins : List NodeId := []
  members : List NodeId := []
  deriving DecidableEq

/-- A single object. One written in place, as a literal, has no name. -/
structure ObjectDecl where
  name : Option String := none
  superclass : Option NodeId := none
  mixins : List NodeId := []
  members : List NodeId := []
  deriving DecidableEq

/-- A field of an object or a variable of a body. -/
structure Binding where
  name : String
  readOnly : Bool := false
  value : Option NodeId := none
  deriving DecidableEq

/-- Abstract and native methods have no body. -/
structure Method where
  name : String
  overrides : Bool := false
  native : Bool := false
  parameters : List NodeId := []
  body : Option NodeId := none
  deriving DecidableEq

/-- The constructor to run first, of the superclass or of the class itself. -/
structure BaseCall where
  ofSuper : Bool := false
  arguments : List NodeId := []
  deriving DecidableEq

structure Constructor where
  parameters : List NodeId := []
  baseCall : Option BaseCall := none
  body : NodeId
  deriving DecidableEq

/-- A variadic parameter takes every argument from its position on. -/
structure Parameter where
  name : String
  variadic : Bool := false
  deriving DecidableEq

inductive Node where
  | environment (members : List NodeId)
  | package (declared : Package)
  | program (name : String) (block : NodeId)
  | test (name : String) (block : NodeId)
  | describe (name : String) (members : List NodeId)
  | classDecl (declared : ClassDecl)
  | mixinDecl (declared : MixinDecl)
  | singleton (declared : ObjectDecl)
  | field (declared : Binding)
  | method (declared : Method)
  | constructorDecl (declared : Constructor)
  | parameter (declared : Parameter)
  | localVariable (declared : Binding)
  | reference (name : String)
  | assignment (target value : NodeId)
  | tryBlock (attempt : NodeId) (catches : List NodeId) (always : NodeId)
  | catchClause (caught : NodeId) (type : Option NodeId) (handler : NodeId)
  | importDecl (imported : NodeId) (generic : Bool)
  | send (receiver : NodeId) (message : String) (arguments : List NodeId)
  | superCall (arguments : List NodeId)
  | selfRef
  | newObject (instantiated : NodeId) (arguments : List NodeId)
  | literal (value : Literal)
  | conditional (condition positive negative : NodeId)
  | throwSentence (thrown : NodeId)
  | returnSentence (value : Option NodeId)
  | body (sentences : List NodeId)
  deriving DecidableEq

namespace Node

def kind : Node → Kind
  | environment .. => .environment
  | package .. => .package
  | program .. => .program
  | test .. => .test
  | describe .. => .describe
  | classDecl .. => .classDecl
  | mixinDecl .. => .mixinDecl
  | singleton .. => .singleton
  | field .. => .field
  | method .. => .method
  | constructorDecl .. => .constructorDecl
  | parameter .. => .parameter
  | localVariable .. => .localVariable
  | reference .. => .reference
  | assignment .. => .assignment
  | tryBlock .. => .tryBlock
  | catchClause .. => .catchClause
  | importDecl .. => .importDecl
  | send .. => .send
  | superCall .. => .superCall
  | selfRef => .selfRef
  | newObject .. => .newObject
  | literal .. => .literal
  | conditional .. => .conditional
  | throwSentence .. => .throwSentence
  | returnSentence .. => .returnSentence
  | body .. => .body

/-- The name a node declares or, for a reference, uses. -/
def name? : Node → Option String
  | package declared => some declared.name
  | program name _ | test name _ | describe name _ | reference name => some name
  | classDecl declared => some declared.name
  | mixinDecl declared => some declared.name
  | singleton declared => declared.name
  | field declared | localVariable declared => some declared.name
  | method declared => some declared.name
  | parameter declared => some declared.name
  | _ => none

/-- The declarations a container holds. Imports and parents are not among them. -/
def members : Node → List NodeId
  | environment members | describe _ members => members
  | package declared => declared.members
  | classDecl declared => declared.members
  | mixinDecl declared => declared.members
  | singleton declared => declared.members
  | _ => []

/-- The numbers in a node's slots, in the order in which they are written. -/
def children : Node → List NodeId
  | environment members | describe _ members => members
  | package declared => declared.imports ++ declared.members
  | program _ block | test _ block => [block]
  | classDecl declared => declared.superclass.toList ++ declared.mixins ++ declared.members
  | mixinDecl declared => declared.mixins ++ declared.members
  | singleton declared => declared.superclass.toList ++ declared.mixins ++ declared.members
  | field declared | localVariable declared => declared.value.toList
  | method declared => declared.parameters ++ declared.body.toList
  | constructorDecl declared =>
    declared.parameters ++ (declared.baseCall.elim [] BaseCall.arguments) ++ [declared.body]
  | parameter _ | reference _ | selfRef => []
  | assignment target value => [target, value]
  | tryBlock attempt catches always => attempt :: catches ++ [always]
  | catchClause caught type handler => caught :: type.toList ++ [handler]
  | importDecl imported _ => [imported]
  | send receiver _ arguments => receiver :: arguments
  | superCall arguments => arguments
  | newObject instantiated arguments => instantiated :: arguments
  | literal (.object declaration) => [declaration]
  | literal _ => []
  | conditional condition positive negative => [condition, positive, negative]
  | throwSentence thrown => [thrown]
  | returnSentence value => value.toList
  | body sentences => sentences

/-- Two nodes of the same form, with literal numbers compared as numbers. -/
def sameAs : Node → Node → Bool
  | literal first, literal second => first.sameAs second
  | first, second => first = second

theorem members_suffix_children (node : Node) : node.members <:+ node.children := by
  cases node
  case classDecl | singleton => exact List.suffix_append ..
  all_goals simp [members, children]

end Node
end ProgramLint
