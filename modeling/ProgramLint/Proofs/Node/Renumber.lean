import ProgramLint.Node.Basic

/-!
A node under other numbers: every slot holds the new number of what it held. Renumbering keeps
what a node is and how it is called, and carries its members and children along in their order.
-/

namespace ProgramLint

def Literal.renumber (change : NodeId → NodeId) : Literal → Literal
  | .object declaration => .object (change declaration)
  | plain => plain

def BaseCall.renumber (change : NodeId → NodeId) (call : BaseCall) : BaseCall :=
  { call with arguments := call.arguments.map change }

namespace Node

def renumber (change : NodeId → NodeId) : Node → Node
  | environment members => environment (members.map change)
  | package declared =>
    package { declared with
      imports := declared.imports.map change
      members := declared.members.map change }
  | program name block => program name (change block)
  | test name block => test name (change block)
  | describe name members => describe name (members.map change)
  | classDecl declared =>
    classDecl { declared with
      superclass := declared.superclass.map change
      mixins := declared.mixins.map change
      members := declared.members.map change }
  | mixinDecl declared =>
    mixinDecl { declared with
      mixins := declared.mixins.map change
      members := declared.members.map change }
  | singleton declared =>
    singleton { declared with
      superclass := declared.superclass.map change
      mixins := declared.mixins.map change
      members := declared.members.map change }
  | field declared => field { declared with value := declared.value.map change }
  | method declared =>
    method { declared with
      parameters := declared.parameters.map change
      body := declared.body.map change }
  | constructorDecl declared =>
    constructorDecl {
      parameters := declared.parameters.map change
      baseCall := declared.baseCall.map (BaseCall.renumber change)
      body := change declared.body }
  | parameter declared => parameter declared
  | localVariable declared => localVariable { declared with value := declared.value.map change }
  | reference name => reference name
  | assignment target value => assignment (change target) (change value)
  | tryBlock attempt catches always =>
    tryBlock (change attempt) (catches.map change) (change always)
  | catchClause caught type handler =>
    catchClause (change caught) (type.map change) (change handler)
  | importDecl imported generic => importDecl (change imported) generic
  | send receiver message arguments => send (change receiver) message (arguments.map change)
  | superCall arguments => superCall (arguments.map change)
  | selfRef => selfRef
  | newObject instantiated arguments => newObject (change instantiated) (arguments.map change)
  | literal value => literal (value.renumber change)
  | conditional condition positive negative =>
    conditional (change condition) (change positive) (change negative)
  | throwSentence thrown => throwSentence (change thrown)
  | returnSentence value => returnSentence (value.map change)
  | body sentences => body (sentences.map change)

variable (change : NodeId → NodeId) (node : Node)

@[simp]
theorem kind_renumber : (node.renumber change).kind = node.kind := by
  cases node <;> rfl

@[simp]
theorem name?_renumber : (node.renumber change).name? = node.name? := by
  cases node <;> rfl

@[simp]
theorem members_renumber : (node.renumber change).members = node.members.map change := by
  cases node <;> rfl

@[simp]
theorem children_renumber : (node.renumber change).children = node.children.map change := by
  cases node with
  | constructorDecl declared =>
    obtain ⟨parameters, baseCall, body⟩ := declared
    cases baseCall <;> simp [renumber, children, BaseCall.renumber]
  | literal value => cases value <;> rfl
  | _ => simp [renumber, children, Option.toList_map]

@[simp]
theorem renumber_id : node.renumber id = node := by
  cases node with
  | constructorDecl declared =>
    obtain ⟨parameters, baseCall, body⟩ := declared
    cases baseCall <;> simp [renumber, BaseCall.renumber]
  | literal value => cases value <;> rfl
  | _ => simp [renumber]

end Node
end ProgramLint
