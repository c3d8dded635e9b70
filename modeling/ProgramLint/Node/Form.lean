import ProgramLint.Node.Basic

/-!
Nodes in the form in which they are mostly written. A form has what a node of its kind cannot do
without; the rest of the node is as plain as it can be.
-/

namespace ProgramLint

inductive Form where
  | package (name : String) (imports members : List NodeId)
  | program (name : String) (block : NodeId)
  | test (name : String) (block : NodeId)
  | describe (name : String) (members : List NodeId)
  | classDecl (name : String) (superclass : Option NodeId) (members : List NodeId)
  | mixinDecl (name : String) (members : List NodeId)
  | singleton (name : Option String) (members : List NodeId)
  | field (name : String) (value : Option NodeId)
  | method (name : String) (parameters : List NodeId) (body : Option NodeId)
  | constructorDecl (parameters : List NodeId) (body : NodeId)
  | parameter (name : String)
  | variadic (name : String)
  | localVariable (name : String) (value : Option NodeId)
  | reference (name : String)
  | assignment (target value : NodeId)
  | tryBlock (attempt : NodeId) (catches : List NodeId) (always : NodeId)
  | catchClause (caught handler : NodeId)
  | importDecl (imported : NodeId)
  | send (receiver : NodeId) (message : String) (arguments : List NodeId)
  | superCall (arguments : List NodeId)
  | selfRef
  | newObject (instantiated : NodeId) (arguments : List NodeId)
  | literal (value : Literal)
  | conditional (condition positive negative : NodeId)
  | throwSentence (thrown : NodeId)
  | returnSentence (value : Option NodeId)
  | body (sentences : List NodeId)
  deriving DecidableEq

/-- Methods override nothing and are not native, a caught error may be of any type, and an import
is of one name. -/
def Form.node : Form → Node
  | package name imports members => .package { name, imports, members }
  | program name block => .program name block
  | test name block => .test name block
  | describe name members => .describe name members
  | classDecl name superclass members => .classDecl { name, superclass, members }
  | mixinDecl name members => .mixinDecl { name, members }
  | singleton name members => .singleton { name, members }
  | field name value => .field { name, value }
  | method name parameters block => .method { name, parameters, body := block }
  | constructorDecl parameters block => .constructorDecl { parameters, body := block }
  | parameter name => .parameter { name }
  | variadic name => .parameter { name, variadic := true }
  | localVariable name value => .localVariable { name, value }
  | reference name => .reference name
  | assignment target value => .assignment target value
  | tryBlock attempt catches always => .tryBlock attempt catches always
  | catchClause caught handler => .catchClause caught none handler
  | importDecl imported => .importDecl imported false
  | send receiver message arguments => .send receiver message arguments
  | superCall arguments => .superCall arguments
  | selfRef => .selfRef
  | newObject instantiated arguments => .newObject instantiated arguments
  | literal value => .literal value
  | conditional condition positive negative => .conditional condition positive negative
  | throwSentence thrown => .throwSentence thrown
  | returnSentence value => .returnSentence value
  | body sentences => .body sentences

end ProgramLint
