/-!
The kinds of node a program is made of, each with the word that reports print for it.
The list of all kinds is in the order in which tables present them.
-/

namespace ProgramLint

inductive Kind where
  | environment
  | package
  | program
  | test
  | describe
  | classDecl
  | mixinDecl
  | singleton
  | field
  | method
  | constructorDecl
  | parameter
  | localVariable
  | reference
  | assignment
  | tryBlock
  | catchClause
  | importDecl
  | send
  | superCall
  | selfRef
  | newObject
  | literal
  | conditional
  | throwSentence
  | returnSentence
  | body
  deriving DecidableEq

namespace Kind

def all : List Kind :=
  [.environment, .package, .program, .test, .describe, .classDecl, .mixinDecl, .singleton,
    .field, .method, .constructorDecl, .parameter, .localVariable, .reference, .assignment,
    .tryBlock, .catchClause, .importDecl, .send, .superCall, .selfRef, .newObject, .literal,
    .conditional, .throwSentence, .returnSentence, .body]

def name : Kind → String
  | environment => "Environment"
  | package => "Package"
  | program => "Program"
  | test => "Test"
  | describe => "Describe"
  | classDecl => "Class"
  | mixinDecl => "Mixin"
  | singleton => "Singleton"
  | field => "Field"
  | method => "Method"
  | constructorDecl => "Constructor"
  | parameter => "Parameter"
  | localVariable => "Variable"
  | reference => "Reference"
  | assignment => "Assignment"
  | tryBlock => "Try"
  | catchClause => "Catch"
  | importDecl => "Import"
  | send => "Send"
  | superCall => "Super"
  | selfRef => "Self"
  | newObject => "New"
  | literal => "Literal"
  | conditional => "If"
  | throwSentence => "Throw"
  | returnSentence => "Return"
  | body => "Body"

/-- The kind a printed word stands for. -/
def ofName? (word : String) : Option Kind :=
  all.find? fun kind => kind.name = word

theorem mem_all (kind : Kind) : kind ∈ all := by
  cases kind <;> decide

end Kind
end ProgramLint
