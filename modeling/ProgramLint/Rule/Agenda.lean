import ProgramLint.Node.Kind

/-!
Which rules are run on nodes of which kind, by code and in the order of running. Every
kind is listed, so that a new one cannot be forgotten.
-/

namespace ProgramLint

def Kind.agenda : Kind → List String
  | parameter => ["nameIsCamelCase"]
  | localVariable => ["nameIsCamelCase", "nameIsNotKeyword"]
  | reference => ["nameIsNotKeyword"]
  | classDecl => ["nameIsPascalCase", "methodsHaveDistinctSignatures"]
  | mixinDecl => ["nameIsPascalCase"]
  | singleton => ["nameIsCamelCase", "singletonIsNotUnnamed"]
  | field => ["fieldNameDifferentFromTheMethods"]
  | method => ["onlyLastParameterIsVarArg", "nameIsNotKeyword", "methodNotOnlyCallToSuper"]
  | constructorDecl => ["constructorsHaveDistinctArity"]
  | importDecl => ["importHasNotLocalReference"]
  | assignment => ["nonAsignationOfFullyQualifiedReferences"]
  | tryBlock => ["hasCatchOrAlways"]
  | environment | package | program | test | describe => []
  | body | catchClause | conditional | throwSentence | returnSentence => []
  | send | superCall | selfRef | newObject | literal => []

end ProgramLint
