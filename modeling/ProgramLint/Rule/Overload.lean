import ProgramLint.Arity
import ProgramLint.Rule.Basic

/-!
Rules that keep calls unambiguous: no two methods of a class, and no two constructors side
by side, may compete for a call, and a variadic parameter must come last.
-/

namespace ProgramLint.Rule

def variadicLast : Rule where
  code := "onlyLastParameterIsVarArg"
  description := "Only the last parameter of a method can be a vararg"
  level := .error
  accepts
    | tree, _, .method declared =>
      (declared.parameters.findIdx? tree.isVariadic).all (· + 1 == declared.parameters.length)
    | _, _, _ => true

def methodsApart : Rule where
  code := "methodsHaveDistinctSignatures"
  description := "A class cannot declare two methods with the same name that accept the same calls"
  level := .error
  accepts
    | tree, _, .classDecl declared => (tree.clashingMethods declared.members).isEmpty
    | _, _, _ => true

/-- A constructor is compared with every other constructor around it. -/
def constructorsApart : Rule where
  code := "constructorsHaveDistinctArity"
  description := "Constructors of a class cannot accept the same calls"
  level := .error
  accepts
    | tree, id, .constructorDecl declared =>
      (tree.siblings id).all fun other =>
        other == id || (tree.constructorArity? other).all fun arity =>
          !(tree.arity declared.parameters).clashes arity
    | _, _, _ => true

end ProgramLint.Rule
