import ProgramLint.Rule.Basic

/-!
Rules against code that does nothing of its own.
-/

namespace ProgramLint.Rule

/-- An always block alone is enough only if there is something to try. -/
def tryGuarded : Rule where
  code := "hasCatchOrAlways"
  description := "A try needs at least one catch or a non empty always block"
  level := .error
  accepts
    | tree, _, .tryBlock attempt catches always =>
      !catches.isEmpty || (!(tree.sentences always).isEmpty && !(tree.sentences attempt).isEmpty)
    | _, _, _ => true

def isSuperCall (tree : Tree) (id : NodeId) : Bool :=
  match tree.node? id with
  | some (.superCall _) => true
  | _ => false

/-- Abstract and native methods have no body to judge. -/
def methodOwn : Rule where
  code := "methodNotOnlyCallToSuper"
  description := "A method should do more than delegate to its super implementation"
  level := .warning
  accepts
    | tree, _, .method declared =>
      declared.body.all fun body =>
        match tree.sentences body with
        | [only] => !isSuperCall tree only
        | _ => true
    | _, _, _ => true

end ProgramLint.Rule
