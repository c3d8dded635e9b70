import ProgramLint.Rule.Basic

/-!
Rules about what a declaration may be next to. Each looks at the node around the
declaration and, but for the first, at the other members there.
-/

namespace ProgramLint.Rule

/-- Only an object written in place, as a literal, may go without a name. -/
def objectNamed : Rule where
  code := "singletonIsNotUnnamed"
  description := "Objects declared directly in a package must have a name"
  level := .error
  accepts
    | tree, id, .singleton declared =>
      match tree.parentNode? id with
      | some (.package _) => declared.name.isSome
      | _ => true
    | _, _, _ => true

/-- The name is that of whatever node the import refers to. -/
def importForeign : Rule where
  code := "importHasNotLocalReference"
  description := "A package cannot import a name it declares itself"
  level := .error
  accepts
    | tree, id, .importDecl imported _ =>
      (tree.nameOf? imported).all fun name =>
        (tree.siblings id).all fun member => tree.nameOf? member != some name
    | _, _, _ => true

def fieldApart : Rule where
  code := "fieldNameDifferentFromTheMethods"
  description := "A field cannot be named like a method of the same class"
  level := .error
  accepts
    | tree, id, .field declared =>
      (tree.siblings id).all fun member =>
        match tree.node? member with
        | some (.method other) => other.name != declared.name
        | _ => true
    | _, _, _ => true

end ProgramLint.Rule
