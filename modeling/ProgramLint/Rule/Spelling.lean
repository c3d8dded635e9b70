import ProgramLint.Rule.Basic
import ProgramLint.Rule.Keyword

/-!
Rules about how names are spelled. Case is judged by the first character alone, and only
the letters from a to z count.
-/

namespace ProgramLint.Rule

def startsWith (allowed : Char → Bool) (name : String) : Bool :=
  name.toList.head?.any allowed

/-- A name written with a dot reaches into a package. -/
def isQualified (name : String) : Bool :=
  name.toList.contains '.'

def typeNameCapital : Rule where
  code := "nameIsPascalCase"
  description := "Class and mixin names start with an uppercase letter"
  level := .warning
  accepts
    | _, _, .classDecl declared => startsWith Char.isUpper declared.name
    | _, _, .mixinDecl declared => startsWith Char.isUpper declared.name
    | _, _, _ => true

def valueNameSmall : Rule where
  code := "nameIsCamelCase"
  description :=
    "Parameter, variable and object names are defined and start with a lowercase letter"
  level := .warning
  accepts
    | _, _, .parameter declared => startsWith Char.isLower declared.name
    | _, _, .singleton declared => declared.name.any (startsWith Char.isLower)
    | _, _, .localVariable declared => startsWith Char.isLower declared.name
    | _, _, _ => true

def nameFree : Rule where
  code := "nameIsNotKeyword"
  description := "References, methods and variables are not named after a reserved word"
  level := .error
  accepts
    | _, _, .reference name => !isKeyword name
    | _, _, .method declared => !isKeyword declared.name
    | _, _, .localVariable declared => !isKeyword declared.name
    | _, _, _ => true

def targetLocal : Rule where
  code := "nonAsignationOfFullyQualifiedReferences"
  description := "Fully qualified references cannot be assigned"
  level := .error
  accepts
    | tree, _, .assignment target _ => !(tree.nameOf? target).any isQualified
    | _, _, _ => true

end ProgramLint.Rule
