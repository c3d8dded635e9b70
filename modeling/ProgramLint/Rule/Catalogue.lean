import ProgramLint.Rule.Overload
import ProgramLint.Rule.Scope
import ProgramLint.Rule.Spelling
import ProgramLint.Rule.Substance

/-!
All rules there are, in the order in which they are listed.
-/

namespace ProgramLint.Rule

def catalogue : List Rule :=
  [typeNameCapital, valueNameSmall, variadicLast, nameFree, tryGuarded, objectNamed,
    importForeign, targetLocal, fieldApart, methodsApart, constructorsApart, methodOwn]

end ProgramLint.Rule
