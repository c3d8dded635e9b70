/-!
The reserved words of the language. Punctuation is reserved as well, and two of the words
are written with a space in the middle.
-/

namespace ProgramLint

def keywords : List String :=
  [".", ",", "(", ")", ";", "_", "\x7b", "\x7d",
    "import", "package", "program", "test", "mixed with", "class", "inherits", "object", "mixin",
    "var", "const", "=", "override", "method", "native", "constructor",
    "self", "super", "new", "if", "else", "return", "throw", "try", "then always", "catch", ":",
    "+", "null", "false", "true", "=>"]

/-- A name is reserved only as a whole. -/
def isKeyword (name : String) : Bool :=
  keywords.contains name

end ProgramLint
