/-!
Double precision numbers, kept as their sixty-four bits so that a literal is written
back unchanged. Sameness is numeric: a NaN differs from itself and the two zeros agree.
-/

namespace ProgramLint

structure Number where
  bits : UInt64
  deriving DecidableEq

namespace Number

/-- The bits without the sign. -/
def magnitude (number : Number) : UInt64 :=
  number.bits &&& 0x7FFFFFFFFFFFFFFF

/-- Every magnitude above that of infinity is a NaN. -/
def isNaN (number : Number) : Bool :=
  0x7FF0000000000000 < number.magnitude

def sameAs (first second : Number) : Bool :=
  !first.isNaN && !second.isNaN &&
    (first.bits == second.bits || (first.magnitude == 0 && second.magnitude == 0))

end Number
end ProgramLint
