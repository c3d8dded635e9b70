import ProgramLint.Problem

/-!
Settings of a validator: codes of rules that are switched off, each kept once, and whether
warnings count as errors.
-/

namespace ProgramLint

structure Settings where
  disabled : List String := []
  strict : Bool := false
  deriving DecidableEq

namespace Settings

/-- Any text can be switched off, also one that is the code of no rule. -/
def disable (settings : Settings) (code : String) : Settings :=
  { settings with disabled := settings.disabled.insert code }

def disableAll (settings : Settings) (codes : List String) : Settings :=
  codes.foldl disable settings

/-- The last call decides. -/
def withStrict (settings : Settings) (strict : Bool) : Settings :=
  { settings with strict }

def isEnabled (settings : Settings) (code : String) : Bool :=
  !settings.disabled.contains code

theorem isEnabled_eq (settings : Settings) (code : String) :
    settings.isEnabled code = decide (code ∉ settings.disabled) := by
  simp [isEnabled]

/-- Every code is on to begin with. -/
@[simp]
theorem isEnabled_empty (code : String) : ({} : Settings).isEnabled code = true :=
  rfl

theorem isEnabled_disable (settings : Settings) (code other : String) :
    (settings.disable code).isEnabled other = (other != code && settings.isEnabled other) := by
  by_cases same : other = code <;> by_cases known : other ∈ settings.disabled <;>
    simp [isEnabled, disable, same, known]

/-- The level at which a failure of a rule of the given level is told. -/
def raise (settings : Settings) (level : Level) : Level :=
  if settings.strict then .error else level

/-- The codes that are switched off, by code points. -/
def sortedCodes (settings : Settings) : List String :=
  settings.disabled.mergeSort fun first second => decide (first ≤ second)

end Settings
end ProgramLint
