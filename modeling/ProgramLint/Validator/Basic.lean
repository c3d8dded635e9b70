import ProgramLint.Event
import ProgramLint.Registry
import ProgramLint.Settings
import ProgramLint.Validator.Refusal

/-!
A validator judges nodes by the rules of its registry, at the levels that its settings give
them. A rule asked for by code is run whether or not the settings switch it off.
-/

namespace ProgramLint

structure Validator where
  registry : Registry := Registry.standard
  settings : Settings := {}

namespace Validator

/-- The codes that are switched off without being the code of any rule. -/
def unknownCodes (validator : Validator) : List String :=
  validator.settings.disabled.filter fun code => (validator.registry.find? code).isNone

/-- What the journal tells about the settings. -/
def complaints (validator : Validator) : List Event :=
  Event.sorted (validator.unknownCodes.map Event.unknownCode)

/-- The problem that one rule finds with one node. -/
def judge (validator : Validator) (tree : Tree) (rule : Rule) (id : NodeId) : Option Problem :=
  if rule.holds tree id then none
  else some ⟨rule.code, validator.settings.raise rule.level, id⟩

/-- A code that names no rule is told before a number that names no node. -/
def check (validator : Validator) (tree : Tree) (code : String) (id : NodeId) :
    Except Refusal (Option Problem) :=
  match validator.registry.find? code with
  | none => .error (.unknownRule code)
  | some rule =>
    if tree.contains id then .ok (validator.judge tree rule id) else .error (.unknownNode id)

/-- The problems that single checks find, of each node by each code, whatever the kind of the
node. -/
def checkAll (validator : Validator) (tree : Tree) : List Problem :=
  (List.range tree.size).flatMap fun id =>
    validator.registry.codes.filterMap fun code => (validator.check tree code id).toOption.join

end Validator
end ProgramLint
