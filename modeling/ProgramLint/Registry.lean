import ProgramLint.Rule.Catalogue

/-!
A registry holds rules by code. A code keeps the place of its first registration and the
rule of its last one. Rules stand in a row, and an index tells the place of each code in it.
-/

namespace ProgramLint

structure Registry where
  rules : List Rule := []
  index : List (String × Nat) := []

namespace Registry

/-- Where the rule with a code stands, if there is one. -/
def place? (registry : Registry) (code : String) : Option Nat :=
  registry.index.lookup code

/-- Puts a rule in the place of another one. -/
def replace (registry : Registry) (place : Nat) (rule : Rule) : Registry :=
  { registry with rules := registry.rules.set place rule }

/-- Gives a rule the next place. -/
def append (registry : Registry) (rule : Rule) : Registry where
  rules := registry.rules ++ [rule]
  index := (rule.code, registry.rules.length) :: registry.index

/-- Takes the place of the rule with the same code, or the last place if there is none. -/
def register (registry : Registry) (rule : Rule) : Registry :=
  match registry.place? rule.code with
  | some place => registry.replace place rule
  | none => registry.append rule

/-- Registers rules from left to right. -/
def registerAll (registry : Registry) (rules : List Rule) : Registry :=
  rules.foldl register registry

/-- The registry of the whole catalogue. -/
def standard : Registry :=
  ({} : Registry).registerAll Rule.catalogue

def find? (registry : Registry) (code : String) : Option Rule :=
  (registry.place? code).bind fun place => registry.rules[place]?

def size (registry : Registry) : Nat :=
  registry.rules.length

def isEmpty (registry : Registry) : Bool :=
  registry.rules.isEmpty

def codes (registry : Registry) : List String :=
  registry.rules.map Rule.code

end Registry
end ProgramLint
