import ProgramLint.Node.Basic

/-!
Events worth a line in the journal: what was linked, what was validated and with which
result, which rule failed where, and settings that name a rule nobody knows.
-/

namespace ProgramLint

inductive Event where
  | linked (nodes : Nat)
  | validated (target : NodeId) (errors warnings : Nat)
  | failed (code : String) (kind : Kind) (node : NodeId)
  | unknownCode (code : String)
  deriving DecidableEq

/-- How much attention an event asks for. -/
inductive Channel where
  | trace
  | debug
  | warn
  deriving DecidableEq

def Channel.text : Channel → String
  | trace => "TRACE"
  | debug => "DEBUG"
  | warn => "WARN"

namespace Event

def channel : Event → Channel
  | linked _ | validated .. => .debug
  | failed .. => .trace
  | unknownCode _ => .warn

def message : Event → String
  | linked nodes => "linked environment with " ++ nodes.repr ++ " nodes"
  | validated target errors warnings =>
    "validated " ++ NodeId.text target ++ ": " ++ errors.repr ++ " errors, " ++
      warnings.repr ++ " warnings"
  | failed code kind node => code ++ " failed on " ++ kind.name ++ " " ++ NodeId.text node
  | unknownCode code => "ignoring unknown rule '" ++ code ++ "' in disabled rules"

/-- A line of the journal. -/
def line (event : Event) : String :=
  event.channel.text ++ " " ++ event.message

/-- By the text of their lines. -/
def sorted (events : List Event) : List Event :=
  events.mergeSort fun first second => decide (first.line ≤ second.line)

end Event
end ProgramLint
