import ProgramLint.Rule.Agenda
import ProgramLint.Tree.Walk
import ProgramLint.Validator.Basic

/-!
An audit takes a validator through a subtree. It runs every rule that the agenda has for a
node, whatever failed before, and leaves a report and a journal that tell the same story.
-/

namespace ProgramLint

structure Audit where
  report : Report := {}
  journal : Array Event := #[]
  deriving DecidableEq

/-- A problem enters the report and the journal together. -/
def Audit.note (audit : Audit) (kind : Kind) (problem : Problem) : Audit where
  report := audit.report.add problem
  journal := audit.journal.push (.failed problem.code kind problem.node)

namespace Validator

/-- The rules that run by themselves on a kind of node. -/
def rulesFor (validator : Validator) (kind : Kind) : List Rule :=
  ((kind.agenda.filter validator.settings.isEnabled).filterMap validator.registry.find?).filter
    Rule.enabledByDefault

/-- Runs the rules for one node. -/
def inspect (validator : Validator) (tree : Tree) (audit : Audit) (id : NodeId) (node : Node) :
    Audit :=
  (validator.rulesFor node.kind).foldl
    (fun audit rule => (validator.judge tree rule id).elim audit (audit.note node.kind))
    audit

/-- Audits a node and all nodes below it, and closes the journal with the totals. -/
def audit (validator : Validator) (tree : Tree) (target : NodeId) : Except Refusal Audit :=
  if tree.contains target then
    let found := tree.foldSubtree target {} (validator.inspect tree)
    let totals :=
      Event.validated target found.report.errors.length found.report.warnings.length
    .ok { found with journal := found.journal.push totals }
  else .error (.unknownNode target)

/-- The problems of a node and of all nodes below it. -/
def validate (validator : Validator) (tree : Tree) (target : NodeId) :
    Except Refusal (List Problem) :=
  (validator.audit tree target).map fun audit => audit.report.toList

end Validator
end ProgramLint
