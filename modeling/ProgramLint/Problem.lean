import ProgramLint.Node.Basic

/-!
Problems and reports. A problem says which rule failed on which node and how bad that is;
a report keeps problems in the order in which they were found.
-/

namespace ProgramLint

inductive Level where
  | warning
  | error
  deriving DecidableEq

def Level.text : Level → String
  | warning => "Warning"
  | error => "Error"

structure Problem where
  code : String
  level : Level
  node : NodeId
  deriving DecidableEq

namespace Problem

def isError (problem : Problem) : Bool :=
  problem.level == .error

def text (problem : Problem) : String :=
  problem.level.text ++ " " ++ problem.code ++ " at " ++ NodeId.text problem.node

end Problem

structure Report where
  problems : Array Problem := #[]
  deriving DecidableEq

namespace Report

def toList (report : Report) : List Problem :=
  report.problems.toList

def add (report : Report) (problem : Problem) : Report :=
  ⟨report.problems.push problem⟩

def hasErrors (report : Report) : Bool :=
  report.problems.any Problem.isError

def ofLevel (report : Report) (level : Level) : List Problem :=
  report.toList.filter fun problem => problem.level == level

def errors (report : Report) : List Problem :=
  report.ofLevel .error

def warnings (report : Report) : List Problem :=
  report.ofLevel .warning

@[simp]
theorem toList_add (report : Report) (problem : Problem) :
    (report.add problem).toList = report.toList ++ [problem] := by
  simp [add, toList]

end Report
end ProgramLint
