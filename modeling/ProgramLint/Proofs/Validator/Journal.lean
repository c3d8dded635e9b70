import ProgramLint.Proofs.Validator.Findings

/-!
The journal of a validation beside its answer. A validation is taken here as a run that writes
line after line into a journal, which keeps what was written whether or not the run comes to an
answer. The answer and the lines are those of an audit: one line for each problem, in the order
of the problems, and the totals after them.
-/

namespace ProgramLint

/-- How many problems are of some level. -/
def Level.count (level : Level) (problems : List Problem) : Nat :=
  problems.countP fun problem => problem.level = level

namespace Level

theorem length_ofLevel (report : Report) (level : Level) :
    (report.ofLevel level).length = level.count report.toList := by
  rw [Report.ofLevel, count, List.countP_eq_length_filter]
  simp only [Bool.beq_eq_decide_eq]

theorem count_error_add_count_warning (problems : List Problem) :
    error.count problems + warning.count problems = problems.length := by
  induction problems with
  | nil => rfl
  | cons problem rest ih =>
    unfold count at ih ⊢
    cases told : problem.level <;> simp [told] <;> omega

end Level

/-- A line that tells of a problem names its rule, its node and the kind of that node. -/
structure Event.Tells (tree : Tree) (problem : Problem) (event : Event) : Prop where
  channel : event.channel = .trace
  content : ∃ node, tree.node? problem.node = some node ∧
    event = .failed problem.code node.kind problem.node

/-- Work during which a journal is kept. -/
abbrev Journaled := StateM (Array Event)

namespace Journaled

def write (event : Event) : Journaled Unit :=
  modify fun journal => journal.push event

/-- A fold over audits can keep the report and the journal apart. -/
theorem run_foldlM {step : Report → α → Journaled Report} {join : Audit → α → Audit}
    (each : ∀ audit entry, (step audit.report entry).run audit.journal =
      ((join audit entry).report, (join audit entry).journal))
    (entries : List α) (audit : Audit) :
    (entries.foldlM step audit.report).run audit.journal =
      ((entries.foldl join audit).report, (entries.foldl join audit).journal) := by
  induction entries generalizing audit with
  | nil => rfl
  | cons entry rest ih =>
    rw [List.foldlM_cons, List.foldl_cons, StateT.run_bind, each]
    exact ih (join audit entry)

end Journaled

namespace Audit

/-- The line that tells of a problem with a node of some kind. -/
def line (kind : Kind) (problem : Problem) : Event :=
  .failed problem.code kind problem.node

theorem journal_noteAll (kind : Kind) (problems : List Problem) (audit : Audit) :
    (audit.noteAll kind problems).journal.toList =
      audit.journal.toList ++ problems.map (line kind) := by
  induction problems generalizing audit with
  | nil => simp [noteAll]
  | cons problem rest ih =>
    have first : (audit.note kind problem).journal.toList =
        audit.journal.toList ++ [line kind problem] := by
      simp [note, line]
    rw [noteAll, List.foldl_cons]
    change ((audit.note kind problem).noteAll kind rest).journal.toList = _
    rw [ih, first, List.append_assoc, List.map_cons, List.singleton_append]

end Audit

namespace Validator
variable (validator : Validator) (tree : Tree)

/-- Runs one rule on a node. A failure is written down, and then it enters the report. -/
def narrateRule (id : NodeId) (kind : Kind) (report : Report) (rule : Rule) :
    Journaled Report :=
  match validator.judge tree rule id with
  | none => return report
  | some problem => do
    Journaled.write (.failed problem.code kind id)
    return report.add problem

/-- Runs the rules for one node. -/
def narrateNode (report : Report) (id : NodeId) : Journaled Report :=
  match tree.node? id with
  | none => return report
  | some node =>
    (validator.rulesFor node.kind).foldlM (validator.narrateRule tree id node.kind) report

/-- Validates a node and all nodes below it, and writes down the totals. -/
def narrate (target : NodeId) : Journaled (Except Refusal (List Problem)) :=
  if tree.contains target then do
    let report ← (tree.subtree target).foldlM (validator.narrateNode tree) {}
    Journaled.write (.validated target report.errors.length report.warnings.length)
    return .ok report.toList
  else return .error (.unknownNode target)

theorem run_narrateRule (id : NodeId) (kind : Kind) (audit : Audit) (rule : Rule) :
    (validator.narrateRule tree id kind audit.report rule).run audit.journal =
      let after := (validator.judge tree rule id).elim audit (audit.note kind)
      (after.report, after.journal) := by
  unfold narrateRule
  cases judged : validator.judge tree rule id with
  | none => rfl
  | some problem =>
    -- The line is written with the number of the node at hand, and the problem carries it too.
    have place : problem.node = id := by rw [eq_of_judge judged]
    rw [← place]
    rfl

/-- What the run does at a node, the inspection of the node does in an audit. -/
theorem run_narrateNode (audit : Audit) (id : NodeId) :
    (validator.narrateNode tree audit.report id).run audit.journal =
      let after := (tree.node? id).elim audit (validator.inspect tree audit id)
      (after.report, after.journal) := by
  unfold narrateNode
  cases tree.node? id with
  | none => rfl
  | some node => exact Journaled.run_foldlM (validator.run_narrateRule tree id node.kind) _ audit

theorem foldSubtree_eq_foldl (target : NodeId) (audit : Audit) :
    tree.foldSubtree target audit (validator.inspect tree) =
      (tree.subtree target).foldl
        (fun audit id => (tree.node? id).elim audit (validator.inspect tree audit id)) audit := by
  unfold Tree.foldSubtree
  congr 1
  funext audit id
  cases tree.node? id <;> rfl

theorem run_narrate (target : NodeId) (before : Array Event) :
    (validator.narrate tree target).run before =
      if tree.contains target then
        let found := tree.foldSubtree target ⟨{}, before⟩ (validator.inspect tree)
        (.ok found.report.toList, found.journal.push
          (.validated target found.report.errors.length found.report.warnings.length))
      else (.error (.unknownNode target), before) := by
  unfold narrate
  split
  · have walked := Journaled.run_foldlM (validator.run_narrateNode tree)
      (tree.subtree target) ⟨{}, before⟩
    rw [← foldSubtree_eq_foldl] at walked
    rw [StateT.run_bind, walked]
    rfl
  · rfl

/-- The lines that tell of what the rules find with a node. -/
def lines (id : NodeId) : List Event :=
  (tree.node? id).elim [] fun node => (validator.findings tree id).map (Audit.line node.kind)

theorem journal_foldSubtree (target : NodeId) (audit : Audit) :
    (tree.foldSubtree target audit (validator.inspect tree)).journal.toList =
      audit.journal.toList ++ (tree.subtree target).flatMap (validator.lines tree) := by
  rw [foldSubtree_eq_foldl]
  induction tree.subtree target generalizing audit with
  | nil => simp
  | cons id rest ih =>
    rw [List.foldl_cons, ih, List.flatMap_cons, ← List.append_assoc]
    congr 1
    unfold lines
    cases found : tree.node? id with
    | none => simp
    | some node =>
      simp only [Option.elim_some]
      rw [inspect_eq validator audit found, Audit.journal_noteAll]

/-- Every problem of a node has its line. -/
theorem tells_lines (id : NodeId) :
    List.Forall₂ (Event.Tells tree) (validator.findings tree id) (validator.lines tree id) := by
  unfold lines
  cases found : tree.node? id with
  | none => simp [findings, verdicts, found]
  | some node =>
    rw [Option.elim_some, List.forall₂_map_right_iff, List.forall₂_same]
    intro problem member
    have place := node_of_mem_findings member
    exact ⟨rfl, node, by rw [place, found], rfl⟩

theorem tells_flatMap_lines (ids : List NodeId) :
    List.Forall₂ (Event.Tells tree) (ids.flatMap (validator.findings tree))
      (ids.flatMap (validator.lines tree)) := by
  induction ids with
  | nil => exact .nil
  | cons id rest ih =>
    rw [List.flatMap_cons, List.flatMap_cons]
    exact List.rel_append (validator.tells_lines tree id) ih

theorem level_of_mem_findings {id : NodeId} {problem : Problem}
    (strict : validator.settings.strict = true) (member : problem ∈ validator.findings tree id) :
    problem.level = .error := by
  obtain ⟨rule, judged⟩ := exists_judge_of_mem_findings member
  rw [eq_of_judge judged, Settings.raise, if_pos strict]

variable (target : NodeId)

/-- What a validation writes: a line for each problem, and the totals. -/
def story : List Event :=
  if tree.contains target then
    let problems := (tree.subtree target).flatMap (validator.findings tree)
    (tree.subtree target).flatMap (validator.lines tree) ++
      [.validated target (Level.error.count problems) (Level.warning.count problems)]
  else []

/-- The totals that an audit counts in its report are those of the problems. -/
theorem journal_push_totals (known : tree.contains target = true) (before : Array Event) :
    let found := tree.foldSubtree target ⟨{}, before⟩ (validator.inspect tree)
    found.journal.push (.validated target found.report.errors.length found.report.warnings.length) =
      before ++ validator.story tree target := by
  intro found
  have problems : found.report.toList =
      (tree.subtree target).flatMap (validator.findings tree) :=
    validator.report_foldSubtree tree target ⟨{}, before⟩
  have written := validator.journal_foldSubtree tree target ⟨{}, before⟩
  apply Array.toList_inj.mp
  rw [Array.toList_push, written, Report.errors, Report.warnings, Level.length_ofLevel,
    Level.length_ofLevel, problems, story, if_pos known]
  simp

/-- A run gives the answer of a validation and goes on with the journal where it stood. -/
theorem run_narrate_eq (before : Array Event) :
    (validator.narrate tree target).run before =
      (validator.validate tree target, before ++ validator.story tree target) := by
  rw [run_narrate]
  by_cases known : tree.contains target = true
  · simp only
    rw [if_pos known, journal_push_totals validator tree target known, report_foldSubtree,
      validate_eq, if_pos known]
    rfl
  · rw [if_neg known, validate_eq, if_neg known, story, if_neg known]
    simp

theorem journal_of_audit {audit : Audit} (done : validator.audit tree target = .ok audit) :
    audit.journal.toList = validator.story tree target := by
  unfold Validator.audit at done
  split at done
  next known =>
    cases done
    have written := journal_push_totals validator tree target known #[]
    exact (congrArg Array.toList written).trans (by simp)
  next => contradiction

/-- Whatever the journal holds before, a validation that comes to an answer adds one line for each
problem, in their order, and then the totals, which count every problem once. One that is refused
adds nothing. -/
theorem validate_journal (before : Array Event) :
    ∃ told : List Event,
      (validator.narrate tree target).run before =
        (validator.validate tree target, before ++ told) ∧
      (∀ audit, validator.audit tree target = .ok audit → audit.journal.toList = told) ∧
      (∀ problems, validator.validate tree target = .ok problems →
        let errors := Level.error.count problems
        let warnings := Level.warning.count problems
        let totals := Event.validated target errors warnings
        (∃ failures, told = failures ++ [totals] ∧
          List.Forall₂ (Event.Tells tree) problems failures) ∧
        totals.channel = .debug ∧ errors + warnings = problems.length ∧
        (validator.settings.strict = true → warnings = 0)) ∧
      ∀ refusal, validator.validate tree target = .error refusal → told = [] := by
  refine ⟨validator.story tree target, validator.run_narrate_eq tree target before,
    fun audit => validator.journal_of_audit tree target, fun problems done => ?_,
    fun refusal refused => ?_⟩
  · rw [validate_eq] at done
    split at done
    next known =>
      cases done
      refine ⟨⟨_, by rw [story, if_pos known], validator.tells_flatMap_lines tree _⟩, rfl,
        Level.count_error_add_count_warning _, fun strict => ?_⟩
      apply List.countP_eq_zero.mpr
      intro problem member
      obtain ⟨id, -, found⟩ := List.mem_flatMap.mp member
      rw [validator.level_of_mem_findings tree strict found]
      decide
    next => contradiction
  · rw [validate_eq] at refused
    split at refused
    next => contradiction
    next unknown => rw [story, if_neg unknown]

/-- With warnings counted as errors, the package of the specimen has four errors. A number beyond
the tree leaves the journal as it was. -/
theorem validate_journal_specimen :
    let validator : Validator := { settings := ({} : Settings).withStrict true }
    let before : Array Event := #[.linked 9]
    ∃ (problems : List Problem) (failures : List Event),
      validator.validate Tree.specimen 7 = .ok problems ∧
      (validator.narrate Tree.specimen 7).run before =
        (.ok problems, before ++ (failures ++ [.validated 7 4 0])) ∧
      List.Forall₂ (Event.Tells Tree.specimen) problems failures ∧
      validator.validate Tree.specimen 9 = .error (.unknownNode 9) ∧
      (validator.narrate Tree.specimen 9).run before =
        (.error (.unknownNode 9), before) := by
  intro validator before
  have done : validator.validate Tree.specimen 7 = .ok
      [⟨"nameIsCamelCase", .error, 6⟩, ⟨"singletonIsNotUnnamed", .error, 6⟩,
        ⟨"nameIsPascalCase", .error, 5⟩, ⟨"fieldNameDifferentFromTheMethods", .error, 4⟩] := by
    cbv
  have refused : validator.validate Tree.specimen 9 = .error (.unknownNode 9) := by cbv
  obtain ⟨told, ran, -, success, -⟩ := validate_journal validator Tree.specimen 7 before
  obtain ⟨failures, rfl, tells⟩ := (success _ done).1
  obtain ⟨silent, stopped, -, -, failure⟩ :=
    validate_journal validator Tree.specimen 9 before
  rw [failure _ refused, refused] at stopped
  rw [done] at ran
  exact ⟨_, failures, done, ran, tells, refused, stopped⟩

end Validator
end ProgramLint
