import Mathlib.Data.List.ReduceOption
import ProgramLint.Proofs.Registry.History
import ProgramLint.Proofs.Tree.DepthFirst
import ProgramLint.Validator.Audit

/-!
What a validation finds is what the single checks find: node by node in depth first order, and
at each node rule by rule in the order of the agenda. Rules that the agenda leaves out for a
kind of node have nothing to say about nodes of that kind, so nothing is overlooked.
-/

namespace ProgramLint
open scoped List

namespace Registry

theorem rules_standard : standard.rules = Rule.catalogue :=
  rfl

theorem find?_standard {rule : Rule} (listed : rule ∈ Rule.catalogue) :
    standard.find? rule.code = some rule :=
  indexed_standard.find?_eq_some_iff.mpr ⟨listed, rfl⟩

theorem filterMap_find? {rules : List Rule} (listed : ∀ rule ∈ rules, rule ∈ Rule.catalogue) :
    rules.filterMap (standard.find? ∘ Rule.code) = rules := by
  induction rules with
  | nil => rfl
  | cons rule rest ih =>
    have found : (standard.find? ∘ Rule.code) rule = some rule :=
      find?_standard (listed rule (by simp))
    rw [List.filterMap_cons_some found, ih fun other later => listed other (.tail _ later)]

end Registry

namespace Kind

/-- The agenda of a kind keeps the order of the catalogue. -/
theorem agenda_eq (kind : Kind) :
    kind.agenda = (Rule.catalogue.filter fun rule => rule.code ∈ kind.agenda).map Rule.code := by
  cases kind <;> decide +kernel

theorem agenda_nodup (kind : Kind) : kind.agenda.Nodup := by
  cases kind <;> decide

end Kind

namespace Rule
variable {tree : Tree} {id : NodeId} {node : Node} {rule : Rule}

theorem enabledByDefault_of_mem (listed : rule ∈ catalogue) : rule.enabledByDefault = true := by
  have all : ∀ rule ∈ catalogue, rule.enabledByDefault = true := by decide
  exact all rule listed

/-- A rule can only fail on nodes whose kind has it on the agenda. -/
theorem mem_agenda_of_broken (listed : rule ∈ catalogue) (found : tree.node? id = some node)
    (broken : rule.holds tree id = false) : rule.code ∈ node.kind.agenda := by
  rw [holds, found, Option.all_some] at broken
  simp only [catalogue, List.mem_cons, List.not_mem_nil, or_false] at listed
  rcases listed with rfl | rfl | rfl | rfl | rfl | rfl | rfl | rfl | rfl | rfl | rfl | rfl <;>
    cases node <;> first | contradiction | (simp only [Node.kind]; decide)

end Rule

namespace Audit

/-- Problems enter an audit one after the other. -/
def noteAll (kind : Kind) (problems : List Problem) (audit : Audit) : Audit :=
  problems.foldl (fun audit problem => audit.note kind problem) audit

theorem report_noteAll (kind : Kind) (problems : List Problem) (audit : Audit) :
    (audit.noteAll kind problems).report.toList = audit.report.toList ++ problems := by
  induction problems generalizing audit with
  | nil => simp [noteAll]
  | cons problem rest ih =>
    have first : (audit.note kind problem).report.toList = audit.report.toList ++ [problem] := by
      simp [note]
    rw [noteAll, List.foldl_cons]
    change ((audit.note kind problem).noteAll kind rest).report.toList = _
    rw [ih, first, List.append_assoc, List.singleton_append]

end Audit

namespace Validator
variable {tree : Tree} {id : NodeId} {node : Node}

/-- The checks that fall due on some nodes: each node with every code on the agenda of its kind
that is not switched off. -/
def due (validator : Validator) (tree : Tree) (ids : List NodeId) : List (NodeId × String) :=
  ids.flatMap fun id => (tree.node? id).elim [] fun node =>
    (node.kind.agenda.filter fun code => code ∉ validator.settings.disabled).map (id, ·)

/-- The checks of all nodes by all rules that are not switched off. -/
def everyCheck (validator : Validator) (tree : Tree) : List (NodeId × String) :=
  (List.range tree.size).flatMap fun id =>
    (validator.registry.codes.filter fun code => code ∉ validator.settings.disabled).map (id, ·)

/-- The answers to checks that are asked for one by one. -/
def answers (validator : Validator) (tree : Tree) (checks : List (NodeId × String)) :
    List (Except Refusal (Option Problem)) :=
  checks.map fun check => validator.check tree check.2 check.1

/-- What the rules that run by themselves say about a node. -/
def verdicts (validator : Validator) (tree : Tree) (id : NodeId) : List (Option Problem) :=
  (tree.node? id).elim [] fun node =>
    (validator.rulesFor node.kind).map fun rule => validator.judge tree rule id

def findings (validator : Validator) (tree : Tree) (id : NodeId) : List Problem :=
  (validator.verdicts tree id).reduceOption

theorem verdicts_eq (validator : Validator) (found : tree.node? id = some node) :
    validator.verdicts tree id =
      (validator.rulesFor node.kind).map fun rule => validator.judge tree rule id := by
  rw [verdicts, found, Option.elim_some]

/-- An inspection adds what it finds to the end of the report. -/
theorem inspect_eq (validator : Validator) (audit : Audit) (found : tree.node? id = some node) :
    validator.inspect tree audit id node =
      audit.noteAll node.kind (validator.findings tree id) := by
  rw [inspect, findings, verdicts_eq validator found, Audit.noteAll]
  induction validator.rulesFor node.kind generalizing audit with
  | nil => rfl
  | cons rule rest ih =>
    rw [List.foldl_cons, ih, List.map_cons]
    cases validator.judge tree rule id with
    | none => rw [List.reduceOption_cons_of_none]; rfl
    | some problem => rw [List.reduceOption_cons_of_some]; rfl

theorem report_foldSubtree (validator : Validator) (tree : Tree) (target : NodeId)
    (audit : Audit) :
    (tree.foldSubtree target audit (validator.inspect tree)).report.toList =
      audit.report.toList ++ (tree.subtree target).flatMap (validator.findings tree) := by
  unfold Tree.foldSubtree
  induction tree.subtree target generalizing audit with
  | nil => simp
  | cons id rest ih =>
    rw [List.foldl_cons, ih, List.flatMap_cons, ← List.append_assoc]
    congr 1
    cases found : tree.node? id with
    | none => simp [findings, verdicts, found]
    | some node =>
      simp only
      rw [inspect_eq validator audit found, Audit.report_noteAll]

/-- A validation goes through the findings of a subtree in the order of its walk. -/
theorem validate_eq (validator : Validator) (tree : Tree) (target : NodeId) :
    validator.validate tree target =
      if tree.contains target then
        .ok ((tree.subtree target).flatMap (validator.findings tree))
      else .error (.unknownNode target) := by
  unfold validate audit
  by_cases known : tree.contains target = true
  · rw [if_pos known, if_pos known, Except.map]
    simp only
    rw [report_foldSubtree]
    rfl
  · rw [if_neg known, if_neg known]
    rfl

theorem validate_of_lt (validator : Validator) {target : NodeId} (inside : target < tree.size) :
    validator.validate tree target =
      .ok ((tree.subtree target).flatMap (validator.findings tree)) := by
  rw [validate_eq, if_pos (Draft.contains_iff.mpr inside)]

theorem judge_eq_none (validator : Validator) {rule : Rule} (listed : rule ∈ Rule.catalogue)
    (found : tree.node? id = some node) (absent : rule.code ∉ node.kind.agenda) :
    validator.judge tree rule id = none := by
  have holds : rule.holds tree id = true := by
    cases kept : rule.holds tree id with
    | true => rfl
    | false => exact absurd (Rule.mem_agenda_of_broken listed found kept) absent
  rw [judge, if_pos holds]

/-- A problem says which rule was run, at which level and on which node. -/
theorem eq_of_judge {validator : Validator} {rule : Rule} {problem : Problem}
    (judged : validator.judge tree rule id = some problem) :
    problem = ⟨rule.code, validator.settings.raise rule.level, id⟩ := by
  unfold judge at judged
  split at judged
  · contradiction
  · exact (Option.some.inj judged).symm

theorem code_of_judge {validator : Validator} {rule : Rule} {problem : Problem}
    (judged : validator.judge tree rule id = some problem) : problem.code = rule.code := by
  rw [eq_of_judge judged]

/-- A problem has the code of its rule, so rules can be left out before they run. -/
theorem filterMap_judge_filter (validator : Validator) (keep : String → Bool)
    (rules : List Rule) :
    (rules.filter fun rule => keep rule.code).filterMap
        (fun rule => validator.judge tree rule id) =
      (rules.filterMap fun rule => validator.judge tree rule id).filter
        fun problem => keep problem.code := by
  rw [List.filterMap_filter, List.filter_filterMap]
  apply List.filterMap_congr
  intro rule _
  cases judged : validator.judge tree rule id with
  | none => simp
  | some problem => rw [← code_of_judge judged, Option.filter]

theorem exists_judge_of_mem_findings {validator : Validator} {problem : Problem}
    (member : problem ∈ validator.findings tree id) :
    ∃ rule, validator.judge tree rule id = some problem := by
  unfold findings verdicts at member
  cases found : tree.node? id with
  | none => simp [found] at member
  | some node =>
    simp only [found, Option.elim_some, List.reduceOption_mem_iff, List.mem_map] at member
    obtain ⟨rule, -, judged⟩ := member
    exact ⟨rule, judged⟩

theorem node_of_mem_findings {validator : Validator} {problem : Problem}
    (member : problem ∈ validator.findings tree id) : problem.node = id := by
  obtain ⟨rule, judged⟩ := exists_judge_of_mem_findings member
  rw [eq_of_judge judged]

/-- A rule of the registry is asked for by its code. -/
theorem check_of_mem {validator : Validator} (indexed : validator.registry.Indexed) {rule : Rule}
    (listed : rule ∈ validator.registry.rules) (known : tree.contains id = true) :
    validator.check tree rule.code id = .ok (validator.judge tree rule id) := by
  simp only [check, indexed.find?_eq_some_iff.mpr ⟨listed, rfl⟩, if_pos known]

/-- Checks of everything are answered by every rule of the registry. -/
theorem checkAll_eq {validator : Validator} (indexed : validator.registry.Indexed) :
    validator.checkAll tree = (List.range tree.size).flatMap fun id =>
      validator.registry.rules.filterMap fun rule => validator.judge tree rule id := by
  unfold checkAll Registry.codes
  apply List.flatMap_congr
  intro id member
  have known := Draft.contains_iff.mpr (List.mem_range.mp member)
  rw [List.filterMap_map]
  apply List.filterMap_congr
  intro rule listed
  rw [Function.comp_apply, check_of_mem indexed listed known]
  rfl

/-- What is left of the catalogue by settings. -/
def enabledRules (settings : Settings) : List Rule :=
  Rule.catalogue.filter fun rule => rule.code ∉ settings.disabled

section Standard
variable (settings : Settings)

/-- A validator with the whole catalogue runs on a kind what the agenda and the settings leave
of the catalogue. -/
theorem rulesFor_eq (kind : Kind) :
    ({ settings } : Validator).rulesFor kind =
      (Rule.catalogue.filter fun rule => rule.code ∈ kind.agenda).filter
        fun rule => rule.code ∉ settings.disabled := by
  have listed : ∀ rule ∈ (Rule.catalogue.filter fun rule => rule.code ∈ kind.agenda).filter
      fun rule => rule.code ∉ settings.disabled, rule ∈ Rule.catalogue :=
    fun rule member => List.mem_of_mem_filter (List.mem_of_mem_filter member)
  have enabled : settings.isEnabled = fun code => decide (code ∉ settings.disabled) :=
    funext settings.isEnabled_eq
  unfold rulesFor
  simp only [enabled]
  conv_lhs => rw [Kind.agenda_eq kind]
  rw [List.filter_map, List.filterMap_map]
  apply Eq.trans (congrArg _ (Registry.filterMap_find? listed))
  exact List.filter_eq_self.mpr fun rule member => Rule.enabledByDefault_of_mem (listed rule member)

theorem mem_catalogue_of_mem_rulesFor {kind : Kind} {rule : Rule}
    (member : rule ∈ ({ settings } : Validator).rulesFor kind) : rule ∈ Rule.catalogue := by
  rw [rulesFor_eq] at member
  exact List.mem_of_mem_filter (List.mem_of_mem_filter member)

theorem codes_rulesFor (kind : Kind) :
    (({ settings } : Validator).rulesFor kind).map Rule.code =
      kind.agenda.filter fun code => code ∉ settings.disabled := by
  conv_rhs => rw [Kind.agenda_eq kind, List.filter_map]
  rw [rulesFor_eq]
  rfl

theorem answers_of_mem {rules : List Rule} (listed : ∀ rule ∈ rules, rule ∈ Rule.catalogue)
    (known : tree.contains id = true) :
    ({ settings } : Validator).answers tree ((rules.map Rule.code).map (id, ·)) =
      (rules.map fun rule => ({ settings } : Validator).judge tree rule id).map .ok := by
  rw [answers, List.map_map, List.map_map, List.map_map]
  apply List.map_congr_left
  intro rule member
  exact check_of_mem Registry.indexed_standard (listed rule member) known

/-- Every due check has an answer, and the answers are the verdicts. -/
theorem answers_due {ids : List NodeId} (known : ∀ id ∈ ids, tree.contains id = true) :
    ({ settings } : Validator).answers tree (({ settings } : Validator).due tree ids) =
      (ids.flatMap (({ settings } : Validator).verdicts tree)).map .ok := by
  rw [answers, due, List.map_flatMap, List.map_flatMap]
  apply List.flatMap_congr
  intro id member
  cases found : tree.node? id with
  | none => simp [verdicts, found]
  | some node =>
    rw [verdicts_eq _ found, Option.elim_some, ← codes_rulesFor]
    exact answers_of_mem settings (fun _ => mem_catalogue_of_mem_rulesFor settings)
      (known id member)

theorem filterMap_judge_agenda (found : tree.node? id = some node) {rules : List Rule}
    (listed : ∀ rule ∈ rules, rule ∈ Rule.catalogue) :
    (rules.filter fun rule => rule.code ∈ node.kind.agenda).filterMap
        (fun rule => ({ settings } : Validator).judge tree rule id) =
      rules.filterMap fun rule => ({ settings } : Validator).judge tree rule id := by
  rw [filterMap_judge_filter _ fun code => decide (code ∈ node.kind.agenda)]
  apply List.filter_eq_self.mpr
  intro problem member
  obtain ⟨rule, told, judged⟩ := List.mem_filterMap.mp member
  rw [code_of_judge judged, decide_eq_true_iff]
  by_contra absent
  rw [judge_eq_none _ (listed rule told) found absent] at judged
  contradiction

/-- Asking every rule gives nothing beyond what the rules on the agenda find. -/
theorem findings_eq (found : tree.node? id = some node) :
    ({ settings } : Validator).findings tree id =
      ((enabledRules settings).map
        fun rule => ({ settings } : Validator).judge tree rule id).reduceOption := by
  rw [findings, verdicts_eq _ found, rulesFor_eq, List.filter_comm]
  unfold List.reduceOption enabledRules
  rw [List.filterMap_map, List.filterMap_map]
  exact filterMap_judge_agenda settings found fun rule => List.mem_of_mem_filter

/-- Every check by every rule has an answer as well. -/
theorem answers_everyCheck :
    ({ settings } : Validator).answers tree (({ settings } : Validator).everyCheck tree) =
      ((List.range tree.size).flatMap fun id => (enabledRules settings).map
        fun rule => ({ settings } : Validator).judge tree rule id).map .ok := by
  have codes : (({ settings } : Validator).registry.codes.filter
      fun code => code ∉ settings.disabled) = (enabledRules settings).map Rule.code := by
    rw [Registry.codes, Registry.rules_standard]
    exact List.filter_map
  rw [answers, everyCheck, List.map_flatMap, List.map_flatMap]
  apply List.flatMap_congr
  intro id member
  rw [codes]
  apply answers_of_mem settings fun rule => List.mem_of_mem_filter
  exact Draft.contains_iff.mpr (List.mem_range.mp member)

theorem flatMap_range_findings :
    (List.range tree.size).flatMap (({ settings } : Validator).findings tree) =
      ((List.range tree.size).flatMap fun id => (enabledRules settings).map
        fun rule => ({ settings } : Validator).judge tree rule id).reduceOption := by
  unfold List.reduceOption
  rw [List.filterMap_flatMap]
  apply List.flatMap_congr
  intro id member
  have known := Draft.contains_iff.mpr (List.mem_range.mp member)
  rw [Draft.contains_eq_isSome] at known
  obtain ⟨node, found⟩ := Option.isSome_iff_exists.mp known
  exact findings_eq settings found

/-- Single checks do not ask the settings which codes are switched off. Apart from that, checks of
everything find what the agendas find. -/
theorem flatMap_range_findings_eq_filter :
    (List.range tree.size).flatMap (({ settings } : Validator).findings tree) =
      (({ settings } : Validator).checkAll tree).filter
        fun problem => problem.code ∉ settings.disabled := by
  rw [flatMap_range_findings, checkAll_eq Registry.indexed_standard, List.reduceOption,
    List.filterMap_flatMap, List.filter_flatMap]
  apply List.flatMap_congr
  intro id _
  rw [List.filterMap_map, Function.id_comp, Registry.rules_standard]
  exact filterMap_judge_filter _ (fun code => decide (code ∉ settings.disabled)) _

theorem codes_findings (found : tree.node? id = some node) :
    ((({ settings } : Validator).findings tree id).map Problem.code).Sublist node.kind.agenda := by
  have codes := codes_rulesFor settings node.kind
  rw [findings, verdicts_eq _ found]
  refine List.Sublist.trans ?_ (codes ▸ List.filter_sublist)
  clear codes
  induction ({ settings } : Validator).rulesFor node.kind with
  | nil => exact .slnil
  | cons rule rest ih =>
    rw [List.map_cons, List.map_cons, judge]
    split
    · exact ih.cons _
    · exact ih.cons_cons _

/-- Nodes that are met once are not reported twice for the same thing. -/
theorem nodup_flatMap_findings {ids : List NodeId} (distinct : ids.Nodup) :
    (ids.flatMap (({ settings } : Validator).findings tree)).Nodup := by
  apply List.nodup_flatMap.mpr
  refine ⟨fun id _ => ?_, distinct.imp fun different problem here there => ?_⟩
  · cases found : tree.node? id with
    | none => simp [findings, verdicts, found]
    | some node =>
      exact ((codes_findings settings found).nodup node.kind.agenda_nodup).of_map
  · have first := node_of_mem_findings here
    have second := node_of_mem_findings there
    exact different (first.symm.trans second)

end Standard

section Linked
variable {draft : Draft} {members : List NodeId}

/-- A validation gives the answers to the checks that fall due on the nodes of a subtree in
depth first order, less those that find nothing. -/
theorem validate_answers_due (linked : draft.link members = .ok tree) (settings : Settings)
    (target : NodeId) :
    let validator : Validator := { settings }
    (tree.contains target = false →
      validator.validate tree target = .error (.unknownNode target)) ∧
    (tree.contains target = true →
      ∃ (order : List NodeId) (verdicts : List (Option Problem)), tree.DepthFirst [target] order ∧
        validator.answers tree (validator.due tree order) = verdicts.map .ok ∧
        validator.validate tree target = .ok verdicts.reduceOption ∧
        verdicts.reduceOption.Nodup) := by
  intro validator
  have sound := Tree.linked_of_link linked
  refine ⟨fun unknown => ?_, fun known => ?_⟩
  · rw [validate_eq, if_neg (by simp [unknown])]
  · have inside := Draft.contains_iff.mp known
    have ordered := sound.depthFirst_subtree inside
    have all : ∀ id ∈ tree.subtree target, tree.contains id = true := fun id member =>
      Draft.contains_iff.mpr (sound.lt_of_mem_depthFirst inside ordered member)
    have gathered : ((tree.subtree target).flatMap (validator.verdicts tree)).reduceOption =
        (tree.subtree target).flatMap (validator.findings tree) := List.filterMap_flatMap
    refine ⟨tree.subtree target, _, ordered, answers_due settings all, ?_, ?_⟩
    · rw [validate_eq, if_pos known, gathered]
    · rw [gathered]
      exact nodup_flatMap_findings settings (sound.depthFirst_nodup inside ordered)

theorem validate_answers_due_specimen :
    let validator : Validator := { settings := ({} : Settings).disable "nameIsCamelCase" }
    Draft.specimen.link [7] = .ok Tree.specimen ∧ Tree.specimen.contains 7 = true ∧
      ∃ (order : List NodeId) (verdicts : List (Option Problem)),
        Tree.specimen.DepthFirst [7] order ∧
        validator.answers Tree.specimen (validator.due Tree.specimen order) =
          verdicts.map .ok ∧
        validator.validate Tree.specimen 7 = .ok verdicts.reduceOption ∧
        verdicts.reduceOption.Nodup :=
  ⟨Draft.link_specimen, by decide,
    (validate_answers_due Draft.link_specimen (({} : Settings).disable "nameIsCamelCase") 7).2
      (by decide)⟩

/-- The agendas overlook nothing: a validation of the whole tree finds what all checks by all
rules find that are not switched off, and no rule fails on a kind that does not have it on the
agenda. -/
theorem validate_root_perm_everyCheck (linked : draft.link members = .ok tree)
    (settings : Settings) :
    let validator : Validator := { settings }
    (∃ (problems : List Problem) (verdicts : List (Option Problem)),
      validator.validate tree tree.root = .ok problems ∧
      validator.answers tree (validator.everyCheck tree) = verdicts.map .ok ∧
      problems ~ verdicts.reduceOption) ∧
    ∀ rule ∈ Registry.standard.rules, ∀ (other : Tree) (id : NodeId) (node : Node),
      other.node? id = some node → rule.holds other id = false →
        rule.code ∈ node.kind.agenda := by
  intro validator
  rw [Registry.rules_standard]
  refine ⟨?_, fun rule listed other id node => Rule.mem_agenda_of_broken listed⟩
  have sound := Tree.linked_of_link linked
  refine ⟨_, _, validate_of_lt validator sound.root_lt, answers_everyCheck settings, ?_⟩
  rw [← flatMap_range_findings]
  exact sound.subtree_root.flatMap_right _

theorem validate_root_perm_everyCheck_specimen :
    let validator : Validator := { settings := ({} : Settings).withStrict true }
    Draft.specimen.link [7] = .ok Tree.specimen ∧
      ∃ (problems : List Problem) (verdicts : List (Option Problem)),
        validator.validate Tree.specimen 8 = .ok problems ∧
        validator.answers Tree.specimen (validator.everyCheck Tree.specimen) =
          verdicts.map .ok ∧
        problems ~ verdicts.reduceOption :=
  ⟨Draft.link_specimen,
    (validate_root_perm_everyCheck Draft.link_specimen (({} : Settings).withStrict true)).1⟩

/-- A validation of the whole tree finds what single checks of everything find, less the problems
of codes that are switched off. -/
theorem validate_root_perm_checkAll (linked : draft.link members = .ok tree)
    (settings : Settings) :
    let validator : Validator := { settings }
    ∃ problems, validator.validate tree tree.root = .ok problems ∧
      problems ~ (validator.checkAll tree).filter
        fun problem => problem.code ∉ settings.disabled := by
  intro validator
  have sound := Tree.linked_of_link linked
  refine ⟨_, validate_of_lt validator sound.root_lt, ?_⟩
  rw [← flatMap_range_findings_eq_filter]
  exact sound.subtree_root.flatMap_right _

end Linked

end Validator
end ProgramLint
