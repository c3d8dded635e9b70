import ProgramLint.Proofs.Validator.Findings

/-!
Settings leave out problems and raise levels, and do nothing else. Whatever calls they come from,
only two things matter: which codes were ever switched off, and what the last call on strictness
said. A single check asks for the second alone.
-/

namespace ProgramLint

namespace Settings
variable {code : String}

/-- One call that changes settings. -/
inductive Change where
  | disable (code : String)
  | strict (flag : Bool)
  deriving DecidableEq

/-- What a change says about strictness, if anything. -/
def Change.flag? : Change → Option Bool
  | disable _ => none
  | strict flag => some flag

def apply (settings : Settings) : Change → Settings
  | .disable code => settings.disable code
  | .strict flag => settings.withStrict flag

/-- Makes changes one after the other. -/
def applyAll (settings : Settings) (changes : List Change) : Settings :=
  changes.foldl apply settings

/-- What the last of the changes that say something about strictness says. -/
def lastFlag (changes : List Change) : Bool :=
  (changes.filterMap Change.flag?).getLast?.getD false

theorem isEnabled_apply (settings : Settings) (change : Change) (code : String) :
    (settings.apply change).isEnabled code =
      (decide (.disable code ≠ change) && settings.isEnabled code) := by
  cases change with
  | disable other => rw [apply, isEnabled_disable]; simp [bne, Bool.beq_eq_decide_eq]
  | strict flag => simp [apply, withStrict, isEnabled]

theorem strict_apply (settings : Settings) (change : Change) :
    (settings.apply change).strict = change.flag?.getD settings.strict := by
  cases change <;> rfl

/-- A code stays on unless some change switches it off. -/
theorem isEnabled_applyAll (settings : Settings) (changes : List Change) (code : String) :
    (settings.applyAll changes).isEnabled code =
      (decide (.disable code ∉ changes) && settings.isEnabled code) := by
  induction changes generalizing settings with
  | nil => simp [applyAll]
  | cons change rest ih =>
    have first : settings.applyAll (change :: rest) = (settings.apply change).applyAll rest := rfl
    rw [first, ih, isEnabled_apply]
    by_cases here : .disable code = change <;> by_cases later : .disable code ∈ rest <;>
      simp [here, later]

theorem strict_applyAll (settings : Settings) (changes : List Change) :
    (settings.applyAll changes).strict =
      (changes.filterMap Change.flag?).getLast?.getD settings.strict := by
  induction changes generalizing settings with
  | nil => rfl
  | cons change rest ih =>
    have first : settings.applyAll (change :: rest) = (settings.apply change).applyAll rest := rfl
    rw [first, ih, strict_apply]
    cases told : change.flag? with
    | none => rw [List.filterMap_cons_none told, Option.getD_none]
    | some flag => rw [List.filterMap_cons_some told, List.getLast?_cons, Option.getD_some]; rfl

end Settings

/-- The problem at the highest level there is, if levels are strict. -/
def Problem.promote (strict : Bool) (problem : Problem) : Problem :=
  if strict then { problem with level := .error } else problem

namespace Validator
variable {tree : Tree} {id : NodeId} (registry : Registry) (settings : Settings)

theorem judge_eq_map_promote (rule : Rule) :
    ({ registry, settings } : Validator).judge tree rule id =
      (({ registry } : Validator).judge tree rule id).map (Problem.promote settings.strict) := by
  unfold judge
  split
  · rfl
  · cases strict : settings.strict <;> simp [Problem.promote, Settings.raise, strict]

/-- The rules for the codes that are still on are those of the rules whose codes are still on. -/
theorem filterMap_find?_filter (indexed : registry.Indexed) (codes : List String) :
    (codes.filter settings.isEnabled).filterMap registry.find? =
      (codes.filterMap registry.find?).filter fun rule => settings.isEnabled rule.code := by
  rw [List.filterMap_filter, List.filter_filterMap]
  apply List.filterMap_congr
  intro code _
  cases found : registry.find? code with
  | none => simp
  | some rule => simp [Option.filter, (indexed.find?_eq_some_iff.mp found).2]

/-- What is switched off is left out, and what comes after it is not. -/
theorem rulesFor_eq_filter (indexed : registry.Indexed) (kind : Kind) :
    ({ registry, settings } : Validator).rulesFor kind =
      (({ registry } : Validator).rulesFor kind).filter
        fun rule => settings.isEnabled rule.code := by
  have all : kind.agenda.filter ({} : Settings).isEnabled = kind.agenda :=
    List.filter_eq_self.mpr fun code _ => Settings.isEnabled_empty code
  unfold rulesFor
  rw [filterMap_find?_filter registry settings indexed, all, List.filter_comm]

theorem findings_eq_map_filter (indexed : registry.Indexed) :
    ({ registry, settings } : Validator).findings tree id =
      ((({ registry } : Validator).findings tree id).filter
        fun problem => settings.isEnabled problem.code).map (Problem.promote settings.strict) := by
  unfold findings
  cases found : tree.node? id with
  | none => simp [verdicts, found]
  | some node =>
    rw [verdicts_eq _ found, verdicts_eq _ found, rulesFor_eq_filter registry settings indexed]
    unfold List.reduceOption
    rw [List.filterMap_map, List.filterMap_map, Function.id_comp, Function.id_comp,
      ← filterMap_judge_filter _ settings.isEnabled, List.map_filterMap]
    apply List.filterMap_congr
    intro rule _
    exact judge_eq_map_promote registry settings rule

theorem validate_eq_map_filter (indexed : registry.Indexed) (target : NodeId) :
    ({ registry, settings } : Validator).validate tree target =
      (({ registry } : Validator).validate tree target).map fun problems =>
        (problems.filter fun problem => settings.isEnabled problem.code).map
          (Problem.promote settings.strict) := by
  rw [validate_eq, validate_eq]
  split
  · rw [Except.map, List.filter_flatMap, List.map_flatMap]
    congr 1
    apply List.flatMap_congr
    intro below _
    exact findings_eq_map_filter registry settings indexed
  · rfl

theorem check_eq_map (code : String) (id : NodeId) :
    ({ registry, settings } : Validator).check tree code id =
      (({ registry } : Validator).check tree code id).map
        (Option.map (Problem.promote settings.strict)) := by
  unfold check
  cases registry.find? code with
  | none => rfl
  | some rule =>
    simp only
    rw [judge_eq_map_promote]
    split <;> rfl

section Changes
variable (tree : Tree) (changes : List Settings.Change)

theorem validate_applyAll (target : NodeId) :
    ({ settings := ({} : Settings).applyAll changes } : Validator).validate tree target =
      (({} : Validator).validate tree target).map fun problems =>
        (problems.filter fun problem => .disable problem.code ∉ changes).map
          (Problem.promote (Settings.lastFlag changes)) := by
  rw [validate_eq_map_filter _ _ Registry.indexed_standard, Settings.strict_applyAll]
  simp only [Settings.isEnabled_applyAll, Settings.isEnabled_empty, Bool.and_true]
  rfl

theorem check_applyAll (code : String) (id : NodeId) :
    ({ settings := ({} : Settings).applyAll changes } : Validator).check tree code id =
      (({} : Validator).check tree code id).map
        (Option.map (Problem.promote (Settings.lastFlag changes))) := by
  rw [check_eq_map, Settings.strict_applyAll]
  rfl

/-- Whatever calls the settings come from, a validation finds what it finds without them, less the
problems of codes that were ever switched off, and at the highest level if the last call on
strictness asked for it. A single check is only raised. Nothing else about the calls matters. -/
theorem validate_configured :
    let validator : Validator := { settings := ({} : Settings).applyAll changes }
    (∀ target, validator.validate tree target =
      (({} : Validator).validate tree target).map fun problems =>
        (problems.filter fun problem => .disable problem.code ∉ changes).map
          (Problem.promote (Settings.lastFlag changes))) ∧
    (∀ code id, validator.check tree code id =
      (({} : Validator).check tree code id).map
        (Option.map (Problem.promote (Settings.lastFlag changes)))) ∧
    ∀ others, (∀ code, Settings.Change.disable code ∈ changes ↔ .disable code ∈ others) →
      Settings.lastFlag changes = Settings.lastFlag others →
      let other : Validator := { settings := ({} : Settings).applyAll others }
      (∀ target, validator.validate tree target = other.validate tree target) ∧
      ∀ code id, validator.check tree code id = other.check tree code id := by
  refine ⟨validate_applyAll tree changes, check_applyAll tree changes, ?_⟩
  intro others same flags other
  apply And.intro
  · intro target
    rw [validate_applyAll, validate_applyAll, flags]
    simp only [same]
  · intro code id
    rw [check_applyAll, check_applyAll, flags]

end Changes

theorem validate_configured_specimen :
    let changes : List Settings.Change :=
      [.strict true, .disable "nameIsCamelCase", .strict false, .disable "doesNotExist",
        .disable "nameIsCamelCase", .strict true]
    let others : List Settings.Change :=
      [.disable "doesNotExist", .strict true, .disable "nameIsCamelCase"]
    (∀ code, Settings.Change.disable code ∈ changes ↔ .disable code ∈ others) ∧
      Settings.lastFlag changes = Settings.lastFlag others ∧
      ({ settings := ({} : Settings).applyAll changes } : Validator).validate Tree.specimen 7 =
        ({ settings := ({} : Settings).applyAll others } : Validator).validate Tree.specimen 7 := by
  intro changes others
  have same : ∀ code, Settings.Change.disable code ∈ changes ↔ .disable code ∈ others := by
    simp [changes, others, or_comm]
  have flags : Settings.lastFlag changes = Settings.lastFlag others := by decide
  exact ⟨same, flags, ((validate_configured Tree.specimen changes).2.2 others same flags).1 7⟩

end Validator
end ProgramLint
