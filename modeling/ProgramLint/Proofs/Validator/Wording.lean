import ProgramLint.Problem
import ProgramLint.Validator.Refusal

/-!
The printed form of a problem or of a failure tells which one it is. Codes are printed as they
are, so a code may hold whatever separates the parts of a text. But numbers are printed by digits
alone: the last number sign of a text begins a number, and the first blank after a number ends it.
-/

namespace ProgramLint

section Marks
variable {mark : Char} {first second rest others : List Char}

/-- There is one way to cut a text at its first mark. -/
theorem cut_at_first (free : mark ∉ first) (also : mark ∉ second)
    (same : first ++ mark :: rest = second ++ mark :: others) :
    first = second ∧ rest = others := by
  rcases List.append_eq_append_iff.mp same with ⟨between, rfl, cut⟩ | ⟨between, rfl, cut⟩
  · cases between with
    | nil => exact ⟨by simp, (List.cons.inj cut).2⟩
    | cons head tail =>
      have early : mark = head := (List.cons.inj cut).1
      exact absurd (by simp [early]) also
  · cases between with
    | nil => exact ⟨by simp, (List.cons.inj cut).2.symm⟩
    | cons head tail =>
      have early : mark = head := (List.cons.inj cut).1
      exact absurd (by simp [early]) free

/-- There is one way to cut a text at its last mark. -/
theorem cut_at_last (free : mark ∉ rest) (also : mark ∉ others)
    (same : first ++ mark :: rest = second ++ mark :: others) :
    first = second ∧ rest = others := by
  have backwards : rest.reverse ++ mark :: first.reverse =
      others.reverse ++ mark :: second.reverse := by
    simpa using congrArg List.reverse same
  have parts := cut_at_first (by simpa using free) (by simpa using also) backwards
  exact ⟨List.reverse_inj.mp parts.2, List.reverse_inj.mp parts.1⟩

end Marks

namespace NodeId
variable {first second : NodeId} {rest others : String}

theorem toList_text (id : NodeId) : (text id).toList = '#' :: Nat.toDigits 10 id := by
  simp [text]

theorem not_mem_toDigits {mark : Char} (other : mark.isDigit = false) (id : NodeId) :
    mark ∉ Nat.toDigits 10 id := by
  intro member
  have digit := Nat.isDigit_of_mem_toDigits (by decide) (by decide) member
  rw [other] at digit
  contradiction

/-- Digits can be read back. -/
theorem eq_of_toDigits_eq (same : Nat.toDigits 10 first = Nat.toDigits 10 second) :
    first = second := by
  calc
    first = Nat.ofDigitChars 10 (Nat.toDigits 10 first) 0 := Nat.ofDigitChars_ten_toDigits.symm
    _ = Nat.ofDigitChars 10 (Nat.toDigits 10 second) 0 := by rw [same]
    _ = second := Nat.ofDigitChars_ten_toDigits

/-- The first blank after a number ends it. -/
theorem text_append_inj (same : text first ++ (" " ++ rest) = text second ++ (" " ++ others)) :
    first = second ∧ rest = others := by
  have chars := congrArg String.toList same
  simp only [String.toList_append, toList_text, List.cons_append, List.cons.injEq,
    true_and] at chars
  have parts := cut_at_first (not_mem_toDigits (by decide) first)
    (not_mem_toDigits (by decide) second) chars
  exact ⟨eq_of_toDigits_eq parts.1, String.toList_inj.mp parts.2⟩

/-- The last number sign begins a number. -/
theorem append_text_inj (same : rest ++ text first = others ++ text second) :
    rest = others ∧ first = second := by
  have chars := congrArg String.toList same
  simp only [String.toList_append, toList_text] at chars
  have parts := cut_at_last (not_mem_toDigits (by decide) first)
    (not_mem_toDigits (by decide) second) chars
  exact ⟨String.toList_inj.mp parts.1, eq_of_toDigits_eq parts.2⟩

end NodeId

namespace Level

theorem text_append_inj {first second : Level} {rest others : String}
    (same : first.text ++ rest = second.text ++ others) : first = second ∧ rest = others := by
  cases first <;> cases second
  case warning.warning | error.error => exact ⟨rfl, (String.append_right_inj _).mp same⟩
  all_goals
    unfold text at same
    have chars := congrArg String.toList same
    simp at chars

end Level

theorem Problem.eq_of_text_eq {problem other : Problem} (same : problem.text = other.text) :
    problem = other := by
  obtain ⟨front, nodes⟩ := NodeId.append_text_inj same
  have named := (String.append_left_inj " at ").mp front
  rw [String.append_assoc, String.append_assoc] at named
  obtain ⟨levels, rest⟩ := Level.text_append_inj named
  have codes := (String.append_right_inj " ").mp rest
  cases problem
  cases other
  simp only at nodes levels codes
  rw [nodes, levels, codes]

namespace LinkFault

/-- The node that is at fault. -/
def subject : LinkFault → NodeId
  | missing node _ | shared node | detached node => node

/-- What is said of that node. -/
def complaint : LinkFault → String
  | missing _ owner => "referenced by " ++ (NodeId.text owner ++ (" " ++ "does not exist"))
  | shared _ => "has more than one parent"
  | detached _ => "is not reachable from the environment root"

theorem message_eq (fault : LinkFault) :
    fault.message = "node " ++ (NodeId.text fault.subject ++ (" " ++ fault.complaint)) := by
  cases fault with
  | missing node owner =>
    change "node " ++ NodeId.text node ++ (" " ++ "referenced by ") ++ NodeId.text owner ++
      (" " ++ "does not exist") = "node " ++ (NodeId.text node ++ (" " ++ ("referenced by " ++
        (NodeId.text owner ++ (" " ++ "does not exist")))))
    simp only [String.append_assoc]
  | shared node => exact String.append_assoc
  | detached node => exact String.append_assoc

theorem eq_of_complaint_eq {fault other : LinkFault} (subjects : fault.subject = other.subject)
    (same : fault.complaint = other.complaint) : fault = other := by
  cases fault <;> cases other
  case missing.missing node owner lost holder =>
    have rest := (String.append_right_inj "referenced by ").mp same
    have owners := (NodeId.text_append_inj rest).1
    simp only [subject] at subjects
    rw [subjects, owners]
  case shared.shared | detached.detached => exact congrArg _ subjects
  all_goals
    unfold complaint at same
    have chars := congrArg String.toList same
    simp at chars

theorem eq_of_message_eq {fault other : LinkFault} (same : fault.message = other.message) :
    fault = other := by
  rw [message_eq, message_eq] at same
  have parts := NodeId.text_append_inj ((String.append_right_inj "node ").mp same)
  exact eq_of_complaint_eq parts.1 parts.2

end LinkFault

namespace Refusal

theorem eq_of_message_eq {refusal other : Refusal} (same : refusal.message = other.message) :
    refusal = other := by
  cases refusal <;> cases other
  case unknownNode.unknownNode node lost =>
    have texts : "node " ++ NodeId.text node = "node " ++ NodeId.text lost :=
      (String.append_left_inj " does not belong to the environment").mp same
    rw [(NodeId.append_text_inj texts).2]
  case unknownRule.unknownRule code lost =>
    rw [(String.append_right_inj "unknown rule: ").mp same]
  all_goals
    unfold message at same
    have chars := congrArg String.toList same
    simp at chars

end Refusal

namespace Failure

theorem eq_of_message_eq {failure other : Failure} (same : failure.message = other.message) :
    failure = other := by
  cases failure <;> cases other
  case linking.linking fault lost =>
    have messages : fault.message = lost.message :=
      (String.append_right_inj "Failed to link the environment: ").mp same
    rw [LinkFault.eq_of_message_eq messages]
  case validating.validating refusal lost =>
    have messages : refusal.message = lost.message :=
      (String.append_right_inj "Validation could not run: ").mp same
    rw [Refusal.eq_of_message_eq messages]
  all_goals
    unfold message at same
    have chars := congrArg String.toList same
    simp at chars

end Failure

/-- Two problems with one printed form are the same, and so are two failures, whatever is in
their codes. -/
theorem printed_form_identifies :
    (∀ problem other : Problem, problem.text = other.text ↔ problem = other) ∧
      ∀ failure other : Failure, failure.message = other.message ↔ failure = other := by
  refine ⟨fun problem other => ⟨Problem.eq_of_text_eq, ?_⟩,
    fun failure other => ⟨Failure.eq_of_message_eq, ?_⟩⟩
  · exact congrArg Problem.text
  · exact congrArg Failure.message

-- A code may end like the text of a problem.
example : (⟨"late at #1", .error, 2⟩ : Problem).text = "Error late at #1 at #2" := by
  decide

end ProgramLint
