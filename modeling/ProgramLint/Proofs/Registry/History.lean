import Mathlib.Data.Finset.Card
import ProgramLint.Registry

/-!
What a registry holds after any sequence of registrations. The index and the rules agree after
each of them, so a place that the index tells is always the place of a rule with that code. Codes
stand in the order in which they first came, each with the rule that came last.
-/

namespace ProgramLint.Registry

/-- The index tells the place of every code that is there, and of no other. -/
def Indexed (registry : Registry) : Prop :=
  ∀ code place, registry.place? code = some place ↔ registry.codes[place]? = some code

section Index
variable {registry : Registry} {rule : Rule} {code : String} {place : Nat}

theorem codes_replace (here : registry.codes[place]? = some rule.code) :
    (registry.replace place rule).codes = registry.codes := by
  obtain ⟨inside, same⟩ := List.getElem?_eq_some_iff.mp here
  show (registry.rules.set place rule).map Rule.code = registry.codes
  rw [List.map_set, ← same]
  exact List.set_getElem_self inside

theorem codes_append (registry : Registry) (rule : Rule) :
    (registry.append rule).codes = registry.codes ++ [rule.code] :=
  List.map_append

theorem place?_append (registry : Registry) (rule : Rule) (code : String) :
    (registry.append rule).place? code =
      if code = rule.code then some registry.codes.length else registry.place? code := by
  have size : registry.codes.length = registry.rules.length := List.length_map ..
  rw [size]
  show ((rule.code, registry.rules.length) :: registry.index).lookup code = _
  by_cases same : code = rule.code
  · rw [if_pos same, same, List.lookup_cons_self]
  · have passed : (code == rule.code) = false := by simpa using same
    rw [if_neg same, List.lookup_cons, passed]
    rfl

theorem indexed_empty : ({} : Registry).Indexed := by
  intro code place
  simp [place?, codes]

namespace Indexed
variable (indexed : registry.Indexed)

include indexed

theorem place?_eq_none_iff : registry.place? code = none ↔ code ∉ registry.codes := by
  simp only [Option.eq_none_iff_forall_ne_some, ne_eq, indexed code, List.mem_iff_getElem?,
    not_exists]

theorem replace (here : registry.codes[place]? = some rule.code) :
    (registry.replace place rule).Indexed := by
  intro code other
  rw [codes_replace here]
  exact indexed code other

theorem append (fresh : rule.code ∉ registry.codes) : (registry.append rule).Indexed := by
  intro code place
  rw [codes_append, place?_append]
  split
  next same =>
    subst same
    rw [Option.some_inj]
    apply Iff.intro
    · intro last
      rw [← last, List.getElem?_concat_length]
    · intro found
      rw [List.getElem?_append] at found
      split at found
      next inside => exact absurd (List.mem_of_getElem? found) fresh
      next outside =>
        have first := (List.getElem?_eq_some_iff.mp found).1
        simp at first
        omega
  next other =>
    rw [indexed code place, List.getElem?_append]
    split
    next inside => rfl
    next outside =>
      rw [List.getElem?_eq_none (by omega)]
      simp [List.getElem?_singleton, Ne.symm other]

/-- A registration changes the rule at the place of its code, or adds a place for a new code. -/
theorem register_cases (rule : Rule) :
    (∃ place, registry.place? rule.code = some place ∧
      registry.codes[place]? = some rule.code ∧
      registry.register rule = registry.replace place rule) ∨
    (rule.code ∉ registry.codes ∧ registry.register rule = registry.append rule) := by
  unfold Registry.register
  cases found : registry.place? rule.code with
  | some place => exact .inl ⟨place, rfl, (indexed _ _).mp found, rfl⟩
  | none => exact .inr ⟨indexed.place?_eq_none_iff.mp found, rfl⟩

theorem register (rule : Rule) : (registry.register rule).Indexed := by
  rcases indexed.register_cases rule with ⟨place, -, here, step⟩ | ⟨fresh, step⟩
  · exact step ▸ indexed.replace here
  · exact step ▸ indexed.append fresh

theorem codes_register (rule : Rule) :
    (registry.register rule).codes =
      if rule.code ∈ registry.codes then registry.codes else registry.codes ++ [rule.code] := by
  rcases indexed.register_cases rule with ⟨place, -, here, step⟩ | ⟨fresh, step⟩
  · rw [step, codes_replace here, if_pos (List.mem_of_getElem? here)]
  · rw [step, codes_append, if_neg fresh]

/-- No place that the index tells is out of range. -/
theorem lt_of_place? (found : registry.place? code = some place) :
    place < registry.rules.length := by
  have inside := (List.getElem?_eq_some_iff.mp ((indexed _ _).mp found)).1
  simpa [codes] using inside

theorem find?_eq_some_iff :
    registry.find? code = some rule ↔ rule ∈ registry.rules ∧ rule.code = code := by
  simp only [find?, Option.bind_eq_some_iff, indexed code, codes, List.getElem?_map,
    Option.map_eq_some_iff, List.mem_iff_getElem?]
  apply Iff.intro
  · intro found
    obtain ⟨place, ⟨other, here, coded⟩, there⟩ := found
    cases here.symm.trans there
    exact ⟨⟨place, there⟩, coded⟩
  · intro found
    obtain ⟨⟨place, here⟩, coded⟩ := found
    exact ⟨place, ⟨rule, here, coded⟩, here⟩

theorem find?_register_self (rule : Rule) :
    (registry.register rule).find? rule.code = some rule := by
  refine (indexed.register rule).find?_eq_some_iff.mpr ⟨?_, rfl⟩
  rcases indexed.register_cases rule with ⟨place, told, -, step⟩ | ⟨-, step⟩
  · rw [step]
    exact List.mem_set (indexed.lt_of_place? told) rule
  · rw [step]
    exact List.mem_append_right _ (List.mem_singleton_self rule)

theorem find?_register_of_ne (other : code ≠ rule.code) :
    (registry.register rule).find? code = registry.find? code := by
  rcases indexed.register_cases rule with ⟨place, -, here, step⟩ | ⟨-, step⟩
  · rw [step]
    refine Option.bind_congr fun elsewhere found => List.getElem?_set_ne ?_
    rintro rfl
    exact other (Option.some_inj.mp (((indexed _ _).mp found).symm.trans here))
  · rw [step, find?, place?_append, if_neg other]
    exact Option.bind_congr fun place found =>
      List.getElem?_append_left (indexed.lt_of_place? found)

/-- The last rule registered under a code is the one found. -/
theorem find?_register (rule : Rule) (code : String) :
    (registry.register rule).find? code =
      if rule.code = code then some rule else registry.find? code := by
  split
  next same => exact same ▸ indexed.find?_register_self rule
  next other => exact indexed.find?_register_of_ne (Ne.symm other)

/-- Every rule is found under its code. -/
theorem map_find?_codes : registry.codes.map registry.find? = registry.rules.map some := by
  rw [codes, List.map_map]
  apply List.map_congr_left
  intro rule member
  exact indexed.find?_eq_some_iff.mpr ⟨member, rfl⟩

theorem registerAll (rules : List Rule) : (registry.registerAll rules).Indexed := by
  induction rules generalizing registry with
  | nil => exact indexed
  | cons rule rest ih => exact ih (indexed.register rule)

end Indexed
end Index

/-- The rule that comes last under a code. -/
def latest? (rules : List Rule) (code : String) : Option Rule :=
  (rules.filter fun rule => rule.code = code).getLast?

/-- The registry in which these rules were registered, and nothing else. -/
def ofRules (rules : List Rule) : Registry :=
  ({} : Registry).registerAll rules

theorem indexed_ofRules (rules : List Rule) : (ofRules rules).Indexed :=
  indexed_empty.registerAll rules

theorem indexed_standard : standard.Indexed :=
  indexed_ofRules Rule.catalogue

section History
variable (rules : List Rule)

theorem ofRules_concat (rule : Rule) :
    ofRules (rules ++ [rule]) = (ofRules rules).register rule := by
  simp only [ofRules, registerAll, List.foldl_append, List.foldl_cons, List.foldl_nil]

theorem find?_ofRules (code : String) : (ofRules rules).find? code = latest? rules code := by
  induction rules using List.reverseRecOn with
  | nil => rfl
  | append_singleton rest rule ih =>
    rw [ofRules_concat, (indexed_ofRules rest).find?_register, ih]
    unfold latest?
    rw [List.filter_append, List.getLast?_append]
    by_cases same : rule.code = code <;> simp [same]

theorem mem_codes_ofRules {code : String} :
    code ∈ (ofRules rules).codes ↔ code ∈ rules.map Rule.code := by
  induction rules using List.reverseRecOn with
  | nil => rfl
  | append_singleton rest rule ih =>
    rw [ofRules_concat, (indexed_ofRules rest).codes_register, List.map_append, List.mem_append,
      ← ih]
    split
    next known =>
      refine ⟨.inl, fun found => found.elim id fun last => ?_⟩
      exact List.mem_singleton.mp last ▸ known
    next fresh => exact List.mem_append

/-- Codes stand in the order in which they first came. -/
theorem pairwise_codes_ofRules :
    (ofRules rules).codes.Pairwise fun first second =>
      (rules.map Rule.code).idxOf first < (rules.map Rule.code).idxOf second := by
  induction rules using List.reverseRecOn with
  | nil => exact .nil
  | append_singleton rest rule ih =>
    have known {code : String} (member : code ∈ (ofRules rest).codes) :
        code ∈ rest.map Rule.code := (mem_codes_ofRules rest).mp member
    have kept : (ofRules rest).codes.Pairwise fun first second =>
        ((rest ++ [rule]).map Rule.code).idxOf first <
          ((rest ++ [rule]).map Rule.code).idxOf second := by
      refine ih.imp_of_mem fun here there lower => ?_
      rw [List.map_append, List.idxOf_append_of_mem (known here),
        List.idxOf_append_of_mem (known there)]
      exact lower
    rw [ofRules_concat, (indexed_ofRules rest).codes_register]
    split
    next => exact kept
    next fresh =>
      refine List.pairwise_append.mpr ⟨kept, List.pairwise_singleton .., ?_⟩
      intro earlier here last only
      obtain rfl := List.mem_singleton.mp only
      have new : rule.code ∉ rest.map Rule.code := mt (mem_codes_ofRules rest).mpr fresh
      rw [List.map_append, List.idxOf_append_of_mem (known here), List.idxOf_append_of_notMem new]
      exact Nat.lt_add_right _ (List.idxOf_lt_length_of_mem (known here))

theorem nodup_codes_ofRules : (ofRules rules).codes.Nodup :=
  (pairwise_codes_ofRules rules).imp fun lower same => (same ▸ lower).ne rfl

theorem size_ofRules : (ofRules rules).size = (rules.map Rule.code).toFinset.card := by
  have same : (ofRules rules).codes.toFinset = (rules.map Rule.code).toFinset := by
    ext code
    rw [List.mem_toFinset, List.mem_toFinset, mem_codes_ofRules]
  rw [← same, List.toFinset_card_of_nodup (nodup_codes_ofRules rules), codes, List.length_map]
  rfl

/-- After any registrations, a code is found with the rule that came last under it. The codes that
came are there, each once and in the order in which they first came. The index tells exactly the
places of the codes, all of them in range. The registry of the catalogue is one that has the
catalogue behind it. -/
theorem ofRules_history :
    (∀ code, (ofRules rules).find? code = latest? rules code) ∧
    (ofRules rules).codes.Nodup ∧
    (∀ code, code ∈ (ofRules rules).codes ↔ code ∈ rules.map Rule.code) ∧
    ((ofRules rules).codes.Pairwise fun first second =>
      (rules.map Rule.code).idxOf first < (rules.map Rule.code).idxOf second) ∧
    (ofRules rules).rules.map some = (ofRules rules).codes.map (latest? rules) ∧
    (ofRules rules).size = (rules.map Rule.code).toFinset.card ∧
    (∀ code place, (ofRules rules).place? code = some place ↔
      ∃ inside : place < (ofRules rules).rules.length,
        (ofRules rules).rules[place].code = code) ∧
    standard.registerAll rules = ofRules (Rule.catalogue ++ rules) := by
  have indexed := indexed_ofRules rules
  refine ⟨find?_ofRules rules, nodup_codes_ofRules rules, fun _ => mem_codes_ofRules rules,
    pairwise_codes_ofRules rules, ?latest, size_ofRules rules, fun code place => ?place, ?catalogue⟩
  case latest =>
    rw [← indexed.map_find?_codes]
    exact List.map_congr_left fun code _ => find?_ofRules rules code
  case place =>
    rw [indexed code place, codes, List.getElem?_eq_some_iff]
    simp
  case catalogue => simp only [standard, ofRules, registerAll, List.foldl_append]

/-- The first rule comes again, with other words, and keeps its place. -/
example :
    let again : Rule := { Rule.nameFree with description := "" }
    (ofRules [Rule.nameFree, Rule.fieldApart, again]).rules.map Rule.description =
      ["", Rule.fieldApart.description] :=
  rfl

end History
end ProgramLint.Registry
