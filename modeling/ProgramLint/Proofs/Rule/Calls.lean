import ProgramLint.Proofs.Linking.OneTree
import ProgramLint.Proofs.Rule.Demands

/-!
Which calls a declaration takes, and what the rules on overloads say about them. Two declarations
compete exactly if some call could go to either, so a class is accepted exactly if every call goes
to one method at most, and constructors that stand side by side are told in twos or more.
-/

namespace ProgramLint

namespace Arity
variable {first second arity : Arity} {given : Nat}

/-- The numbers of arguments that a call may give. -/
def Accepts (arity : Arity) (given : Nat) : Prop :=
  given = arity.parameters ∨ arity.variadic = true ∧ arity.parameters ≤ given

theorem accepts_parameters (arity : Arity) : arity.Accepts arity.parameters :=
  .inl rfl

theorem parameters_le (accepts : arity.Accepts given) : arity.parameters ≤ given := by
  unfold Accepts at accepts
  omega

theorem fits_iff : first.fits second = true ↔ second.Accepts first.parameters := by
  simp only [fits, Accepts, Bool.or_eq_true, Bool.and_eq_true, decide_eq_true_eq, beq_iff_eq]
  exact or_comm

/-- If a call goes to both, then so does the one that gives each parameter of the longer list. -/
theorem accepts_longer (longer : second.parameters ≤ first.parameters)
    (here : first.Accepts given) (there : second.Accepts given) :
    second.Accepts first.parameters := by
  have least := parameters_le here
  cases there with
  | inl exact => exact .inl (by omega)
  | inr more => exact .inr ⟨more.1, longer⟩

theorem clashes_iff :
    first.clashes second = true ↔ ∃ given, first.Accepts given ∧ second.Accepts given := by
  rw [clashes, Bool.or_eq_true, fits_iff, fits_iff]
  apply Iff.intro
  · intro fit
    cases fit with
    | inl there => exact ⟨first.parameters, first.accepts_parameters, there⟩
    | inr here => exact ⟨second.parameters, here, second.accepts_parameters⟩
  · intro both
    obtain ⟨given, here, there⟩ := both
    cases Nat.le_total second.parameters first.parameters with
    | inl longer => exact .inl (accepts_longer longer here there)
    | inr longer => exact .inr (accepts_longer longer there here)

end Arity

namespace Tree
variable {tree : Tree} {first second : NodeId} {parameters : List NodeId} {given : Nat}

/-- A list of parameters takes one argument for each, or more if the last of them is variadic. -/
def Takes (tree : Tree) (parameters : List NodeId) (given : Nat) : Prop :=
  given = parameters.length ∨
    parameters.length ≤ given ∧ ∃ last declared, parameters.getLast? = some last ∧
      tree.node? last = some (.parameter declared) ∧ declared.variadic = true

/-- A call of this name with so many arguments can go to this node, which is a method. -/
def MethodTakes (tree : Tree) (name : String) (given : Nat) (id : NodeId) : Prop :=
  ∃ declared, tree.node? id = some (.method declared) ∧ declared.name = name ∧
    tree.Takes declared.parameters given

/-- A call with so many arguments can go to this node, which is a constructor. -/
def ConstructorTakes (tree : Tree) (given : Nat) (id : NodeId) : Prop :=
  ∃ declared, tree.node? id = some (.constructorDecl declared) ∧
    tree.Takes declared.parameters given

def methodsAmong (tree : Tree) (members : List NodeId) : List NodeId :=
  members.filter fun member => (tree.node? member).map Node.kind = some .method

theorem isVariadic_eq_true {slot : NodeId} :
    tree.isVariadic slot = true ↔
      ∃ declared, tree.node? slot = some (.parameter declared) ∧ declared.variadic = true := by
  unfold isVariadic
  split
  next declared found => simp [found]
  next other =>
    exact iff_of_false (by simp) fun found => other found.choose found.choose_spec.1

theorem accepts_arity : (tree.arity parameters).Accepts given ↔ tree.Takes parameters given := by
  simp only [Arity.Accepts, arity, Takes, Option.any_eq_true, isVariadic_eq_true]
  refine or_congr_right ?_
  rw [and_comm]
  simp only [exists_and_left]

theorem clashes_arity_iff {here there : List NodeId} :
    (tree.arity here).clashes (tree.arity there) = true ↔
      ∃ given, tree.Takes here given ∧ tree.Takes there given := by
  simp only [Arity.clashes_iff, accepts_arity]

/-- Methods compete exactly if there is a call that can go to either. -/
theorem compete_iff_exists_call :
    tree.Compete first second ↔
      ∃ name given, tree.MethodTakes name given first ∧ tree.MethodTakes name given second := by
  apply Iff.intro
  · intro compete
    obtain ⟨here, there, left, right, same, clash⟩ := compete
    obtain ⟨given, takes, takesToo⟩ := clashes_arity_iff.mp clash
    exact ⟨here.name, given, ⟨here, left, rfl, takes⟩, ⟨there, right, same.symm, takesToo⟩⟩
  · intro call
    obtain ⟨name, given, ⟨here, left, rfl, takes⟩, ⟨there, right, same, takesToo⟩⟩ := call
    exact ⟨here, there, left, right, same.symm, clashes_arity_iff.mpr ⟨given, takes, takesToo⟩⟩

/-- A constructor is apart from the others around it exactly if no call can go to it and to one of
them. -/
theorem constructorApart_iff_calls {id : NodeId} {node around : Node}
    (known : tree.node? id = some node) :
    tree.ConstructorApart around id node ↔ ∀ other ∈ around.members, other ≠ id → ∀ given,
      tree.ConstructorTakes given id → ¬tree.ConstructorTakes given other := by
  cases node with
  | constructorDecl declared =>
    apply Iff.intro
    · intro apart other member different given here there
      obtain ⟨mine, same, takes⟩ := here
      obtain ⟨theirs, found, takesToo⟩ := there
      cases known.symm.trans same
      exact apart other member different theirs found
        (clashes_arity_iff.mpr ⟨given, takes, takesToo⟩)
    · intro apart other member different theirs found clash
      obtain ⟨given, takes, takesToo⟩ := clashes_arity_iff.mp clash
      exact apart other member different given ⟨declared, known, takes⟩ ⟨theirs, found, takesToo⟩
  | _ =>
    refine iff_of_true trivial fun other _ _ given here => ?_
    obtain ⟨mine, same, -⟩ := here
    cases known.symm.trans same

/-- The search for competing methods passes over everything else. -/
theorem signatures_methodsAmong (tree : Tree) (members : List NodeId) :
    tree.signatures (tree.methodsAmong members) = tree.signatures members := by
  rw [signatures, methodsAmong, List.filterMap_filter]
  apply List.filterMap_congr
  intro member _
  unfold signature?
  cases tree.node? member with
  | none => rfl
  | some node => cases node <;> rfl

end Tree

/-- A class with two methods that take one argument and with three constructors. One constructor
takes no argument, and each of the others takes one. -/
def Draft.rivals : Draft :=
  (({} : Draft).addAll
    [.parameter { name := "a" }, .method { name := "m", parameters := [0] },
      .parameter { name := "rest", variadic := true }, .method { name := "m", parameters := [2] },
      .body [], .constructorDecl { body := 4 },
      .parameter { name := "x" }, .body [], .constructorDecl { parameters := [6], body := 7 },
      .parameter { name := "xs", variadic := true }, .body [],
      .constructorDecl { parameters := [9], body := 10 },
      .classDecl { name := "C", members := [1, 3, 5, 8, 11] }]).2

def Tree.rivals : Tree where
  toDraft := Draft.rivals.withRoot [12]
  root := 13
  parents := #[some 1, some 12, some 3, some 12, some 5, some 12, some 8, some 8, some 12, some 11,
    some 11, some 12, some 13, none]

theorem Tree.node?_rivals :
    rivals.node? 12 = some (.classDecl { name := "C", members := [1, 3, 5, 8, 11] }) :=
  rfl

theorem Draft.link_rivals : rivals.link [12] = .ok Tree.rivals := by
  cbv

namespace Rule
variable {draft : Draft} {members : List NodeId} {tree : Tree} {owner id : NodeId} {around : Node}
  {declared : ClassDecl}

theorem methodsApart_of_same_methods {other : ClassDecl}
    (same : tree.methodsAmong other.members = tree.methodsAmong declared.members) :
    methodsApart.accepts tree id (.classDecl other) =
      methodsApart.accepts tree id (.classDecl declared) := by
  have signatures : tree.signatures other.members = tree.signatures declared.members := by
    rw [← tree.signatures_methodsAmong, same, tree.signatures_methodsAmong]
  show (tree.clashingMethods other.members).isEmpty =
    (tree.clashingMethods declared.members).isEmpty
  rw [Tree.clashingMethods, signatures, Tree.clashingMethods]

/-- The rule on methods accepts a class exactly if a call of a name with a number of arguments can
go to one of its methods at most. Other members have no part in the verdict. -/
theorem methodsApart_iff_calls (linked : draft.link members = .ok tree)
    (found : tree.node? id = some (.classDecl declared)) :
    (methodsApart.holds tree id = true ↔ ∀ name given,
      {method | method ∈ declared.members ∧ tree.MethodTakes name given method}.Subsingleton) ∧
    ∀ other : ClassDecl,
      tree.methodsAmong other.members = tree.methodsAmong declared.members →
        methodsApart.accepts tree id (.classDecl other) = methodsApart.holds tree id := by
  have verdict : methodsApart.holds tree id =
      methodsApart.accepts tree id (.classDecl declared) := by
    rw [holds, found, Option.all_some]
  rw [verdict]
  refine ⟨?_, fun other same => methodsApart_of_same_methods same⟩
  rw [methodsApart_iff ((Tree.linked_of_link linked).members_nodup found)]
  apply Iff.intro
  · intro apart name given first here second there
    by_contra different
    exact apart first here.1 second there.1 different
      (Tree.compete_iff_exists_call.mpr ⟨name, given, here.2, there.2⟩)
  · intro single first here second there different compete
    obtain ⟨name, given, takes, takesToo⟩ := Tree.compete_iff_exists_call.mp compete
    exact different (single name given ⟨here, takes⟩ ⟨there, takesToo⟩)

theorem methodsApart_rivals :
    Draft.rivals.link [12] = .ok Tree.rivals ∧ methodsApart.holds Tree.rivals 12 = false ∧
      methodsApart.accepts Tree.rivals 12 (.classDecl { name := "C", members := [1, 5] }) = true ∧
      methodsApart.accepts Tree.rivals 12 (.classDecl { name := "C", members := [1, 3] }) =
        methodsApart.holds Tree.rivals 12 := by
  have verdict := methodsApart_iff_calls Draft.link_rivals Tree.node?_rivals
  have takes : Tree.rivals.MethodTakes "m" 1 1 :=
    ⟨{ name := "m", parameters := [0] }, rfl, rfl, .inl rfl⟩
  have takesToo : Tree.rivals.MethodTakes "m" 1 3 :=
    ⟨{ name := "m", parameters := [2] }, rfl, rfl, .inl rfl⟩
  refine ⟨Draft.link_rivals, ?_, by decide, verdict.2 _ (by decide)⟩
  rw [← Bool.not_eq_true, verdict.1]
  intro single
  have same : 1 = 3 := single "m" 1 ⟨by decide, takes⟩ ⟨by decide, takesToo⟩
  contradiction

/-- A constructor fails exactly if some call can go to it and to another one beside it. -/
theorem constructorsApart_fails_iff (linked : tree.Linked) (found : tree.node? owner = some around)
    (member : id ∈ around.members) :
    constructorsApart.holds tree id = false ↔ ∃ other ∈ around.members, other ≠ id ∧
      ∃ given, tree.ConstructorTakes given id ∧ tree.ConstructorTakes given other := by
  have above : tree.parentNode? id = some around :=
    linked.parentNode?_eq_some_iff.mpr
      ⟨owner, found, around.members_suffix_children.subset member⟩
  cases known : tree.node? id with
  | none => simp [holds, Tree.ConstructorTakes, known]
  | some node =>
    rw [holds, known, Option.all_some, ← Bool.not_eq_true, constructorsApart_iff]
    simp only [above, Option.some_inj, forall_eq', Tree.constructorApart_iff_calls known,
      not_forall, not_not, exists_prop]

/-- If a constructor fails, then so does one beside it that some call can go to as well. -/
theorem exists_other_failing (linked : tree.Linked) (found : tree.node? owner = some around)
    (member : id ∈ around.members) (fails : constructorsApart.holds tree id = false) :
    ∃ other ∈ around.members, other ≠ id ∧ constructorsApart.holds tree other = false := by
  obtain ⟨other, beside, different, given, here, there⟩ :=
    (constructorsApart_fails_iff linked found member).mp fails
  exact ⟨other, beside, different, (constructorsApart_fails_iff linked found beside).mpr
    ⟨id, member, different.symm, given, there, here⟩⟩

theorem countP_fails_ne_one (linked : tree.Linked) (found : tree.node? owner = some around) :
    (around.members.countP fun member => !constructorsApart.holds tree member) ≠ 1 := by
  intro one
  rw [List.countP_eq_length_filter, List.length_eq_one_iff] at one
  obtain ⟨only, alone⟩ := one
  have told (id : NodeId) :
      id ∈ [only] ↔ id ∈ around.members ∧ constructorsApart.holds tree id = false := by
    rw [← alone, List.mem_filter, Bool.not_eq_true']
  obtain ⟨member, fails⟩ := (told only).mp (List.mem_singleton_self only)
  obtain ⟨other, beside, different, failsToo⟩ := exists_other_failing linked found member fails
  exact different (List.mem_singleton.mp ((told other).mpr ⟨beside, failsToo⟩))

/-- Among the members of a node, a constructor fails exactly if some call can go to it and to
another one, so that both fail and the number of those that fail is never one. None fails exactly
if every number of arguments suits one constructor at most. -/
theorem constructorsApart_iff_calls (linked : draft.link members = .ok tree)
    (found : tree.node? owner = some around) :
    (∀ id ∈ around.members, constructorsApart.holds tree id = false ↔
      ∃ other ∈ around.members, other ≠ id ∧
        ∃ given, tree.ConstructorTakes given id ∧ tree.ConstructorTakes given other) ∧
    (∀ first ∈ around.members, ∀ second ∈ around.members, first ≠ second → ∀ given,
      tree.ConstructorTakes given first → tree.ConstructorTakes given second →
        constructorsApart.holds tree first = false ∧
          constructorsApart.holds tree second = false) ∧
    (around.members.countP fun member => !constructorsApart.holds tree member) ≠ 1 ∧
    ((∀ member ∈ around.members, constructorsApart.holds tree member = true) ↔ ∀ given,
      {member | member ∈ around.members ∧ tree.ConstructorTakes given member}.Subsingleton) := by
  have sound := Tree.linked_of_link linked
  have fails_iff {id : NodeId} (member : id ∈ around.members) :=
    constructorsApart_fails_iff sound found member
  refine ⟨fun id => fails_iff, ?both, countP_fails_ne_one sound found, ?none⟩
  case both =>
    intro first here second there different given takes takesToo
    exact ⟨(fails_iff here).mpr ⟨second, there, different.symm, given, takes, takesToo⟩,
      (fails_iff there).mpr ⟨first, here, different, given, takesToo, takes⟩⟩
  case none =>
    apply Iff.intro
    · intro accepted given first here second there
      by_contra different
      have fails := (fails_iff here.1).mpr
        ⟨second, there.1, Ne.symm different, given, here.2, there.2⟩
      rw [accepted first here.1] at fails
      contradiction
    · intro single id member
      by_contra fails
      obtain ⟨other, beside, different, given, here, there⟩ :=
        (fails_iff member).mp (Bool.not_eq_true _ ▸ fails)
      exact different (single given ⟨beside, there⟩ ⟨member, here⟩)

theorem constructorsApart_rivals :
    Draft.rivals.link [12] = .ok Tree.rivals ∧ constructorsApart.holds Tree.rivals 8 = false ∧
      constructorsApart.holds Tree.rivals 11 = false ∧
      constructorsApart.holds Tree.rivals 5 = true := by
  have both := (constructorsApart_iff_calls Draft.link_rivals Tree.node?_rivals).2.1
  have takes : Tree.rivals.ConstructorTakes 1 8 :=
    ⟨{ parameters := [6], body := 7 }, rfl, .inl rfl⟩
  have takesToo : Tree.rivals.ConstructorTakes 1 11 :=
    ⟨{ parameters := [9], body := 10 }, rfl, .inl rfl⟩
  have fail := both 8 (by decide) 11 (by decide) (by decide) 1 takes takesToo
  exact ⟨Draft.link_rivals, fail.1, fail.2, by decide⟩

end Rule
end ProgramLint
