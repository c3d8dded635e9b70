import Mathlib
import ProgramLint.Proofs.Rule.Competition
import ProgramLint.Rule.Catalogue

/-!
What the rules demand, rule by rule. Most of them look at a node and what is below it; four look
at the node around it, and their demands are stated for a node and the node that holds it.
-/

namespace ProgramLint

/-- The first character of a name is a letter of a range. -/
def StartsBetween (low high : Char) (name : String) : Prop :=
  ∃ first rest, name.toList = first :: rest ∧ low ≤ first ∧ first ≤ high

namespace Node

def CapitalName : Node → Prop
  | classDecl declared => StartsBetween 'A' 'Z' declared.name
  | mixinDecl declared => StartsBetween 'A' 'Z' declared.name
  | _ => True

def SmallName : Node → Prop
  | parameter declared => StartsBetween 'a' 'z' declared.name
  | localVariable declared => StartsBetween 'a' 'z' declared.name
  | singleton declared => ∃ name, declared.name = some name ∧ StartsBetween 'a' 'z' name
  | _ => True

def FreeName : Node → Prop
  | reference name => name ∉ keywords
  | method declared => declared.name ∉ keywords
  | localVariable declared => declared.name ∉ keywords
  | _ => True

/-- Of a node and the node around it: objects right in a package have a name. -/
def ObjectNamed (around : Node) : Node → Prop
  | singleton declared => ∀ package, around = .package package → declared.name ≠ none
  | _ => True

end Node

namespace Tree
variable {tree : Tree}

/-- No parameter of a method but the last one is variadic. -/
def VariadicLast (tree : Tree) : Node → Prop
  | .method declared => ∀ slot ∈ declared.parameters.dropLast, ∀ parameter,
      tree.node? slot = some (.parameter parameter) → parameter.variadic = false
  | _ => True

/-- The body of a method is not one super call and nothing else. -/
def MethodOwn (tree : Tree) : Node → Prop
  | .method declared => ∀ slot only arguments, declared.body = some slot →
      tree.node? slot = some (.body [only]) → tree.node? only ≠ some (.superCall arguments)
  | _ => True

/-- The name of an assigned node, if it has one, is written without a dot. -/
def TargetLocal (tree : Tree) : Node → Prop
  | .assignment target _ => ∀ assigned name, tree.node? target = some assigned →
      assigned.name? = some name → '.' ∉ name.toList
  | _ => True

/-- A body with at least one sentence. -/
def Filled (tree : Tree) (slot : NodeId) : Prop :=
  ∃ first rest, tree.node? slot = some (.body (first :: rest))

def TryGuarded (tree : Tree) : Node → Prop
  | .tryBlock attempt catches always => catches ≠ [] ∨ tree.Filled always ∧ tree.Filled attempt
  | _ => True

/-- No two methods among the members of a class compete for a call. -/
def MethodsApart (tree : Tree) : Node → Prop
  | .classDecl declared => ∀ first ∈ declared.members, ∀ second ∈ declared.members,
      first ≠ second → ¬tree.Compete first second
  | _ => True

/-- A field is not named like a method among the members around it. -/
def FieldApart (tree : Tree) (around : Node) : Node → Prop
  | .field declared => ∀ member ∈ around.members, ∀ method,
      tree.node? member = some (.method method) → method.name ≠ declared.name
  | _ => True

/-- The name of an imported node is not that of a member around the import. -/
def ImportForeign (tree : Tree) (around : Node) : Node → Prop
  | .importDecl imported _ => ∀ name, tree.nameOf? imported = some name →
      ∀ member ∈ around.members, tree.nameOf? member ≠ some name
  | _ => True

/-- No other constructor among the members around a constructor accepts a call that it accepts. -/
def ConstructorApart (tree : Tree) (around : Node) (id : NodeId) : Node → Prop
  | .constructorDecl declared => ∀ member ∈ around.members, member ≠ id → ∀ other,
      tree.node? member = some (.constructorDecl other) →
        ¬(tree.arity declared.parameters).clashes (tree.arity other.parameters)
  | _ => True

theorem isVariadic_eq_false {slot : NodeId} :
    tree.isVariadic slot = false ↔
      ∀ parameter, tree.node? slot = some (.parameter parameter) → parameter.variadic = false := by
  unfold isVariadic
  split
  next declared found => simp [found]
  next other => exact iff_of_true rfl fun parameter found => absurd found (other parameter)

theorem sentences_eq_cons {slot first : NodeId} {rest : List NodeId} :
    tree.sentences slot = first :: rest ↔ tree.node? slot = some (.body (first :: rest)) := by
  unfold sentences
  split
  next sentences found => simp [found]
  next other => exact iff_of_false (by simp) (other (first :: rest))

theorem filled_iff {slot : NodeId} : tree.Filled slot ↔ tree.sentences slot ≠ [] := by
  simp only [Filled, ← sentences_eq_cons, ne_eq, List.ne_nil_iff_exists_cons]

/-- What holds of all siblings holds of all members of the node around. -/
theorem forall_mem_siblings {id : NodeId} {allowed : NodeId → Prop} :
    (∀ member ∈ tree.siblings id, allowed member) ↔
      ∀ around, tree.parentNode? id = some around → ∀ member ∈ around.members, allowed member := by
  unfold siblings
  cases tree.parentNode? id <;> simp

/-- The demands on a node by itself and on what is below it. -/
structure Tidy (tree : Tree) (node : Node) : Prop where
  capital_name : node.CapitalName
  small_name : node.SmallName
  free_name : node.FreeName
  variadic_last : tree.VariadicLast node
  method_own : tree.MethodOwn node
  target_local : tree.TargetLocal node
  try_guarded : tree.TryGuarded node
  methods_apart : tree.MethodsApart node

/-- The demands on a node inside the node that holds it. -/
structure Fits (tree : Tree) (around : Node) (id : NodeId) (node : Node) : Prop where
  object_named : around.ObjectNamed node
  field_apart : tree.FieldApart around node
  import_foreign : tree.ImportForeign around node
  constructor_apart : tree.ConstructorApart around id node

end Tree

namespace Rule
variable {tree : Tree} {id : NodeId} {node : Node}

theorem startsWith_isUpper (name : String) :
    startsWith Char.isUpper name = true ↔ StartsBetween 'A' 'Z' name := by
  unfold startsWith StartsBetween
  cases name.toList with
  | nil => simp
  | cons first rest => simp [Char.isUpper, Char.le_def]

theorem startsWith_isLower (name : String) :
    startsWith Char.isLower name = true ↔ StartsBetween 'a' 'z' name := by
  unfold startsWith StartsBetween
  cases name.toList with
  | nil => simp
  | cons first rest => simp [Char.isLower, Char.le_def]

theorem isKeyword_iff (name : String) : (!isKeyword name) = true ↔ name ∉ keywords := by
  simp [isKeyword]

theorem typeNameCapital_iff : typeNameCapital.accepts tree id node = true ↔ node.CapitalName := by
  cases node with
  | classDecl declared => exact startsWith_isUpper declared.name
  | mixinDecl declared => exact startsWith_isUpper declared.name
  | _ => exact iff_of_true rfl trivial

theorem valueNameSmall_iff : valueNameSmall.accepts tree id node = true ↔ node.SmallName := by
  cases node with
  | parameter declared => exact startsWith_isLower declared.name
  | localVariable declared => exact startsWith_isLower declared.name
  | singleton declared =>
    change declared.name.any (startsWith Char.isLower) = true ↔ _
    simp only [Option.any_eq_true, startsWith_isLower, Node.SmallName]
  | _ => exact iff_of_true rfl trivial

theorem nameFree_iff : nameFree.accepts tree id node = true ↔ node.FreeName := by
  cases node with
  | reference name => exact isKeyword_iff name
  | method declared => exact isKeyword_iff declared.name
  | localVariable declared => exact isKeyword_iff declared.name
  | _ => exact iff_of_true rfl trivial

theorem all_findIdx?_last {α : Type} (test : α → Bool) (list : List α) :
    (list.findIdx? test).all (· + 1 == list.length) = true ↔
      ∀ entry ∈ list.dropLast, test entry = false := by
  induction list with
  | nil => simp
  | cons first rest ih =>
    cases rest with
    | nil => cases found : test first <;> simp [List.findIdx?_cons, found]
    | cons second rest =>
      rw [List.dropLast_cons_cons, List.forall_mem_cons, ← ih, List.findIdx?_cons]
      cases found : test first <;> simp [Option.all_map]

theorem variadicLast_iff : variadicLast.accepts tree id node = true ↔ tree.VariadicLast node := by
  cases node with
  | method declared =>
    simp only [Tree.VariadicLast, ← Tree.isVariadic_eq_false]
    exact all_findIdx?_last tree.isVariadic declared.parameters
  | _ => exact iff_of_true rfl trivial

theorem isSuperCall_eq_true {slot : NodeId} :
    isSuperCall tree slot = true ↔
      ∃ arguments, tree.node? slot = some (.superCall arguments) := by
  unfold isSuperCall
  split
  next arguments found => simp [found]
  next other =>
    exact iff_of_false (by simp) fun found => other found.choose found.choose_spec

theorem methodOwn_iff : methodOwn.accepts tree id node = true ↔ tree.MethodOwn node := by
  cases node with
  | method declared =>
    simp only [methodOwn, Tree.MethodOwn, Option.all_eq_true]
    apply Iff.intro
    · intro own slot only arguments present single delegates
      have checked := own slot present
      rw [Tree.sentences_eq_cons.mpr single] at checked
      simp [isSuperCall_eq_true.mpr ⟨arguments, delegates⟩] at checked
    · intro own slot present
      split
      next only single =>
        cases delegates : isSuperCall tree only with
        | false => rfl
        | true =>
          obtain ⟨arguments, found⟩ := isSuperCall_eq_true.mp delegates
          exact absurd found (own slot only arguments present (Tree.sentences_eq_cons.mp single))
      next => rfl
  | _ => exact iff_of_true rfl trivial

theorem targetLocal_iff : targetLocal.accepts tree id node = true ↔ tree.TargetLocal node := by
  cases node with
  | assignment target value =>
    simp only [targetLocal, Tree.TargetLocal, Tree.nameOf?, isQualified, Bool.not_eq_true',
      Option.any_eq_false, Option.bind_eq_some_iff]
    apply Iff.intro
    · intro plain assigned name found named
      simpa using plain name ⟨assigned, found, named⟩
    · intro plain name ⟨assigned, found, named⟩
      simpa using plain assigned name found named
  | _ => exact iff_of_true rfl trivial

theorem tryGuarded_iff : tryGuarded.accepts tree id node = true ↔ tree.TryGuarded node := by
  cases node with
  | tryBlock attempt catches always =>
    simp only [tryGuarded, Tree.TryGuarded, Tree.filled_iff]
    simp
  | _ => exact iff_of_true rfl trivial

theorem methodsApart_iff (distinct : node.members.Nodup) :
    methodsApart.accepts tree id node = true ↔ tree.MethodsApart node := by
  cases node with
  | classDecl declared =>
    exact List.isEmpty_iff.trans (Tree.clashingMethods_eq_nil_iff distinct)
  | _ => exact iff_of_true rfl trivial

theorem objectNamed_iff :
    objectNamed.accepts tree id node = true ↔
      ∀ around, tree.parentNode? id = some around → around.ObjectNamed node := by
  cases node with
  | singleton declared =>
    simp only [objectNamed, Node.ObjectNamed]
    split
    next package found => simp [found, Option.isSome_iff_ne_none]
    next other =>
      refine iff_of_true rfl fun around found package same => ?_
      exact absurd (same ▸ found) (other package)
  | _ => exact iff_of_true rfl fun _ _ => trivial

theorem fieldApart_iff :
    fieldApart.accepts tree id node = true ↔
      ∀ around, tree.parentNode? id = some around → tree.FieldApart around node := by
  cases node with
  | field declared =>
    simp only [fieldApart, Tree.FieldApart, List.all_eq_true, ← Tree.forall_mem_siblings]
    refine forall₂_congr fun member _ => ?_
    cases tree.node? member with
    | none => simp
    | some other => cases other <;> simp
  | _ => exact iff_of_true rfl fun _ _ => trivial

theorem importForeign_iff :
    importForeign.accepts tree id node = true ↔
      ∀ around, tree.parentNode? id = some around → tree.ImportForeign around node := by
  cases node with
  | importDecl imported generic =>
    simp only [importForeign, Tree.ImportForeign, Option.all_eq_true, List.all_eq_true]
    apply Iff.intro
    · intro foreign around found name named member listed
      have differs := Tree.forall_mem_siblings.mp (foreign name named) around found member listed
      simpa using differs
    · intro foreign name named
      refine Tree.forall_mem_siblings.mpr fun around found member listed => ?_
      simpa using foreign around found name named member listed
  | _ => exact iff_of_true rfl fun _ _ => trivial

theorem constructorsApart_iff :
    constructorsApart.accepts tree id node = true ↔
      ∀ around, tree.parentNode? id = some around → tree.ConstructorApart around id node := by
  cases node with
  | constructorDecl declared =>
    simp only [constructorsApart, Tree.ConstructorApart, List.all_eq_true,
      ← Tree.forall_mem_siblings]
    refine forall₂_congr fun member _ => ?_
    by_cases same : member = id
    · simp [same]
    · unfold Tree.constructorArity?
      cases tree.node? member with
      | none => simp
      | some other => cases other <;> simp [same]
  | _ => exact iff_of_true rfl fun _ _ => trivial

/-- All rules accept a node exactly if it meets all demands. -/
theorem accepts_catalogue_iff (distinct : node.members.Nodup) :
    (∀ rule ∈ catalogue, rule.accepts tree id node = true) ↔
      tree.Tidy node ∧
        ∀ around, tree.parentNode? id = some around → tree.Fits around id node := by
  simp only [catalogue, List.forall_mem_cons, List.not_mem_nil, false_implies, implies_true,
    and_true, typeNameCapital_iff, valueNameSmall_iff, variadicLast_iff, nameFree_iff,
    tryGuarded_iff, objectNamed_iff, importForeign_iff, targetLocal_iff, fieldApart_iff,
    methodsApart_iff distinct, constructorsApart_iff, methodOwn_iff]
  apply Iff.intro
  · intro met
    obtain ⟨capital, small, last, free, guarded, named, foreign, target, field, methods,
      constructors, own⟩ := met
    exact ⟨⟨capital, small, free, last, own, target, guarded, methods⟩, fun around found =>
      ⟨named around found, field around found, foreign around found, constructors around found⟩⟩
  · intro met
    obtain ⟨tidy, fits⟩ := met
    exact ⟨tidy.capital_name, tidy.small_name, tidy.variadic_last, tidy.free_name,
      tidy.try_guarded, fun around found => (fits around found).object_named,
      fun around found => (fits around found).import_foreign, tidy.target_local,
      fun around found => (fits around found).field_apart, tidy.methods_apart,
      fun around found => (fits around found).constructor_apart, tidy.method_own⟩

end Rule
end ProgramLint
