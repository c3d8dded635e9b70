import Mathlib
import ProgramLint.Proofs.Linking.OneTree
import ProgramLint.Proofs.Tree.Alike

/-!
Linking does not depend on the order in which nodes got their numbers. On a draft whose numbers
are permuted the search takes the same steps at the new numbers, and so it succeeds or meets the
same fault. Only which of several detached nodes is told may differ, since the least one is.
-/

namespace ProgramLint

/-- A permutation of the numbers below a bound; all other numbers keep their meaning. -/
def NodeId.permute {size : Nat} (order : Equiv.Perm (Fin size)) : Equiv.Perm NodeId :=
  order.extendDomain Fin.equivSubtype

namespace NodeId
variable {size : Nat} {order : Equiv.Perm (Fin size)} {id : NodeId}

theorem permute_of_lt (known : id < size) : permute order id = order ⟨id, known⟩ :=
  order.extendDomain_apply_subtype Fin.equivSubtype known

theorem permute_of_le (outside : size ≤ id) : permute order id = id :=
  order.extendDomain_apply_not_subtype Fin.equivSubtype (Nat.not_lt.mpr outside)

theorem permute_lt_iff {bound : Nat} (covers : size ≤ bound) :
    permute order id < bound ↔ id < bound := by
  by_cases known : id < size
  · rw [permute_of_lt known]
    exact iff_of_true ((order _).isLt.trans_le covers) (known.trans_le covers)
  · rw [permute_of_le (Nat.le_of_not_lt known)]

end NodeId

/-- What is told, told about the new numbers. -/
def LinkFault.renumber (change : NodeId → NodeId) : LinkFault → LinkFault
  | missing node owner => missing (change node) (change owner)
  | shared node => shared (change node)
  | detached node => detached (change node)

namespace Draft

/-- Every node moves to its new number, together with its place in the text, and every slot holds
the new number of what it held. -/
def renumber (draft : Draft) (order : Equiv.Perm (Fin draft.size)) : Draft where
  arena := Array.ofFn fun place : Fin draft.size =>
    draft.arena[order.symm place].renumber (NodeId.permute order)
  spans := Array.ofFn fun place : Fin draft.size => draft.span? (order.symm place)
  aligned := by rw [Array.size_ofFn, Array.size_ofFn]

variable {draft : Draft} {order : Equiv.Perm (Fin draft.size)}

@[simp]
theorem size_renumber : (draft.renumber order).size = draft.size := by
  simp [renumber, size]

theorem node?_renumber (id : NodeId) :
    (draft.renumber order).node? (NodeId.permute order id) =
      (draft.node? id).map (Node.renumber (NodeId.permute order)) := by
  by_cases known : id < draft.size
  · have inside : id < draft.arena.size := known
    rw [NodeId.permute_of_lt known, node?, renumber, Array.getElem?_ofFn, dif_pos (order _).isLt,
      node?, Array.getElem?_eq_getElem inside]
    simp
  · have outside := Nat.le_of_not_lt known
    rw [NodeId.permute_of_le outside, node?, node?, Array.getElem?_eq_none,
      Array.getElem?_eq_none outside]
    · rfl
    · simpa [renumber] using outside

theorem span?_renumber (id : NodeId) :
    (draft.renumber order).span? (NodeId.permute order id) = draft.span? id := by
  by_cases known : id < draft.size
  · rw [NodeId.permute_of_lt known, span?, renumber, Array.getElem?_ofFn, dif_pos (order _).isLt]
    simp
  · have outside := Nat.le_of_not_lt known
    rw [NodeId.permute_of_le outside, span?_of_le outside, span?_of_le]
    rwa [size_renumber]

/-- The root keeps its number, since it comes after all that are permuted. -/
theorem node?_withRoot_renumber (members : List NodeId) (id : NodeId) :
    ((draft.renumber order).withRoot (members.map (NodeId.permute order))).node?
        (NodeId.permute order id) =
      ((draft.withRoot members).node? id).map (Node.renumber (NodeId.permute order)) := by
  have top : NodeId.permute order id = draft.size ↔ id = draft.size := by
    constructor
    · intro same
      apply (NodeId.permute order).injective
      rw [same, NodeId.permute_of_le (Nat.le_refl _)]
    · intro same
      rw [same, NodeId.permute_of_le (Nat.le_refl _)]
  rw [withRoot, withRoot, node?_add, node?_add, size_renumber]
  by_cases last : id = draft.size
  · rw [if_pos last, if_pos (top.mpr last)]
    rfl
  · rw [if_neg last, if_neg (mt top.mp last), node?_renumber]

theorem alike_renumber (members : List NodeId) :
    Alike (NodeId.permute order) Set.univ (draft.withRoot members)
      ((draft.renumber order).withRoot (members.map (NodeId.permute order))) where
  injective := (NodeId.permute order).injective.injOn
  closed := fun _ _ _ _ => Set.mem_univ _
  node? := fun id _ => node?_withRoot_renumber members id

end Draft

/-- Two outcomes that differ in numbers alone. -/
inductive AlikeOutcome {α β : Type} (change : NodeId → NodeId) (alike : α → β → Prop) :
    Except LinkFault α → Except LinkFault β → Prop where
  | ok {first : α} {second : β} :
      alike first second → AlikeOutcome change alike (.ok first) (.ok second)
  | error (fault : LinkFault) :
      AlikeOutcome change alike (.error fault) (.error (fault.renumber change))

theorem AlikeOutcome.bind {α β γ δ : Type} {change : NodeId → NodeId} {alike : α → β → Prop}
    {later : γ → δ → Prop} {here : Except LinkFault α} {there : Except LinkFault β}
    {next : α → Except LinkFault γ} {other : β → Except LinkFault δ}
    (outcome : AlikeOutcome change alike here there)
    (each : ∀ first second, alike first second →
      AlikeOutcome change later (next first) (other second)) :
    AlikeOutcome change later (here >>= next) (there >>= other) := by
  cases outcome with
  | ok same => exact each _ _ same
  | error fault => exact .error fault

theorem AlikeOutcome.eq_error {α β : Type} {change : NodeId → NodeId} {alike : α → β → Prop}
    {fault : LinkFault} {there : Except LinkFault β}
    (outcome : AlikeOutcome change alike (.error fault) there) :
    there = .error (fault.renumber change) := by
  cases outcome
  rfl

theorem AlikeOutcome.exists_ok {α β : Type} {change : NodeId → NodeId} {alike : α → β → Prop}
    {first : α} {there : Except LinkFault β} (outcome : AlikeOutcome change alike (.ok first) there) :
    ∃ second, there = .ok second ∧ alike first second := by
  cases outcome with
  | ok same => exact ⟨_, rfl, same⟩

namespace Search
variable {change : Equiv.Perm NodeId} {search other : Search} {root owner child : NodeId}

/-- Two searches that differ in numbers alone. -/
structure Alike (change : Equiv.Perm NodeId) (search other : Search) : Prop where
  bounded : ∀ id, change id < search.claims.size ↔ id < search.claims.size
  size : other.claims.size = search.claims.size
  pending : other.pending = search.pending.map change
  parent? : ∀ id, other.parent? (change id) = (search.parent? id).map change

theorem Alike.start {size : Nat} (bounded : ∀ id, change id < size ↔ id < size) (root : NodeId) :
    Alike change (start size root) (start size (change root)) where
  bounded := by simpa [Search.start] using bounded
  size := rfl
  pending := rfl
  parent? := by
    intro id
    by_cases known : id < size <;> simp [Search.start, Search.parent?, bounded, known]

theorem Alike.free_iff (alike : Alike change search other) :
    other.Free (change root) (change child) ↔ search.Free root child := by
  have unclaimed : other.parent? (change child) = none ↔ search.parent? child = none := by
    rw [alike.parent?, Option.map_eq_none_iff]
  have known : change child < other.claims.size ↔ child < search.claims.size := by
    rw [alike.size, alike.bounded]
  constructor
  · intro free
    exact ⟨known.mp free.known, fun same => free.below (congrArg change same),
      unclaimed.mp free.unclaimed⟩
  · intro free
    exact ⟨known.mpr free.known, fun same => free.below (change.injective same),
      unclaimed.mpr free.unclaimed⟩

theorem Alike.grant (alike : Alike change search other) (known : child < search.claims.size) :
    Alike change (search.grant owner child) (other.grant (change owner) (change child)) where
  bounded := by
    rw [size_grant]
    exact alike.bounded
  size := by rw [size_grant, size_grant, alike.size]
  pending := by rw [Search.grant, Search.grant, alike.pending, List.map_cons]
  parent? := by
    intro id
    have there : change child < other.claims.size := by
      rwa [alike.size, alike.bounded]
    rw [parent?_grant _ there, parent?_grant _ known]
    simp only [change.injective.eq_iff]
    split
    · rfl
    · exact alike.parent? id

theorem claim_alike (alike : Alike change search other) :
    AlikeOutcome change (Alike change) (claim root owner search child)
      (claim (change root) (change owner) other (change child)) := by
  by_cases free : search.Free root child
  · rw [claim_of_free free, claim_of_free (alike.free_iff.mpr free)]
    exact .ok (alike.grant free.known)
  · have told : fault other.claims.size (change owner) (change child) =
        (fault search.claims.size owner child).renumber change := by
      rw [alike.size, fault, fault]
      simp only [alike.bounded]
      split <;> rfl
    rw [claim_of_not_free free, claim_of_not_free (mt alike.free_iff.mp free), told]
    exact .error _

theorem claimAll_alike (alike : Alike change search other) (children : List NodeId) :
    AlikeOutcome change (Alike change) (claimAll root owner children search)
      (claimAll (change root) (change owner) (children.map change) other) := by
  induction children generalizing search other with
  | nil => exact .ok alike
  | cons child rest ih =>
    simp only [claimAll, List.map_cons, List.foldlM_cons] at ih ⊢
    exact (claim_alike alike).bind fun _ _ => ih

/-- The next visits of two searches that differ in numbers alone. -/
theorem visit_alike {draft moved : Draft} (same : Draft.Alike change Set.univ draft moved)
    (root : NodeId) (alike : Alike change search other) {rest : List NodeId}
    (pending : search.pending = owner :: rest) :
    ∃ visit, run moved (change root) other = visit >>= run moved (change root) ∧
      AlikeOutcome change (Alike change)
        (claimAll root owner (draft.childrenOf owner) { search with pending := rest }) visit := by
  have waiting : other.pending = change owner :: rest.map change := by
    rw [alike.pending, pending, List.map_cons]
  have ready : Alike change { search with pending := rest }
      { other with pending := rest.map change } :=
    ⟨alike.bounded, alike.size, rfl, alike.parent?⟩
  refine ⟨_, run_of_pending waiting, ?_⟩
  rw [same.childrenOf (Set.mem_univ owner)]
  exact claimAll_alike ready _

/-- The search takes the same steps at the new numbers. -/
theorem run_alike {draft moved : Draft} (same : Draft.Alike change Set.univ draft moved)
    (root : NodeId) (alike : Alike change search other) :
    AlikeOutcome change (fun claims others => Alike change ⟨[], claims⟩ ⟨[], others⟩)
      (run draft root search) (run moved (change root) other) := by
  fun_induction run draft root search generalizing other with
  | case1 search done =>
    have finished : other.pending = [] := by rw [alike.pending, done, List.map_nil]
    rw [run_of_done finished]
    exact .ok ⟨alike.bounded, alike.size, rfl, alike.parent?⟩
  | case2 search owner rest pending children told =>
    rename_i refused
    obtain ⟨visit, onward, outcome⟩ := visit_alike same root alike pending
    rw [refused] at outcome
    rw [onward, outcome.eq_error]
    exact .error told
  | case3 search owner rest pending children next claimed =>
    rename_i fewer ih
    obtain ⟨visit, onward, outcome⟩ := visit_alike same root alike pending
    rw [claimed] at outcome
    obtain ⟨after, visited, later⟩ := outcome.exists_ok
    rw [onward, visited]
    exact ih later

/-- Whether a search leaves a node over does not depend on the numbers either. -/
theorem leftOver?_alike {claims others : Array (Option NodeId)}
    (alike : Alike change ⟨[], claims⟩ ⟨[], others⟩) (root : NodeId) :
    Draft.leftOver? (change root) others = none ↔ Draft.leftOver? root claims = none := by
  rw [Draft.leftOver?_eq_none_iff, Draft.leftOver?_eq_none_iff, ← change.forall_congr_right]
  refine forall_congr' fun id => ?_
  have known : change id < others.size ↔ id < claims.size := by
    rw [alike.size, alike.bounded]
  have unclaimed : others[change id]?.join = none ↔ claims[id]?.join = none := by
    have same : others[change id]?.join = claims[id]?.join.map change := alike.parent? id
    rw [same, Option.map_eq_none_iff]
  rw [known, change.injective.ne_iff, ne_eq, ne_eq, unclaimed]

end Search

namespace Draft
variable {draft : Draft} {members : List NodeId}

theorem run_renumber (draft : Draft) (members : List NodeId) (order : Equiv.Perm (Fin draft.size)) :
    let moved := draft.renumber order
    let rooted := moved.withRoot (members.map (NodeId.permute order))
    AlikeOutcome (NodeId.permute order)
      (fun claims others => Search.Alike (NodeId.permute order) ⟨[], claims⟩ ⟨[], others⟩)
      (Search.run (draft.withRoot members) draft.size
        (.start (draft.withRoot members).size draft.size))
      (Search.run rooted moved.size (.start rooted.size moved.size)) := by
  have bounded : ∀ id, NodeId.permute order id < (draft.withRoot members).size ↔
      id < (draft.withRoot members).size := by
    intro id
    rw [size_withRoot]
    exact NodeId.permute_lt_iff (Nat.le_succ _)
  have same := Search.run_alike (alike_renumber members) draft.size
    (Search.Alike.start bounded draft.size)
  rw [NodeId.permute_of_le (Nat.le_refl _)] at same
  simpa only [size_withRoot, size_renumber] using same

/-- A renumbered draft is accepted if the draft is, and refused for the same fault, but for the
number of a detached node. -/
theorem link_renumber (draft : Draft) (members : List NodeId)
    (order : Equiv.Perm (Fin draft.size)) :
    (∀ tree, draft.link members = .ok tree →
      ∃ other, (draft.renumber order).link (members.map (NodeId.permute order)) = .ok other) ∧
    ∀ fault, draft.link members = .error fault →
      (draft.renumber order).link (members.map (NodeId.permute order)) =
          .error (fault.renumber (NodeId.permute order)) ∨
        ∃ lost other, fault = .detached lost ∧
          (draft.renumber order).link (members.map (NodeId.permute order)) =
            .error (.detached other) := by
  have outcome := run_renumber draft members order
  simp only [link, bind, Except.bind, pure, Except.pure] at outcome ⊢
  cases ran : Search.run (draft.withRoot members) draft.size
      (.start (draft.withRoot members).size draft.size) with
  | error fault =>
    rw [ran] at outcome
    rw [outcome.eq_error]
    simp
  | ok claims =>
    rw [ran] at outcome
    obtain ⟨others, there, alike⟩ := outcome.exists_ok
    -- The root is not permuted, so both searches ask for what is left over beside the same number.
    have complete := Search.leftOver?_alike alike draft.size
    rw [NodeId.permute_of_le (Nat.le_refl _)] at complete
    rw [there, size_renumber]
    cases left : leftOver? draft.size claims with
    | none => simp [left, complete.mpr left]
    | some lost =>
      obtain ⟨other, found⟩ := Option.ne_none_iff_exists'.mp (mt complete.mp (by simp [left]))
      simp [left, found]

end Draft
end ProgramLint
