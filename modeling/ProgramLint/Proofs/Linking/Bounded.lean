import Mathlib
import ProgramLint.Proofs.Linking.OneTree

/-!
The search for parents on any draft, also on one whose slots run in circles. Between two visits
every number with a recorded parent is either pending or visited, so no node is visited twice and
there are no more visits than nodes. A search that breaks off where a table ends or where its
visits are used up therefore never does so.
-/

namespace ProgramLint
open scoped List

namespace Search

/-- What holds whenever the search is about to visit another node, or to end. -/
structure Orderly (draft : Draft) (root : NodeId) (visited : List NodeId) (search : Search) :
    Prop where
  pending_nodup : search.pending.Nodup
  pending_lt : ∀ id ∈ search.pending, id < draft.size
  pending_claimed : ∀ id ∈ search.pending, id ≠ root → ∃ owner, search.parent? id = some owner
  /-- A number with a parent waits or has been visited, and never both. -/
  claimed_once : ∀ id owner, search.parent? id = some owner →
    Xor (id ∈ search.pending) (id ∈ visited)
  owner_visited : ∀ child owner, search.parent? child = some owner →
    owner ∈ visited ∧ child ∈ draft.childrenOf owner
  root_unclaimed : search.parent? root = none
  visited_nodup : visited.Nodup
  /-- The visits still to come for the pending nodes are counted too. -/
  visits_le : visited.length + search.pending.length ≤ draft.size

variable {draft : Draft} {root owner : NodeId} {visited rest : List NodeId} {search : Search}

theorem Sound.length_le (sound : Sound draft root visited search) :
    visited.length + search.pending.length ≤ draft.size := by
  rw [← List.length_append]
  exact Draft.length_le_size sound.nodup fun id member =>
    sound.known id (sound.mem_iff.mp member)

theorem Sound.orderly (sound : Sound draft root visited search) :
    Orderly draft root visited search := by
  have apart := List.nodup_append'.mp sound.nodup
  have met : ∀ id, id ∈ visited ∨ id ∈ search.pending ↔
      id = root ∨ id ∈ visited.flatMap draft.childrenOf := by
    intro id
    rw [← List.mem_append, sound.mem_iff, List.mem_cons]
  exact {
    pending_nodup := apart.2.1
    pending_lt := fun id waiting =>
      sound.known id (sound.mem_iff.mp (List.mem_append_right _ waiting))
    pending_claimed := by
      intro id waiting below
      have held := ((met id).mp (.inr waiting)).resolve_left below
      obtain ⟨owner, seen, holds⟩ := List.mem_flatMap.mp held
      exact ⟨owner, (sound.parents id owner).mpr ⟨seen, holds⟩⟩
    claimed_once := by
      intro id owner found
      have holder := (sound.parents id owner).mp found
      have held := List.mem_flatMap.mpr ⟨owner, holder⟩
      rcases (met id).mpr (.inr held) with seen | waiting
      · exact .inr ⟨seen, fun waiting => apart.2.2 seen waiting⟩
      · exact .inl ⟨waiting, fun seen => apart.2.2 seen waiting⟩
    owner_visited := fun child owner => (sound.parents child owner).mp
    root_unclaimed := sound.unclaimed_iff.mpr (List.nodup_cons.mp sound.distinct).1
    visited_nodup := apart.1
    visits_le := sound.length_le
  }

/-- A claim that reads the recorded parents only where the table has a place for them, and has
no outcome at all if it would read elsewhere. -/
def claimWithin (size : Nat) (root owner : NodeId) (search : Search) (child : NodeId) :
    Option (Except LinkFault Search) :=
  if size ≤ child then some (.error (.missing child owner))
  else if child = root then some (.error (.shared child))
  else
    match search.claims[child]? with
    | none => none
    | some (some _) => some (.error (.shared child))
    | some none => some (.ok (search.grant owner child))

def claimAllWithin (size : Nat) (root owner : NodeId) :
    List NodeId → Search → Option (Except LinkFault Search)
  | [], search => some (.ok search)
  | child :: rest, search =>
    match claimWithin size root owner search child with
    | none => none
    | some (.error fault) => some (.error fault)
    | some (.ok next) => claimAllWithin size root owner rest next

/-- A search that makes no more than some number of visits. It has no outcome if nodes are still
pending then, or if a number that it takes off the pending ones names no node. -/
def runWithin (draft : Draft) (root : NodeId) :
    (visits : Nat) → Search → Option (Except LinkFault (Array (Option NodeId)))
  | _, ⟨[], claims⟩ => some (.ok claims)
  | 0, ⟨_ :: _, _⟩ => none
  | visits + 1, ⟨owner :: rest, claims⟩ =>
    match draft.node? owner with
    | none => none
    | some node =>
      match claimAllWithin draft.size root owner node.children ⟨rest, claims⟩ with
      | none => none
      | some (.error fault) => some (.error fault)
      | some (.ok next) => runWithin draft root visits next

theorem size_claim {child : NodeId} {next : Search}
    (claimed : claim root owner search child = .ok next) :
    next.claims.size = search.claims.size := by
  by_cases free : search.Free root child
  · rw [claim_of_free free] at claimed
    cases claimed
    exact size_grant search
  · rw [claim_of_not_free free] at claimed
    contradiction

theorem claimWithin_eq {size : Nat} (same : search.claims.size = size) (owner child : NodeId) :
    claimWithin size root owner search child = some (claim root owner search child) := by
  subst same
  unfold claimWithin claim
  by_cases inside : child < search.claims.size
  · rw [if_neg (Nat.not_le.mpr inside), Array.getElem?_eq_getElem inside]
    by_cases top : child = root
    · simp [top]
    · cases found : search.claims[child] <;> simp [top, grant]
  · have outside := Nat.le_of_not_lt inside
    rw [if_pos outside, Array.getElem?_eq_none outside]

theorem claimAllWithin_eq {size : Nat} (same : search.claims.size = size)
    (children : List NodeId) :
    claimAllWithin size root owner children search = some (claimAll root owner children search) := by
  induction children generalizing search with
  | nil => rfl
  | cons child rest ih =>
    simp only [claimAllWithin, claimAll, List.foldlM_cons, claimWithin_eq same] at ih ⊢
    cases claimed : claim root owner search child with
    | error fault => rfl
    | ok next => exact ih ((size_claim claimed).trans same)

/-- As many visits as there are nodes not yet visited are enough. -/
theorem runWithin_eq (sound : Sound draft root visited search) {visits : Nat}
    (enough : draft.size ≤ visited.length + visits) :
    runWithin draft root visits search = some (run draft root search) := by
  obtain ⟨pending, claims⟩ := search
  induction visits generalizing visited pending claims with
  | zero =>
    cases pending with
    | nil => rw [runWithin, run_of_done rfl]
    | cons owner rest =>
      have fewer := sound.length_le
      simp only [List.length_cons] at fewer
      omega
  | succ visits ih =>
    cases pending with
    | nil => rw [runWithin, run_of_done rfl]
    | cons owner rest =>
      have known : owner < draft.size := sound.orderly.pending_lt owner (by simp)
      obtain ⟨node, found⟩ : ∃ node, draft.node? owner = some node :=
        ⟨_, Array.getElem?_eq_getElem known⟩
      have children : draft.childrenOf owner = node.children := by
        rw [Draft.childrenOf, found, Option.elim_some]
      have claims_size : claims.size = draft.size := sound.size
      rw [runWithin, run_of_pending rfl, children]
      simp only [found]
      rw [claimAllWithin_eq claims_size]
      cases claimed : claimAll root owner node.children ⟨rest, claims⟩ with
      | error fault => rfl
      | ok next =>
        have later : draft.size ≤ (owner :: visited).length + visits := by
          simp only [List.length_cons]
          omega
        exact ih later _ _ (sound.visit rfl (children ▸ claimed))

end Search

namespace Draft

/-- On any draft the search for parents is orderly before every visit and at its end. It makes no
more visits than there are nodes and reads nothing beyond the ends of its tables, and it ends where
nothing is pending or where a node cannot claim a child. -/
theorem search_bounded (draft : Draft) (members : List NodeId) :
    let root := draft.size
    let rooted := draft.withRoot members
    let start := Search.start rooted.size root
    (∀ visited search, Search.Visits rooted root visited search →
      Search.Orderly rooted root visited search) ∧
    Search.runWithin rooted root rooted.size start = some (Search.run rooted root start) ∧
    match Search.run rooted root start with
    | .ok claims => ∃ visited, Search.Visits rooted root visited ⟨[], claims⟩
    | .error told => ∃ visited search owner rest, Search.Visits rooted root visited search ∧
        search.pending = owner :: rest ∧
        Search.claimAll root owner (rooted.childrenOf owner) { search with pending := rest } =
          .error told := by
  intro root rooted start
  have known : root < rooted.size := by simp [root, rooted]
  refine ⟨fun visited search met => (met.sound known).orderly, ?_, Search.run_outcome .start⟩
  exact Search.runWithin_eq (.start known) (by simp)

/-- A body that holds itself. -/
def selfish : Draft :=
  (({} : Draft).add (.body [0])).2

theorem search_bounded_selfish :
    let rooted := selfish.withRoot [0]
    Search.Visits rooted 1 [1] ⟨[0], #[some 1, none]⟩ ∧
      Search.Orderly rooted 1 [1] ⟨[0], #[some 1, none]⟩ ∧
      Search.runWithin rooted 1 2 (.start 2 1) = some (.error (.shared 0)) := by
  intro rooted
  have bounded := search_bounded selfish [0]
  have met : Search.Visits rooted 1 [1] ⟨[0], #[some 1, none]⟩ :=
    .visit .start rfl (by decide)
  have ran : Search.run rooted 1 (.start 2 1) = .error (.shared 0) := by cbv
  exact ⟨met, bounded.1 _ _ met, bounded.2.1.trans (congrArg some ran)⟩

end Draft
end ProgramLint
