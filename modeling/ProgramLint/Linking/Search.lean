import ProgramLint.Draft
import ProgramLint.Linking.Fault

/-!
The search for the parent of every node of a draft. It starts at the root, always goes on
with the node claimed last, and lets it claim its children from left to right. Each claim
moves one node from the unclaimed to the pending ones, so the search ends on any draft,
also on one whose slots run in circles.
-/

namespace ProgramLint

/-- Nodes whose children are still unclaimed, the latest first, and the parent that claimed
each node. -/
structure Search where
  pending : List NodeId
  claims : Array (Option NodeId)
  deriving DecidableEq

namespace Search

/-- Nothing is claimed, and the root is to claim first. -/
def start (size : Nat) (root : NodeId) : Search :=
  ⟨[root], Array.replicate size none⟩

/-- One child is claimed by its owner. -/
def claim (root owner : NodeId) (search : Search) (child : NodeId) : Except LinkFault Search :=
  match search.claims[child]? with
  | none => .error (.missing child owner)
  | some claimed =>
    if child = root ∨ claimed.isSome then .error (.shared child)
    else .ok ⟨child :: search.pending, search.claims.setIfInBounds child (some owner)⟩

/-- All children are claimed by their owner, unless one cannot be. -/
def claimAll (root owner : NodeId) (children : List NodeId) (search : Search) :
    Except LinkFault Search :=
  children.foldlM (claim root owner) search

/-- How many nodes are still to be visited: the pending ones and, at most, the unclaimed ones. -/
def weight (search : Search) : Nat :=
  search.claims.countP Option.isNone + search.pending.length

theorem weight_claim {root owner child : NodeId} {search next : Search}
    (claimed : claim root owner search child = .ok next) : next.weight = search.weight := by
  simp only [claim] at claimed
  split at claimed
  · contradiction
  · rename_i slot found
    split at claimed
    · contradiction
    · rename_i free
      obtain ⟨known, same⟩ := Array.getElem?_eq_some_iff.mp found
      have unclaimed : search.claims[child].isNone = true := by
        rw [same]
        simpa using (not_or.mp free).2
      cases claimed
      have positive : 0 < search.claims.countP Option.isNone :=
        Array.countP_pos_iff.mpr ⟨_, Array.getElem_mem known, unclaimed⟩
      simp only [weight, Array.setIfInBounds, dif_pos known, Array.countP_set, unclaimed,
        List.length_cons]
      simp
      omega

theorem weight_claimAll {root owner : NodeId} {children : List NodeId} {search next : Search}
    (claimed : claimAll root owner children search = .ok next) : next.weight = search.weight := by
  induction children generalizing search with
  | nil => cases claimed; rfl
  | cons child rest ih =>
    simp only [claimAll, List.foldlM_cons] at claimed
    cases first : claim root owner search child with
    | error fault => rw [first] at claimed; contradiction
    | ok between =>
      rw [first] at claimed
      exact (ih claimed).trans (weight_claim first)

/-- A visit takes one pending node away, and what its claims add they also use up. -/
theorem weight_visit {root owner : NodeId} {children rest : List NodeId} {search next : Search}
    (pending : search.pending = owner :: rest)
    (claimed : claimAll root owner children { search with pending := rest } = .ok next) :
    next.weight < search.weight := by
  rw [weight_claimAll claimed]
  simp [weight, pending]

/-- Runs until nothing is pending. -/
def run (draft : Draft) (root : NodeId) (search : Search) :
    Except LinkFault (Array (Option NodeId)) :=
  match pending : search.pending with
  | [] => .ok search.claims
  | owner :: rest =>
    let children := draft.childrenOf owner
    match claimed : claimAll root owner children { search with pending := rest } with
    | .error fault => .error fault
    | .ok next =>
      have := weight_visit pending claimed
      run draft root next
termination_by search.weight

end Search
end ProgramLint
