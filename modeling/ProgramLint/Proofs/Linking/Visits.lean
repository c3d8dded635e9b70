import Mathlib.Data.List.Nodup
import Mathlib.Logic.Relation
import ProgramLint.Linking.Basic

/-!
The search for parents, seen through the nodes it has visited. Whenever it is about to visit
another node, the visited and the pending nodes together are the root and the children of the
visited nodes, each of them once, and the recorded parents are the slots of visited nodes.
-/

namespace ProgramLint
open scoped List

namespace Draft

/-- The nodes by their numbers. -/
def nodes (draft : Draft) : List Node :=
  draft.arena.toList

/-- The numbers in the slots of all nodes, one node after the other. -/
def held (draft : Draft) : List NodeId :=
  draft.nodes.flatMap Node.children

/-- A chain of slots, possibly of none, leads from one node to another. -/
def Reaches (draft : Draft) : NodeId → NodeId → Prop :=
  Relation.ReflTransGen fun owner child => child ∈ draft.childrenOf owner

theorem lt_of_mem_childrenOf {draft : Draft} {owner child : NodeId}
    (member : child ∈ draft.childrenOf owner) : owner < draft.size := by
  unfold childrenOf at member
  cases found : draft.node? owner with
  | none => simp [found] at member
  | some node => exact node?_lt found

theorem childrenOf_of_le {draft : Draft} {id : NodeId} (outside : draft.size ≤ id) :
    draft.childrenOf id = [] := by
  apply List.eq_nil_iff_forall_not_mem.mpr
  intro child member
  exact absurd (lt_of_mem_childrenOf member) (Nat.not_lt.mpr outside)

theorem held_eq (draft : Draft) :
    draft.held = (List.range draft.size).flatMap draft.childrenOf := by
  have same : draft.nodes.map Node.children = (List.range draft.size).map draft.childrenOf := by
    apply List.ext_getElem
    · simp [nodes, size]
    · intro id known _
      have inside : id < draft.arena.size := by simpa [nodes] using known
      simp [nodes, childrenOf, node?, inside]
  simp only [held, List.flatMap_def, same]

theorem mem_held {draft : Draft} {child : NodeId} :
    child ∈ draft.held ↔ ∃ owner, child ∈ draft.childrenOf owner := by
  rw [held_eq, List.mem_flatMap]
  apply Iff.intro
  · intro found
    obtain ⟨owner, -, member⟩ := found
    exact ⟨owner, member⟩
  · intro found
    obtain ⟨owner, member⟩ := found
    exact ⟨owner, List.mem_range.mpr (lt_of_mem_childrenOf member), member⟩

end Draft

namespace Search

/-- The parent recorded so far. -/
def parent? (search : Search) (id : NodeId) : Option NodeId :=
  search.claims[id]?.join

/-- A child that its owner can claim. -/
structure Free (root : NodeId) (search : Search) (child : NodeId) : Prop where
  known : child < search.claims.size
  below : child ≠ root
  unclaimed : search.parent? child = none

/-- Children that their owner can claim one after the other. -/
structure Claimable (root : NodeId) (search : Search) (children : List NodeId) : Prop where
  free : ∀ child ∈ children, search.Free root child
  distinct : children.Nodup

/-- The search once a free child has been claimed. -/
def grant (owner : NodeId) (search : Search) (child : NodeId) : Search :=
  ⟨child :: search.pending, search.claims.setIfInBounds child (some owner)⟩

def grantAll (owner : NodeId) (children : List NodeId) (search : Search) : Search :=
  children.foldl (grant owner) search

/-- What is told of a child that is not free. -/
def fault (size : Nat) (owner child : NodeId) : LinkFault :=
  if child < size then .shared child else .missing child owner

variable {draft : Draft} {root owner child : NodeId} {children visited rest : List NodeId}
  {search next : Search}

theorem claim_of_free (free : search.Free root child) :
    claim root owner search child = .ok (search.grant owner child) := by
  have unclaimed : search.claims[child]? = some none := by
    have known := free.known
    have vacant := free.unclaimed
    simp_all [parent?]
  simp [claim, unclaimed, free.below, grant]

theorem claim_of_not_free (taken : ¬search.Free root child) :
    claim root owner search child = .error (fault search.claims.size owner child) := by
  unfold claim fault
  by_cases known : child < search.claims.size
  · rw [Array.getElem?_eq_getElem known, if_pos known]
    have held : child = root ∨ search.claims[child].isSome := by
      by_contra free
      have vacant := not_or.mp free
      exact taken ⟨known, vacant.1, by simpa [parent?, known] using vacant.2⟩
    exact if_pos held
  · rw [Array.getElem?_eq_none (Nat.le_of_not_lt known), if_neg known]

@[simp]
theorem size_grant (search : Search) :
    (search.grant owner child).claims.size = search.claims.size := by
  simp [grant]

theorem parent?_grant (owner : NodeId) (known : child < search.claims.size) (id : NodeId) :
    (search.grant owner child).parent? id =
      if id = child then some owner else search.parent? id := by
  by_cases same : id = child
  · subst same
    simp [grant, parent?, known]
  · simp [grant, parent?, Ne.symm same, same]

theorem free_grant (owner : NodeId) (free : search.Free root child) (other : NodeId) :
    (search.grant owner child).Free root other ↔ other ≠ child ∧ search.Free root other := by
  apply Iff.intro
  · intro later
    have unclaimed := later.unclaimed
    rw [parent?_grant owner free.known] at unclaimed
    have different : other ≠ child := by
      intro same
      subst same
      simp at unclaimed
    exact ⟨different, by simpa using later.known, later.below, by simpa [different] using unclaimed⟩
  · intro both
    obtain ⟨different, earlier⟩ := both
    refine ⟨by simpa using earlier.known, earlier.below, ?_⟩
    rw [parent?_grant owner free.known, if_neg different]
    exact earlier.unclaimed

@[simp]
theorem pending_grantAll (owner : NodeId) (children : List NodeId) (search : Search) :
    (search.grantAll owner children).pending = children.reverse ++ search.pending := by
  induction children generalizing search with
  | nil => rfl
  | cons child rest ih =>
    simp only [grantAll, List.foldl_cons] at ih ⊢
    rw [ih, List.reverse_cons, List.append_assoc]
    rfl

@[simp]
theorem size_grantAll (owner : NodeId) (children : List NodeId) (search : Search) :
    (search.grantAll owner children).claims.size = search.claims.size := by
  induction children generalizing search with
  | nil => rfl
  | cons child rest ih => exact (ih _).trans (size_grant search)

theorem parent?_grantAll (known : ∀ child ∈ children, child < search.claims.size) (id : NodeId) :
    (search.grantAll owner children).parent? id =
      if id ∈ children then some owner else search.parent? id := by
  induction children generalizing search with
  | nil => rfl
  | cons child rest ih =>
    have later : ((search.grant owner child).grantAll owner rest).parent? id =
        if id ∈ rest then some owner else (search.grant owner child).parent? id :=
      ih fun other member => by simpa using known other (List.mem_cons_of_mem _ member)
    rw [parent?_grant owner (known child (by simp))] at later
    apply later.trans
    by_cases among : id ∈ rest
    · simp [among]
    · simp [among, List.mem_cons]

theorem claimable_nil (root : NodeId) (search : Search) : search.Claimable root [] :=
  ⟨by simp, List.nodup_nil⟩

theorem claimable_cons (owner : NodeId) (first : search.Free root child) :
    search.Claimable root (child :: children) ↔
      (search.grant owner child).Claimable root children := by
  apply Iff.intro
  · intro claimable
    obtain ⟨free, distinct⟩ := claimable
    have fresh := List.nodup_cons.mp distinct
    refine ⟨fun other member => (free_grant owner first other).mpr ⟨?_, ?_⟩, fresh.2⟩
    · exact fun same => fresh.1 (same ▸ member)
    · exact free other (List.mem_cons_of_mem _ member)
  · intro claimable
    obtain ⟨free, distinct⟩ := claimable
    refine ⟨?_, List.nodup_cons.mpr ⟨fun again => ?_, distinct⟩⟩
    · intro other member
      rcases List.mem_cons.mp member with rfl | later
      · exact first
      · exact ((free_grant owner first other).mp (free other later)).2
    · exact ((free_grant owner first child).mp (free child again)).1 rfl

/-- All children are claimed exactly if each of them is free and no two of them are the same. -/
theorem claimAll_eq_ok_iff :
    claimAll root owner children search = .ok next ↔
      search.Claimable root children ∧ next = search.grantAll owner children := by
  induction children generalizing search with
  | nil =>
    apply Iff.intro
    · intro claimed
      cases claimed
      exact ⟨claimable_nil root _, rfl⟩
    · intro granted
      obtain ⟨-, rfl⟩ := granted
      rfl
  | cons child rest ih =>
    simp only [claimAll, List.foldlM_cons] at ih ⊢
    by_cases first : search.Free root child
    · rw [claim_of_free first, claimable_cons owner first]
      exact ih
    · rw [claim_of_not_free first]
      apply Iff.intro
      · intro refused
        contradiction
      · intro granted
        exact absurd (granted.1.free child (by simp)) first

/-- The first child that is not free, once those before it are claimed, makes the fault. -/
theorem claimAll_eq_error {told : LinkFault}
    (refused : claimAll root owner children search = .error told) :
    ∃ before child after, children = before ++ child :: after ∧ search.Claimable root before ∧
      ¬(search.grantAll owner before).Free root child ∧
      told = fault search.claims.size owner child := by
  induction children generalizing search with
  | nil => cases refused
  | cons child rest ih =>
    simp only [claimAll, List.foldlM_cons] at refused
    by_cases first : search.Free root child
    · rw [claim_of_free first] at refused
      obtain ⟨before, last, after, rfl, claimable, taken, rfl⟩ := ih refused
      exact ⟨child :: before, last, after, rfl, (claimable_cons owner first).mpr claimable, taken,
        by simp⟩
    · rw [claim_of_not_free first] at refused
      cases refused
      exact ⟨[], child, rest, rfl, claimable_nil root search, first, rfl⟩

/-- The searches that are about to visit their next node, each with the nodes visited before,
the latest first. -/
inductive Visits (draft : Draft) (root : NodeId) : List NodeId → Search → Prop where
  | start : Visits draft root [] (start draft.size root)
  | visit {visited rest : List NodeId} {owner : NodeId} {search next : Search} :
      Visits draft root visited search → search.pending = owner :: rest →
      claimAll root owner (draft.childrenOf owner) { search with pending := rest } = .ok next →
      Visits draft root (owner :: visited) next

/-- A search with nothing pending is over. -/
theorem run_of_done (done : search.pending = []) : run draft root search = .ok search.claims := by
  rw [run]
  split
  next => rfl
  next pending => simp [done] at pending

/-- A visit, and then the rest of the search. -/
theorem run_of_pending (pending : search.pending = owner :: rest) :
    run draft root search =
      claimAll root owner (draft.childrenOf owner) { search with pending := rest } >>=
        run draft root := by
  conv_lhs => rw [run]
  split
  next done => simp [done] at pending
  next first waiting found =>
    rw [pending] at found
    cases found
    dsimp only
    split
    next fault refused =>
      rw [refused]
      rfl
    next between claimed =>
      rw [claimed]
      rfl

/-- A search runs until nothing is pending or a visit fails. -/
theorem run_outcome (met : Visits draft root visited search) :
    match run draft root search with
    | .ok claims => ∃ visited, Visits draft root visited ⟨[], claims⟩
    | .error told => ∃ visited search owner rest, Visits draft root visited search ∧
        search.pending = owner :: rest ∧
        claimAll root owner (draft.childrenOf owner) { search with pending := rest } =
          .error told := by
  fun_induction run draft root search generalizing visited with
  | case1 search done => exact ⟨visited, by rw [← done]; exact met⟩
  | case2 search owner rest pending children told =>
    rename_i refused
    exact ⟨visited, search, owner, rest, met, pending, refused⟩
  | case3 search owner rest pending children next claimed =>
    rename_i _ ih
    exact ih (.visit met pending claimed)

/-- The state of a search between two visits. -/
structure Sound (draft : Draft) (root : NodeId) (visited : List NodeId) (search : Search) :
    Prop where
  size : search.claims.size = draft.size
  known : ∀ id ∈ root :: visited.flatMap draft.childrenOf, id < draft.size
  distinct : (root :: visited.flatMap draft.childrenOf).Nodup
  met : visited ++ search.pending ~ root :: visited.flatMap draft.childrenOf
  parents : ∀ child owner, search.parent? child = some owner ↔
    owner ∈ visited ∧ child ∈ draft.childrenOf owner
  reached : ∀ id ∈ visited ++ search.pending, draft.Reaches root id
  /-- No node is visited before one that holds it. -/
  downward : ∀ owner earlier, owner :: earlier <:+ visited →
    ∀ child ∈ draft.childrenOf owner, child ∉ owner :: earlier

theorem Sound.start (known : root < draft.size) :
    Sound draft root [] (start draft.size root) where
  size := by simp [Search.start]
  known := by simpa using known
  distinct := by simp
  met := .refl _
  parents := by
    intro child owner
    by_cases inside : child < draft.size <;> simp [parent?, Search.start, inside]
  reached := by
    intro id member
    rw [List.mem_singleton.mp member]
    exact .refl
  downward := by simp

theorem Sound.unclaimed_iff (sound : Sound draft root visited search) :
    search.parent? child = none ↔ child ∉ visited.flatMap draft.childrenOf := by
  apply Iff.intro
  · intro none member
    obtain ⟨owner, seen, holds⟩ := List.mem_flatMap.mp member
    rw [(sound.parents child owner).mpr ⟨seen, holds⟩] at none
    contradiction
  · intro fresh
    cases found : search.parent? child with
    | none => rfl
    | some owner =>
      have held := (sound.parents child owner).mp found
      exact absurd (List.mem_flatMap.mpr ⟨owner, held⟩) fresh

/-- Children that were not met before the visit of their owner, each of them once. -/
structure Unmet (draft : Draft) (root : NodeId) (visited children : List NodeId) : Prop where
  known : ∀ child ∈ children, child < draft.size
  fresh : ∀ child ∈ children, child ∉ root :: visited.flatMap draft.childrenOf
  distinct : children.Nodup

/-- Taking the next node off the pending ones changes nothing about claims. -/
theorem Sound.free_iff (sound : Sound draft root visited search) :
    ({ search with pending := rest } : Search).Free root child ↔
      child < draft.size ∧ child ∉ root :: visited.flatMap draft.childrenOf := by
  rw [List.mem_cons, not_or, ← sound.unclaimed_iff, ← sound.size]
  exact ⟨fun free => ⟨free.known, free.below, free.unclaimed⟩,
    fun free => ⟨free.1, free.2.1, free.2.2⟩⟩

theorem Sound.claimable_iff (sound : Sound draft root visited search) :
    ({ search with pending := rest } : Search).Claimable root children ↔
      Unmet draft root visited children := by
  apply Iff.intro
  · intro claimable
    have free : ∀ child ∈ children, _ := fun child member =>
      sound.free_iff.mp (claimable.free child member)
    exact ⟨fun child member => (free child member).1, fun child member => (free child member).2,
      claimable.distinct⟩
  · intro unmet
    exact ⟨fun child member => sound.free_iff.mpr ⟨unmet.known child member,
      unmet.fresh child member⟩, unmet.distinct⟩

theorem Sound.mem_iff (sound : Sound draft root visited search) {id : NodeId} :
    id ∈ visited ++ search.pending ↔ id ∈ root :: visited.flatMap draft.childrenOf :=
  sound.met.mem_iff

theorem Sound.nodup (sound : Sound draft root visited search) :
    (visited ++ search.pending).Nodup :=
  sound.met.nodup_iff.mpr sound.distinct

/-- What has been met after one more visit. -/
theorem met_cons (draft : Draft) (root owner : NodeId) (visited : List NodeId) :
    root :: (owner :: visited).flatMap draft.childrenOf ~
      draft.childrenOf owner ++ root :: visited.flatMap draft.childrenOf := by
  rw [List.flatMap_cons]
  exact List.perm_middle.symm

section Visit
variable (sound : Sound draft root visited search) (pending : search.pending = owner :: rest)
  (unmet : Unmet draft root visited (draft.childrenOf owner))

include sound unmet in
theorem Sound.visit_known {id : NodeId}
    (member : id ∈ root :: (owner :: visited).flatMap draft.childrenOf) : id < draft.size := by
  rcases List.mem_append.mp ((met_cons draft root owner visited).mem_iff.mp member) with new | old
  · exact unmet.known id new
  · exact sound.known id old

include sound unmet in
theorem Sound.visit_distinct : (root :: (owner :: visited).flatMap draft.childrenOf).Nodup := by
  apply (met_cons draft root owner visited).nodup_iff.mpr
  apply List.nodup_append'.mpr
  exact ⟨unmet.distinct, sound.distinct, fun child new old => unmet.fresh child new old⟩

include sound pending in
theorem Sound.visit_met :
    owner :: visited ++ ((draft.childrenOf owner).reverse ++ rest) ~
      root :: (owner :: visited).flatMap draft.childrenOf := by
  have before : owner :: visited ++ rest ~ root :: visited.flatMap draft.childrenOf := by
    have order := sound.met
    rw [pending] at order
    exact List.perm_middle.symm.trans order
  calc
    owner :: visited ++ ((draft.childrenOf owner).reverse ++ rest)
    _ ~ (draft.childrenOf owner).reverse ++ (owner :: visited ++ rest) :=
      List.perm_append_comm_assoc ..
    _ ~ draft.childrenOf owner ++ root :: visited.flatMap draft.childrenOf :=
      (List.reverse_perm _).append before
    _ ~ root :: (owner :: visited).flatMap draft.childrenOf :=
      (met_cons draft root owner visited).symm

include sound unmet in
theorem Sound.visit_parents (child other : NodeId) :
    (if child ∈ draft.childrenOf owner then some owner else search.parent? child) = some other ↔
      other ∈ owner :: visited ∧ child ∈ draft.childrenOf other := by
  rw [List.mem_cons]
  by_cases member : child ∈ draft.childrenOf owner
  · have unseen : other ∈ visited → child ∉ draft.childrenOf other := fun seen holds =>
      unmet.fresh child member
        (List.mem_cons_of_mem _ (List.mem_flatMap.mpr ⟨other, seen, holds⟩))
    rw [if_pos member, Option.some_inj]
    apply Iff.intro
    · intro same
      subst same
      exact ⟨.inl rfl, member⟩
    · intro held
      obtain ⟨same | seen, holds⟩ := held
      · exact same.symm
      · exact absurd holds (unseen seen)
  · rw [if_neg member, sound.parents child other]
    apply Iff.intro
    · intro held
      exact ⟨.inr held.1, held.2⟩
    · intro held
      obtain ⟨rfl | seen, holds⟩ := held
      · exact absurd holds member
      · exact ⟨seen, holds⟩

include pending in
/-- The next node was met like those visited before. -/
theorem mem_met_of_mem_cons {earlier : NodeId} (member : earlier ∈ owner :: visited) :
    earlier ∈ visited ++ search.pending := by
  rw [pending]
  rcases List.mem_cons.mp member with rfl | before
  · simp
  · exact List.mem_append_left _ before

include sound pending in
theorem Sound.visit_reached {id : NodeId}
    (member : id ∈ owner :: visited ++ ((draft.childrenOf owner).reverse ++ rest)) :
    draft.Reaches root id := by
  simp only [List.mem_append, List.mem_reverse] at member
  rcases member with old | new | waiting
  · exact sound.reached id (mem_met_of_mem_cons pending old)
  · have above := sound.reached owner (mem_met_of_mem_cons pending (by simp))
    exact above.tail new
  · exact sound.reached id (by simp [pending, waiting])

include sound pending unmet in
theorem Sound.visit_downward {latest : NodeId} {earlier : List NodeId}
    (ordered : latest :: earlier <:+ owner :: visited) (member : child ∈ draft.childrenOf latest) :
    child ∉ latest :: earlier := by
  rcases List.suffix_cons_iff.mp ordered with same | older
  · cases same
    intro seen
    exact unmet.fresh child member (sound.mem_iff.mp (mem_met_of_mem_cons pending seen))
  · exact sound.downward latest earlier older child member

include sound pending in
theorem Sound.visit
    (claimed : claimAll root owner (draft.childrenOf owner) { search with pending := rest } =
      .ok next) :
    Sound draft root (owner :: visited) next := by
  obtain ⟨claimable, rfl⟩ := claimAll_eq_ok_iff.mp claimed
  have unmet := sound.claimable_iff.mp claimable
  exact {
    size := (size_grantAll ..).trans sound.size
    known := fun id member => sound.visit_known unmet member
    distinct := sound.visit_distinct unmet
    met := by
      rw [pending_grantAll]
      exact sound.visit_met pending
    parents := by
      intro child other
      rw [parent?_grantAll fun child member => sound.size ▸ unmet.known child member]
      exact sound.visit_parents unmet child other
    reached := by
      rw [pending_grantAll]
      exact fun id member => sound.visit_reached pending member
    downward := fun _ _ ordered _ member => sound.visit_downward pending unmet ordered member
  }

end Visit

theorem Visits.sound (met : Visits draft root visited search) (known : root < draft.size) :
    Sound draft root visited search := by
  induction met with
  | start => exact .start known
  | visit _ pending claimed ih => exact ih.visit pending claimed

end Search
end ProgramLint
