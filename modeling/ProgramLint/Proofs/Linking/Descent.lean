import ProgramLint.Proofs.Linking.Visits

/-!
The search for parents as a recursion: a node claims its children from left to right, and then
they are visited from the last to the first. The recursion follows no structure, since slots may
run in circles; it ends because no number is claimed twice. What it tells of a draft is what the
search tells that keeps its pending nodes on a stack.
-/

namespace ProgramLint

namespace Descent
variable {draft : Draft} {root owner : NodeId} {children : List NodeId}
  {claims next : Array (Option NodeId)}

/-- How many numbers nothing has claimed. -/
def gaps (claims : Array (Option NodeId)) : Nat :=
  claims.countP Option.isNone

/-- Children are claimed by their owner one after the other, up to the first that cannot be. -/
def claimEach (root owner : NodeId) :
    List NodeId → Array (Option NodeId) → Except LinkFault (Array (Option NodeId))
  | [], claims => .ok claims
  | child :: rest, claims =>
    if claims.size ≤ child then .error (.missing child owner)
    else if child = root ∨ claims[child]?.join ≠ none then .error (.shared child)
    else claimEach root owner rest (claims.setIfInBounds child (some owner))

/-- Every claim fills a gap. -/
theorem gaps_claimEach (claimed : claimEach root owner children claims = .ok next) :
    gaps next + children.length = gaps claims := by
  fun_induction claimEach root owner children claims with
  | case1 claims =>
    cases claimed
    rfl
  | case2 => contradiction
  | case3 => contradiction
  | case4 child rest claims inside free ih =>
    have known : child < claims.size := Nat.lt_of_not_le inside
    have vacant : claims[child].isNone = true := by
      simpa [known] using (not_or.mp free).2
    have positive : 0 < claims.countP Option.isNone :=
      Array.countP_pos_iff.mpr ⟨_, Array.getElem_mem known, vacant⟩
    have filled := ih claimed
    simp only [gaps, Array.setIfInBounds, dif_pos known, Array.countP_set, vacant] at filled ⊢
    simp at filled ⊢
    omega

/-- The parents recorded at a later moment. -/
abbrev Later (claims : Array (Option NodeId)) : Type :=
  { later : Array (Option NodeId) // gaps later ≤ gaps claims }

def Later.of (fewer : gaps next ≤ gaps claims) (later : Later next) : Later claims :=
  ⟨later.val, Nat.le_trans later.property fewer⟩

theorem val_map_of (fewer : gaps next ≤ gaps claims) (outcome : Except LinkFault (Later next)) :
    (outcome.map (Later.of fewer)).map Subtype.val = outcome.map Subtype.val := by
  cases outcome <;> rfl

mutual

-- The outcome carries that no gap was added, since the next sibling is visited with the parents
-- that are recorded by then, and the recursion has to end on those too.
/-- A node claims its children, and then they are visited from the last to the first. -/
def explore (draft : Draft) (root id : NodeId) (claims : Array (Option NodeId)) :
    Except LinkFault (Later claims) :=
  match claimed : claimEach root id (draft.childrenOf id) claims with
  | .error fault => .error fault
  | .ok next =>
    have filled := gaps_claimEach claimed
    (exploreEach draft root (draft.childrenOf id).reverse next).map (Later.of (by omega))
termination_by (gaps claims + 1, 0)
decreasing_by
  simp only [List.length_reverse]
  apply Prod.Lex.left
  omega

/-- Nodes are visited one after the other. -/
def exploreEach (draft : Draft) (root : NodeId) (ids : List NodeId)
    (claims : Array (Option NodeId)) : Except LinkFault (Later claims) :=
  match ids with
  | [] => .ok ⟨claims, Nat.le_refl _⟩
  | id :: rest =>
    match explore draft root id claims with
    | .error fault => .error fault
    | .ok between =>
      (exploreEach draft root rest between.val).map (Later.of between.property)
termination_by (gaps claims + ids.length, 1)
decreasing_by
  · simp only [List.length_cons]
    apply Prod.Lex.right'
    · omega
    · omega
  · have := between.property
    apply Prod.Lex.left
    simp only [List.length_cons]
    omega

end

/-- The parents recorded once a node has claimed its children and they were visited. -/
def visit (draft : Draft) (root id : NodeId) (claims : Array (Option NodeId)) :
    Except LinkFault (Array (Option NodeId)) :=
  (explore draft root id claims).map Subtype.val

/-- The parents recorded once all of some nodes were visited. -/
def visitEach (draft : Draft) (root : NodeId) (ids : List NodeId)
    (claims : Array (Option NodeId)) : Except LinkFault (Array (Option NodeId)) :=
  (exploreEach draft root ids claims).map Subtype.val

theorem visit_eq (draft : Draft) (root id : NodeId) (claims : Array (Option NodeId)) :
    visit draft root id claims =
      claimEach root id (draft.childrenOf id) claims >>=
        visitEach draft root (draft.childrenOf id).reverse := by
  unfold visit visitEach
  rw [explore]
  split
  next fault refused => rw [refused]; rfl
  next between claimed =>
    conv_rhs => rw [claimed]
    exact val_map_of ..

@[simp]
theorem visitEach_nil (draft : Draft) (root : NodeId) (claims : Array (Option NodeId)) :
    visitEach draft root [] claims = .ok claims := by
  rw [visitEach, exploreEach]
  rfl

theorem visitEach_cons (draft : Draft) (root id : NodeId) (rest : List NodeId)
    (claims : Array (Option NodeId)) :
    visitEach draft root (id :: rest) claims =
      visit draft root id claims >>= visitEach draft root rest := by
  unfold visit visitEach
  rw [exploreEach]
  cases explore draft root id claims with
  | error fault => rfl
  | ok between => exact val_map_of ..

theorem visitEach_append (ids others : List NodeId) (claims : Array (Option NodeId)) :
    visitEach draft root (ids ++ others) claims =
      visitEach draft root ids claims >>= visitEach draft root others := by
  induction ids generalizing claims with
  | nil =>
    rw [visitEach_nil]
    rfl
  | cons id rest ih =>
    have later : visitEach draft root (rest ++ others) =
        fun between => visitEach draft root rest between >>= visitEach draft root others :=
      funext ih
    rw [List.cons_append, visitEach_cons, visitEach_cons, bind_assoc, later]

/-- On a stack, the claims of a node are the same and its children wait in front. -/
theorem claimAll_eq (root owner : NodeId) (children : List NodeId) (search : Search) :
    Search.claimAll root owner children search =
      (claimEach root owner children search.claims).map fun claims =>
        ⟨children.reverse ++ search.pending, claims⟩ := by
  induction children generalizing search with
  | nil => rfl
  | cons child rest ih =>
    simp only [Search.claimAll, List.foldlM_cons] at ih ⊢
    simp only [claimEach, Search.claim]
    by_cases known : child < search.claims.size
    · rw [Array.getElem?_eq_getElem known, if_neg (Nat.not_le.mpr known)]
      simp only [Option.join_some, ← Option.isSome_iff_ne_none]
      split
      · rfl
      · simp only [bind, Except.bind, ih, List.reverse_cons, List.append_assoc,
          List.singleton_append]
    · rw [Array.getElem?_eq_none (Nat.le_of_not_lt known), if_pos (Nat.le_of_not_lt known)]
      rfl

/-- The stack holds what the recursion still has to visit. -/
theorem run_eq_visitEach (draft : Draft) (root : NodeId) (search : Search) :
    Search.run draft root search = visitEach draft root search.pending search.claims := by
  fun_induction Search.run draft root search with
  | case1 search done => rw [done, visitEach_nil]
  | case2 search owner rest pending children fault refused =>
    rw [claimAll_eq] at refused
    rw [pending, visitEach_cons, visit_eq]
    cases claimed : claimEach root owner children search.claims with
    | error told =>
      simp only [claimed, Except.map, Except.error.injEq] at refused
      rw [refused]
      rfl
    | ok claims => simp [claimed, Except.map] at refused
  | case3 search owner rest pending children next claimed fewer ih =>
    rw [claimAll_eq] at claimed
    rw [ih, pending, visitEach_cons, visit_eq]
    cases granted : claimEach root owner children search.claims with
    | error told => simp [granted, Except.map] at claimed
    | ok claims =>
      simp only [granted, Except.map, Except.ok.injEq] at claimed
      rw [← claimed, visitEach_append]
      rfl

/-- The numbers, other than that of the root, that nothing has claimed. -/
def unclaimed (root : NodeId) (claims : Array (Option NodeId)) : List NodeId :=
  (List.range claims.size).filter fun id => id ≠ root ∧ claims[id]?.join = none

theorem visitEach_singleton (draft : Draft) (root id : NodeId) (claims : Array (Option NodeId)) :
    visitEach draft root [id] claims = visit draft root id claims := by
  have last : visitEach draft root [] = pure := funext (visitEach_nil draft root)
  rw [visitEach_cons, last, bind_pure]

/-- The unclaimed numbers come in order, so the first of them is the least. -/
theorem leftOver?_eq_min? (root : NodeId) (claims : Array (Option NodeId)) :
    Draft.leftOver? root claims = (unclaimed root claims).min? := by
  have ascending : (unclaimed root claims).Pairwise fun first second => min first second = first :=
    (List.pairwise_lt_range.filter _).imp fun smaller => Nat.min_eq_left (Nat.le_of_lt smaller)
  rw [List.min?_eq_head? ascending, unclaimed, List.head?_filter, Draft.leftOver?]
  simp only [Option.isNone_iff_eq_none]

end Descent

namespace Draft

/-- Links a draft by the recursion: the first claim that fails is told, and if none fails, the
least number that was never claimed. -/
def linkByDescent (draft : Draft) (members : List NodeId) : Except LinkFault Tree := do
  let root := draft.size
  let rooted := draft.withRoot members
  let claims ← Descent.visit rooted root root (Array.replicate rooted.size none)
  match (Descent.unclaimed root claims).min? with
  | some lost => .error (.detached lost)
  | none => return { toDraft := rooted, root, parents := claims }

/-- The fault that linking tells is the first one that the recursion meets. -/
theorem link_eq_linkByDescent (draft : Draft) (members : List NodeId) :
    draft.link members = draft.linkByDescent members := by
  simp only [link, linkByDescent, Descent.run_eq_visitEach, Search.start,
    Descent.visitEach_singleton]
  refine bind_congr fun claims => ?_
  have least := Descent.leftOver?_eq_min? draft.size claims
  cases found : (Descent.unclaimed draft.size claims).min? with
  | none => simp only [least.trans found]
  | some lost => simp only [least.trans found]

-- Both bodies hold a number that was never given out, and the last one is visited first.
example :
    (({} : Draft).addAll [.body [7], .body [8]]).2.link [0, 1] = .error (.missing 8 1) := by
  cbv

end Draft
end ProgramLint
