import HdWallet.Proofs.Selection.Search
import Mathlib.Algebra.Group.Nat.Defs

/-!
# The search as a loop over nodes

A search can also be seen as a loop that moves from node to node: it includes the next coin, or,
where nothing below the node is worth a look, goes back to the coin included last and leaves it
out. The loop visits the nodes of the tree of decisions in one fixed order, which is that of the
walk. Every move goes forward in that order, so that no node comes up twice, and the full tree
bounds how many there are. Nothing but the end of the loop depends on the budget.
-/

namespace HdWallet

namespace Search

/-- Where a search stands: the positions of the included coins, latest first, what these are
worth, and the position to decide on next. -/
structure Node where
  picked : List Nat := []
  total : Nat := 0
  next : Nat := 0
deriving DecidableEq

/-- Whether every value is at least the input fee, judged by the last one. -/
def economic (payment : Payment) (values : List Nat) : Bool :=
  values.getLast?.all (payment.rate.inputFee ≤ ·)

/-- The outcome of a search that has looked at all it wanted to see. -/
def Outcome.ofBest : Option Found → Outcome
  | some best => found best.positions
  | none => exhausted

namespace Node

variable (payment : Payment) (values : List Nat) (node : Node)

def found? : Option Found := set? payment node.picked node.picked.length node.total

/-- The better of the node's set and the best one so far. -/
def improve (best : Option Found) : Option Found :=
  match node.found? payment with
  | some found => Search.improve best found
  | none => best

def isExact : Bool := (node.found? payment).any (·.excess == 0)

/-- Whether nothing below the node is worth a look: its set is covered already and more coins
never lower the excess, no coin is left, or what is left does not suffice. -/
def isCut : Bool :=
  (node.found? payment).isSome && economic payment values || values.length ≤ node.next
    || node.total + remaining (values.drop node.next) < payment.required node.picked.length

def taking : Node where
  picked := node.next :: node.picked
  total := node.total + values[node.next]?.getD 0
  next := node.next + 1

/-- The node that leaves out the coin included last, if there is one. -/
def leaving? : Option Node :=
  match node.picked with
  | [] => none
  | last :: picked => some ⟨picked, node.total - values[last]?.getD 0, last + 1⟩

/-- The node to visit after this one, if the search goes on. -/
def following? : Option Node :=
  if node.isExact payment then none
  else if node.isCut payment values then node.leaving? values
  else some (node.taking values)

end Node

section Loop

variable (payment : Payment) (values : List Nat)

/-- Visit nodes, one for each unit of the budget, and keep the best set. -/
def loop : (budget : Nat) → Node → Option Found → Outcome
  | 0, _, _ => .exceeded
  | budget + 1, node, best =>
    let best := node.improve payment best
    match node.following? payment values with
    | none => .ofBest best
    | some following => loop budget following best

/-- The nodes of so many iterations of the loop. -/
def visited : (iterations : Nat) → Node → List Node
  | 0, _ => []
  | iterations + 1, node =>
    node :: match node.following? payment values with
      | none => []
      | some following => visited iterations following

end Loop

/-- What comes of a walk if the search goes on after it. -/
def Walk.finish (goOn : Progress → Outcome) : Walk → Outcome
  | .more progress => goOn progress
  | .exact found => .found found.positions
  | .exceeded => .exceeded

/-- A walk that goes on has found no set without excess. -/
def Walk.Positive : Walk → Prop
  | .more progress => ∀ known ∈ progress.best, 0 < known.excess
  | _ => True

theorem positive_improve {best : Option Found} {found : Found}
    (positive : ∀ known ∈ best, 0 < known.excess) (imperfect : found.excess ≠ 0) :
    ∀ known ∈ improve best found, 0 < known.excess := by
  obtain ⟨kept, hkept, -, hfrom⟩ := exists_improve_eq_some best found
  rw [hkept]
  rintro known ⟨⟩
  rcases hfrom with rfl | hknown
  · exact Nat.pos_of_ne_zero imperfect
  · exact positive kept hknown

section Positive

variable {payment : Payment} {economical : Bool} {rest : List (Nat × Nat)}
variable {next count total : Nat} {picked : List Nat}

theorem positive_walk_of_descend
    (descends : ∀ progress : Progress, (∀ known ∈ progress.best, 0 < known.excess) →
      (descend payment economical rest next picked count total progress).Positive)
    (progress : Progress) (positive : ∀ known ∈ progress.best, 0 < known.excess) :
    (walk payment economical rest next picked count total progress).Positive := by
  obtain ⟨budget, best⟩ := progress
  cases budget with
  | zero =>
      rw [walk_zero]
      trivial
  | succ budget =>
      cases hset : set? payment picked count total with
      | none =>
          rw [walk_of_set?_eq_none hset]
          exact descends ⟨budget, best⟩ positive
      | some found =>
          rw [walk_of_set?_eq_some hset]
          split
          next => trivial
          next imperfect =>
              split
              next => exact positive_improve positive imperfect
              next => exact descends _ (positive_improve positive imperfect)

theorem positive_walk (progress : Progress)
    (positive : ∀ known ∈ progress.best, 0 < known.excess) :
    (walk payment economical rest next picked count total progress).Positive := by
  induction rest generalizing next picked count total progress with
  | nil =>
      apply positive_walk_of_descend _ progress positive
      exact fun _ positive => positive
  | cons head rest ih =>
      apply positive_walk_of_descend _ progress positive
      intro progress positive
      rw [descend]
      split
      next => exact positive
      next =>
          have included := @ih (next + 1) (count + 1) (total + head.1) (next :: picked) progress
            positive
          split
          next progress more =>
              rw [more] at included
              exact ih progress included
          next stopped => exact included

end Positive

section Resume

variable {payment : Payment} {values : List Nat}

/-- What comes of a search that leaves the subtree of a node. -/
def Node.resume (payment : Payment) (values : List Nat) (node : Node) (progress : Progress) :
    Outcome :=
  match node.leaving? values with
  | none => .ofBest progress.best
  | some following => loop payment values progress.budget following progress.best

theorem loop_succ (budget : Nat) (node : Node) (best : Option Found) :
    loop payment values (budget + 1) node best =
      if node.isExact payment then .ofBest (node.improve payment best)
      else if node.isCut payment values then
        node.resume payment values ⟨budget, node.improve payment best⟩
      else loop payment values budget (node.taking values) (node.improve payment best) := by
  by_cases exact : node.isExact payment
  · rw [loop, Node.following?, if_pos exact, if_pos exact]
  · by_cases cut : node.isCut payment values
    · rw [loop, Node.following?, if_neg exact, if_pos cut, if_neg exact, if_pos cut]
      rfl
    · rw [loop, Node.following?, if_neg exact, if_neg cut, if_neg exact, if_neg cut]

/-- It remains to look below a node: the node's own set is considered first. -/
theorem loop_of_descend {rest : List (Nat × Nat)} (node : Node)
    (descends : ∀ progress : Progress, (∀ known ∈ progress.best, 0 < known.excess) →
      (if values.length ≤ node.next
          ∨ node.total + remaining (values.drop node.next) < payment.required node.picked.length
        then node.resume payment values progress
        else loop payment values progress.budget (node.taking values) progress.best) =
      (descend payment (economic payment values) rest node.next node.picked node.picked.length
        node.total progress).finish (node.resume payment values))
    (progress : Progress) (positive : ∀ known ∈ progress.best, 0 < known.excess) :
    loop payment values progress.budget node progress.best =
      (walk payment (economic payment values) rest node.next node.picked node.picked.length
        node.total progress).finish (node.resume payment values) := by
  obtain ⟨budget, best⟩ := progress
  cases budget with
  | zero =>
      rw [walk_zero]
      rfl
  | succ budget =>
      rw [loop_succ]
      cases hset : set? payment node.picked node.picked.length node.total with
      | none =>
          have same : node.improve payment best = best := by
            rw [Node.improve, Node.found?, hset]
          rw [walk_of_set?_eq_none hset, ← descends ⟨budget, best⟩ positive, same]
          simp [Node.isExact, Node.isCut, Node.found?, hset]
      | some found =>
          have better : node.improve payment best = improve best found := by
            rw [Node.improve, Node.found?, hset]
          rw [walk_of_set?_eq_some hset, better]
          by_cases perfect : found.excess = 0
          · -- The loop ends with the best set, and no set known so far is without excess.
            have kept : improve best found = some found :=
              improve_of_lt fun known hknown => perfect ▸ positive known hknown
            have exact : node.isExact payment := by
              simp [Node.isExact, Node.found?, hset, perfect]
            rw [if_pos exact, if_pos perfect, kept]
            rfl
          · have inexact : ¬node.isExact payment := by
              simp [Node.isExact, Node.found?, hset, perfect]
            rw [if_neg inexact, if_neg perfect]
            by_cases worthwhile : economic payment values
            · have cut : node.isCut payment values := by
                simp [Node.isCut, Node.found?, hset, worthwhile]
              rw [if_pos cut, if_pos worthwhile]
              rfl
            · rw [if_neg worthwhile,
                ← descends ⟨budget, improve best found⟩ (positive_improve positive perfect)]
              simp [Node.isCut, worthwhile]

/-- After the subtree of a node the loop goes on where the walk of the subtree ends. -/
theorem loop_eq_finish_walk {rest : List Nat} (node : Node)
    (suffix : values.drop node.next = rest) (progress : Progress)
    (positive : ∀ known ∈ progress.best, 0 < known.excess) :
    loop payment values progress.budget node progress.best =
      (walk payment (economic payment values) (withRemaining rest) node.next node.picked
        node.picked.length node.total progress).finish (node.resume payment values) := by
  induction rest generalizing node progress with
  | nil =>
      apply loop_of_descend node _ progress positive
      intro progress _
      rw [if_pos (.inl (List.drop_eq_nil_iff.mp suffix))]
      rfl
  | cons value rest ih =>
      apply loop_of_descend node _ progress positive
      intro progress positive
      have bound : ¬values.length ≤ node.next := by
        rw [← List.drop_eq_nil_iff, suffix]
        exact List.cons_ne_nil value rest
      have hrest : values.drop (node.next + 1) = rest := by
        rw [← List.tail_drop, suffix, List.tail_cons]
      have hvalue : values[node.next]?.getD 0 = value := by
        rw [← List.head?_drop, suffix]
        rfl
      have sum : remaining (value :: rest) = value + remaining rest := rfl
      rw [withRemaining_cons, descend, suffix, sum]
      by_cases short : node.total + (value + remaining rest) < payment.required node.picked.length
      · rw [if_pos (.inr short), if_pos short]
        rfl
      · rw [if_neg (not_or.mpr ⟨bound, short⟩), if_neg short,
          ih (node.taking values) hrest progress positive]
        have included := @positive_walk payment (economic payment values) (withRemaining rest)
          (node.next + 1) (node.picked.length + 1) (node.total + value) (node.next :: node.picked)
          progress positive
        simp only [Node.taking, hvalue, List.length_cons]
        cases hwalk : walk payment (economic payment values) (withRemaining rest) (node.next + 1)
            (node.next :: node.picked) (node.picked.length + 1) (node.total + value) progress with
        | exceeded => rfl
        | exact found => rfl
        | more progress =>
            rw [hwalk] at included
            -- Leaving out the coin again leads to the exclude branch of the node.
            let excluded : Node := { node with next := node.next + 1 }
            have back : Node.resume payment values
                  ⟨node.next :: node.picked, node.total + value, node.next + 1⟩ progress =
                loop payment values progress.budget excluded progress.best := by
              simp only [Node.resume, Node.leaving?, hvalue, Nat.add_sub_cancel]
              rfl
            simp only [Walk.finish]
            rw [back, ih excluded hrest progress included]
            rfl

/-- The loop is the search. -/
theorem run_eq_loop (payment : Payment) (values : List Nat) (budget : Nat) :
    run payment values budget = loop payment values budget {} none := by
  have same : loop payment values budget {} none =
      (walk payment (economic payment values) (withRemaining values) 0 [] 0 0
        ⟨budget, none⟩).finish (Node.resume payment values {}) :=
    loop_eq_finish_walk {} values.drop_zero ⟨budget, none⟩ (by simp)
  rw [same, run, economic]
  split
  next found h => rw [h]; rfl
  next h => rw [h]; rfl
  next h => rw [h]; rfl
  next h => rw [h]; rfl

end Resume

namespace Node

variable {payment : Payment} {values : List Nat} {node : Node}

/-- The total is what the included coins are worth, and their positions increase and are decided
already. -/
structure Sound (values : List Nat) (node : Node) : Prop where
  total : node.total = worth values node.picked
  increasing : node.picked.reverse.Pairwise (· < ·)
  below : ∀ i ∈ node.picked, i < node.next
  inRange : node.next ≤ values.length

/-- What a search does at a node is in range, and the value it takes off the total is in it. -/
structure Safe (payment : Payment) (values : List Nat) (node : Node) : Prop where
  leaves : ∀ last ∈ node.picked.head?, ∃ value, values[last]? = some value ∧ value ≤ node.total
  takes : node.following? payment values = some (node.taking values) →
    ∃ value, values[node.next]? = some value

theorem following?_cases {following : Node}
    (h : node.following? payment values = some following) :
    node.next < values.length ∧ following = node.taking values ∨
      node.leaving? values = some following := by
  rw [following?] at h
  split at h
  next => cases h
  next =>
      split at h
      next => exact .inr h
      next uncut =>
          left
          simp only [isCut, Bool.or_eq_true, not_or, decide_eq_true_iff, Nat.not_le] at uncut
          exact ⟨uncut.1.2, (Option.some.inj h).symm⟩

theorem leaving?_eq_some {following : Node}
    (h : node.leaving? values = some following) :
    ∃ last picked, node.picked = last :: picked ∧
      following = ⟨picked, node.total - values[last]?.getD 0, last + 1⟩ := by
  rw [leaving?] at h
  split at h
  next => cases h
  next last picked same => exact ⟨last, picked, same, (Option.some.inj h).symm⟩

namespace Sound

theorem root : Sound values {} := ⟨rfl, .nil, by simp, Nat.zero_le _⟩

theorem taking (sound : node.Sound values) (bound : node.next < values.length) :
    (node.taking values).Sound values where
  total := by
    simp only [Node.taking, worth]
    rw [sound.total, Nat.add_comm]
  increasing := by
    simp only [Node.taking, List.pairwise_reverse, List.pairwise_cons]
    exact ⟨sound.below, List.pairwise_reverse.mp sound.increasing⟩
  below := by
    refine List.forall_mem_cons.mpr ⟨Nat.lt_succ_self _, ?_⟩
    exact fun i hi => Nat.lt_succ_of_lt (sound.below i hi)
  inRange := bound

theorem leaving {last : Nat} {picked : List Nat} (sound : node.Sound values)
    (same : node.picked = last :: picked) :
    Sound values ⟨picked, node.total - values[last]?.getD 0, last + 1⟩ := by
  obtain ⟨total, increasing, below, inRange⟩ := sound
  rw [same] at total increasing below
  obtain ⟨before, increasing⟩ := List.pairwise_cons.mp (List.pairwise_reverse.mp increasing)
  constructor
  case total => rw [total, worth, Nat.add_sub_cancel_left]
  case increasing => exact List.pairwise_reverse.mpr increasing
  case below => exact fun i hi => Nat.lt_succ_of_lt (before i hi)
  case inRange => exact Nat.le_trans (below last List.mem_cons_self) inRange

theorem following {following : Node} (sound : node.Sound values)
    (h : node.following? payment values = some following) : following.Sound values := by
  rcases following?_cases h with ⟨bound, rfl⟩ | left
  · exact sound.taking bound
  · obtain ⟨last, picked, same, rfl⟩ := leaving?_eq_some left
    exact sound.leaving same

theorem safe (sound : node.Sound values) : node.Safe payment values where
  leaves := by
    intro last hlast
    obtain ⟨picked, same⟩ := List.head?_eq_some_iff.mp hlast
    have bound : last < values.length := by
      have := sound.below last (same ▸ List.mem_cons_self)
      exact Nat.lt_of_lt_of_le this sound.inRange
    refine ⟨values[last], List.getElem?_eq_getElem bound, ?_⟩
    rw [sound.total, same, worth, List.getElem?_eq_getElem bound]
    exact Nat.le_add_right _ _
  takes := by
    intro taken
    rcases following?_cases taken with ⟨bound, -⟩ | left
    · exact ⟨values[node.next], List.getElem?_eq_getElem bound⟩
    · -- Going back gives a node with fewer coins, not with one more.
      obtain ⟨last, picked, same, taking⟩ := leaving?_eq_some left
      have := congrArg (·.picked.length) taking
      simp only [Node.taking, same, List.length_cons] at this
      omega

end Sound

end Node

/-- How many nodes of the tree of all decisions on so many coins come no earlier than the node
that includes `picked` and decides on `next`: those of its subtree, and those from the exclude
branch of the coin included last on. -/
def ahead (size : Nat) : (picked : List Nat) → (next : Nat) → Nat
  | [], next => 2 ^ (size + 1 - next) - 1
  | last :: picked, next => 2 ^ (size + 1 - next) - 1 + ahead size picked (last + 1)

theorem ahead_take {size next : Nat} (picked : List Nat) (bound : next < size) :
    ahead size (next :: picked) (next + 1) < ahead size picked next := by
  have doubled : 2 ^ (size + 1 - next) = 2 ^ (size - next) + 2 ^ (size - next) := by
    rw [Nat.sub_add_comm (Nat.le_of_lt bound), Nat.pow_succ, Nat.mul_two]
  have positive : 0 < 2 ^ (size - next) := Nat.two_pow_pos _
  cases picked with
  | nil =>
      simp only [ahead, Nat.add_sub_add_right, doubled]
      omega
  | cons last picked =>
      simp only [ahead, Nat.add_sub_add_right, doubled]
      omega

theorem ahead_leave {size next last : Nat} (picked : List Nat) (bound : next ≤ size) :
    ahead size picked (last + 1) < ahead size (last :: picked) next := by
  have large : 2 ^ 1 ≤ 2 ^ (size + 1 - next) := Nat.pow_le_pow_right (by decide) (by omega)
  rw [ahead]
  omega

theorem ahead_pos {size next : Nat} (picked : List Nat) (bound : next ≤ size) :
    0 < ahead size picked next := by
  have large : 2 ^ 1 ≤ 2 ^ (size + 1 - next) := Nat.pow_le_pow_right (by decide) (by omega)
  cases picked <;> rw [ahead] <;> omega

section Order

variable {payment : Payment} {values : List Nat} {node : Node}

/-- Every move goes forward in the tree of all decisions. -/
theorem ahead_following {following : Node} (sound : node.Sound values)
    (h : node.following? payment values = some following) :
    ahead values.length following.picked following.next <
      ahead values.length node.picked node.next := by
  rcases Node.following?_cases h with ⟨bound, rfl⟩ | left
  · exact ahead_take node.picked bound
  · obtain ⟨last, picked, same, rfl⟩ := Node.leaving?_eq_some left
    rw [same]
    exact ahead_leave picked sound.inRange

theorem forall_mem_visited {P : Node → Prop} {iterations : Nat} (here : P node)
    (step : ∀ n following, P n → n.following? payment values = some following → P following) :
    ∀ n ∈ visited payment values iterations node, P n := by
  induction iterations generalizing node with
  | zero => simp [visited]
  | succ iterations ih =>
      rw [visited]
      refine List.forall_mem_cons.mpr ⟨here, ?_⟩
      split
      next => simp
      next following h => exact ih (step node following here h)

theorem sound_of_mem_visited {iterations : Nat} (sound : node.Sound values) :
    ∀ n ∈ visited payment values iterations node, n.Sound values :=
  forall_mem_visited sound fun _ _ sound h => sound.following h

/-- Later nodes have fewer nodes ahead of them. -/
theorem pairwise_visited {iterations : Nat} (sound : node.Sound values) :
    (visited payment values iterations node).Pairwise fun m n =>
      ahead values.length n.picked n.next < ahead values.length m.picked m.next := by
  induction iterations generalizing node with
  | zero => exact .nil
  | succ iterations ih =>
      rw [visited]
      split
      next => exact List.pairwise_singleton _ _
      next following h =>
          refine List.pairwise_cons.mpr ⟨?_, ih (sound.following h)⟩
          have later := ahead_following sound h
          have within := @forall_mem_visited payment values following
            (fun n => n.Sound values ∧ ahead values.length n.picked n.next ≤
              ahead values.length following.picked following.next)
            iterations ⟨sound.following h, Nat.le_refl _⟩ fun n following here h =>
              ⟨here.1.following h, Nat.le_trans (Nat.le_of_lt (ahead_following here.1 h)) here.2⟩
          exact fun n hn => Nat.lt_of_le_of_lt (within n hn).2 later

theorem nodup_visited {iterations : Nat} (sound : node.Sound values) :
    ((visited payment values iterations node).map fun n => (n.picked, n.next)).Nodup := by
  refine List.pairwise_map.mpr ((pairwise_visited sound).imp ?_)
  intro m n later same
  obtain ⟨hpicked, hnext⟩ := Prod.mk.inj same
  rw [hpicked, hnext] at later
  exact Nat.lt_irrefl _ later

theorem Outcome.ofBest_ne_exceeded (best : Option Found) : Outcome.ofBest best ≠ .exceeded := by
  cases best <;> exact nofun

/-- A budget for all nodes that are ahead suffices. -/
theorem loop_ne_exceeded {budget : Nat} (sound : node.Sound values) (best : Option Found)
    (enough : ahead values.length node.picked node.next ≤ budget) :
    loop payment values budget node best ≠ .exceeded := by
  induction budget generalizing node best with
  | zero =>
      have := ahead_pos node.picked sound.inRange
      omega
  | succ budget ih =>
      simp only [loop]
      split
      next => exact Outcome.ofBest_ne_exceeded _
      next following h =>
          have later := ahead_following sound h
          exact ih (sound.following h) _ (by omega)

/-- A loop that ends within its budget ends in the same way within a larger one. -/
theorem loop_eq_of_le {budget more : Nat} {best : Option Found}
    (within : loop payment values budget node best ≠ .exceeded) (le : budget ≤ more) :
    loop payment values more node best = loop payment values budget node best := by
  induction budget generalizing node best more with
  | zero => exact absurd rfl within
  | succ budget ih =>
      obtain ⟨more, rfl⟩ := Nat.exists_eq_add_of_le' (Nat.le_trans (Nat.succ_pos budget) le)
      simp only [loop] at within ⊢
      split
      next => rfl
      next following h =>
          rw [h] at within
          exact ih within (Nat.le_of_succ_le_succ le)

/-- The budget is exceeded just if there is one more node to visit than it has units. -/
theorem loop_eq_exceeded_iff {budget : Nat} {best : Option Found} :
    loop payment values budget node best = .exceeded ↔
      (visited payment values (budget + 1) node).length = budget + 1 := by
  induction budget generalizing node best with
  | zero =>
      refine iff_of_true rfl ?_
      rw [visited]
      split <;> rfl
  | succ budget ih =>
      rw [visited, List.length_cons, Nat.add_left_inj]
      simp only [loop]
      split
      next => exact iff_of_false (Outcome.ofBest_ne_exceeded _) (Nat.succ_ne_zero _).symm
      next following h => exact ih

end Order

section Run

variable (payment : Payment) (values : List Nat)

theorem run_eq_exceeded_iff (budget : Nat) :
    run payment values budget = .exceeded ↔
      (visited payment values (budget + 1) {}).length = budget + 1 := by
  rw [run_eq_loop, loop_eq_exceeded_iff]

/-- The tree of all decisions on so many coins has `2 ^ (length + 1) - 1` nodes. -/
theorem run_ne_exceeded {budget : Nat} (enough : 2 ^ (values.length + 1) - 1 ≤ budget) :
    run payment values budget ≠ .exceeded := by
  rw [run_eq_loop]
  exact loop_ne_exceeded .root none enough

theorem run_eq_of_le {budget more : Nat} (within : run payment values budget ≠ .exceeded)
    (le : budget ≤ more) : run payment values more = run payment values budget := by
  rw [run_eq_loop] at within
  rw [run_eq_loop, run_eq_loop]
  exact loop_eq_of_le within le

/-- A search is a loop over nodes. At every node of it the total is what the included coins are
worth, their positions increase and lie below the next one, and whatever the loop takes off the
total or looks up is there. No node comes up twice, the budget is exceeded just if there are more
nodes to visit, the size of the full tree always suffices, and a budget that suffices gives what
every larger one gives. -/
theorem run_by_nodes :
    (∀ budget, run payment values budget = loop payment values budget {} none) ∧
      (∀ iterations,
        (∀ node ∈ visited payment values iterations {},
          node.Sound values ∧ node.Safe payment values) ∧
        ((visited payment values iterations {}).map fun node => (node.picked, node.next)).Nodup) ∧
      (∀ budget, run payment values budget = .exceeded ↔
        (visited payment values (budget + 1) {}).length = budget + 1) ∧
      (∀ budget, 2 ^ (values.length + 1) - 1 ≤ budget → run payment values budget ≠ .exceeded) ∧
      ∀ budget more, run payment values budget ≠ .exceeded → budget ≤ more →
        run payment values more = run payment values budget := by
  refine ⟨run_eq_loop payment values, fun iterations => ⟨?_, nodup_visited .root⟩,
    run_eq_exceeded_iff payment values, fun _ => run_ne_exceeded payment values,
    fun _ _ => run_eq_of_le payment values⟩
  intro node hnode
  have sound := sound_of_mem_visited .root node hnode
  exact ⟨sound, sound.safe⟩

/-- Four units and two pay for five: the loop includes both, goes back twice, and stops as two
units alone do not suffice. Seven nodes are enough for two coins. -/
theorem run_by_nodes_of_two_coins :
    let payment : Payment := { target := 5, outputs := 1, rate := ⟨0⟩ }
    (visited payment [4, 2] 7 {}).map (fun node => (node.picked, node.total, node.next)) =
        [([], 0, 0), ([0], 4, 1), ([1, 0], 6, 2), ([0], 4, 2), ([], 0, 1)] ∧
      Node.Sound [4, 2] ⟨[1, 0], 6, 2⟩ ∧
      run payment [4, 2] 7 ≠ .exceeded ∧
      run payment [4, 2] 100 = run payment [4, 2] 7 := by
  intro payment
  obtain ⟨-, nodes, -, enough, stable⟩ := run_by_nodes payment [4, 2]
  have within := enough 7 (by decide)
  exact ⟨by decide +kernel, ((nodes 7).1 ⟨[1, 0], 6, 2⟩ (by decide +kernel)).1, within,
    stable 7 100 within (by decide)⟩

end Run

end Search

end HdWallet
