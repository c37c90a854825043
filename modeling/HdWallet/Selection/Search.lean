import HdWallet.Selection.Basic

/-!
# Branch and bound

The search walks the tree of decisions to include or exclude each coin, in
ranking order and including before excluding. It keeps the feasible set with
the least excess, the first one found among equals, and cuts a branch

* when what is included and everything left together do not cover the payment;
* when the included coins cover the payment already and every coin is worth at
  least its input fee, because more coins then never lower the excess.

A set without excess ends the search. Each node visited takes one unit of a
budget, and running out of it is an outcome of its own.
-/

namespace HdWallet.Search

/-- A feasible set: the positions of its coins in increasing order, and what they
are worth over target and fee. -/
structure Found where
  excess : Nat
  positions : List Nat
deriving DecidableEq

/-- What is known after part of the tree: how many nodes may still be visited,
and the best set so far. -/
structure Progress where
  budget : Nat
  best : Option Found
deriving DecidableEq

inductive Walk where
  /-- The subtree is done. -/
  | more (progress : Progress)
  /-- A set without excess was found. -/
  | exact (found : Found)
  /-- The budget did not suffice. -/
  | exceeded
deriving DecidableEq

/-- Keep the better of two sets, and the earlier one if they are equally good. -/
def improve (best : Option Found) (found : Found) : Option Found :=
  match best with
  | none => some found
  | some known => if found.excess < known.excess then some found else some known

/-- Walk the subtree below a node. The node has included the coins at the
positions `picked` (latest first), `count` of them worth `total`, and decides
next on the coin at position `next`. Each remaining value comes with the sum of
itself and those after it. -/
def walk (payment : Payment) (economic : Bool) :
    (rest : List (Nat × Nat)) → (next : Nat) → (picked : List Nat) → (count total : Nat) →
      Progress → Walk
  | rest, next, picked, count, total, progress =>
    match progress.budget with
    | 0 => .exceeded
    | budget + 1 =>
      let required := payment.required count
      let feasible := 0 < count && required ≤ total
      let found : Found := ⟨total - required, picked.reverse⟩
      let progress := ⟨budget, if feasible then improve progress.best found else progress.best⟩
      if feasible && found.excess == 0 then .exact found
      else if feasible && economic then .more progress
      else
        match rest with
        | [] => .more progress
        | (value, sum) :: rest =>
          if total + sum < required then .more progress
          else
            match walk payment economic rest (next + 1) (next :: picked) (count + 1)
                (total + value) progress with
            | .more progress => walk payment economic rest (next + 1) picked count total progress
            | stopped => stopped

/-- Each value with the sum of itself and those after it. -/
def withRemaining : List Nat → List (Nat × Nat)
  | [] => []
  | value :: rest =>
    match withRemaining rest with
    | [] => [(value, value)]
    | (other, sum) :: more => (value, value + sum) :: (other, sum) :: more

inductive Outcome where
  /-- The best set, by positions in increasing order. -/
  | found (positions : List Nat)
  /-- No set covers the payment. -/
  | exhausted
  /-- The node budget did not suffice. -/
  | exceeded
deriving DecidableEq

/-- Search the values, ranked from high to low, for the set that covers the
payment with the least excess. -/
def run (payment : Payment) (values : List Nat) (budget : Nat) : Outcome :=
  let economic := values.getLast?.all (payment.rate.inputFee ≤ ·)
  match walk payment economic (withRemaining values) 0 [] 0 0 ⟨budget, none⟩ with
  | .exact found => .found found.positions
  | .more ⟨_, some found⟩ => .found found.positions
  | .more ⟨_, none⟩ => .exhausted
  | .exceeded => .exceeded

end HdWallet.Search
