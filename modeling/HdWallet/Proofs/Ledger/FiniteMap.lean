import HdWallet.Proofs.Ledger.Total
import Mathlib.Data.Finmap

/-!
# The ledger as a finite map

A finite map from outpoints to outputs says what a ledger should do: coins put in leave alone what
is there, outpoints taken out are erased, and what an operation answers is read off the map before
it. The ledger is such a map whatever is done with it, in any order, with coins and outpoints
listed twice and with coins that contradict each other about an outpoint. Its running total is the
sum of the values in the map.
-/

namespace HdWallet

/-- Those elements of a list that come first with their key. -/
def firstsBy {α : Type} (key : α → OutPoint) : List α → List α
  | [] => []
  | first :: rest => first :: (firstsBy key rest).filter (key · ≠ key first)

def Coin.entry (coin : Coin) : Σ _ : OutPoint, Output := ⟨coin.outpoint, coin.output⟩

abbrev OutputMap := Finmap fun _ : OutPoint => Output

namespace OutputMap

/-- The map that coins make. Of the coins at one outpoint the first one counts. -/
def ofCoins (coins : List Coin) : OutputMap := (coins.map Coin.entry).toFinmap

def coin? (m : OutputMap) (o : OutPoint) : Option Coin := (m.lookup o).map (⟨o, ·⟩)

def worth (m : OutputMap) : Nat := (m.entries.map fun entry => entry.2.value.toNat).sum

/-- Coins put in where the map has nothing. -/
def put (m : OutputMap) (coins : List Coin) : OutputMap := m ∪ ofCoins coins

def takeOut (m : OutputMap) (outpoints : List OutPoint) : OutputMap :=
  outpoints.foldl (fun m o => m.erase o) m

/-- The coins that are new to the map, each outpoint once. -/
def newCoins (m : OutputMap) (coins : List Coin) : List Coin :=
  (firstsBy (·.outpoint) coins).filter (·.outpoint ∉ m)

def coinsAt (m : OutputMap) (outpoints : List OutPoint) : List Coin :=
  (firstsBy id outpoints).filterMap m.coin?

/-- What a transaction pays: each output is at the outpoint with its index. -/
def paidBy (tx : Transaction) : List Coin :=
  tx.outputs.zipIdx.map fun (output, index) => ⟨⟨tx.txid, UInt32.ofNat index⟩, output⟩

end OutputMap

namespace Ledger

inductive Operation where
  | add (coin : Coin)
  | remove (outpoint : OutPoint)
  | addAll (coins : List Coin)
  | removeAll (outpoints : List OutPoint)
  | clear
  | receive (accept : Coin → Bool) (tx : Transaction)
  | spend (tx : Transaction)
  | replaceAll (coins : List Coin)

inductive Answer where
  | nothing
  | isNew (answer : Bool)
  | removed (coin : Option Coin)
  | count (added : Nat)
  | coins (coins : List Coin)
deriving DecidableEq

def perform (ledger : Ledger) : Operation → Ledger × Answer
  | .add coin => (ledger.add coin).map id .isNew
  | .remove outpoint => (ledger.remove outpoint).map id .removed
  | .addAll coins => (ledger.addAll coins).map id fun added => .count added.length
  | .removeAll outpoints => (ledger.removeAll outpoints).map id .coins
  | .clear => (empty, .nothing)
  | .receive accept tx => (ledger.receive accept tx).map id .coins
  | .spend tx => (ledger.spend tx).map id .coins
  | .replaceAll coins => (ofCoins coins, .nothing)

/-- What operations make of a state, one after another, and their answers. -/
def runWith {State : Type} (perform : State → Operation → State × Answer) (state : State) :
    List Operation → State × List Answer
  | [] => (state, [])
  | operation :: rest =>
    let (state, answer) := perform state operation
    let (state, answers) := runWith perform state rest
    (state, answer :: answers)

def toMap (ledger : Ledger) : OutputMap := .ofCoins ledger.coins

end Ledger

namespace OutputMap

/-- What an operation should make of a map, and its answer. -/
def perform (m : OutputMap) : Ledger.Operation → OutputMap × Ledger.Answer
  | .add coin => (m.put [coin], .isNew (coin.outpoint ∉ m))
  | .remove outpoint => (m.erase outpoint, .removed (m.coin? outpoint))
  | .addAll coins => (m.put coins, .count (m.newCoins coins).length)
  | .removeAll outpoints => (m.takeOut outpoints, .coins (m.coinsAt outpoints))
  | .clear => (∅, .nothing)
  | .receive accept tx =>
    (m.put ((paidBy tx).filter accept), .coins (m.newCoins ((paidBy tx).filter accept)))
  | .spend tx => (m.takeOut tx.inputs, .coins (m.coinsAt tx.inputs))
  | .replaceAll coins => (ofCoins coins, .nothing)

variable {m : OutputMap} {o : OutPoint}

theorem paidBy_eq_coins (tx : Transaction) : paidBy tx = tx.coins := by
  rw [paidBy, Transaction.coins, List.mapIdx_eq_zipIdx_map]

theorem coin?_ofCoins (coins : List Coin) :
    (ofCoins coins).coin? o = coins.find? (·.outpoint = o) := by
  rw [coin?, ofCoins, Finmap.dlookup_list_toFinmap]
  induction coins with
  | nil => rfl
  | cons coin rest ih =>
      rw [List.map_cons, List.find?_cons]
      by_cases here : coin.outpoint = o
      · subst here
        rw [Coin.entry, List.dlookup_cons_eq]
        simp
      · rw [List.dlookup_cons_ne _ _ (Ne.symm here), ih]
        simp [here]

theorem coin?_eq_some_iff {coin : Coin} :
    m.coin? o = some coin ↔ coin.outpoint = o ∧ m.lookup o = some coin.output := by
  obtain ⟨place, output⟩ := coin
  rw [coin?, Option.map_eq_some_iff]
  constructor
  · rintro ⟨_, there, ⟨⟩⟩
    exact ⟨rfl, there⟩
  · rintro ⟨rfl, there⟩
    exact ⟨_, there, rfl⟩

theorem mem_iff_isSome_coin? : o ∈ m ↔ (m.coin? o).isSome := by
  rw [coin?, Option.isSome_map, Finmap.lookup_isSome]

theorem eq_of_coin? {n : OutputMap} (same : ∀ o, m.coin? o = n.coin? o) : m = n := by
  apply Finmap.ext_lookup
  intro o
  apply Option.map_injective _ (same o)
  intro x y hxy
  exact (Coin.mk.injEq .. ▸ hxy).2

theorem coin?_erase (p : OutPoint) :
    OutputMap.coin? (m.erase p) o = if p = o then none else m.coin? o := by
  rw [coin?, coin?]
  split
  next here => rw [here, Finmap.lookup_erase, Option.map_none]
  next apart => rw [Finmap.lookup_erase_ne (Ne.symm apart)]

/-- What is there stays, and a free outpoint gets the first coin. -/
theorem coin?_put (coins : List Coin) :
    (m.put coins).coin? o = (m.coin? o).or (coins.find? (·.outpoint = o)) := by
  rw [← coin?_ofCoins, put, coin?]
  by_cases taken : o ∈ m
  · have there := mem_iff_isSome_coin?.mp taken
    rw [Finmap.lookup_union_left taken, Option.or_of_isSome there, coin?]
  · have free : m.coin? o = none := by
      rw [← Option.not_isSome_iff_eq_none, ← mem_iff_isSome_coin?]
      exact taken
    rw [Finmap.lookup_union_right taken, free, Option.none_or, coin?]

theorem coin?_takeOut (outpoints : List OutPoint) :
    (m.takeOut outpoints).coin? o = if o ∈ outpoints then none else m.coin? o := by
  induction outpoints generalizing m with
  | nil => simp [takeOut]
  | cons p rest ih =>
      change (takeOut (m.erase p) rest).coin? o = _
      rw [ih, coin?_erase]
      simp only [List.mem_cons, eq_comm (a := o)]
      by_cases here : p = o <;> by_cases later : o ∈ rest <;> simp [here, later]

end OutputMap

namespace Ledger

variable (ledger : Ledger)

theorem coin?_toMap (o : OutPoint) : ledger.toMap.coin? o = ledger.find? o := by
  rw [toMap, OutputMap.coin?_ofCoins, find?_coins]

theorem mem_toMap {o : OutPoint} : o ∈ ledger.toMap ↔ ledger.contains o := by
  rw [OutputMap.mem_iff_isSome_coin?, coin?_toMap, contains_eq_isSome_find?]

theorem toMap_empty : empty.toMap = ∅ := rfl

theorem toMap_addAll (coins : List Coin) :
    (ledger.addAll coins).1.toMap = ledger.toMap.put coins := by
  apply OutputMap.eq_of_coin?
  intro o
  rw [coin?_toMap, find?_addAll, OutputMap.coin?_put, coin?_toMap]

theorem toMap_remove (outpoint : OutPoint) :
    (ledger.remove outpoint).1.toMap = ledger.toMap.erase outpoint := by
  apply OutputMap.eq_of_coin?
  intro o
  rw [coin?_toMap, find?_remove, OutputMap.coin?_erase, coin?_toMap]

theorem toMap_removeAll (outpoints : List OutPoint) :
    (ledger.removeAll outpoints).1.toMap = ledger.toMap.takeOut outpoints := by
  apply OutputMap.eq_of_coin?
  intro o
  rw [coin?_toMap, find?_removeAll, OutputMap.coin?_takeOut, coin?_toMap]

theorem toMap_ofCoins (coins : List Coin) : (ofCoins coins).toMap = .ofCoins coins := by
  apply OutputMap.eq_of_coin?
  intro o
  rw [coin?_toMap, find?_ofCoins, OutputMap.coin?_ofCoins]

theorem newCoins_toMap (coins : List Coin) :
    ledger.toMap.newCoins coins =
      (firstsBy (·.outpoint) coins).filter (!ledger.contains ·.outpoint) := by
  simp only [OutputMap.newCoins, mem_toMap, decide_not, Bool.decide_eq_true]

/-- Coins that are put in are new, and each is the first at its outpoint. -/
theorem addAll_snd (coins : List Coin) :
    (ledger.addAll coins).2 = ledger.toMap.newCoins coins := by
  rw [newCoins_toMap]
  induction coins generalizing ledger with
  | nil => rfl
  | cons coin rest ih =>
      rw [firstsBy, List.filter_cons, List.filter_filter]
      by_cases taken : ledger.contains coin.outpoint
      · have same : ledger.addAll (coin :: rest) = ledger.addAll rest := by
          simp [addAll, add, taken]
        rw [same, ih, if_neg (by simp [taken])]
        apply List.filter_congr
        intro other _
        -- What is at a taken outpoint is not new anyway.
        by_cases free : ledger.contains other.outpoint
        · simp [free]
        · have apart : other.outpoint ≠ coin.outpoint := fun here => free (here ▸ taken)
          simp [apart]
      · have first : (ledger.addAll (coin :: rest)).2 =
            coin :: ((ledger.add coin).1.addAll rest).2 := by
          simp [addAll, add, taken]
        rw [first, ih, if_pos (by simp [taken])]
        congr 1
        apply List.filter_congr
        intro other _
        rw [Bool.eq_iff_iff, Bool.and_eq_true, decide_eq_true_iff, Bool.not_eq_true',
          Bool.not_eq_true', ← Bool.not_eq_true, ← Bool.not_eq_true, contains_add, not_or]
        exact and_congr_right fun _ => ne_comm

/-- Coins that are taken out were there, and each outpoint gives its coin once. -/
theorem removeAll_snd (outpoints : List OutPoint) :
    (ledger.removeAll outpoints).2 = ledger.toMap.coinsAt outpoints := by
  have here : ledger.toMap.coin? = ledger.find? := funext ledger.coin?_toMap
  rw [OutputMap.coinsAt, here]
  clear here
  induction outpoints generalizing ledger with
  | nil => rfl
  | cons outpoint rest ih =>
      change (ledger.remove outpoint).2.toList ++
        (removeAll (ledger.remove outpoint).1 rest).2 = _
      have later : (ledger.remove outpoint).1.find? = fun o =>
          if o ≠ outpoint then ledger.find? o else none := by
        funext o
        rw [find?_remove]
        by_cases here : outpoint = o
        · rw [if_pos here, if_neg (not_not.mpr here.symm)]
        · rw [if_neg here, if_pos (Ne.symm here)]
      rw [ih, remove_snd, later, firstsBy, List.filterMap_cons, List.filterMap_filter]
      simp only [id, decide_eq_true_eq]
      cases ledger.find? outpoint <;> rfl

theorem nodupKeys_entries : (ledger.coins.map Coin.entry).NodupKeys := by
  rw [List.NodupKeys, List.keys, List.map_map]
  exact ledger.nodup_outpoints

/-- The map has the coins of the ledger for its entries. -/
theorem entries_toMap : ledger.toMap.entries = (ledger.coins.map Coin.entry : List _) := by
  have same : ledger.toMap = AList.toFinmap ⟨_, ledger.nodupKeys_entries⟩ :=
    Finmap.ext_lookup fun o => Finmap.dlookup_list_toFinmap o _
  rw [same]
  rfl

theorem size_eq_card : ledger.size = ledger.toMap.keys.card := by
  have keys : ledger.toMap.keys.card = (ledger.coins.map Coin.entry).length := by
    rw [Finmap.keys, Finset.card_mk, entries_toMap, Multiset.coe_keys, Multiset.coe_card,
      List.keys, List.length_map]
  rw [keys, List.length_map, coins, List.length_map, Std.ExtTreeMap.length_toList, size]

theorem worth_toMap : ledger.toMap.worth = Coin.total ledger.coins := by
  rw [OutputMap.worth, entries_toMap, Multiset.map_coe, Multiset.sum_coe, List.map_map]
  induction ledger.coins with
  | nil => rfl
  | cons coin rest ih =>
      rw [List.map_cons, List.sum_cons, ih, Coin.total_cons]
      rfl

theorem pairwise_coins : ledger.coins.Pairwise (compare ·.outpoint ·.outpoint = .lt) := by
  rw [coins, List.pairwise_map]
  exact Std.ExtTreeMap.ordered_keys_toList

variable {ledger}

/-- No coin is worth more than all of them, so none takes the total below zero. -/
theorem Exact.value_le_total (exact : ledger.Exact) {coin : Coin} (present : coin ∈ ledger.coins) :
    coin.value.toNat ≤ ledger.total := by
  rw [exact, Coin.total_perm (perm_coins_remove (ledger.mem_coins.mp present)), Coin.total_cons]
  exact Nat.le_add_right _ _

theorem perform_toMap (operation : Operation) :
    ledger.toMap.perform operation =
      ((ledger.perform operation).1.toMap, (ledger.perform operation).2) := by
  cases operation with
  | add coin =>
      have single : (ledger.add coin).1 = (ledger.addAll [coin]).1 := rfl
      have isNew : (ledger.add coin).2 = decide (coin.outpoint ∉ ledger.toMap) := by
        simp only [decide_not, mem_toMap, Bool.decide_eq_true, add]
        split <;> simp_all
      simp only [OutputMap.perform, perform, Prod.map, id, single, toMap_addAll, isNew]
  | remove outpoint =>
      simp only [OutputMap.perform, perform, Prod.map, id, toMap_remove, remove_snd, coin?_toMap]
  | addAll coins => simp only [OutputMap.perform, perform, Prod.map, id, toMap_addAll, addAll_snd]
  | removeAll outpoints =>
      simp only [OutputMap.perform, perform, Prod.map, id, toMap_removeAll, removeAll_snd]
  | clear => rfl
  | receive accept tx =>
      simp only [OutputMap.perform, perform, receive, OutputMap.paidBy_eq_coins, Prod.map, id,
        toMap_addAll, addAll_snd]
  | spend tx =>
      simp only [OutputMap.perform, perform, spend, Prod.map, id, toMap_removeAll, removeAll_snd]
  | replaceAll coins => simp only [OutputMap.perform, perform, toMap_ofCoins]

theorem Exact.perform (exact : ledger.Exact) (operation : Operation) :
    (ledger.perform operation).1.Exact := by
  cases operation with
  | add coin => exact exact.add coin
  | remove outpoint => exact exact.remove outpoint
  | addAll coins => exact exact.addAll coins
  | removeAll outpoints => exact exact.removeAll outpoints
  | clear => exact exact_empty
  | receive accept tx => exact exact.addAll _
  | spend tx => exact exact.removeAll _
  | replaceAll coins => exact exact_ofCoins coins

theorem runWith_toMap (operations : List Operation) :
    runWith OutputMap.perform ledger.toMap operations =
      ((runWith perform ledger operations).1.toMap, (runWith perform ledger operations).2) := by
  induction operations generalizing ledger with
  | nil => rfl
  | cons operation rest ih =>
      simp only [runWith]
      rw [perform_toMap, ih]

theorem Exact.runWith (exact : ledger.Exact) (operations : List Operation) :
    (runWith Ledger.perform ledger operations).1.Exact := by
  induction operations generalizing ledger with
  | nil => exact exact
  | cons operation rest ih => exact ih (exact.perform operation)

/-- Whatever is done with a ledger, it answers what the finite map answers and holds what the map
holds, each coin at its own outpoint, and its total is the sum of the values in the map. -/
theorem runs_as_map (operations : List Operation) :
    let ledger := (Ledger.runWith perform empty operations).1
    let m := (Ledger.runWith OutputMap.perform ∅ operations).1
    (Ledger.runWith perform empty operations).2 =
        (Ledger.runWith OutputMap.perform ∅ operations).2 ∧
      (∀ o coin, ledger.find? o = some coin ↔ coin.outpoint = o ∧ m.lookup o = some coin.output) ∧
      (∀ o, ledger.contains o ↔ o ∈ m) ∧
      ledger.size = m.keys.card ∧
      m.entries = (ledger.coins.map Coin.entry : List _) ∧
      ledger.coins.Pairwise (compare ·.outpoint ·.outpoint = .lt) ∧
      ledger.total = m.worth ∧
      (∀ coin ∈ ledger.coins, coin.value.toNat ≤ ledger.total) ∧
      ledger.totalValue = .saturate m.worth := by
  intro ledger m
  have refined := @runWith_toMap empty operations
  rw [toMap_empty] at refined
  have same : m = ledger.toMap := congrArg Prod.fst refined
  have exact : ledger.Exact := exact_empty.runWith operations
  have total : ledger.total = m.worth := by rw [same, worth_toMap, exact]
  refine ⟨(congrArg Prod.snd refined).symm, ?_, ?_, ?_, ?_, ledger.pairwise_coins, total,
    fun coin => exact.value_le_total, ?_⟩
  · intro o coin
    rw [same, ← OutputMap.coin?_eq_some_iff, coin?_toMap]
  · exact fun o => by rw [same, mem_toMap]
  · rw [same, size_eq_card]
  · rw [same, entries_toMap]
  · rw [totalValue, total]

/-- Of coins that contradict each other about an outpoint the first one put in stays until it is
taken out, which happens once. A transaction that pays there, too, adds only its other accepted
output, and the output can be spent once. -/
theorem runs_as_map_of_contradicting_coins :
    let coin (value : Amount) : Coin := ⟨default, ⟨value, default⟩⟩
    let payment : Transaction :=
      { txid := default, inputs := [], outputs := [⟨9, default⟩, ⟨3, default⟩, ⟨4, default⟩] }
    let last : Coin := ⟨⟨default, 2⟩, ⟨4, default⟩⟩
    let spending : Transaction :=
      { txid := ⟨1⟩, inputs := [last.outpoint, last.outpoint], outputs := [] }
    let operations : List Operation := [.addAll [coin 7, coin 5], .add (coin 5),
      .receive (·.value ≠ 3) payment, .spend spending,
      .removeAll [default, default], .replaceAll [coin 5, coin 7]]
    (runWith perform empty operations).2 =
        [.count 1, .isNew false, .coins [last], .coins [last], .coins [coin 7], .nothing] ∧
      (runWith OutputMap.perform ∅ operations).2 =
        [.count 1, .isNew false, .coins [last], .coins [last], .coins [coin 7], .nothing] ∧
      (runWith perform empty operations).1.total = 5 ∧
      (coin 5).value.toNat ≤ (runWith perform empty operations).1.total := by
  intro coin payment last spending operations
  have run : (runWith perform empty operations).2 =
      [.count 1, .isNew false, .coins [last], .coins [last], .coins [coin 7], .nothing] := by
    decide +kernel
  have total : (runWith perform empty operations).1.total = 5 := by decide +kernel
  have listed : coin 5 ∈ (runWith perform empty operations).1.coins := by decide +kernel
  obtain ⟨same, -, -, -, -, -, -, within, -⟩ := runs_as_map operations
  exact ⟨run, same.symm.trans run, total, within (coin 5) listed⟩

end Ledger

end HdWallet
