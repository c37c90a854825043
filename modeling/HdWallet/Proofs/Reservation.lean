import HdWallet.Reservation
import Mathlib.Data.Set.Defs

/-!
# The reservation table

A table is well formed if its maps agree: each active reservation is stored under its
own id, an outpoint is held by the reservation that lists it and by no other, none is
listed twice, nothing held is pending, and no two reservations claim the same change
index. The look-ups after each operation come first; from them follows that every
operation keeps a table well formed.
-/

namespace HdWallet

section Folds

variable {κ β : Type} [Ord κ] [Std.TransOrd κ] [DecidableEq κ]

/-- Changing a map at some keys in turn, and each time at no other key. -/
theorem getElem?_foldl {f : Std.ExtTreeMap κ β → κ → Std.ExtTreeMap κ β} {v : Option β}
    (change : ∀ m key k, (f m key)[k]? = if key = k then v else m[k]?)
    (keys : List κ) (m : Std.ExtTreeMap κ β) (k : κ) :
    (keys.foldl f m)[k]? = if k ∈ keys then v else m[k]? := by
  induction keys generalizing m with
  | nil => simp
  | cons key rest ih =>
      rw [List.foldl_cons, ih, change]
      simp only [List.mem_cons, @eq_comm _ k]
      by_cases here : key = k <;> by_cases later : k ∈ rest <;> simp [here, later]

variable [Std.LawfulEqOrd κ]

theorem getElem?_foldl_insert (keys : List κ) (v : β) (m : Std.ExtTreeMap κ β) (k : κ) :
    (keys.foldl (·.insert · v) m)[k]? = if k ∈ keys then some v else m[k]? := by
  apply getElem?_foldl
  intro m key k
  rw [Std.ExtTreeMap.getElem?_insert]
  simp only [Std.compare_eq_iff_eq]

theorem getElem?_foldl_erase (keys : List κ) (m : Std.ExtTreeMap κ β) (k : κ) :
    (keys.foldl (·.erase ·) m)[k]? = if k ∈ keys then none else m[k]? := by
  apply getElem?_foldl
  intro m key k
  rw [Std.ExtTreeMap.getElem?_erase]
  simp only [Std.compare_eq_iff_eq]

end Folds

namespace Reservation

theorem mem_outpoints {r : Reservation} {o : OutPoint} :
    o ∈ r.outpoints ↔ ∃ coin ∈ r.coins, coin.outpoint = o :=
  List.mem_map

/-- The reservation as it is left when one of its coins was seen spent. -/
def without (r : Reservation) (o : OutPoint) : Reservation :=
  { r with coins := r.coins.filter (·.outpoint ≠ o) }

theorem outpoints_without_sublist (r : Reservation) (o : OutPoint) :
    (r.without o).outpoints.Sublist r.outpoints :=
  List.filter_sublist.map _

theorem mem_outpoints_without {r : Reservation} {o p : OutPoint} :
    p ∈ (r.without o).outpoints ↔ p ∈ r.outpoints ∧ o ≠ p := by
  simp only [mem_outpoints, without, List.mem_filter, decide_eq_true_iff]
  constructor
  · rintro ⟨coin, ⟨hcoin, hne⟩, rfl⟩
    exact ⟨⟨coin, hcoin, rfl⟩, hne.symm⟩
  · rintro ⟨⟨coin, hcoin, rfl⟩, hne⟩
    exact ⟨coin, ⟨hcoin, hne.symm⟩, rfl⟩

theorem without_of_not_mem {r : Reservation} {o : OutPoint} (unlisted : o ∉ r.outpoints) :
    r.without o = r := by
  have all : r.coins.filter (·.outpoint ≠ o) = r.coins := by
    rw [List.filter_eq_self]
    intro coin hcoin
    refine decide_eq_true fun here => unlisted ?_
    exact mem_outpoints.mpr ⟨coin, hcoin, here⟩
  rw [without, all]

def withoutAll (r : Reservation) (spent : List OutPoint) : Reservation :=
  { r with coins := r.coins.filter (·.outpoint ∉ spent) }

theorem withoutAll_nil (r : Reservation) : r.withoutAll [] = r := by
  have all : r.coins.filter (·.outpoint ∉ ([] : List OutPoint)) = r.coins :=
    List.filter_eq_self.mpr fun _ _ => by simp
  rw [withoutAll, all]

theorem withoutAll_cons (r : Reservation) (o : OutPoint) (spent : List OutPoint) :
    r.withoutAll (o :: spent) = (r.without o).withoutAll spent := by
  rw [withoutAll, withoutAll, without, List.filter_filter]
  simp [Bool.and_comm]

end Reservation

namespace ReservationTable

variable (table : ReservationTable)

theorem isReserved_iff {o : OutPoint} :
    table.isReserved o ↔ ∃ id, table.holders[o]? = some id := by
  rw [isReserved, Std.ExtTreeMap.contains_eq_isSome_getElem?, Option.isSome_iff_exists]

theorem isWithheld_iff {o : OutPoint} :
    table.isWithheld o ↔ table.isReserved o ∨ table.isPending o := by
  rw [isWithheld, Bool.or_eq_true]

theorem mem_reservations {r : Reservation} :
    r ∈ table.reservations ↔ ∃ id, table.find? id = some r := by
  simp [reservations, find?, Std.ExtTreeMap.mem_toList_iff_getElem?_eq_some]

/-- The change indices that active reservations claim. -/
def claimedIndices : Set Nat :=
  {index | ∃ id r, table.find? id = some r ∧ r.change.index.toNat = index}

theorem mem_claimed {index : Nat} :
    index ∈ table.claimed ↔
      ∃ id r, table.find? id = some r ∧ r.change.index.toNat = index := by
  rw [claimed, Std.ExtTreeSet.mem_ofList, List.contains_iff_mem, List.mem_map]
  constructor
  · rintro ⟨r, hr, hindex⟩
    obtain ⟨id, hid⟩ := table.mem_reservations.mp hr
    exact ⟨id, r, hid, hindex⟩
  · rintro ⟨id, r, hid, hindex⟩
    exact ⟨r, table.mem_reservations.mpr ⟨id, hid⟩, hindex⟩

theorem setOf_mem_claimed : {index | index ∈ table.claimed} = table.claimedIndices :=
  Set.ext fun _ => table.mem_claimed

theorem find?_register (reservation : Nat → Reservation) (id : Nat) :
    (table.register reservation).1.find? id =
      if table.nextId = id then some (reservation table.nextId) else table.find? id := by
  simp only [register, find?, Std.ExtTreeMap.getElem?_insert, Std.compare_eq_iff_eq]

theorem holders_register (reservation : Nat → Reservation) (o : OutPoint) :
    (table.register reservation).1.holders[o]? =
      if o ∈ (reservation table.nextId).outpoints then some table.nextId else table.holders[o]? :=
  getElem?_foldl_insert _ _ _ _

/-- Taking a reservation out of the table gives its coins free and touches nothing else. -/
theorem take_spec {id : Nat} {taken : ReservationTable} {r : Reservation}
    (h : table.take id = some (taken, r)) :
    table.find? id = some r ∧
      (∀ j, taken.find? j = if id = j then none else table.find? j) ∧
      (∀ o : OutPoint, taken.holders[o]? =
        if o ∈ r.outpoints then none else table.holders[o]?) ∧
      taken.pending = table.pending ∧ taken.nextId = table.nextId := by
  obtain ⟨found, hfound, htaken⟩ := Option.map_eq_some_iff.mp h
  cases htaken
  refine ⟨hfound, ?_, fun o => getElem?_foldl_erase _ _ _, rfl, rfl⟩
  intro j
  simp only [find?, Std.ExtTreeMap.getElem?_erase, Std.compare_eq_iff_eq]

theorem isPending_addPending {coins : List Coin} {o : OutPoint} :
    (table.addPending coins).isPending o ↔
      table.isPending o ∨ ∃ coin ∈ coins, coin.outpoint = o := by
  simp only [addPending, isPending]
  generalize table.pending = pending
  induction coins generalizing pending with
  | nil => simp
  | cons coin rest ih =>
      rw [List.foldl_cons, ih, Std.ExtTreeMap.contains_insert]
      simp only [Bool.or_eq_true, beq_iff_eq, Std.compare_eq_iff_eq, List.mem_cons,
        exists_eq_or_imp]
      rw [or_assoc, or_left_comm]

theorem pending_addPending_of_ne {coins : List Coin} {o : OutPoint}
    (other : ∀ coin ∈ coins, coin.outpoint ≠ o) :
    (table.addPending coins).pending[o]? = table.pending[o]? := by
  simp only [addPending]
  generalize table.pending = pending
  induction coins generalizing pending with
  | nil => rfl
  | cons coin rest ih =>
      rw [List.foldl_cons, ih fun c hc => other c (List.mem_cons_of_mem _ hc),
        Std.ExtTreeMap.getElem?_insert, if_neg]
      rw [Std.compare_eq_iff_eq]
      exact other coin List.mem_cons_self

/-- A coin becomes pending with its own script if no later coin has its outpoint. -/
theorem pending_addPending_of_mem {coins : List Coin} {coin : Coin} (h : coin ∈ coins)
    (distinct : (coins.map (·.outpoint)).Nodup) :
    (table.addPending coins).pending[coin.outpoint]? = some coin.script := by
  induction coins generalizing table with
  | nil => cases h
  | cons first rest ih =>
      rw [List.map_cons, List.nodup_cons] at distinct
      have tail : table.addPending (first :: rest) =
        addPending { table with
          pending := table.pending.insert first.outpoint first.script } rest := rfl
      rw [tail]
      rcases List.mem_cons.mp h with rfl | later
      · rw [pending_addPending_of_ne]
        · simp
        · intro c hc same
          exact distinct.1 (List.mem_map.mpr ⟨c, hc, same⟩)
      · exact ih _ later distinct.2

/-- What was pending is so still, unless its script was queried and it was not reported. -/
theorem pending_settle_iff {queried : Script → Bool} {reported : Std.ExtTreeSet OutPoint}
    {o : OutPoint} {script : Script} :
    (table.settle queried reported).pending[o]? = some script ↔
      table.pending[o]? = some script ∧ (queried script → reported.contains o) := by
  rw [settle, Std.ExtTreeMap.getElem?_filter', Option.filter_eq_some_iff]
  cases queried script <;> simp

theorem isPending_of_settle {queried : Script → Bool} {reported : Std.ExtTreeSet OutPoint}
    {o : OutPoint} (h : (table.settle queried reported).isPending o) : table.isPending o :=
  Std.ExtTreeMap.contains_of_contains_filter h

/-- A spend that was seen is not pending any more and leaves the reservation that
expected it. -/
theorem markSpent_spec (o : OutPoint) :
    (∀ id, (table.markSpent o).1.find? id =
      if table.holders[o]? = some id then (table.find? id).map (·.without o)
      else table.find? id) ∧
    (∀ p : OutPoint, (table.markSpent o).1.holders[p]? =
      if o = p then none else table.holders[p]?) ∧
    (table.markSpent o).1.pending = table.pending.erase o ∧
    (table.markSpent o).1.nextId = table.nextId := by
  cases held : table.holders[o]? with
  | none =>
      simp only [markSpent, held]
      refine ⟨fun id => (if_neg (by simp)).symm, ?_, trivial, trivial⟩
      intro p
      split
      next here => exact here ▸ held
      next => rfl
  | some id =>
      simp only [markSpent, held]
      refine ⟨?_, ?_, trivial, trivial⟩
      · intro j
        simp only [find?, Std.ExtTreeMap.getElem?_alter, Std.compare_eq_iff_eq, Option.some.injEq]
        split
        next here => rw [here]; rfl
        next => rfl
      · intro p
        simp only [Std.ExtTreeMap.getElem?_erase, Std.compare_eq_iff_eq]

/-- Spends that are seen of other outpoints leave this one pending. -/
theorem pending_foldl_markSpent {outpoints : List OutPoint} {o : OutPoint}
    (other : o ∉ outpoints) :
    (outpoints.foldl (fun table p => (table.markSpent p).1) table).pending[o]? =
      table.pending[o]? := by
  induction outpoints generalizing table with
  | nil => rfl
  | cons p rest ih =>
      obtain ⟨-, -, erased, -⟩ := table.markSpent_spec p
      rw [List.mem_cons, not_or] at other
      rw [List.foldl_cons, ih _ other.2, erased, Std.ExtTreeMap.getElem?_erase, if_neg]
      rw [Std.compare_eq_iff_eq]
      exact Ne.symm other.1

/-- The maps of the table agree with each other. -/
structure WellFormed : Prop where
  id_eq : ∀ {id r}, table.find? id = some r → r.id = id
  id_lt : ∀ {id r}, table.find? id = some r → id < table.nextId
  holders_iff : ∀ {o id}, table.holders[o]? = some id ↔
    ∃ r, table.find? id = some r ∧ o ∈ r.outpoints
  nodup : ∀ {id r}, table.find? id = some r → r.outpoints.Nodup
  pending_free : ∀ {o}, table.isReserved o → ¬table.isPending o
  claim_inj : ∀ {i j r s}, table.find? i = some r → table.find? j = some s →
    r.change.index = s.change.index → i = j

variable {table}

theorem wellFormed_empty (lifetime : UInt64) :
    WellFormed { lifetime : ReservationTable } := by
  constructor <;> simp [find?, isReserved]

theorem WellFormed.isReserved_iff (h : table.WellFormed) {o : OutPoint} :
    table.isReserved o ↔ ∃ id r, table.find? id = some r ∧ o ∈ r.outpoints := by
  simp only [ReservationTable.isReserved_iff, h.holders_iff]

/-- No outpoint is held twice. -/
theorem WellFormed.holder_unique (h : table.WellFormed) {i j : Nat} {r s : Reservation}
    {o : OutPoint} (hi : table.find? i = some r) (hj : table.find? j = some s)
    (hr : o ∈ r.outpoints) (hs : o ∈ s.outpoints) : i = j := by
  have held_i := h.holders_iff.mpr ⟨r, hi, hr⟩
  have held_j := h.holders_iff.mpr ⟨s, hj, hs⟩
  rw [held_i] at held_j
  exact Option.some.inj held_j

theorem WellFormed.find?_nextId (h : table.WellFormed) : table.find? table.nextId = none := by
  cases hfound : table.find? table.nextId with
  | none => rfl
  | some r => exact absurd (h.id_lt hfound) (Nat.lt_irrefl _)

/-- A new reservation holds its outpoints, which no other held, and no more. -/
theorem WellFormed.holders_register_iff (h : table.WellFormed)
    {reservation : Nat → Reservation}
    (free : ∀ o ∈ (reservation table.nextId).outpoints, ¬table.isWithheld o)
    {o : OutPoint} {id : Nat} :
    (table.register reservation).1.holders[o]? = some id ↔
      ∃ r, (table.register reservation).1.find? id = some r ∧ o ∈ r.outpoints := by
  rw [holders_register]
  constructor
  · intro hheld
    split at hheld
    next listed =>
        cases hheld
        exact ⟨_, (find?_register _ _ _).trans (if_pos rfl), listed⟩
    next =>
        obtain ⟨r, hr, ho⟩ := h.holders_iff.mp hheld
        have other : table.nextId ≠ id := by
          rintro rfl
          rw [h.find?_nextId] at hr
          cases hr
        exact ⟨r, (find?_register _ _ _).trans ((if_neg other).trans hr), ho⟩
  · rintro ⟨r, hr, ho⟩
    rw [find?_register] at hr
    split at hr
    next here =>
        cases hr
        rw [if_pos ho, here]
    next =>
        have held := h.holders_iff.mpr ⟨r, hr, ho⟩
        have unlisted : o ∉ (reservation table.nextId).outpoints := by
          intro listed
          have reserved := table.isReserved_iff.mpr ⟨id, held⟩
          exact free o listed (table.isWithheld_iff.mpr (.inl reserved))
        rw [if_neg unlisted, held]

theorem WellFormed.register (h : table.WellFormed) {reservation : Nat → Reservation}
    (own_id : (reservation table.nextId).id = table.nextId)
    (nodup : (reservation table.nextId).outpoints.Nodup)
    (free : ∀ o ∈ (reservation table.nextId).outpoints, ¬table.isWithheld o)
    (unclaimed : (reservation table.nextId).change.index.toNat ∉ table.claimed) :
    (table.register reservation).1.WellFormed := by
  constructor
  case id_eq =>
      intro id r hr
      rw [find?_register] at hr
      split at hr
      next here =>
          cases hr
          exact own_id.trans here
      next => exact h.id_eq hr
  case id_lt =>
      intro id r hr
      change id < table.nextId + 1
      rw [find?_register] at hr
      split at hr
      next here => omega
      next => exact Nat.lt_succ_of_lt (h.id_lt hr)
  case holders_iff => exact h.holders_register_iff free
  case nodup =>
      intro id r hr
      rw [find?_register] at hr
      split at hr
      next =>
          cases hr
          exact nodup
      next => exact h.nodup hr
  case pending_free =>
      intro o hreserved hpending
      change table.isPending o at hpending
      obtain ⟨id, hheld⟩ := (ReservationTable.isReserved_iff _).mp hreserved
      rw [holders_register] at hheld
      split at hheld
      next listed => exact free o listed (table.isWithheld_iff.mpr (.inr hpending))
      next => exact h.pending_free (table.isReserved_iff.mpr ⟨id, hheld⟩) hpending
  case claim_inj =>
      intro i j r s hr hs hindex
      rw [find?_register] at hr hs
      split at hr <;> split at hs
      next hi hj => exact hi.symm.trans hj
      next =>
          cases hr
          exact absurd (table.mem_claimed.mpr ⟨j, s, hs, congrArg _ hindex.symm⟩) unclaimed
      next =>
          cases hs
          exact absurd (table.mem_claimed.mpr ⟨i, r, hr, congrArg _ hindex⟩) unclaimed
      next => exact h.claim_inj hr hs hindex

theorem isReserved_of_take {id : Nat} {taken : ReservationTable} {r : Reservation}
    (ht : table.take id = some (taken, r)) {o : OutPoint} :
    taken.isReserved o ↔ table.isReserved o ∧ o ∉ r.outpoints := by
  obtain ⟨-, -, hholders, -⟩ := table.take_spec ht
  rw [ReservationTable.isReserved_iff, hholders, ReservationTable.isReserved_iff]
  split <;> simp_all

theorem WellFormed.take (h : table.WellFormed) {id : Nat} {taken : ReservationTable}
    {r : Reservation} (ht : table.take id = some (taken, r)) : taken.WellFormed := by
  obtain ⟨hr, hfind, hholders, hpending, hnext⟩ := table.take_spec ht
  have stays {j : Nat} {s : Reservation} (hs : taken.find? j = some s) :
      table.find? j = some s ∧ id ≠ j := by
    rw [hfind] at hs
    split at hs
    next => cases hs
    next hne => exact ⟨hs, hne⟩
  refine ⟨fun hs => h.id_eq (stays hs).1, fun hs => hnext ▸ h.id_lt (stays hs).1, ?_,
    fun hs => h.nodup (stays hs).1, ?_, fun hs ht' => h.claim_inj (stays hs).1 (stays ht').1⟩
  · intro o j
    rw [hholders, hfind]
    constructor
    · intro hheld
      split at hheld
      next => cases hheld
      next hlisted =>
          obtain ⟨s, hs, ho⟩ := h.holders_iff.mp hheld
          have : id ≠ j := by
            rintro rfl
            rw [hr] at hs
            cases hs
            exact hlisted ho
          exact ⟨s, (if_neg this).trans hs, ho⟩
    · rintro ⟨s, hs, ho⟩
      split at hs
      next => cases hs
      next hne =>
          rw [if_neg fun listed => hne (h.holder_unique hr hs listed ho)]
          exact h.holders_iff.mpr ⟨s, hs, ho⟩
  · intro o hreserved hpend
    rw [isPending, hpending] at hpend
    exact h.pending_free ((isReserved_of_take ht).mp hreserved).1 hpend

/-- The coins of a reservation that is taken out are withheld no longer. -/
theorem WellFormed.not_isWithheld_of_take (h : table.WellFormed) {id : Nat}
    {taken : ReservationTable} {r : Reservation} (ht : table.take id = some (taken, r))
    {o : OutPoint} (ho : o ∈ r.outpoints) : ¬taken.isWithheld o := by
  obtain ⟨hr, -, -, hpending, -⟩ := table.take_spec ht
  rw [isWithheld_iff, isPending, hpending]
  rintro (hreserved | hpend)
  · exact ((isReserved_of_take ht).mp hreserved).2 ho
  · exact h.pending_free (h.isReserved_iff.mpr ⟨id, r, hr, ho⟩) hpend

theorem isWithheld_of_take {id : Nat} {taken : ReservationTable} {r : Reservation}
    (ht : table.take id = some (taken, r)) {o : OutPoint}
    (ho : taken.isWithheld o) : table.isWithheld o := by
  obtain ⟨-, -, -, hpending, -⟩ := table.take_spec ht
  rw [isWithheld_iff, isPending, hpending] at ho
  exact table.isWithheld_iff.mpr (ho.imp_left fun h' => ((isReserved_of_take ht).mp h').1)

theorem WellFormed.withPending (h : table.WellFormed) {pending : Std.ExtTreeMap OutPoint Script}
    (free : ∀ o, table.isReserved o → ¬pending.contains o) :
    WellFormed { table with pending } :=
  ⟨h.id_eq, h.id_lt, h.holders_iff, h.nodup, free _, h.claim_inj⟩

theorem WellFormed.settle (h : table.WellFormed) (queried : Script → Bool)
    (reported : Std.ExtTreeSet OutPoint) : (table.settle queried reported).WellFormed :=
  h.withPending fun _ hreserved hpending =>
    h.pending_free hreserved (table.isPending_of_settle hpending)

theorem WellFormed.addPending (h : table.WellFormed) {coins : List Coin}
    (free : ∀ coin ∈ coins, ¬table.isReserved coin.outpoint) :
    (table.addPending coins).WellFormed := by
  apply h.withPending
  intro o hreserved hpending
  rcases table.isPending_addPending.mp hpending with hpending | ⟨coin, hcoin, rfl⟩
  · exact h.pending_free hreserved hpending
  · exact free coin hcoin hreserved

theorem isWithheld_markSpent {o p : OutPoint} :
    (table.markSpent o).1.isWithheld p ↔ table.isWithheld p ∧ o ≠ p := by
  obtain ⟨-, hholders, hpending, -⟩ := table.markSpent_spec o
  rw [isWithheld_iff, ReservationTable.isReserved_iff, hholders, isPending, hpending,
    Std.ExtTreeMap.contains_erase, isWithheld_iff, ReservationTable.isReserved_iff, isPending]
  by_cases here : o = p <;> simp [here]

/-- What a transaction spends is withheld no longer. -/
theorem isWithheld_foldl_markSpent {spent : List OutPoint} {o : OutPoint} :
    (spent.foldl (fun table p => (table.markSpent p).1) table).isWithheld o ↔
      table.isWithheld o ∧ o ∉ spent := by
  induction spent generalizing table with
  | nil => simp
  | cons p rest ih =>
      rw [List.foldl_cons, ih, isWithheld_markSpent, List.mem_cons, not_or, and_assoc,
        ne_comm (a := p)]

/-- In a well-formed table each reservation loses the coin that was seen spent, if it has it. -/
theorem WellFormed.find?_markSpent (h : table.WellFormed) (o : OutPoint) (id : Nat) :
    (table.markSpent o).1.find? id = (table.find? id).map (·.without o) := by
  obtain ⟨hfind, -⟩ := table.markSpent_spec o
  rw [hfind]
  split
  next => rfl
  next elsewhere =>
      cases found : table.find? id with
      | none => rfl
      | some r =>
          have unlisted : o ∉ r.outpoints := fun listed =>
            elsewhere (h.holders_iff.mpr ⟨r, found, listed⟩)
          rw [Option.map_some, Reservation.without_of_not_mem unlisted]

theorem WellFormed.markSpent (h : table.WellFormed) (o : OutPoint) :
    (table.markSpent o).1.WellFormed := by
  obtain ⟨-, hholders, hpending, hnext⟩ := table.markSpent_spec o
  have before {id : Nat} {r : Reservation} (hr : (table.markSpent o).1.find? id = some r) :
      ∃ s, table.find? id = some s ∧ s.without o = r := by
    rw [h.find?_markSpent] at hr
    exact Option.map_eq_some_iff.mp hr
  have held {p : OutPoint} {id : Nat} : (table.markSpent o).1.holders[p]? = some id ↔
      table.holders[p]? = some id ∧ o ≠ p := by
    rw [hholders]
    by_cases here : o = p <;> simp [here]
  constructor
  case id_eq =>
      intro id r hr
      obtain ⟨s, hs, rfl⟩ := before hr
      change s.id = id
      exact h.id_eq hs
  case id_lt =>
      intro id r hr
      obtain ⟨s, hs, -⟩ := before hr
      exact hnext ▸ h.id_lt hs
  case holders_iff =>
      intro p id
      rw [held, h.holders_iff, h.find?_markSpent]
      constructor
      · rintro ⟨⟨s, hs, listed⟩, other⟩
        exact ⟨s.without o, congrArg _ hs, Reservation.mem_outpoints_without.mpr ⟨listed, other⟩⟩
      · rintro ⟨r, hr, listed⟩
        obtain ⟨s, hs, rfl⟩ := Option.map_eq_some_iff.mp hr
        rw [Reservation.mem_outpoints_without] at listed
        exact ⟨⟨s, hs, listed.1⟩, listed.2⟩
  case nodup =>
      intro id r hr
      obtain ⟨s, hs, rfl⟩ := before hr
      exact (h.nodup hs).sublist (s.outpoints_without_sublist o)
  case pending_free =>
      intro p hreserved hpend
      obtain ⟨id, hid⟩ := (ReservationTable.isReserved_iff _).mp hreserved
      rw [isPending, hpending, Std.ExtTreeMap.contains_erase, Bool.and_eq_true] at hpend
      exact h.pending_free (table.isReserved_iff.mpr ⟨id, (held.mp hid).1⟩) hpend.2
  case claim_inj =>
      intro i j r s hr hs hindex
      obtain ⟨r', hr', rfl⟩ := before hr
      obtain ⟨s', hs', rfl⟩ := before hs
      exact h.claim_inj hr' hs' hindex

/-- A transaction takes from each reservation the coins that it spends. -/
theorem WellFormed.foldl_markSpent (h : table.WellFormed) (spent : List OutPoint) :
    let after := spent.foldl (fun table o => (table.markSpent o).1) table
    (∀ id, after.find? id = (table.find? id).map (·.withoutAll spent)) ∧
      after.nextId = table.nextId := by
  induction spent generalizing table with
  | nil =>
      refine ⟨fun id => ?_, rfl⟩
      simp only [List.foldl_nil, Reservation.withoutAll_nil, Option.map_id']
  | cons o rest ih =>
      obtain ⟨-, -, -, hnext⟩ := table.markSpent_spec o
      obtain ⟨hfind, hlast⟩ := ih (h.markSpent o)
      refine ⟨fun id => ?_, hlast.trans hnext⟩
      rw [List.foldl_cons, hfind, h.find?_markSpent, Option.map_map]
      congr 1
      funext r
      exact (r.withoutAll_cons o rest).symm

end ReservationTable

end HdWallet
