import HdWallet.Proofs.Account.Planning
import HdWallet.Proofs.Account.Total

/-!
# Reservations move coins, they neither make nor lose them

What an account may spend is in its ledger or held by a reservation. Planning a payment moves
coins from one place to the other, cancelling it moves just these coins back, and completing it
takes them from both to the pending spends. The ledger would keep the first of two coins at one
outpoint, but it never meets a second, as no outpoint is in two places.
-/

namespace HdWallet

namespace ReservationTable

def held (table : ReservationTable) : List Coin := table.reservations.flatMap (·.coins)

variable {table other : ReservationTable}

theorem WellFormed.mem_reservations_iff (h : table.WellFormed) {r : Reservation} :
    r ∈ table.reservations ↔ table.find? r.id = some r := by
  rw [mem_reservations]
  constructor
  · rintro ⟨id, found⟩
    rwa [h.id_eq found]
  · exact fun found => ⟨_, found⟩

theorem WellFormed.nodup_ids (h : table.WellFormed) : (table.reservations.map (·.id)).Nodup := by
  rw [reservations, List.map_map]
  apply List.pairwise_map.mpr
  apply (Std.ExtTreeMap.distinct_keys_toList (t := table.active)).imp_of_mem
  intro x y hx hy apart same
  have own {x : Nat × Reservation} (hx : x ∈ table.active.toList) : x.2.id = x.1 :=
    h.id_eq (Std.ExtTreeMap.mem_toList_iff_getElem?_eq_some.mp hx)
  apply apart
  rw [Std.compare_eq_iff_eq, ← own hx, ← own hy]
  exact same

/-- Reservations that leave the table are those that it had more. -/
theorem WellFormed.perm_reservations (h : table.WellFormed) (h' : other.WellFormed)
    {gone : List Reservation} (distinct : (gone.map (·.id)).Nodup)
    (found : ∀ r ∈ gone, table.find? r.id = some r)
    (rest : ∀ id, other.find? id = if id ∈ gone.map (·.id) then none else table.find? id) :
    table.reservations.Perm (gone ++ other.reservations) := by
  rw [List.perm_ext_iff_of_nodup (List.Nodup.of_map _ h.nodup_ids)]
  · intro r
    rw [List.mem_append, h.mem_reservations_iff, h'.mem_reservations_iff, rest]
    constructor
    · intro present
      by_cases listed : r.id ∈ gone.map (·.id)
      · obtain ⟨s, hs, same⟩ := List.mem_map.mp listed
        have there := found s hs
        rw [same, present] at there
        exact .inl (Option.some.inj there ▸ hs)
      · exact .inr (by rwa [if_neg listed])
    · rintro (listed | remains)
      · exact found r listed
      · split at remains
        next => cases remains
        next => exact remains
  · rw [List.nodup_append']
    refine ⟨List.Nodup.of_map _ distinct, List.Nodup.of_map _ h'.nodup_ids, ?_⟩
    intro r listed remains
    rw [h'.mem_reservations_iff, rest, if_pos (List.mem_map_of_mem listed)] at remains
    cases remains

/-- What the reservations that leave the table held, and what the others hold. -/
theorem WellFormed.perm_held (h : table.WellFormed) (h' : other.WellFormed)
    {gone : List Reservation} (distinct : (gone.map (·.id)).Nodup)
    (found : ∀ r ∈ gone, table.find? r.id = some r)
    (rest : ∀ id, other.find? id = if id ∈ gone.map (·.id) then none else table.find? id) :
    table.held.Perm (gone.flatMap (·.coins) ++ other.held) := by
  rw [held, held, ← List.flatMap_append]
  exact (h.perm_reservations h' distinct found rest).flatMap_right _

/-- What one reservation held, and what the others hold. -/
theorem WellFormed.perm_held_take (h : table.WellFormed) (h' : other.WellFormed) {id : Nat}
    {r : Reservation} (found : table.find? id = some r)
    (rest : ∀ j, other.find? j = if id = j then none else table.find? j) :
    table.held.Perm (r.coins ++ other.held) := by
  obtain rfl := h.id_eq found
  have held : table.held.Perm ([r].flatMap (·.coins) ++ other.held) := by
    apply h.perm_held h'
    · exact List.nodup_singleton r.id
    · simpa using found
    · simpa [eq_comm] using rest
  rwa [List.flatMap_singleton] at held

/-- No outpoint is held twice. -/
theorem WellFormed.nodup_held (h : table.WellFormed) : (table.held.map (·.outpoint)).Nodup := by
  rw [held, List.map_flatMap, List.nodup_flatMap]
  constructor
  · intro r hr
    exact h.nodup (h.mem_reservations_iff.mp hr)
  · apply (List.pairwise_map.mp h.nodup_ids).imp_of_mem
    intro r s hr hs apart o in_r in_s
    exact apart (h.holder_unique (h.mem_reservations_iff.mp hr) (h.mem_reservations_iff.mp hs)
      in_r in_s)

theorem WellFormed.mem_held (h : table.WellFormed) {coin : Coin} (holds : coin ∈ table.held) :
    table.isReserved coin.outpoint := by
  obtain ⟨r, hr, listed⟩ := List.mem_flatMap.mp holds
  exact h.isReserved_iff.mpr ⟨r.id, r, h.mem_reservations_iff.mp hr,
    Reservation.mem_outpoints.mpr ⟨coin, listed, rfl⟩⟩

/-- Coins that become pending are so with their own scripts, if they were not before. -/
theorem pending_addPending_iff {coins : List Coin} (distinct : (coins.map (·.outpoint)).Nodup)
    (free : ∀ coin ∈ coins, ¬table.isPending coin.outpoint) {o : OutPoint} {script : Script} :
    (table.addPending coins).pending[o]? = some script ↔ table.pending[o]? = some script ∨
      ∃ coin ∈ coins, coin.outpoint = o ∧ coin.script = script := by
  by_cases new : ∃ coin ∈ coins, coin.outpoint = o
  · obtain ⟨coin, listed, rfl⟩ := new
    have absent := free coin listed
    rw [isPending, Std.ExtTreeMap.contains_eq_isSome_getElem?, Option.not_isSome_iff_eq_none]
      at absent
    rw [table.pending_addPending_of_mem listed distinct, absent, Option.some.injEq,
      or_iff_right (by simp)]
    constructor
    · exact fun same => ⟨coin, listed, rfl, same⟩
    · rintro ⟨other, hother, place, rfl⟩
      rw [List.inj_on_of_nodup_map distinct hother listed place]
  · have others : ∀ coin ∈ coins, coin.outpoint ≠ o := fun coin listed same =>
      new ⟨coin, listed, same⟩
    rw [table.pending_addPending_of_ne others]
    constructor
    · exact .inl
    · rintro (before | ⟨coin, listed, same, -⟩)
      · exact before
      · exact absurd same (others coin listed)

end ReservationTable

namespace Holdings

/-- The coins in the ledger and those that active reservations hold. -/
def coins (h : Holdings) : List Coin := h.ledger.coins ++ h.reservations.held

variable {h t : Holdings}

theorem Separated.nodup_coins (hs : h.Separated) : (h.coins.map (·.outpoint)).Nodup := by
  rw [coins, List.map_append, List.nodup_append']
  refine ⟨h.ledger.nodup_outpoints, hs.table.nodup_held, ?_⟩
  intro o free holds
  obtain ⟨coin, present, rfl⟩ := List.mem_map.mp free
  obtain ⟨other, taken, same⟩ := List.mem_map.mp holds
  have reserved := hs.table.mem_held taken
  rw [same] at reserved
  exact hs.free (h.ledger.contains_of_mem_coins present)
    (h.reservations.isWithheld_iff.mpr (.inl reserved))

/-- The same coins as before, but for those of completed payments, which are pending now. -/
structure Conserved (h : Holdings) (completed : List Coin) (t : Holdings) : Prop where
  coins : (t.coins ++ completed).Perm h.coins
  pending_iff : ∀ (o : OutPoint) script, t.reservations.pending[o]? = some script ↔
    h.reservations.pending[o]? = some script ∨
      ∃ coin ∈ completed, coin.outpoint = o ∧ coin.script = script

namespace Conserved

theorem of_eq (ledger : t.ledger = h.ledger) (reservations : t.reservations = h.reservations) :
    h.Conserved [] t := by
  constructor
  case coins => rw [List.append_nil, Holdings.coins, ledger, reservations, Holdings.coins]
  case pending_iff => simp [reservations]

theorem trans {u : Holdings} {first later : List Coin} (hu : h.Conserved first u)
    (ht : u.Conserved later t) : h.Conserved (first ++ later) t := by
  constructor
  case coins =>
      have moved := (ht.coins.append_right first).trans hu.coins
      rw [List.append_assoc] at moved
      exact (List.perm_append_comm.append_left _).trans moved
  case pending_iff =>
      intro o script
      rw [ht.pending_iff, hu.pending_iff, or_assoc]
      simp only [List.mem_append, or_and_right, exists_or]

end Conserved

/-- Some reservations were cancelled: they are gone, their coins are back in the ledger, and
nothing else is different. -/
structure Cancelled (h : Holdings) (gone : List Reservation) (t : Holdings) : Prop where
  keychain_eq : t.keychain = h.keychain
  find?_eq : ∀ id,
    t.reservations.find? id = if id ∈ gone.map (·.id) then none else h.reservations.find? id
  pending_eq : t.reservations.pending = h.reservations.pending
  coins : t.ledger.coins.Perm (gone.flatMap (·.coins) ++ h.ledger.coins)

namespace Cancelled

theorem refl (h : Holdings) : h.Cancelled [] h where
  keychain_eq := rfl
  find?_eq _ := rfl
  pending_eq := rfl
  coins := List.Perm.refl _

theorem cons {u : Holdings} {r : Reservation} {rest : List Reservation} (hu : h.Cancelled [r] u)
    (ht : u.Cancelled rest t) : h.Cancelled (r :: rest) t where
  keychain_eq := ht.keychain_eq.trans hu.keychain_eq
  find?_eq id := by
    rw [ht.find?_eq, hu.find?_eq]
    by_cases here : id = r.id <;> by_cases later : id ∈ rest.map (·.id) <;> simp [here, later]
  pending_eq := ht.pending_eq.trans hu.pending_eq
  coins := by
    have first : u.ledger.coins.Perm (r.coins ++ h.ledger.coins) := by simpa using hu.coins
    rw [List.flatMap_cons, List.append_assoc]
    exact (ht.coins.trans (first.append_left _)).trans (List.perm_append_comm_assoc _ _ _)

theorem conserved {gone : List Reservation} (hs : h.Separated) (ht : t.Separated)
    (distinct : (gone.map (·.id)).Nodup)
    (found : ∀ r ∈ gone, h.reservations.find? r.id = some r) (hc : h.Cancelled gone t) :
    h.Conserved [] t := by
  constructor
  case coins =>
      have held := hs.table.perm_held ht.table distinct found hc.find?_eq
      rw [List.append_nil, Holdings.coins, Holdings.coins]
      apply (hc.coins.append_right _).trans
      rw [List.append_assoc]
      exact (List.perm_append_comm_assoc _ _ _).trans (held.symm.append_left _)
  case pending_iff => simp [hc.pending_eq]

end Cancelled

theorem Separated.cancelled_of_take (hs : h.Separated) {id : Nat} {taken : ReservationTable}
    {r : Reservation} (ht : h.reservations.take id = some (taken, r)) :
    h.Cancelled [r] (h.resolved taken r .cancelled) := by
  obtain ⟨found, hfind, -, hpending, -⟩ := h.reservations.take_spec ht
  obtain rfl := hs.table.id_eq found
  constructor
  case keychain_eq => rfl
  case find?_eq =>
      intro id
      rw [resolved, hfind]
      simp [@eq_comm _ id]
  case pending_eq => exact hpending
  case coins =>
      rw [List.flatMap_singleton]
      apply Ledger.perm_coins_addAll (hs.table.nodup found)
      intro coin listed present
      have reserved := hs.table.isReserved_iff.mpr
        ⟨_, r, found, Reservation.mem_outpoints.mpr ⟨coin, listed, rfl⟩⟩
      exact hs.free present (h.reservations.isWithheld_iff.mpr (.inl reserved))

theorem Separated.wp_cancel (hs : h.Separated) {id : Nat} {r : Reservation}
    (found : h.reservations.find? id = some r) :
    (release id .cancelled).wp (fun s t => s = r ∧ h.Cancelled [r] t) (fun _ _ => False) h := by
  rw [wp_release_iff]
  split
  next missing =>
      rw [ReservationTable.take, found] at missing
      cases missing
  next taken s ht =>
      have there := (h.reservations.take_spec ht).1
      rw [found] at there
      cases there
      rw [if_neg (by simp)]
      exact ⟨rfl, hs.cancelled_of_take ht⟩

/-- Active reservations are cancelled one after another. -/
theorem Separated.wp_cancelAll (hs : h.Separated) {gone : List Reservation}
    (distinct : (gone.map (·.id)).Nodup)
    (found : ∀ r ∈ gone, h.reservations.find? r.id = some r) :
    (cancelAll (gone.map (·.id))).wp (fun _ t => t.Separated ∧ h.Cancelled gone t)
      (fun _ _ => False) h := by
  induction gone generalizing h with
  | nil => exact ⟨hs, .refl h⟩
  | cons r rest ih =>
      obtain ⟨unlisted, distinct⟩ := List.nodup_cons.mp distinct
      rw [List.map_cons, cancelAll, Step.wp_bind, Step.wp_discard]
      have cancelled := hs.wp_cancel (found r List.mem_cons_self)
      apply (cancelled.and (keeps_release r.id .cancelled h hs)).mono
      · rintro _ u ⟨⟨-, hu⟩, separated⟩
        have still : ∀ s ∈ rest, u.reservations.find? s.id = some s := by
          intro s listed
          rw [hu.find?_eq, if_neg]
          · exact found s (List.mem_cons_of_mem _ listed)
          · intro same
            rw [List.map_singleton, List.mem_singleton] at same
            exact unlisted (List.mem_map.mpr ⟨s, listed, same⟩)
        exact (ih separated distinct still).mono (fun _ t ht => ⟨ht.1, hu.cons ht.2⟩)
          fun _ _ no => no
      · exact fun _ _ no => no.1

/-- The active reservations that are as old as their lifetime allows. -/
def expired (h : Holdings) (now : Timestamp) : List Reservation :=
  h.reservations.reservations.filter (·.isExpired h.reservations.lifetime now)

theorem Separated.expired_spec (hs : h.Separated) (now : Timestamp) :
    ((h.expired now).map (·.id)).Nodup ∧
      ∀ r ∈ h.expired now, h.reservations.find? r.id = some r := by
  constructor
  · exact hs.table.nodup_ids.sublist (List.filter_sublist.map _)
  · exact fun r listed => hs.table.mem_reservations_iff.mp (List.mem_of_mem_filter listed)

/-- Just the reservations that are too old are cancelled, and this never fails. -/
theorem Separated.wp_expire (hs : h.Separated) (now : Timestamp) :
    (expire now).wp
      (fun ids t => ids = (h.expired now).map (·.id) ∧ t.Separated ∧ h.Cancelled (h.expired now) t)
      (fun _ _ => False) h := by
  obtain ⟨distinct, found⟩ := hs.expired_spec now
  simp only [expire, Step.wp_bind, Step.wp_get, Step.wp_pure]
  exact (hs.wp_cancelAll distinct found).mono (fun _ _ ht => ⟨rfl, ht⟩) fun _ _ no => no

/-- The coins of a plan move from the ledger to its reservation. -/
theorem Separated.wp_plan (hs : h.Separated) (request : SpendRequest) (selector : Selector)
    (now : Timestamp) :
    (reserve request selector now).wp
      (fun r t => t.reservations.find? r.id = some r ∧
        h.ledger.coins.Perm (r.coins ++ t.ledger.coins) ∧ h.Conserved [] t)
      (fun _ t => h.Conserved [] t) h := by
  have kept := keeps_reserve request selector now h hs
  have planned := (reserve_spec request selector now h).and (hs.wp_reserve request selector now)
  apply (planned.and kept).mono
  · rintro _ t ⟨⟨⟨selection, slot, chosen, -, -, hledger, htable, rfl⟩, -⟩, separated⟩
    obtain ⟨distinct, present⟩ := h.ledger.chosen_spec chosen
    have withdrawn := Ledger.perm_coins_removeAll distinct present
    rw [← hledger] at withdrawn
    have find? (id : Nat) := htable ▸ h.reservations.find?_register
      (request.reservation selection slot now) id
    have found := (find? h.reservations.nextId).trans (if_pos rfl)
    refine ⟨found, withdrawn, ?_⟩
    constructor
    case coins =>
        have held := separated.table.perm_held_take hs.table found fun id => by
          split
          next here => exact here ▸ hs.table.find?_nextId
          next other => rw [find?, if_neg other]
        rw [List.append_nil, coins, coins]
        apply (held.append_left _).trans
        apply (List.perm_append_comm_assoc _ _ _).trans
        rw [← List.append_assoc]
        exact withdrawn.symm.append_right _
    case pending_iff => simp [htable, ReservationTable.register]
  · rintro _ t ⟨⟨-, ledger, reservations, -⟩, -⟩
    exact .of_eq ledger reservations

def coinsOf (h : Holdings) (id : Nat) : List Coin := (h.reservations.find? id).elim [] (·.coins)

/-- The coins that a call completes a payment of, if it is to resolve a reservation. -/
def completing (h : Holdings) (id : Nat) : Reservation.Outcome → List Coin
  | .completed => h.coinsOf id
  | .cancelled => []

theorem Separated.conserved_release (hs : h.Separated) (id : Nat) (outcome : Reservation.Outcome) :
    (release id outcome).wp (fun _ t => h.Conserved (h.completing id outcome) t)
      (fun _ t => h.Conserved (h.completing id outcome) t) h := by
  apply wp_release_of_frame (P := h.Conserved (h.completing id outcome))
  · exact fun _ hc => ⟨hc.coins, hc.pending_iff⟩
  · intro missing
    have unknown : h.completing id outcome = [] := by
      rw [ReservationTable.take, Option.map_eq_none_iff] at missing
      cases outcome <;> simp [completing, coinsOf, missing]
    rw [unknown]
    exact .of_eq rfl rfl
  · intro taken r ht
    obtain ⟨found, hfind, -, hpending, -⟩ := h.reservations.take_spec ht
    have held := hs.table.perm_held_take (hs.table.take ht) found hfind
    cases outcome with
    | completed =>
        have done : h.completing id .completed = r.coins := by simp [completing, coinsOf, found]
        rw [done]
        constructor
        case coins =>
            change ((h.ledger.coins ++ taken.held) ++ r.coins).Perm _
            rw [List.append_assoc]
            exact (List.perm_append_comm.trans held.symm).append_left _
        case pending_iff =>
            intro o script
            rw [← hpending]
            apply taken.pending_addPending_iff (hs.table.nodup found)
            intro coin listed pending
            have reserved := hs.table.isReserved_iff.mpr
              ⟨id, r, found, Reservation.mem_outpoints.mpr ⟨coin, listed, rfl⟩⟩
            rw [ReservationTable.isPending, hpending] at pending
            exact hs.table.pending_free reserved pending
    | cancelled =>
        apply (hs.cancelled_of_take ht).conserved hs (hs.cancel ht)
        · exact List.nodup_singleton r.id
        · obtain rfl := hs.table.id_eq found
          simpa using found

end Holdings

end HdWallet
