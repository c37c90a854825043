import HdWallet.Proofs.Account.Answers
import HdWallet.Proofs.Account.Balances

/-!
# Balances of addresses whose coins were spent

A spend that is seen lets the balance of an address no longer count if it takes a coin of the
address out of the ledger. The balance then stays unread until the answer to a query made later
is kept. Coins that a reservation holds and those of completed payments are forgotten as well when
they are spent, but no balance is invalidated for them.
-/

namespace HdWallet

/-- The coins taken out are those of the given outpoints that were there. -/
theorem Ledger.mem_removeAll {ledger : Ledger} {outpoints : List OutPoint} {coin : Coin} :
    coin ∈ (ledger.removeAll outpoints).2 ↔
      coin ∈ ledger.coins ∧ coin.outpoint ∈ outpoints := by
  rw [mem_coins]
  induction outpoints generalizing ledger with
  | nil => simp [removeAll]
  | cons p rest ih =>
      change coin ∈ (ledger.remove p).2.toList ++ ((ledger.remove p).1.removeAll rest).2 ↔ _
      rw [List.mem_append, ih, remove_snd, Option.mem_toList, find?_remove, List.mem_cons]
      by_cases here : p = coin.outpoint
      · rw [if_pos here, here]
        simp
      · have other : ledger.find? p ≠ some coin := fun found =>
          here (ledger.outpoint_of_find? found).symm
        simp [here, Ne.symm here, other]

/-- A balance that is not fresh never counts. -/
theorem CachedBalance.balance?_eq_none {c : CachedBalance}
    (unread : ∀ balance updatedAt, c.reading ≠ .fresh balance updatedAt) (now : Timestamp) :
    c.balance? now = none := by
  rw [balance?, isValid]
  cases reading : c.reading with
  | fresh balance updatedAt => exact absurd reading (unread balance updatedAt)
  | unknown => rfl
  | stale => rfl

namespace Keychain

def owner? (keys : Keychain) (script : Script) : Option Address :=
  (keys.ofScript? script).map (·.address)

theorem owner?_modifyCache (keys : Keychain) (address : Address)
    (f : CachedBalance → CachedBalance) (script : Script) :
    (keys.modifyCache address f).1.owner? script = keys.owner? script := by
  have same (chain : Chain) (index : Nat) :
      ((chain.modifyCache index f).ofScript? script).map (·.address) =
        (chain.ofScript? script).map (·.address) := by
    change ((chain.indexOfScript? script).bind (chain.modifyCache index f).slot?).map _ = _
    rw [Chain.ofScript?]
    cases chain.indexOfScript? script with
    | none => rfl
    | some i =>
        rw [Option.bind_some, Option.bind_some, Chain.modifyCache, Chain.slot?_modify,
          Option.map_map]
        congr 1
        funext slot
        by_cases here : index = i <;> simp [here]
  simp only [modifyCache, owner?]
  split
  next => simp only [ofScript?, Option.map_or, same]
  next =>
      split
      next => simp only [ofScript?, Option.map_or, same]
      next => rfl

/-- The balance of an address that owns a script can be changed. -/
theorem Sound.modifyCache_of_owner? {keys : Keychain} (h : keys.Sound) {script : Script}
    {address : Address} (owned : keys.owner? script = some address)
    (f : CachedBalance → CachedBalance) : (keys.modifyCache address f).2 := by
  obtain ⟨slot, found, rfl⟩ := Option.map_eq_some_iff.mp owned
  have present := h.find?_iff.mpr ⟨(h.script_of_ofScript? found).1, rfl⟩
  rw [modifyCache]
  split
  next => rfl
  next receiving =>
      split
      next => rfl
      next change =>
          simp [find?, Chain.find?, receiving, change] at present

theorem restoring_wellFormed (lifetime : UInt64) : Restoring (WellFormed · lifetime) where
  push next _ fits h := h.push next fits
  mark marking h :=
    h.setChain ((h.chains _).markUsed marking) (by rw [Chain.markUsed_eq_ok marking])
  unmark {keys branch index cleared} clearing h := by
    have modified := (h.chains branch).modify index (f := ({ · with used := false }))
      (fun _ => rfl) fun _ => rfl
    rw [Chain.unmark_eq_ok clearing]
    exact h.setChain ⟨modified.indexOf?_iff, modified.lifetime_eq⟩ rfl
  modifyCache index _ same h := h.setChain ((h.chains _).modifyCache index same) rfl

theorem invariant_wellFormed (lifetime : UInt64) : Invariant (WellFormed · lifetime) where
  toMarking := (restoring_wellFormed lifetime).toMarking
  setGapLimit _ h := h.setChain ⟨(h.chains _).indexOf?_iff, (h.chains _).lifetime_eq⟩ rfl

end Keychain

namespace Account

variable {config : Config} {source : KeySource} {a : Account}

/-- The cached balances have the lifetime that the settings say. -/
theorem keychainInvariant_wellFormed :
    KeychainInvariant fun config keys => keys.WellFormed config.cacheLifetime where
  carried config := (Keychain.invariant_wellFormed config.cacheLifetime).toMarking.carried
  setGapLimit {config keys} branch limit h := by
    have kept := (Keychain.invariant_wellFormed config.cacheLifetime).keeps_setGapLimit branch
      limit.toNat keys h
    apply kept.mono _ fun _ _ ht => ht
    intro _ _ ht
    cases branch <;> exact ht
  setCacheLifetime lifetime h := h.setCacheLifetime lifetime
  modifyCache address _ same h := h.modifyCache address same
  applyBranch config snapshot branch :=
    (Keychain.restoring_wellFormed config.cacheLifetime).keeps_applyBranch snapshot branch

theorem wellFormed_run (opened : ofConfig config source = .ok a) (actions : List Action) :
    (a.run actions).keychain.WellFormed (a.run actions).config.cacheLifetime := by
  apply keychainInvariant_wellFormed.invariant.run
  obtain ⟨hkeys, same⟩ := keychain_of_ofConfig opened
  rw [same]
  exact (Keychain.restoring_wellFormed _).toGrowth.of_ofConfig
    (Keychain.wellFormed_blank config source) hkeys

/-- The balance of an address does not count, and no answer to a query that holds one of the
first `n` tickets will ever be kept for it. -/
structure Overdue (n : Nat) (address : Address) (a : Account) : Prop where
  keychain : a.keychain.WellFormed a.config.cacheLifetime
  issued : n ≤ a.tickets
  floor : n ≤ a.floor address
  unread : ∀ balance updatedAt, a.keychain.reading address ≠ .fresh balance updatedAt

namespace Overdue

variable {n : Nat} {address : Address}

theorem balanceProperty (n : Nat) (address : Address) : BalanceProperty (Overdue n address) where
  keychain h := h.keychain
  silent {a b} h keychain reading tickets floors := by
    constructor
    case keychain => exact keychain
    case issued =>
        rw [tickets]
        exact h.issued
    case floor =>
        rw [Account.floor, floors]
        exact h.floor
    case unread =>
        rw [reading]
        exact h.unread

theorem holdingsInvariant (n : Nat) (address : Address) : HoldingsInvariant (Overdue n address) :=
  (balanceProperty n address).holdingsInvariant

theorem issue (h : Overdue n address a) : Overdue n address { a with tickets := a.tickets + 1 } :=
  ⟨h.keychain, Nat.le_succ_of_le h.issued, h.floor, h.unread⟩

/-- An address is overdue as soon as it is invalidated. -/
theorem of_invalidate (keychain : a.keychain.WellFormed a.config.cacheLifetime)
    (known : (a.keychain.modifyCache address (·.invalidate)).2) :
    Overdue a.tickets address (a.invalidateAddress address).1 := by
  obtain ⟨cache, reading⟩ := keychain.reading_modifyCache known
  simp only [Account.invalidateAddress, known, if_true]
  constructor
  case keychain => exact keychain.modifyCache address fun _ => CachedBalance.lifetime_invalidate _
  case issued => exact Nat.le_refl _
  case floor =>
      rw [Account.floor, floor_insert, if_pos rfl]
  case unread =>
      intro balance updatedAt
      change (a.keychain.modifyCache address _).1.reading address ≠ _
      rw [reading, if_pos rfl, CachedBalance.invalidate]
      split <;> simp_all

theorem invalidateAddress (h : Overdue n address a) (other : Address) :
    Overdue n address (a.invalidateAddress other).1 := by
  obtain unknown | ⟨known, invalidated⟩ := a.invalidateAddress_cases other
  · rw [unknown]
    exact h
  · by_cases same : other = address
    · subst same
      have overdue := of_invalidate h.keychain known
      exact ⟨overdue.keychain, h.issued.trans overdue.issued, h.issued.trans overdue.floor,
        overdue.unread⟩
    · obtain ⟨cache, reading⟩ := h.keychain.reading_modifyCache known
      rw [invalidated]
      constructor
      case keychain =>
          exact h.keychain.modifyCache other fun _ => CachedBalance.lifetime_invalidate _
      case issued => exact h.issued
      case floor =>
          rw [Account.floor, floor_insert, if_neg same]
          exact h.floor
      case unread =>
          change ∀ balance updatedAt, (a.keychain.modifyCache other _).1.reading address ≠ _
          rw [reading, if_neg (Ne.symm same)]
          exact h.unread

/-- Only an answer that holds a later ticket can make the balance count. -/
theorem record (h : Overdue n address a) (other : Address) (balance : Amount) (ticket : Nat)
    (now : Timestamp) (early : ∀ t ∈ BalanceEvent.ticketsFor address
      (a.recording other ticket now (.ok balance)), t ≤ n) :
    Overdue n address (a.recordBalance other balance ticket now).1 := by
  obtain refused | ⟨above, known, kept⟩ := a.recordBalance_cases other balance ticket now
  · rw [refused]
    exact h
  · have different : other ≠ address := by
      rintro rfl
      rw [recording, kept, if_pos rfl, BalanceEvent.ticketsFor_singleton,
        BalanceEvent.ticketFor?, if_pos rfl] at early
      have early := early ticket (List.mem_singleton_self ticket)
      have floor := h.floor
      omega
    obtain ⟨cache, reading⟩ := h.keychain.reading_modifyCache known
    rw [kept]
    constructor
    case keychain => exact h.keychain.modifyCache other fun _ => rfl
    case issued => exact h.issued
    case floor =>
        rw [Account.floor, floor_insert, if_neg different]
        exact h.floor
    case unread =>
        change ∀ balance updatedAt, (a.keychain.modifyCache other _).1.reading address ≠ _
        rw [reading, if_neg (Ne.symm different)]
        exact h.unread

theorem ticketInvariant (n : Nat) (address : Address) : TicketInvariant (Overdue n address) where
  toOwnInvariant := (holdingsInvariant n address).toOwnInvariant
  issueTicket h := h.issue
  invalidateAddress other h := h.invalidateAddress other

theorem keeping (h : Overdue n address a) {action : Action}
    (early : ∀ t ∈ BalanceEvent.ticketsFor address (action.events a), t ≤ n) :
    action.Keeping (Overdue n address) a := by
  cases action with
  | absorbRefresh refresh other reply now =>
      rintro balance rfl
      exact h.record other balance refresh.ticket now early
  | closeEvent other ticket reply unspent now =>
      rintro balance rfl
      exact h.record other balance ticket now early
  | absorbDrainBalance drain other reply now =>
      rintro balance rfl asked
      rw [Action.events, if_pos asked] at early
      exact h.record other balance drain.ticket now early
  | _ => trivial

/-- An address stays overdue through an action that restores no snapshot and keeps no answer
about it to a later query. -/
theorem perform (h : Overdue n address a) {action : Action} (live : action.restores = false)
    (early : ∀ t ∈ BalanceEvent.ticketsFor address (action.events a), t ≤ n) :
    Overdue n address (action.perform a) :=
  Step.stateAfter_of_wp ((ticketInvariant n address).wp_step h live
    ((holdingsInvariant n address).learning h action) (h.keeping early))

theorem run (h : Overdue n address a) {actions : List Action}
    (live : ∀ action ∈ actions, ¬action.restores)
    (early : ∀ t ∈ BalanceEvent.ticketsFor address (a.log actions), t ≤ n) :
    Overdue n address (a.run actions) := by
  induction actions generalizing a with
  | nil => exact h
  | cons action rest ih =>
      rw [log, BalanceEvent.ticketsFor_append] at early
      have here := h.perform (Bool.eq_false_iff.mpr (live action List.mem_cons_self))
        fun t ht => early t (List.mem_append_left _ ht)
      exact ih here (fun later hlater => live later (List.mem_cons_of_mem _ hlater))
        fun t ht => early t (List.mem_append_right _ ht)

end Overdue

/-- A transaction spends a selectable coin of the address. -/
def SpendsFrom (a : Account) (tx : Transaction) (address : Address) : Prop :=
  ∃ coin ∈ a.ledger.coins, coin.outpoint ∈ tx.inputs ∧
    a.keychain.owner? coin.script = some address

instance (a : Account) (tx : Transaction) (address : Address) :
    Decidable (a.SpendsFrom tx address) :=
  inferInstanceAs (Decidable (∃ coin ∈ a.ledger.coins, _))

/-- A cached balance can be read off what is known and the lifetime in force. -/
theorem cachedBalance_eq (h : a.keychain.WellFormed a.config.cacheLifetime) (address : Address)
    (now : Timestamp) :
    a.cachedBalance address now =
      match a.keychain.scriptOf? address with
      | none => .error (.unknownAddress address)
      | some _ =>
        .ok (CachedBalance.balance? ⟨a.keychain.reading address, a.config.cacheLifetime⟩ now) := by
  rw [cachedBalance, Keychain.scriptOf?, Keychain.reading]
  cases found : a.keychain.find? address with
  | none => rfl
  | some slot =>
      rw [Option.map_some]
      dsimp only
      rw [← h.lifetime_of_find? found]

theorem owner?_invalidateScript (a : Account) (script other : Script) :
    (a.invalidateScript script).keychain.owner? other = a.keychain.owner? other := by
  rw [invalidateScript]
  split
  next => rfl
  next slot _ =>
      obtain unknown | ⟨-, known⟩ := a.invalidateAddress_cases slot.address
      · rw [unknown]
      · rw [known]
        exact a.keychain.owner?_modifyCache slot.address _ other

theorem tickets_invalidateScript (a : Account) (script : Script) :
    (a.invalidateScript script).tickets = a.tickets := by
  rw [invalidateScript]
  split
  next => rfl
  next slot _ =>
      obtain unknown | ⟨-, known⟩ := a.invalidateAddress_cases slot.address
      · rw [unknown]
      · rw [known]
        rfl

theorem cachedBalance_invalidateScript (h : a.keychain.WellFormed a.config.cacheLifetime)
    {script : Script} {address : Address} (other : a.keychain.owner? script ≠ some address)
    (now : Timestamp) :
    (a.invalidateScript script).cachedBalance address now = a.cachedBalance address now := by
  rw [invalidateScript]
  cases found : a.keychain.ofScript? script with
  | none => rfl
  | some slot =>
      dsimp only
      have different : address ≠ slot.address := by
        rintro rfl
        exact other (by rw [Keychain.owner?, found, Option.map_some])
      obtain unknown | ⟨known, invalidated⟩ := a.invalidateAddress_cases slot.address
      · rw [unknown]
      · obtain ⟨cache, reading⟩ := h.reading_modifyCache known
        rw [invalidated, a.cachedBalance_eq h, cachedBalance_eq]
        · simp only [setKeychain, keychain, Keychain.scriptOf?_modifyCache] at reading ⊢
          rw [reading, if_neg different]
        · exact h.modifyCache slot.address fun _ => CachedBalance.lifetime_invalidate _

theorem wellFormed_invalidateScript (h : a.keychain.WellFormed a.config.cacheLifetime)
    (script : Script) :
    (a.invalidateScript script).keychain.WellFormed
      (a.invalidateScript script).config.cacheLifetime :=
  keychainInvariant_wellFormed.queryInvariant.ticketInvariant.invalidateScript h script

theorem cachedBalance_invalidateScripts (h : a.keychain.WellFormed a.config.cacheLifetime)
    {scripts : List Script} {address : Address}
    (other : ∀ script ∈ scripts, a.keychain.owner? script ≠ some address) (now : Timestamp) :
    (scripts.foldl invalidateScript a).cachedBalance address now =
      a.cachedBalance address now := by
  induction scripts generalizing a with
  | nil => rfl
  | cons script rest ih =>
      have here := other script List.mem_cons_self
      have later : ∀ s ∈ rest, (a.invalidateScript script).keychain.owner? s ≠ some address := by
        intro s hs
        rw [owner?_invalidateScript]
        exact other s (List.mem_cons_of_mem _ hs)
      calc (rest.foldl invalidateScript (a.invalidateScript script)).cachedBalance address now
        _ = (a.invalidateScript script).cachedBalance address now :=
          ih (wellFormed_invalidateScript h script) later
        _ = a.cachedBalance address now := cachedBalance_invalidateScript h here now

/-- The owner of each of the scripts is overdue once they are invalidated. -/
theorem overdue_invalidateScripts (sound : a.keychain.Sound)
    (h : a.keychain.WellFormed a.config.cacheLifetime) {scripts : List Script} {script : Script}
    (listed : script ∈ scripts) {address : Address}
    (owned : a.keychain.owner? script = some address) :
    Overdue a.tickets address (scripts.foldl invalidateScript a) := by
  have enduring := KeychainInvariant.of_enduring Keychain.enduring_sound
  induction scripts generalizing a with
  | nil => cases listed
  | cons first rest ih =>
      rw [List.foldl_cons]
      rcases List.mem_cons.mp listed with rfl | later
      · apply (Overdue.ticketInvariant a.tickets address).invalidateScripts
        obtain ⟨slot, found, rfl⟩ := Option.map_eq_some_iff.mp owned
        rw [invalidateScript, found]
        exact Overdue.of_invalidate h (sound.modifyCache_of_owner? owned _)
      · rw [← a.tickets_invalidateScript first]
        apply ih (enduring.queryInvariant.ticketInvariant.invalidateScript sound first)
          (wellFormed_invalidateScript h first) later
        rw [owner?_invalidateScript]
        exact owned

/-- A spend lets the balances of exactly those addresses no longer count of which it takes a coin
out of the ledger, and of each of them none counts again before an answer is kept to a query made
after the spend was seen. -/
theorem cachedBalance_after_spend (opened : ofConfig config source = .ok a)
    (before : List Action) (tx : Transaction) (address : Address) :
    let b := a.run before
    let seen := (Action.spend tx).perform b
    (b.SpendsFrom tx address → ∀ later : List Action, (∀ action ∈ later, ¬action.restores) →
      (∀ ticket ∈ BalanceEvent.ticketsFor address (seen.log later), ticket ≤ b.tickets) →
      ∀ now, (seen.run later).cachedBalance address now = .ok none) ∧
    (¬b.SpendsFrom tx address →
      ∀ now, seen.cachedBalance address now = b.cachedBalance address now) := by
  intro b seen
  have wellFormed : b.keychain.WellFormed b.config.cacheLifetime := wellFormed_run opened before
  have unfolded : seen = ((b.holdings.spend tx).2.map Coin.script).foldl invalidateScript
      { b with holdings := (b.holdings.spend tx).1 } := rfl
  have mem_spent (coin : Coin) :
      coin ∈ (b.holdings.spend tx).2 ↔ coin ∈ b.ledger.coins ∧ coin.outpoint ∈ tx.inputs :=
    Ledger.mem_removeAll
  constructor
  · rintro ⟨coin, present, spent, owned⟩ later live early now
    have sound : b.keychain.Sound := sound_run opened before
    have overdue : Overdue b.tickets address seen := by
      have listed := List.mem_map_of_mem (f := Coin.script) ((mem_spent coin).mpr ⟨present, spent⟩)
      exact overdue_invalidateScripts (a := { b with holdings := (b.holdings.spend tx).1 })
        sound wellFormed listed owned
    have waits := overdue.run live early
    have tracked : address ∈ b.keychain.addresses := by
      obtain ⟨slot, found, rfl⟩ := Option.map_eq_some_iff.mp owned
      exact List.mem_map_of_mem (sound.script_of_ofScript? found).1
    obtain ⟨script, own⟩ := sound.mem_addresses_iff.mp tracked
    have known : (seen.run later).keychain.scriptOf? address = some script :=
      (scriptOf?_run opened before (.spend tx :: later) tracked).trans own
    rw [cachedBalance_eq waits.keychain, known]
    exact congrArg Except.ok (CachedBalance.balance?_eq_none waits.unread now)
  · intro apart now
    rw [unfolded]
    refine cachedBalance_invalidateScripts (a := { b with holdings := (b.holdings.spend tx).1 })
      wellFormed ?_ now
    intro script listed owned
    obtain ⟨coin, spent, rfl⟩ := List.mem_map.mp listed
    obtain ⟨present, spent⟩ := (mem_spent coin).mp spent
    exact apart ⟨coin, present, spent, owned⟩

/-- An answer that was on its way when a coin was spent does not count, and the balance of another
address is as before. -/
theorem unread_after_spend :
    let config : Config := { receivingGapLimit := 1, changeGapLimit := 1 }
    let address : Address := ⟨"receiving-0"⟩
    let coin : Coin := ⟨default, ⟨100000, .payToKeyHash (List.replicate 20 0)⟩⟩
    let tx : Transaction := ⟨⟨1⟩, [coin.outpoint], []⟩
    let answer (ticket : Nat) : Action :=
      .absorbRefresh { ticket, report := {} } address (.ok 100000) 100
    let before : List Action :=
      [.addCoin coin, .startRefresh [address] 99, answer 1, .startDrain]
    ∃ a, ofConfig config (.numbered ∅ true) = .ok a ∧
      let b := a.run before
      let seen := (Action.spend tx).perform b
      b.SpendsFrom tx address ∧ ¬b.SpendsFrom tx ⟨"change-0"⟩ ∧
        b.cachedBalance address 101 = .ok (some 100000) ∧
        (∀ ticket ∈ BalanceEvent.ticketsFor address (seen.log [answer 2]), ticket ≤ b.tickets) ∧
        (seen.run [answer 2]).cachedBalance address 101 = .ok none ∧
        seen.cachedBalance ⟨"change-0"⟩ 101 = b.cachedBalance ⟨"change-0"⟩ 101 := by
  intro config address coin tx answer before
  have facts : (ofConfig config (.numbered ∅ true)).toOption.any fun a =>
      let b := a.run before
      let seen := (Action.spend tx).perform b
      b.SpendsFrom tx address ∧ ¬b.SpendsFrom tx ⟨"change-0"⟩ ∧
        b.cachedBalance address 101 = .ok (some 100000) ∧
        BalanceEvent.ticketsFor address (seen.log [answer 2]) = [] := by
    decide +kernel
  obtain ⟨a, opened, facts⟩ := Step.exists_ok_of_any facts
  obtain ⟨spends, apart, cached, refused⟩ := of_decide_eq_true facts
  have early : ∀ ticket ∈ BalanceEvent.ticketsFor address
      (((Action.spend tx).perform (a.run before)).log [answer 2]),
      ticket ≤ (a.run before).tickets := by
    rw [refused]
    exact fun _ listed => absurd listed List.not_mem_nil
  have live : ∀ action ∈ [answer 2], ¬action.restores := by
    intro action listed
    cases List.mem_singleton.mp listed
    exact Bool.false_ne_true
  obtain ⟨unread, -⟩ := cachedBalance_after_spend opened before tx address
  obtain ⟨-, untouched⟩ := cachedBalance_after_spend opened before tx ⟨"change-0"⟩
  exact ⟨a, opened, spends, apart, cached, early, unread spends [answer 2] live early 101,
    untouched apart 101⟩

/-- The spend of a coin that a reservation holds, and that of a coin of a completed payment, are
seen, and the balance of its address still counts. -/
theorem read_after_reserved_spend :
    let config : Config := { receivingGapLimit := 1, changeGapLimit := 1 }
    let address : Address := ⟨"receiving-0"⟩
    let coin : Coin := ⟨default, ⟨100000, .payToKeyHash (List.replicate 20 0)⟩⟩
    let tx : Transaction := ⟨⟨1⟩, [coin.outpoint], []⟩
    let reserved : List Action := [.addCoin coin, .startRefresh [address] 99,
      .absorbRefresh { ticket := 1, report := {} } address (.ok 100000) 100,
      .reserve (.ofTarget 5000 ⟨1000⟩) 100]
    let pending : List Action := reserved ++ [.release 1 .completed]
    ∃ a, ofConfig config (.numbered ∅ true) = .ok a ∧
      a.keychain.owner? coin.script = some address ∧
      (a.run reserved).reservations.isReserved coin.outpoint ∧
      (a.run pending).reservations.isPending coin.outpoint ∧
      ((Action.spend tx).perform (a.run reserved)).cachedBalance address 101 =
        .ok (some 100000) ∧
      ((Action.spend tx).perform (a.run pending)).cachedBalance address 101 =
        .ok (some 100000) := by
  intro config address coin tx reserved pending
  have facts : (ofConfig config (.numbered ∅ true)).toOption.any fun a =>
      a.keychain.owner? coin.script = some address ∧
        (a.run reserved).reservations.isReserved coin.outpoint ∧
        (a.run pending).reservations.isPending coin.outpoint ∧
        ((Action.spend tx).perform (a.run reserved)).cachedBalance address 101 =
          .ok (some 100000) ∧
        ((Action.spend tx).perform (a.run pending)).cachedBalance address 101 =
          .ok (some 100000) := by
    decide +kernel
  obtain ⟨a, opened, facts⟩ := Step.exists_ok_of_any facts
  exact ⟨a, opened, of_decide_eq_true facts⟩

end Account

end HdWallet
