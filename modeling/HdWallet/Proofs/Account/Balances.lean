import HdWallet.KeySource.Scripted
import HdWallet.Proofs.Account.Run
import HdWallet.Proofs.Holdings

/-!
# Which balance counts

Answers to balance queries arrive late and in any order, while balances are invalidated
and further queries are made. The events of a run tell which tickets were issued, which
answers were kept and which addresses were invalidated, in the order in which this
happened. The floor of an address stays above every ticket that an invalidation has made
void, so the answers kept for an address have increasing tickets, and the balance that
counts is the last one kept, asked for after the last invalidation.
-/

namespace HdWallet

/-- Something that concerns which balances count. -/
inductive BalanceEvent where
  /-- A ticket is issued for queries made from now on. -/
  | issued (ticket : Nat)
  /-- The answer to a query that holds a ticket is kept. -/
  | accepted (address : Address) (balance : Amount) (ticket : Nat) (updatedAt : Timestamp)
  /-- The balance of an address, and every answer on its way, no longer counts. -/
  | invalidated (address : Address)
deriving DecidableEq

namespace BalanceEvent

/-- The ticket of a balance that is kept for the address. -/
def ticketFor? (address : Address) : BalanceEvent → Option Nat
  | accepted other _ ticket _ => if other = address then some ticket else none
  | issued _ | invalidated _ => none

def ticketsFor (address : Address) (log : List BalanceEvent) : List Nat :=
  log.filterMap (·.ticketFor? address)

def issued? : BalanceEvent → Option Nat
  | issued ticket => some ticket
  | accepted .. | invalidated _ => none

def issuedTickets (log : List BalanceEvent) : List Nat := log.filterMap issued?

theorem mem_issuedTickets {log : List BalanceEvent} {ticket : Nat} :
    ticket ∈ issuedTickets log ↔ issued ticket ∈ log := by
  rw [issuedTickets, List.mem_filterMap]
  constructor
  · rintro ⟨e, he, hissued⟩
    cases e with
    | issued t =>
        cases hissued
        exact he
    | accepted => cases hissued
    | invalidated => cases hissued
  · exact fun h => ⟨_, h, rfl⟩

theorem ticketsFor_append (address : Address) (log more : List BalanceEvent) :
    ticketsFor address (log ++ more) = ticketsFor address log ++ ticketsFor address more :=
  List.filterMap_append

theorem ticketsFor_singleton (address : Address) (e : BalanceEvent) :
    ticketsFor address [e] = (e.ticketFor? address).toList := by
  cases h : e.ticketFor? address with
  | none => exact List.filterMap_cons_none h
  | some ticket => exact List.filterMap_cons_some h

/-- What an event makes of the last ticket issued and of the floor of an address. -/
def advance (address : Address) : Nat × Nat → BalanceEvent → Nat × Nat
  | (_, floor), issued ticket => (ticket, floor)
  | (last, floor), accepted other _ ticket _ => (last, if other = address then ticket else floor)
  | (last, floor), invalidated other => (last, if other = address then last else floor)

theorem eq_of_ticketFor? {address : Address} {e : BalanceEvent} {ticket : Nat}
    (h : e.ticketFor? address = some ticket) :
    ∃ balance updatedAt, e = accepted address balance ticket updatedAt := by
  cases e with
  | accepted other balance t updatedAt =>
      rw [ticketFor?] at h
      split at h
      next same =>
          cases h
          exact ⟨balance, updatedAt, by rw [same]⟩
      next => cases h
  | issued => cases h
  | invalidated => cases h

/-- A balance that is kept raises the floor to its ticket. -/
theorem advance_of_ticketFor? {address : Address} {e : BalanceEvent} {ticket : Nat}
    (h : e.ticketFor? address = some ticket) (last floor : Nat) :
    advance address (last, floor) e = (last, ticket) := by
  obtain ⟨balance, updatedAt, rfl⟩ := eq_of_ticketFor? h
  rw [advance, if_pos rfl]

/-- The last balance kept for an address, and still good: nothing was kept for the address
after it, and no invalidation came after its ticket was issued. -/
def Standing (log : List BalanceEvent) (address : Address) (balance : Amount) (ticket : Nat)
    (updatedAt : Timestamp) : Prop :=
  ∃ before between after,
    log = before ++ issued ticket ::
      (between ++ accepted address balance ticket updatedAt :: after) ∧
    ticketsFor address after = [] ∧ invalidated address ∉ between ++ after

theorem Standing.append {log : List BalanceEvent} {address : Address} {balance : Amount}
    {ticket : Nat} {updatedAt : Timestamp} (h : Standing log address balance ticket updatedAt)
    {e : BalanceEvent} (other : e.ticketFor? address = none) (valid : e ≠ invalidated address) :
    Standing (log ++ [e]) address balance ticket updatedAt := by
  obtain ⟨before, between, after, rfl, last, standing⟩ := h
  refine ⟨before, between, after ++ [e], by simp, ?_, ?_⟩
  · rw [ticketsFor_append, last, ticketsFor_singleton, other]
    rfl
  · simp only [List.mem_append, List.mem_singleton, not_or] at standing ⊢
    exact ⟨standing.1, standing.2, valid.symm⟩

/-- The last ticket kept is the largest if the tickets increase. -/
theorem Standing.le_ticket {log : List BalanceEvent} {address : Address} {balance : Amount}
    {ticket : Nat} {updatedAt : Timestamp} (h : Standing log address balance ticket updatedAt)
    (increasing : (ticketsFor address log).Pairwise (· < ·)) :
    ∀ t ∈ ticketsFor address log, t ≤ ticket := by
  obtain ⟨before, between, after, rfl, last, -⟩ := h
  have split : ticketsFor address (before ++ issued ticket ::
      (between ++ accepted address balance ticket updatedAt :: after)) =
        ticketsFor address (before ++ between) ++ [ticket] := by
    have : ticketsFor address (accepted address balance ticket updatedAt :: after) = [ticket] := by
      rw [ticketsFor, List.filterMap_cons_some (by rw [ticketFor?, if_pos rfl])]
      exact congrArg _ last
    rw [ticketsFor_append, ticketsFor, ticketsFor, List.filterMap_cons_none rfl, ← ticketsFor,
      ← ticketsFor, ticketsFor_append, this, ticketsFor_append, List.append_assoc]
  rw [split] at increasing ⊢
  obtain ⟨-, -, below⟩ := List.pairwise_append.mp increasing
  intro t ht
  rcases List.mem_append.mp ht with ht | ht
  · exact Nat.le_of_lt (below t ht ticket List.mem_cons_self)
  · exact Nat.le_of_eq (List.mem_singleton.mp ht)

end BalanceEvent

namespace Account

/-- Whether the answer to a query that holds a ticket is kept. -/
def recording (a : Account) (address : Address) (ticket : Nat) (now : Timestamp) :
    Reply Amount → List BalanceEvent
  | .ok balance =>
    if (a.recordBalance address balance ticket now).2 then [.accepted address balance ticket now]
    else []
  | .error _ => []

/-- Whether an address is invalidated. Others' addresses are not. -/
def invalidation (a : Account) (address : Address) : List BalanceEvent :=
  if (a.keychain.find? address).isSome then [.invalidated address] else []

/-- Whether the address that a script belongs to is invalidated. -/
def scriptInvalidation (a : Account) (script : Script) : List BalanceEvent :=
  match a.keychain.ofScript? script with
  | none => []
  | some slot => a.invalidation slot.address

/-- What is invalidated when coins with these scripts were spent. -/
def spending : List Script → Account → List BalanceEvent
  | [], _ => []
  | script :: rest, a => a.scriptInvalidation script ++ spending rest (a.invalidateScript script)

/-- Mark the address used that a coin pays to, if it is one of the account's. -/
def markReceived (coin : Coin) : Step Account Unit := do
  if let some slot := (← get).keychain.ofScript? coin.script then
    discard (markUsed slot.address)

/-- What is invalidated when coins were received. It ends where marking fails. -/
def receiving : List Coin → Account → List BalanceEvent
  | [], _ => []
  | coin :: rest, a =>
    match markReceived coin a with
    | .error _ _ => []
    | .ok _ a =>
      a.scriptInvalidation coin.script ++ receiving rest (a.invalidateScript coin.script)

/-- What an action does that concerns which balances count, in order. -/
def Action.events (a : Account) : Action → List BalanceEvent
  | .invalidate address => a.invalidation address
  | .receive tx =>
    let (holdings, added) := a.holdings.receive tx
    receiving added { a with holdings }
  | .spend tx =>
    let (holdings, removed) := a.holdings.spend tx
    spending (removed.map Coin.script) { a with holdings }
  | .startRefresh addresses now =>
    match Refresh.staleAmong a now addresses with
    | .ok (_ :: _, _) => [.issued (a.tickets + 1)]
    | _ => []
  | .absorbRefresh refresh address reply now => a.recording address refresh.ticket now reply
  | .startEvent address =>
    if (a.keychain.find? address).isSome then [.invalidated address, .issued (a.tickets + 1)]
    else []
  | .closeEvent address ticket balance _ now => a.recording address ticket now balance
  | .startDrain => [.issued (a.tickets + 1)]
  | .absorbDrainBalance drain address reply now =>
    if drain.waiting.contains address then a.recording address drain.ticket now reply else []
  | _ => []

def log (a : Account) : List Action → List BalanceEvent
  | [] => []
  | action :: rest => action.events a ++ log (action.perform a) rest

/-- The ticket that an action takes from its caller. -/
def Action.ticket? : Action → Option Nat
  | .absorbRefresh refresh _ _ _ => some refresh.ticket
  | .closeEvent _ ticket _ _ _ => some ticket
  | .absorbDrainBalance drain _ _ _ => some drain.ticket
  | _ => none

/-- In a run that begins after the given events no snapshot is restored, and every ticket
that an action takes was issued before. -/
def Honest (a : Account) (earlier : List BalanceEvent) : List Action → Prop
  | [] => True
  | action :: rest =>
    action.restores = false ∧ (∀ ticket ∈ action.ticket?, .issued ticket ∈ earlier) ∧
      Honest (action.perform a) (earlier ++ action.events a) rest

instance decidableHonest : ∀ (a : Account) (earlier : List BalanceEvent) (actions : List Action),
    Decidable (a.Honest earlier actions)
  | _, _, [] => isTrue trivial
  | a, earlier, action :: rest =>
    have := decidableHonest (action.perform a) (earlier ++ action.events a) rest
    inferInstanceAs (Decidable (_ ∧ (∀ ticket ∈ action.ticket?, _) ∧ _))

/-- What the events so far say about tickets, floors and cached balances. -/
structure Tracks (earlier : List BalanceEvent) (a : Account) : Prop where
  keychain : a.keychain.WellFormed a.config.cacheLifetime
  issued_le : ∀ {ticket}, .issued ticket ∈ earlier → ticket ≤ a.tickets
  floor_le : ∀ address, a.floor address ≤ a.tickets
  /-- Every answer that is on its way when its address is invalidated is void. -/
  void : ∀ {before ticket after address}, earlier = before ++ .issued ticket :: after →
    .invalidated address ∈ after → ticket ≤ a.floor address
  kept_le : ∀ {address}, ∀ ticket ∈ BalanceEvent.ticketsFor address earlier,
    ticket ≤ a.floor address
  increasing : ∀ address, (BalanceEvent.ticketsFor address earlier).Pairwise (· < ·)
  issued_increasing : (BalanceEvent.issuedTickets earlier).Pairwise (· < ·)
  floor_eq : ∀ address,
    (a.tickets, a.floor address) = earlier.foldl (BalanceEvent.advance address) (0, 0)
  standing : ∀ {address balance updatedAt},
    a.keychain.reading address = .fresh balance updatedAt →
      ∃ ticket, BalanceEvent.Standing earlier address balance ticket updatedAt

/-- Whether an event may come next: a ticket that it issues is new, and one that it
accepts was issued and is above the floor. -/
def Allows (a : Account) (earlier : List BalanceEvent) : BalanceEvent → Prop
  | .issued ticket => a.tickets < ticket
  | .accepted address _ ticket _ => .issued ticket ∈ earlier ∧ a.floor address < ticket
  | .invalidated _ => True

theorem Allows.floor_lt {a : Account} {earlier : List BalanceEvent} {e : BalanceEvent}
    (allowed : a.Allows earlier e) {address : Address} {ticket : Nat}
    (h : e.ticketFor? address = some ticket) : a.floor address < ticket := by
  obtain ⟨balance, updatedAt, rfl⟩ := BalanceEvent.eq_of_ticketFor? h
  exact allowed.2

theorem recordBalance_cases (a : Account) (address : Address) (balance : Amount) (ticket : Nat)
    (now : Timestamp) :
    a.recordBalance address balance ticket now = (a, false) ∨
      a.floor address < ticket ∧
        let cached := a.keychain.modifyCache address (·.record balance now)
        cached.2 = true ∧ a.recordBalance address balance ticket now =
          ({ a.setKeychain cached.1 with floors := a.floors.insert address ticket }, true) := by
  obtain ⟨config, ⟨keychain, ledger, reservations⟩, retries, tickets, floors⟩ := a
  rw [recordBalance]
  split
  next => exact .inl rfl
  next above =>
      cases known : (keychain.modifyCache address (·.record balance now)).2 with
      | false =>
          left
          simp only [Keychain.modifyCache_of_unknown known, Bool.false_eq_true, if_false]
      | true =>
          refine .inr ⟨Nat.lt_of_not_le above, known, ?_⟩
          simp only [known, if_true]
          rfl

theorem invalidateAddress_cases (a : Account) (address : Address) :
    a.invalidateAddress address = (a, false) ∨
      let cached := a.keychain.modifyCache address (·.invalidate)
      cached.2 = true ∧ a.invalidateAddress address =
        ({ a.setKeychain cached.1 with floors := a.floors.insert address a.tickets }, true) := by
  rw [invalidateAddress]
  cases known : (a.keychain.modifyCache address (·.invalidate)).2 with
  | false =>
      left
      simp only [known, Bool.false_eq_true, if_false]
  | true =>
      refine .inr ⟨known, ?_⟩
      simp only [known, if_true]

theorem invalidateAddress_snd {a : Account} {lifetime : UInt64}
    (h : a.keychain.WellFormed lifetime) (address : Address) :
    (a.invalidateAddress address).2 = (a.keychain.find? address).isSome := by
  rw [← h.modifyCache_snd address (·.invalidate), invalidateAddress]
  cases known : (a.keychain.modifyCache address (·.invalidate)).2 with
  | false => simp only [known, Bool.false_eq_true, if_false]
  | true => simp only [known, if_true]

theorem floor_insert (a : Account) (address other : Address) (ticket : Nat) :
    (a.floors.insert address ticket).getD other 0 =
      if address = other then ticket else a.floor other := by
  rw [Std.ExtTreeMap.getD_insert]
  simp only [Std.compare_eq_iff_eq]
  rfl

/-- A property that depends only on tickets, floors and what is known about balances. -/
structure BalanceProperty (P : Account → Prop) : Prop where
  keychain : ∀ {a}, P a → a.keychain.WellFormed a.config.cacheLifetime
  silent : ∀ {a b : Account}, P a → b.keychain.WellFormed b.config.cacheLifetime →
    (∀ x, b.keychain.reading x = a.keychain.reading x) → b.tickets = a.tickets →
    b.floors = a.floors → P b

namespace BalanceProperty

variable {P : Account → Prop} (inv : BalanceProperty P)
include inv

theorem keeps_onHoldings {α : Type} {step : Step Holdings α}
    (keeps : ∀ {K : Keychain → Prop}, Keychain.Invariant K → step.Keeps fun t => K t.keychain) :
    (onHoldings step).Keeps P :=
  Step.keeps_onPart fun a ha =>
    (keeps (Keychain.invariant_reading a.config.cacheLifetime a.keychain.reading) a.holdings
        ⟨inv.keychain ha, fun _ => rfl⟩).mono
      (fun _ _ ⟨keychain, reading⟩ => inv.silent ha keychain reading rfl rfl)
      fun _ _ ⟨keychain, reading⟩ => inv.silent ha keychain reading rfl rfl

/-- Whatever else changes, the property stays. -/
theorem congr {a b : Account} (ha : P a) (keychain : b.keychain = a.keychain)
    (lifetime : b.config.cacheLifetime = a.config.cacheLifetime) (tickets : b.tickets = a.tickets)
    (floors : b.floors = a.floors) : P b := by
  apply inv.silent ha _ _ tickets floors
  · rw [keychain, lifetime]
    exact inv.keychain ha
  · intro x
    rw [keychain]

theorem holdingsInvariant : HoldingsInvariant P where
  setRetries retries h := by apply inv.congr h <;> rfl
  setCacheLifetime lifetime h := by
    apply inv.silent h
    · exact (inv.keychain h).setCacheLifetime lifetime
    · exact Keychain.reading_setCacheLifetime _ lifetime
    · rfl
    · rfl
  setGapLimit branch limit := by
    have set : (onKeychain (Keychain.setGapLimit branch limit.toNat)).Keeps P :=
      inv.keeps_onHoldings fun kept =>
        Holdings.keeps_keychain (kept.keeps_setGapLimit branch limit.toNat)
    apply set.bind
    intro added
    refine (Step.keeps_modify ?_).bind fun _ => Step.keeps_pure _
    intro a ha
    apply inv.congr ha <;> cases branch <;> rfl
  nextUnused branch excluded := inv.keeps_onHoldings fun kept =>
    Holdings.keeps_keychain (kept.toGrowth.keeps_nextUnused branch excluded)
  markUsed address := inv.keeps_onHoldings fun kept =>
    Holdings.keeps_keychain (kept.toMarking.carried.keeps_markUsed address)
  addCoin {a} coin h := by
    have same : (a.addCoin coin).1.keychain = a.keychain := by
      change (a.holdings.addCoin coin).1.keychain = a.holdings.keychain
      rw [Holdings.addCoin]
      split <;> rfl
    exact inv.congr h same rfl rfl rfl
  removeCoin outpoint h := by apply inv.congr h <;> rfl
  receive tx h := by apply inv.congr h <;> rfl
  spend tx h := by apply inv.congr h <;> rfl
  reserve request selector now := inv.keeps_onHoldings fun kept =>
    kept.toMarking.carried.keeps_reserve request selector now
  release id outcome := inv.keeps_onHoldings fun kept =>
    kept.toMarking.carried.keeps_release id outcome
  resync address reported := inv.keeps_onHoldings fun kept =>
    kept.toMarking.carried.keeps_resync address reported
  replaceAll reports := inv.keeps_onHoldings fun kept =>
    kept.toMarking.carried.keeps_replaceAll reports

end BalanceProperty

namespace Tracks

variable {earlier : List BalanceEvent} {a : Account}

/-- What neither issues a ticket nor changes a cached balance is no event. -/
theorem silent (h : Tracks earlier a) {b : Account}
    (keychain : b.keychain.WellFormed b.config.cacheLifetime)
    (reading : ∀ x, b.keychain.reading x = a.keychain.reading x)
    (tickets : b.tickets = a.tickets) (floors : b.floors = a.floors) : Tracks earlier b := by
  have floor (x : Address) : b.floor x = a.floor x := by rw [Account.floor, floors, Account.floor]
  constructor
  case keychain => exact keychain
  case issued_le =>
      intro ticket ht
      exact tickets ▸ h.issued_le ht
  case floor_le =>
      intro x
      rw [floor, tickets]
      exact h.floor_le x
  case void =>
      intro before ticket after x split hafter
      rw [floor]
      exact h.void split hafter
  case kept_le =>
      intro x ticket ht
      rw [floor]
      exact h.kept_le ticket ht
  case increasing => exact h.increasing
  case issued_increasing => exact h.issued_increasing
  case floor_eq =>
      intro x
      rw [floor, tickets]
      exact h.floor_eq x
  case standing =>
      intro x balance updatedAt hfresh
      rw [reading] at hfresh
      exact h.standing hfresh

theorem void_append (h : Tracks earlier a) {e : BalanceEvent} {floor : Address → Nat}
    (mono : ∀ x, a.floor x ≤ floor x) (raised : ∀ x, e = .invalidated x → a.tickets ≤ floor x)
    {before after : List BalanceEvent} {ticket : Nat} {address : Address}
    (split : earlier ++ [e] = before ++ .issued ticket :: after)
    (hafter : .invalidated address ∈ after) : ticket ≤ floor address := by
  rcases List.eq_nil_or_concat after with rfl | ⟨rest, last, rfl⟩
  · cases hafter
  · rw [List.concat_eq_append, ← List.cons_append, ← List.append_assoc] at split
    obtain ⟨rfl, hlast⟩ := List.append_inj' split rfl
    cases hlast
    rw [List.concat_eq_append, List.mem_append, List.mem_singleton] at hafter
    rcases hafter with hrest | here
    · exact Nat.le_trans (h.void rfl hrest) (mono address)
    · have : ticket ≤ a.tickets := h.issued_le (by simp)
      exact Nat.le_trans this (raised address here.symm)

theorem append_nil (h : Tracks earlier a) : Tracks (earlier ++ []) a := by
  rw [List.append_nil]
  exact h

/-- Tickets and floors never fall, and no floor exceeds the last ticket. -/
theorem advance_ge (h : Tracks earlier a) {e : BalanceEvent} (allowed : a.Allows earlier e)
    (x : Address) :
    let next := BalanceEvent.advance x (a.tickets, a.floor x) e
    a.tickets ≤ next.1 ∧ a.floor x ≤ next.2 ∧ next.2 ≤ next.1 := by
  have below := h.floor_le x
  cases e with
  | issued ticket =>
      have above : a.tickets < ticket := allowed
      exact ⟨Nat.le_of_lt above, Nat.le_refl _, Nat.le_of_lt (Nat.lt_of_le_of_lt below above)⟩
  | accepted address balance ticket updatedAt =>
      obtain ⟨issued, above⟩ := allowed
      have issued_le := h.issued_le issued
      simp only [BalanceEvent.advance]
      split
      next same =>
          rw [← same]
          exact ⟨Nat.le_refl _, Nat.le_of_lt above, issued_le⟩
      next => exact ⟨Nat.le_refl _, Nat.le_refl _, below⟩
  | invalidated address =>
      simp only [BalanceEvent.advance]
      split
      next => exact ⟨Nat.le_refl _, below, Nat.le_refl _⟩
      next => exact ⟨Nat.le_refl _, Nat.le_refl _, below⟩

/-- An event that is allowed is tracked if tickets and floors advance as it says. -/
theorem append (h : Tracks earlier a) {b : Account} {e : BalanceEvent}
    (allowed : a.Allows earlier e)
    (advanced : ∀ x, (b.tickets, b.floor x) = BalanceEvent.advance x (a.tickets, a.floor x) e)
    (keychain : b.keychain.WellFormed b.config.cacheLifetime)
    (standing : ∀ {x balance updatedAt}, b.keychain.reading x = .fresh balance updatedAt →
      ∃ ticket, BalanceEvent.Standing (earlier ++ [e]) x balance ticket updatedAt) :
    Tracks (earlier ++ [e]) b := by
  have grows (x : Address) :
      a.tickets ≤ b.tickets ∧ a.floor x ≤ b.floor x ∧ b.floor x ≤ b.tickets := by
    obtain ⟨tickets, floor⟩ := Prod.mk.inj (advanced x)
    rw [tickets, floor]
    exact h.advance_ge allowed x
  constructor
  case keychain => exact keychain
  case issued_le =>
      intro ticket ht
      obtain ht | ht := List.mem_append.mp ht
      · exact Nat.le_trans (h.issued_le ht) (grows default).1
      · cases List.mem_singleton.mp ht
        exact Nat.le_of_eq (congrArg Prod.fst (advanced default)).symm
  case floor_le =>
      intro x
      exact (grows x).2.2
  case void =>
      intro before ticket after x split hafter
      apply h.void_append (fun x => (grows x).2.1) _ split hafter
      rintro x rfl
      have raised := congrArg Prod.snd (advanced x)
      rw [BalanceEvent.advance, if_pos rfl] at raised
      exact Nat.le_of_eq raised.symm
  case kept_le =>
      intro x ticket ht
      rw [BalanceEvent.ticketsFor_append, BalanceEvent.ticketsFor_singleton, List.mem_append,
        Option.mem_toList] at ht
      obtain ht | ht := ht
      · exact Nat.le_trans (h.kept_le ticket ht) (grows x).2.1
      · have raised := congrArg Prod.snd (advanced x)
        rw [BalanceEvent.advance_of_ticketFor? ht] at raised
        exact Nat.le_of_eq raised.symm
  case increasing =>
      intro x
      rw [BalanceEvent.ticketsFor_append, BalanceEvent.ticketsFor_singleton, List.pairwise_append]
      refine ⟨h.increasing x, Option.pairwise_toList, ?_⟩
      intro t ht u hu
      exact Nat.lt_of_le_of_lt (h.kept_le t ht) (allowed.floor_lt (Option.mem_toList.mp hu))
  case issued_increasing =>
      rw [BalanceEvent.issuedTickets, List.filterMap_append, List.pairwise_append]
      refine ⟨h.issued_increasing, ?_, ?_⟩
      · cases e with
        | issued ticket => exact List.pairwise_singleton _ _
        | accepted | invalidated => exact List.Pairwise.nil
      · intro t ht u hu
        have issued := BalanceEvent.mem_issuedTickets.mp hu
        cases List.mem_singleton.mp issued
        exact Nat.lt_of_le_of_lt (h.issued_le (BalanceEvent.mem_issuedTickets.mp ht)) allowed
  case floor_eq =>
      intro x
      rw [List.foldl_append, ← h.floor_eq x, advanced]
      rfl
  case standing => exact standing

theorem issue (h : Tracks earlier a) :
    Tracks (earlier ++ [.issued (a.tickets + 1)]) { a with tickets := a.tickets + 1 } := by
  have allowed : a.Allows earlier (.issued (a.tickets + 1)) := Nat.lt_succ_self _
  refine h.append allowed (fun _ => rfl) h.keychain ?_
  intro x balance updatedAt hfresh
  obtain ⟨ticket, standing⟩ := h.standing hfresh
  exact ⟨ticket, standing.append rfl nofun⟩

/-- Invalidating raises the floor to the last ticket issued. -/
theorem invalidate (h : Tracks earlier a) (address : Address) :
    Tracks (earlier ++ a.invalidation address) (a.invalidateAddress address).1 := by
  obtain unknown | ⟨known, invalidated⟩ := a.invalidateAddress_cases address
  · rw [invalidation, ← invalidateAddress_snd h.keychain, unknown]
    exact h.append_nil
  · rw [invalidation, ← invalidateAddress_snd h.keychain, invalidated, if_pos rfl]
    obtain ⟨cache, reading⟩ := h.keychain.reading_modifyCache known
    have allowed : a.Allows earlier (.invalidated address) := trivial
    apply h.append allowed
    · intro x
      rw [Account.floor, floor_insert]
      rfl
    · apply h.keychain.modifyCache address
      intro c
      simp only [CachedBalance.invalidate]
      split <;> rfl
    · intro x balance updatedAt hfresh
      change (a.keychain.modifyCache address _).1.reading x = _ at hfresh
      rw [reading] at hfresh
      split at hfresh
      next =>
          -- No balance is fresh just after it was invalidated.
          simp only [CachedBalance.invalidate] at hfresh
          split at hfresh <;> simp_all
      next other =>
          obtain ⟨ticket, standing⟩ := h.standing hfresh
          refine ⟨ticket, standing.append rfl fun same => other ?_⟩
          cases same
          rfl

/-- An answer is kept only if its ticket is above the floor. No invalidation then came
after the ticket was issued. -/
theorem record (h : Tracks earlier a) {ticket : Nat} (issued : .issued ticket ∈ earlier)
    (address : Address) (balance : Amount) (now : Timestamp) :
    Tracks (earlier ++ a.recording address ticket now (.ok balance))
      (a.recordBalance address balance ticket now).1 := by
  obtain refused | ⟨above, known, kept⟩ := a.recordBalance_cases address balance ticket now
  · rw [recording, refused]
    exact h.append_nil
  · rw [recording, kept, if_pos rfl]
    obtain ⟨cache, reading⟩ := h.keychain.reading_modifyCache known
    have allowed : a.Allows earlier (.accepted address balance ticket now) := ⟨issued, above⟩
    apply h.append allowed
    · intro x
      rw [Account.floor, floor_insert]
      rfl
    · apply h.keychain.modifyCache address
      intro c
      rfl
    · intro x value updatedAt hfresh
      change (a.keychain.modifyCache address _).1.reading x = _ at hfresh
      rw [reading] at hfresh
      split at hfresh
      next same =>
          cases hfresh
          subst same
          obtain ⟨before, between, rfl⟩ := List.append_of_mem issued
          refine ⟨ticket, before, between, [], by simp, rfl, fun hinvalid => ?_⟩
          rw [List.append_nil] at hinvalid
          exact absurd (h.void rfl hinvalid) (Nat.not_le_of_lt above)
      next other =>
          obtain ⟨ticket, standing⟩ := h.standing hfresh
          refine ⟨ticket, standing.append ?_ (by simp)⟩
          rw [BalanceEvent.ticketFor?, if_neg (Ne.symm other)]

theorem balanceProperty (earlier : List BalanceEvent) : BalanceProperty (Tracks earlier) where
  keychain h := h.keychain
  silent h := h.silent

theorem holdingsInvariant (earlier : List BalanceEvent) : HoldingsInvariant (Tracks earlier) :=
  (balanceProperty earlier).holdingsInvariant

theorem invalidateScript (h : Tracks earlier a) (script : Script) :
    Tracks (earlier ++ a.scriptInvalidation script) (a.invalidateScript script) := by
  rw [scriptInvalidation, Account.invalidateScript]
  cases a.keychain.ofScript? script with
  | none => exact h.append_nil
  | some slot => exact h.invalidate slot.address

theorem spend (h : Tracks earlier a) (scripts : List Script) :
    Tracks (earlier ++ spending scripts a) (scripts.foldl Account.invalidateScript a) := by
  induction scripts generalizing earlier a with
  | nil => exact h.append_nil
  | cons script rest ih =>
      rw [spending, ← List.append_assoc]
      exact ih (h.invalidateScript script)

theorem wp_noteReceived (h : Tracks earlier a) (coins : List Coin) :
    (noteReceived coins).wp (fun _ => Tracks (earlier ++ receiving coins a))
      (fun _ => Tracks (earlier ++ receiving coins a)) a := by
  induction coins generalizing earlier a with
  | nil => exact h.append_nil
  | cons coin rest ih =>
      have marks : (markReceived coin).Keeps (Tracks earlier) := by
        apply Step.keeps_get.bind
        intro a
        split
        next => exact ((holdingsInvariant earlier).markUsed _).discard
        next => exact Step.keeps_pure _
      have first : noteReceived (coin :: rest) = (do
          markReceived coin
          modify (·.invalidateScript coin.script)
          noteReceived rest) := by
        simp only [noteReceived, markReceived, bind_assoc]
        apply bind_congr
        intro a
        cases a.keychain.ofScript? coin.script <;> rfl
      rw [first, Step.wp_bind, Step.wp_iff]
      constructor
      · intro _ b hb
        simp only [Step.wp_bind, Step.wp_modify]
        rw [receiving, hb, ← List.append_assoc]
        exact ih (((marks a h).of_ok hb).invalidateScript coin.script)
      · intro e b he
        rw [receiving, he, List.append_nil]
        exact (marks a h).of_error he

theorem wp_issueTicket (h : Tracks earlier a) :
    issueTicket.wp (fun _ => Tracks (earlier ++ [.issued (a.tickets + 1)]))
      (fun _ => Tracks (earlier ++ [.issued (a.tickets + 1)])) a := by
  simp only [issueTicket, Step.wp_bind, Step.wp_modify, Step.wp_get, Step.wp_pure]
  exact h.issue

theorem wp_startRefresh (h : Tracks earlier a) (addresses : List Address) (now : Timestamp) :
    (Refresh.start addresses now).wp
      (fun _ => Tracks (earlier ++ (Action.startRefresh addresses now).events a))
      (fun _ => Tracks (earlier ++ (Action.startRefresh addresses now).events a)) a := by
  simp only [Refresh.start, Action.events, Step.wp_bind, Step.wp_get]
  cases Refresh.staleAmong a now addresses with
  | error e => exact h.append_nil
  | ok answer =>
      obtain ⟨stale, fresh⟩ := answer
      cases stale with
      | nil => exact h.append_nil
      | cons address rest => exact h.wp_issueTicket.mono (fun _ _ hb => hb) fun _ _ hb => hb

theorem absorbRefresh (h : Tracks earlier a) {refresh : Refresh}
    (issued : .issued refresh.ticket ∈ earlier) (address : Address) (reply : Reply Amount)
    (now : Timestamp) :
    Tracks (earlier ++ (Action.absorbRefresh refresh address reply now).events a)
      (refresh.absorb address reply now a).1 := by
  cases reply with
  | ok balance =>
      have recorded := h.record issued address balance now
      simp only [Refresh.absorb, Action.events]
      split
      next => exact (holdingsInvariant _).setRetries _ recorded
      next => exact recorded
  | error failure =>
      exact (holdingsInvariant _).noteFailure h.append_nil .balance _ now

theorem wp_startEvent (h : Tracks earlier a) (address : Address) :
    (startEvent address).wp (fun _ => Tracks (earlier ++ (Action.startEvent address).events a))
      (fun _ => Tracks (earlier ++ (Action.startEvent address).events a)) a := by
  have invalidated := h.invalidate address
  simp only [startEvent, Action.events, ← invalidateAddress_snd h.keychain, Step.wp_bind,
    Step.wp_get]
  rcases a.invalidateAddress_cases address with unknown | ⟨-, known⟩
  · simp only [unknown]
    exact h.append_nil
  · rw [invalidation, ← invalidateAddress_snd h.keychain, known, if_pos rfl] at invalidated
    simp only [known, if_true, Step.wp_bind, Step.wp_set, Step.wp_map]
    rw [List.append_cons]
    exact invalidated.wp_issueTicket.mono (fun _ _ hb => hb) fun _ _ hb => hb

theorem wp_closeEvent (h : Tracks earlier a) {ticket : Nat} (issued : .issued ticket ∈ earlier)
    (address : Address) (balance : Reply Amount) (unspent : Reply (List Coin))
    (now : Timestamp) :
    (closeEvent address ticket balance unspent now).wp
      (fun _ => Tracks (earlier ++ a.recording address ticket now balance))
      (fun _ => Tracks (earlier ++ a.recording address ticket now balance)) a := by
  have inv := holdingsInvariant (earlier ++ a.recording address ticket now balance)
  have noted : Tracks (earlier ++ a.recording address ticket now balance)
      (noteEventBalance address ticket balance now a).1 := by
    cases balance with
    | ok balance => exact h.record issued address balance now
    | error failure =>
        exact inv.noteFailure h.append_nil .balance _ now
  simp only [closeEvent, Step.wp_bind, Step.wp_get, Step.wp_set]
  cases unspent with
  | ok coins =>
      exact (inv.resync address coins).discard.bind (fun _ => Step.keeps_ofExcept _) _ noted
  | error failure => exact Step.keeps_ofExcept _ inv.weaken _ (inv.noteFailure noted .unspent _ now)

theorem wp_startDrain (h : Tracks earlier a) :
    Drain.start.wp (fun _ => Tracks (earlier ++ Action.startDrain.events a))
      (fun _ => Tracks (earlier ++ Action.startDrain.events a)) a := by
  simp only [Drain.start, Action.events, Step.wp_bind, Step.wp_get, Step.wp_modify]
  have taken := (holdingsInvariant earlier).setRetries
    ((a.retries.take .balance).1.take .unspent).1 h
  apply taken.wp_issueTicket.mono _ fun _ _ hb => hb
  intro ticket b hb
  split <;> exact hb

theorem absorbDrainBalance (h : Tracks earlier a) {drain : Drain}
    (issued : .issued drain.ticket ∈ earlier) (address : Address) (reply : Reply Amount)
    (now : Timestamp) :
    Tracks (earlier ++ (Action.absorbDrainBalance drain address reply now).events a)
      (drain.absorbBalance address reply now a).1 := by
  rw [Action.events, Drain.absorbBalance, Std.ExtTreeMap.contains_eq_isSome_getElem?]
  cases drain.waiting[address]? with
  | none => exact h.append_nil
  | some request =>
      cases reply with
      | ok balance => exact h.record issued address balance now
      | error failure =>
          exact (holdingsInvariant _).requeue h.append_nil _ request failure

/-- One action continues the events by its own. -/
theorem perform (h : Tracks earlier a) {action : Action} (restores : action.restores = false)
    (issued : ∀ ticket ∈ action.ticket?, .issued ticket ∈ earlier) :
    Tracks (earlier ++ action.events a) (action.perform a) := by
  have inv := holdingsInvariant earlier
  have untouched (quiet : action.touchesBalances = false) (none : action.events a = []) :
      Tracks (earlier ++ action.events a) (action.perform a) := by
    rw [none, List.append_nil]
    exact (inv.keeps_step quiet).stateAfter h
  cases action with
  | invalidate address =>
      refine Step.stateAfter_of_wp ?_
      simp only [Action.step, Account.invalidate, Action.events, Step.wp_bind, Step.wp_get]
      have invalidated := h.invalidate address
      rcases a.invalidateAddress_cases address with unknown | ⟨-, known⟩
      · rw [unknown] at invalidated
        simp only [unknown]
        exact invalidated
      · rw [known] at invalidated
        simp only [known]
        exact invalidated
  | receive tx =>
      refine Step.stateAfter_of_wp ?_
      simp only [Action.step, Account.receive, Step.wp_discard, Step.wp_bind, Step.wp_get,
        Step.wp_modify, Step.wp_pure]
      exact (inv.receive tx h).wp_noteReceived _
  | spend tx => exact (inv.spend tx h).spend _
  | applySnapshot snapshot => cases restores
  | startRefresh addresses now =>
      refine Step.stateAfter_of_wp ((Step.wp_discard _ _).mpr ?_)
      exact h.wp_startRefresh addresses now
  | absorbRefresh refresh address reply now =>
      exact h.absorbRefresh (issued _ rfl) address reply now
  | startEvent address =>
      exact Step.stateAfter_of_wp ((Step.wp_discard _ _).mpr (h.wp_startEvent address))
  | closeEvent address ticket balance unspent now =>
      exact Step.stateAfter_of_wp (h.wp_closeEvent (issued _ rfl) address balance unspent now)
  | startDrain => exact Step.stateAfter_of_wp ((Step.wp_discard _ _).mpr h.wp_startDrain)
  | absorbDrainBalance drain address reply now =>
      exact h.absorbDrainBalance (issued _ rfl) address reply now
  | nextUnused | markUsed | setGapLimit | setCacheLifetime | addCoin | removeCoin | reserve
  | release | expire | closeResync | absorbScan | noteHistory | absorbDrainUnspent
  | abandonDrain => exact untouched rfl rfl

theorem run (h : Tracks earlier a) {actions : List Action} (honest : a.Honest earlier actions) :
    Tracks (earlier ++ a.log actions) (a.run actions) := by
  induction actions generalizing earlier a with
  | nil => exact h.append_nil
  | cons action rest ih =>
      obtain ⟨restores, issued, later⟩ := honest
      rw [log, ← List.append_assoc]
      exact ih (h.perform restores issued) later

theorem of_ofConfig {config : Config} {source : KeySource}
    (opened : ofConfig config source = .ok a) : Tracks [] a := by
  obtain ⟨keychain, hkeys, rfl⟩ := ofConfig_eq_ok opened
  obtain ⟨wellFormed, reading⟩ := (Keychain.invariant_reading config.cacheLifetime
    fun _ => .unknown).toGrowth.of_ofConfig ⟨Keychain.wellFormed_blank config source,
      Keychain.reading_blank config source⟩ hkeys
  have floor (x : Address) : (∅ : Std.ExtTreeMap Address Nat).getD x 0 = 0 := by simp
  constructor
  case keychain => exact wellFormed
  case issued_le => nofun
  case floor_le =>
      intro x
      exact Nat.le_of_eq (floor x)
  case void =>
      intro before ticket after x split
      simp at split
  case kept_le => nofun
  case increasing =>
      intro x
      exact List.Pairwise.nil
  case issued_increasing => exact List.Pairwise.nil
  case floor_eq =>
      intro x
      exact congrArg (Prod.mk 0) (floor x)
  case standing =>
      intro x balance updatedAt hfresh
      change keychain.reading x = _ at hfresh
      rw [reading] at hfresh
      cases hfresh

end Tracks

/-- A cached balance that counts is fresh and young enough. -/
theorem fresh_of_cachedBalance {a : Account} (h : a.keychain.WellFormed a.config.cacheLifetime)
    {address : Address} {now : Timestamp} {balance : Amount}
    (cached : a.cachedBalance address now = .ok (some balance)) :
    ∃ updatedAt, a.keychain.reading address = .fresh balance updatedAt ∧
      Timestamp.elapsed updatedAt now < a.config.cacheLifetime.toNat := by
  rw [cachedBalance] at cached
  split at cached
  next => cases cached
  next slot found =>
      have lifetime := h.lifetime_of_find? found
      rw [Keychain.reading, found]
      simp only [Except.ok.injEq, CachedBalance.balance?, CachedBalance.isValid] at cached
      cases reading : slot.cache.reading with
      | fresh value updatedAt =>
          simp only [reading, decide_eq_true_iff] at cached
          split at cached
          next young =>
              cases cached
              exact ⟨updatedAt, reading, lifetime ▸ young⟩
          next => cases cached
      | unknown => simp [reading] at cached
      | stale => simp [reading] at cached

/-- The events leave nothing out: the last ticket issued and the floor of every address can
be read off them. -/
theorem floor_run {config : Config} {source : KeySource} {a : Account}
    (opened : ofConfig config source = .ok a) {actions : List Action}
    (honest : a.Honest [] actions) (address : Address) :
    ((a.run actions).tickets, (a.run actions).floor address) =
      (a.log actions).foldl (BalanceEvent.advance address) (0, 0) :=
  ((Tracks.of_ofConfig opened).run honest).floor_eq address

/-- Over a run from an account just opened, tickets increase as they are issued, and those
of the answers kept for an address increase as they are kept. A balance that counts is the
last one kept for its address, and holds the largest ticket; it is younger than the
lifetime now in force, and its address was not invalidated after the ticket was issued. -/
theorem standing_of_cachedBalance {config : Config} {source : KeySource} {a : Account}
    (opened : ofConfig config source = .ok a) {actions : List Action}
    (honest : a.Honest [] actions) (address : Address) :
    (BalanceEvent.issuedTickets (a.log actions)).Pairwise (· < ·) ∧
    (BalanceEvent.ticketsFor address (a.log actions)).Pairwise (· < ·) ∧
    ∀ now balance, (a.run actions).cachedBalance address now = .ok (some balance) →
      ∃ ticket updatedAt,
        BalanceEvent.Standing (a.log actions) address balance ticket updatedAt ∧
        (∀ t ∈ BalanceEvent.ticketsFor address (a.log actions), t ≤ ticket) ∧
        Timestamp.elapsed updatedAt now < (a.run actions).config.cacheLifetime.toNat := by
  have tracks := (Tracks.of_ofConfig opened).run honest
  refine ⟨tracks.issued_increasing, tracks.increasing address, ?_⟩
  intro now balance cached
  obtain ⟨updatedAt, fresh, young⟩ := fresh_of_cachedBalance tracks.keychain cached
  obtain ⟨ticket, standing⟩ := tracks.standing fresh
  exact ⟨ticket, updatedAt, standing, standing.le_ticket (tracks.increasing address), young⟩

/-- An answer that was overtaken by an invalidation and a later query is not kept. -/
theorem standing_after_late_answer :
    let config : Config := { receivingGapLimit := 1, changeGapLimit := 1 }
    let address : Address := ⟨"receiving-0"⟩
    let actions : List Action :=
      [.startRefresh [address] 100, .invalidate address, .startRefresh [address] 101,
        .absorbRefresh { ticket := 2, report := {} } address (.ok 700) 105,
        .absorbRefresh { ticket := 1, report := {} } address (.ok 900) 106]
    ∃ a, ofConfig config (.numbered ∅ true) = .ok a ∧ a.Honest [] actions ∧
      (a.run actions).cachedBalance address 110 = .ok (some 700) ∧
      ∃ ticket updatedAt,
        BalanceEvent.Standing (a.log actions) address 700 ticket updatedAt := by
  intro config address actions
  have answer : (ofConfig config (.numbered ∅ true)).toOption.any fun a =>
      a.Honest [] actions ∧ (a.run actions).cachedBalance address 110 = .ok (some 700) := by
    decide +kernel
  cases opened : ofConfig config (.numbered ∅ true) with
  | error e =>
      rw [opened] at answer
      cases answer
  | ok a =>
      rw [opened] at answer
      obtain ⟨honest, cached⟩ := of_decide_eq_true answer
      obtain ⟨-, -, counts⟩ := standing_of_cachedBalance opened honest address
      obtain ⟨ticket, updatedAt, standing, -⟩ := counts 110 700 cached
      exact ⟨a, rfl, honest, cached, ticket, updatedAt, standing⟩

end Account

end HdWallet
