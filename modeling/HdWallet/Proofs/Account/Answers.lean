import HdWallet.Proofs.Account.Resync
import HdWallet.Proofs.Account.Spent

/-!
# Answers that come late

An answer about unspent outputs holds no ticket. Whenever it was fixed, it is compared with the
coins and the pending spends that the account has when it is taken in, and only what the account
withholds then is kept out. An answer about one address judges the coins of that address's
script. The answers of a full resync judge every coin, also those of addresses that joined the
account after it had begun and that nobody asked about.
-/

namespace HdWallet

namespace ReservationTable

variable (table : ReservationTable)

/-- Settling changes nothing for what is reported. -/
theorem isWithheld_settle {queried : Script → Bool} {reported : Std.ExtTreeSet OutPoint}
    {o : OutPoint} (told : reported.contains o) :
    (table.settle queried reported).isWithheld o = table.isWithheld o := by
  have pending : (table.settle queried reported).pending[o]? = table.pending[o]? := by
    apply Option.ext
    intro script
    rw [pending_settle_iff]
    exact and_iff_left fun _ => told
  have reserved : (table.settle queried reported).isReserved o = table.isReserved o := rfl
  rw [isWithheld, isWithheld, reserved, isPending, isPending,
    Std.ExtTreeMap.contains_eq_isSome_getElem?, pending, Std.ExtTreeMap.contains_eq_isSome_getElem?]

end ReservationTable

namespace Holdings

/-- The coins reported about some addresses that the addresses' own scripts lock. -/
def reported (h : Holdings) (reports : List (Address × List Coin)) : List Coin :=
  reports.flatMap fun report =>
    report.2.filter fun coin => h.keychain.scriptOf? report.1 == some coin.script

variable {h t : Holdings} {reports : List (Address × List Coin)}

theorem mem_reported {coin : Coin} : coin ∈ h.reported reports ↔
    ∃ report ∈ reports, h.keychain.scriptOf? report.1 = some coin.script ∧ coin ∈ report.2 := by
  simp only [reported, List.mem_flatMap, List.mem_filter, beq_iff_eq, and_comm]

theorem reported_congr (same : ∀ report ∈ reports,
    t.keychain.scriptOf? report.1 = h.keychain.scriptOf? report.1) :
    t.reported reports = h.reported reports := by
  rw [reported, reported]
  apply List.flatMap_congr
  intro report listed
  rw [same report listed]

theorem reported_cons (report : Address × List Coin) :
    h.reported (report :: reports) = h.reported [report] ++ h.reported reports := by
  rw [reported, List.flatMap_cons, reported, List.flatMap_singleton, reported]

theorem reported_of_unknown {address : Address} (unknown : h.keychain.find? address = none)
    (coins : List Coin) : h.reported [(address, coins)] = [] := by
  simp [reported, Keychain.scriptOf?, unknown]

theorem reported_of_found {address : Address} {slot : Slot}
    (found : h.keychain.find? address = some slot) (coins : List Coin) :
    h.reported [(address, coins)] = coins.filter (·.script == slot.script) := by
  have hscript : h.keychain.scriptOf? address = some slot.script := by
    rw [Keychain.scriptOf?, found, Option.map_some]
  rw [reported, List.flatMap_singleton]
  exact (@filter_script h (fun _ => coins) address slot.script hscript).symm

theorem flatMap_own (h : Holdings) (reports : List (Address × List Coin)) :
    (reports.filterMap fun (address, coins) => (h.keychain.find? address).map fun slot =>
      (address, coins.filter (·.script == slot.script))).flatMap (·.2) = h.reported reports := by
  induction reports with
  | nil => rfl
  | cons report rest ih =>
      obtain ⟨address, coins⟩ := report
      rw [reported_cons, List.filterMap_cons]
      cases found : h.keychain.find? address with
      | none => simp only [reported_of_unknown found, found, Option.map_none, List.nil_append, ih]
      | some slot =>
          simp only [reported_of_found found, found, Option.map_some, List.flatMap_cons, ih]

/-- What is left when the coins reported for some scripts were taken in. -/
structure Judged (h : Holdings) (coins : List Coin) (asked : Script → Prop) (t : Holdings) :
    Prop where
  /-- No reservation gains or loses a coin. -/
  holders_eq : t.reservations.holders = h.reservations.holders
  /-- Of the spends on those scripts, the ones that are still reported stay pending. -/
  pending_iff : ∀ (o : OutPoint) script, t.reservations.pending[o]? = some script ↔
    h.reservations.pending[o]? = some script ∧
      (asked script → ∃ coin ∈ coins, coin.outpoint = o)
  /-- Of the coins with those scripts, the ones that are reported and not withheld are there. -/
  contains_iff : ∀ o, t.ledger.contains o ↔
    (∃ coin ∈ coins, coin.outpoint = o ∧ ¬h.reservations.isWithheld o) ∨
      ∃ coin ∈ h.ledger.coins, coin.outpoint = o ∧ ¬asked coin.script

namespace Judged

variable {coins : List Coin} {asked : Script → Prop}

theorem setKeychain (keychain : Keychain) (ht : h.Judged coins asked t) :
    h.Judged coins asked { t with keychain } :=
  ⟨ht.holders_eq, ht.pending_iff, ht.contains_iff⟩

/-- Pending spends are settled, and reported coins are put in unless they are withheld then. -/
theorem of_settle {queried : Script → Bool} (same : ∀ script, asked script ↔ queried script)
    {ledger : Ledger} (keychain : Keychain) :
    let reservations := h.reservations.settle queried (.ofList (coins.map (·.outpoint)))
    (∀ o, ledger.contains o ↔
      (∃ coin ∈ coins.filter (fun coin => !reservations.isWithheld coin.outpoint),
        coin.outpoint = o) ∨
        ∃ coin ∈ h.ledger.coins, coin.outpoint = o ∧ ¬asked coin.script) →
    h.Judged coins asked { keychain, ledger, reservations } := by
  intro reservations contains
  have told {o : OutPoint} : (Std.ExtTreeSet.ofList (coins.map (·.outpoint))).contains o ↔
      ∃ coin ∈ coins, coin.outpoint = o := by
    rw [Std.ExtTreeSet.contains_ofList, List.contains_iff_mem, List.mem_map]
  constructor
  case holders_eq => rfl
  case pending_iff =>
      intro o script
      rw [h.reservations.pending_settle_iff, told, same]
  case contains_iff =>
      intro o
      rw [contains]
      apply or_congr_left
      constructor
      · rintro ⟨coin, kept, rfl⟩
        obtain ⟨listed, free⟩ := List.mem_filter.mp kept
        rw [h.reservations.isWithheld_settle (told.mpr ⟨coin, listed, rfl⟩)] at free
        exact ⟨coin, listed, rfl, by simpa using free⟩
      · rintro ⟨coin, listed, rfl, free⟩
        refine ⟨coin, List.mem_filter.mpr ⟨listed, ?_⟩, rfl⟩
        rw [h.reservations.isWithheld_settle (told.mpr ⟨coin, listed, rfl⟩)]
        simpa using free

end Judged

/-- An answer about one address judges the script of that address. -/
theorem wp_resync_judged (address : Address) (coins : List Coin) (h : Holdings) :
    let after := h.Judged (h.reported [(address, coins)])
      fun script => h.keychain.scriptOf? address = some script
    (resync address coins).wp (fun _ => after) (fun _ => after) h := by
  intro after
  simp only [resync, Step.wp_bind, Step.wp_get]
  split
  next missing =>
      have unknown : h.keychain.scriptOf? address = none := by
        rw [Keychain.scriptOf?, missing, Option.map_none]
      constructor
      case holders_eq => rfl
      case pending_iff => simp [unknown]
      case contains_iff =>
          simp [reported_of_unknown missing, unknown, h.ledger.contains_iff_exists]
  next slot found =>
      have asked (script : Script) :
          h.keychain.scriptOf? address = some script ↔ script == slot.script := by
        rw [Keychain.scriptOf?, found, Option.map_some, Option.some.injEq, beq_iff_eq, eq_comm]
      let reservations := h.reservations.settle (· == slot.script)
        (.ofList ((h.reported [(address, coins)]).map (·.outpoint)))
      let kept := (h.reported [(address, coins)]).filter fun coin =>
        !reservations.isWithheld coin.outpoint
      have synced : after
          { h with reservations, ledger := h.ledger.exchange slot.script kept } := by
        apply Judged.of_settle asked
        intro o
        rw [Ledger.contains_exchange]
        simp only [asked, beq_iff_eq, ne_eq]
        exact Iff.rfl
      rw [← reported_of_found found, Step.wp_bind, Step.wp_modify]
      split
      next =>
          exact (keeps_onKeychain_of_frame (P := after) (fun keychain ht => ht.setKeychain keychain)
            _).discard.bind (fun _ => Step.keeps_pure _) _ synced
      next => exact synced

/-- The answers of a full resync judge every script. -/
theorem wp_replaceAll_judged (reports : List (Address × List Coin)) (h : Holdings) :
    let after (t : Holdings) : Prop := h.Judged (h.reported reports) (fun _ => True) t ∧
      ∀ coin ∈ t.ledger.coins, coin ∈ h.reported reports
    (replaceAll reports).wp (fun _ => after) (fun _ => after) h := by
  intro after
  apply wp_replaceAll_of_frame (P := after) fun keychain ht => ⟨ht.1.setKeychain keychain, ht.2⟩
  intro own reservations kept
  have flat : own.flatMap (·.2) = h.reported reports := h.flatMap_own reports
  have told : own.flatMap (·.2.map (·.outpoint)) = (h.reported reports).map (·.outpoint) := by
    rw [← flat, List.map_flatMap]
  have left : kept.flatMap (·.2) = (h.reported reports).filter fun coin =>
      !reservations.isWithheld coin.outpoint := by
    rw [← flat, List.filter_flatMap, List.flatMap_map]
  constructor
  · simp only [reservations, told]
    apply Judged.of_settle fun _ => by simp
    intro o
    rw [Ledger.contains_ofCoins, left]
    simp [reservations, told]
  · intro coin present
    rw [Ledger.mem_coins, Ledger.find?_ofCoins, left] at present
    exact List.mem_of_mem_filter (List.mem_of_find?_eq_some present)

end Holdings

namespace Account

variable {a : Account}

/-- The answers about unspent outputs that an action takes in, by address. -/
def Action.answers? : Action → Option (List (Address × List Coin))
  | .closeResync resync _ => if resync.failures.isEmpty then some resync.reports else none
  | .closeEvent address _ _ (.ok coins) _ => some [(address, coins)]
  | .absorbDrainUnspent drain address (.ok coins) =>
    if drain.waiting.contains address then some [(address, coins)] else none
  | _ => none

/-- Whether an action that takes in answers compares the coins of a script with them. -/
def Action.Judges (a : Account) (script : Script) : Action → Prop
  | .closeResync .. => True
  | .closeEvent address .. | .absorbDrainUnspent _ address _ =>
    a.keychain.scriptOf? address = some script
  | _ => False

theorem holdings_noteEventBalance (a : Account) (address : Address) (ticket : Nat)
    (balance : Reply Amount) (now : Timestamp) :
    (noteEventBalance address ticket balance now a).1.holdings = { a.holdings with
      keychain := (noteEventBalance address ticket balance now a).1.keychain } := by
  cases balance with
  | ok balance =>
      rw [noteEventBalance, recordBalance]
      split <;> rfl
  | error failure =>
      rw [noteEventBalance, noteFailure]
      split <;> rfl

/-- The answers of a full resync judge every script of the account. -/
theorem wp_close_judged (a : Account) {resync : Resync} (answered : resync.failures.isEmpty)
    (now : Timestamp) :
    let after (c : Account) : Prop :=
      a.holdings.Judged (a.holdings.reported resync.reports) (fun _ => True) c.holdings ∧
        ∀ coin ∈ c.ledger.coins, coin ∈ a.holdings.reported resync.reports
    (resync.close now).wp (fun _ => after) (fun _ => after) a := by
  rw [Resync.close, if_pos answered, onHoldings, Step.wp_onPart]
  exact Holdings.wp_replaceAll_judged resync.reports a.holdings

/-- The balance that is noted first has no part in what becomes of the coins. -/
theorem wp_closeEvent_judged (a : Account) (address : Address) (ticket : Nat)
    (balance : Reply Amount) (coins : List Coin) (now : Timestamp) :
    let after (c : Account) : Prop := a.holdings.Judged (a.holdings.reported [(address, coins)])
      (fun script => a.keychain.scriptOf? address = some script) c.holdings
    (closeEvent address ticket balance (.ok coins) now).wp (fun _ => after) (fun _ => after)
      a := by
  intro after
  let noted := (noteEventBalance address ticket balance now a).1
  have same (address : Address) :
      noted.holdings.keychain.scriptOf? address = a.keychain.scriptOf? address :=
    scriptOf?_noteEventBalance a _ _ _ _ _
  have judged := Holdings.wp_resync_judged address coins noted.holdings
  rw [Holdings.reported_congr fun _ _ => same _, same] at judged
  have unnoted {t : Holdings} (ht : noted.holdings.Judged
      (a.holdings.reported [(address, coins)])
      (fun script => a.keychain.scriptOf? address = some script) t) :
      after { noted with holdings := t } := by
    rw [holdings_noteEventBalance] at ht
    exact ⟨ht.holders_eq, ht.pending_iff, ht.contains_iff⟩
  simp only [closeEvent, Step.wp_bind, Step.wp_get, Step.wp_set, Step.wp_discard, onHoldings,
    Step.wp_onPart]
  apply judged.mono _ fun _ _ ht => unnoted ht
  exact fun _ _ ht => (Step.wp_ofExcept _ _).mpr ⟨fun _ _ => unnoted ht, fun _ _ => unnoted ht⟩

/-- What an action makes of the answers that it takes in. -/
theorem judged_perform (a : Account) {commit : Action} {reports : List (Address × List Coin)}
    (taken : commit.answers? = some reports) :
    a.holdings.Judged (a.holdings.reported reports) (fun script => commit.Judges a script)
      (commit.perform a).holdings := by
  apply Step.stateAfter_of_wp (P := fun c : Account => a.holdings.Judged
    (a.holdings.reported reports) (fun script => commit.Judges a script) c.holdings)
  cases commit with
  | closeResync resync now =>
      rw [Action.answers?] at taken
      split at taken
      next answered =>
          cases taken
          rw [Action.step, Step.wp_discard]
          exact (a.wp_close_judged answered now).mono (fun _ _ hc => hc.1) fun _ _ hc => hc.1
      next => cases taken
  | closeEvent address ticket balance unspent now =>
      cases unspent with
      | error failure => cases taken
      | ok coins =>
          cases taken
          exact a.wp_closeEvent_judged address ticket balance coins now
  | absorbDrainUnspent drain address reply =>
      cases reply with
      | error failure => cases taken
      | ok coins =>
          rw [Action.answers?] at taken
          split at taken
          next waiting =>
              cases taken
              obtain ⟨request, hrequest⟩ : ∃ request, drain.waiting[address]? = some request := by
                rwa [Std.ExtTreeMap.contains_eq_isSome_getElem?, Option.isSome_iff_exists]
                  at waiting
              simp only [Action.step, Step.wp_discard, Drain.absorbUnspent, hrequest, Step.wp_bind,
                onHoldings, Step.wp_onPart]
              exact Holdings.wp_resync_judged address coins a.holdings
          next => cases taken
  | _ => cases taken

theorem coins_invalidateScript (a : Account) (script : Script) :
    (a.invalidateScript script).ledger = a.ledger ∧
      (a.invalidateScript script).reservations = a.reservations := by
  rw [invalidateScript]
  split
  next => exact ⟨rfl, rfl⟩
  next =>
      rw [invalidateAddress]
      dsimp only
      split <;> exact ⟨rfl, rfl⟩

theorem coins_spend (a : Account) (tx : Transaction) :
    (a.spend tx).1.ledger = (a.holdings.spend tx).1.ledger ∧
      (a.spend tx).1.reservations = (a.holdings.spend tx).1.reservations := by
  have unfolded : (a.spend tx).1 = ((a.holdings.spend tx).2.map Coin.script).foldl
      invalidateScript { a with holdings := (a.holdings.spend tx).1 } := rfl
  rw [unfolded]
  generalize (a.holdings.spend tx).2.map Coin.script = scripts
  generalize (a.holdings.spend tx).1 = spent
  change _ = { a with holdings := spent }.ledger ∧ _ = { a with holdings := spent }.reservations
  generalize { a with holdings := spent } = b
  induction scripts generalizing b with
  | nil => exact ⟨rfl, rfl⟩
  | cons script rest ih =>
      obtain ⟨ledger, reservations⟩ := b.coins_invalidateScript script
      rw [List.foldl_cons, ← ledger, ← reservations]
      exact ih _

/-- A spend that is seen takes the coin out of every place. Answers that are taken in later put
it back into the ledger just if they report it and it is not withheld at that moment. -/
theorem contains_after_spend (a : Account) {tx : Transaction} {o : OutPoint}
    (spent : o ∈ tx.inputs) (between : List Action) {commit : Action}
    {reports : List (Address × List Coin)} (taken : commit.answers? = some reports) :
    let seen := (Action.spend tx).perform a
    let now := seen.run between
    (¬seen.ledger.contains o ∧ ¬seen.reservations.isWithheld o) ∧
      (¬now.ledger.contains o → ((commit.perform now).ledger.contains o ↔
        ¬now.reservations.isWithheld o ∧
          ∃ coin ∈ now.holdings.reported reports, coin.outpoint = o)) := by
  intro seen now
  constructor
  · obtain ⟨ledger, reservations⟩ := a.coins_spend tx
    constructor
    · rw [show seen.ledger = _ from ledger, Holdings.spend]
      exact fun present => (a.ledger.contains_spend.mp present).2 spent
    · rw [show seen.reservations = _ from reservations, Holdings.spend]
      exact fun withheld => (ReservationTable.isWithheld_foldl_markSpent.mp withheld).2 spent
  · intro absent
    have judged := now.judged_perform taken
    have nowhere : ¬∃ coin ∈ now.holdings.ledger.coins,
        coin.outpoint = o ∧ ¬commit.Judges now coin.script := by
      rintro ⟨coin, present, rfl, -⟩
      exact absent (now.ledger.contains_of_mem_coins present)
    rw [ledger, judged.contains_iff, or_iff_left nowhere]
    constructor
    · rintro ⟨coin, listed, rfl, free⟩
      exact ⟨free, coin, listed, rfl⟩
    · rintro ⟨free, coin, listed, rfl⟩
      exact ⟨coin, listed, rfl, free⟩

/-- A coin that came again and was spent by a completed payment is kept out. -/
theorem kept_out_after_spend :
    let config : Config := { receivingGapLimit := 1, changeGapLimit := 1 }
    let address : Address := ⟨"receiving-0"⟩
    let coin : Coin := ⟨default, ⟨100000, .payToKeyHash (List.replicate 20 0)⟩⟩
    let tx : Transaction := ⟨⟨1⟩, [coin.outpoint], []⟩
    let between : List Action :=
      [.addCoin coin, .reserve (.ofTarget 5000 ⟨1000⟩) 0, .release 1 .completed]
    let commit : Action := .closeEvent address 1 (.ok 100000) (.ok [coin]) 9
    ∃ a, ofConfig config (.numbered ∅ true) = .ok a ∧ coin.outpoint ∈ tx.inputs ∧
      commit.answers? = some [(address, [coin])] ∧
      let now :=
        ((Action.spend tx).perform (a.run [.addCoin coin, .startEvent address])).run between
      ¬now.ledger.contains coin.outpoint ∧
        (∃ other ∈ now.holdings.reported [(address, [coin])], other.outpoint = coin.outpoint) ∧
        ¬(commit.perform now).ledger.contains coin.outpoint := by
  intro config address coin tx between commit
  have answer : (ofConfig config (.numbered ∅ true)).toOption.any fun a =>
      let now :=
        ((Action.spend tx).perform (a.run [.addCoin coin, .startEvent address])).run between
      now.ledger.contains coin.outpoint = false ∧ now.reservations.isWithheld coin.outpoint ∧
        coin ∈ now.holdings.reported [(address, [coin])] := by
    decide +kernel
  obtain ⟨a, opened, facts⟩ := Step.exists_ok_of_any answer
  obtain ⟨absent, withheld, listed⟩ := of_decide_eq_true facts
  have spent : coin.outpoint ∈ tx.inputs := List.mem_singleton_self _
  rw [← Bool.not_eq_true] at absent
  have taken : commit.answers? = some [(address, [coin])] := rfl
  obtain ⟨-, restored⟩ := contains_after_spend (a.run [.addCoin coin, .startEvent address]) spent
    between taken
  exact ⟨a, opened, spent, taken, absent, ⟨coin, listed, rfl⟩,
    fun present => ((restored absent).mp present).1 withheld⟩

/-- A coin is spent after it was asked about, and the answer puts it back: that to the queries of
a notification as well as that to a full resync. -/
theorem spent_coin_put_back :
    let config : Config := { receivingGapLimit := 1, changeGapLimit := 1 }
    let address : Address := ⟨"receiving-0"⟩
    let coin : Coin := ⟨default, ⟨100000, .payToKeyHash (List.replicate 20 0)⟩⟩
    let tx : Transaction := ⟨⟨1⟩, [coin.outpoint], []⟩
    let actions : List Action := [.addCoin coin, .startEvent address, .spend tx]
    let event : Action := .closeEvent address 1 (.ok 100000) (.ok [coin]) 9
    let full : Action := .closeResync { reports := [(address, [coin]), (⟨"change-0"⟩, [])] } 9
    ∃ a, ofConfig config (.numbered ∅ true) = .ok a ∧
      (a.run actions).ledger.contains coin.outpoint = false ∧
      (event.perform (a.run actions)).ledger.contains coin.outpoint ∧
      (full.perform (a.run actions)).ledger.contains coin.outpoint := by
  intro config address coin tx actions event full
  have answer : (ofConfig config (.numbered ∅ true)).toOption.any fun a =>
      (a.run actions).ledger.contains coin.outpoint = false ∧
        (event.perform (a.run actions)).ledger.contains coin.outpoint ∧
        (full.perform (a.run actions)).ledger.contains coin.outpoint := by
    decide +kernel
  obtain ⟨a, opened, facts⟩ := Step.exists_ok_of_any answer
  exact ⟨a, opened, of_decide_eq_true facts⟩

variable {config : Config} {source : KeySource}

/-- An address of the account has the same script in every later state. -/
theorem scriptOf?_run (opened : ofConfig config source = .ok a) (before later : List Action)
    {address : Address} (tracked : address ∈ (a.run before).keychain.addresses) :
    ((a.run before).run later).keychain.scriptOf? address =
      (a.run before).keychain.scriptOf? address := by
  have origin := origin_run opened before
  have origin_later := origin_run opened (before ++ later)
  have sound := sound_run opened (before ++ later)
  rw [run_append] at origin_later sound
  have kin : (a.run before).keychain.Kin ((a.run before).run later).keychain :=
    ⟨sound_run opened before, sound, origin_later.1.trans origin.1.symm,
      origin_later.2.trans origin.2.symm⟩
  exact kin.scriptOf?_eq (size_le_run _ later) tracked

/-- The answers of a full resync, asked for in one state and taken in after further actions,
judge every coin and every pending spend of the account: what is left in the ledger are coins
reported with the script of an address that was asked about. -/
theorem resync_judges_all (opened : ofConfig config source = .ok a) (before between : List Action)
    {resync : Resync} (answered : resync.failures = [])
    (asked : ∀ report ∈ resync.reports, report.1 ∈ (a.run before).keychain.addresses)
    (now : Timestamp) :
    let start := a.run before
    let b := start.run between
    let c := (Action.closeResync resync now).perform b
    b.holdings.Judged (start.holdings.reported resync.reports) (fun _ => True) c.holdings ∧
      ∀ coin ∈ c.ledger.coins, ∃ report ∈ resync.reports,
        start.keychain.scriptOf? report.1 = some coin.script ∧ coin ∈ report.2 := by
  intro start b c
  have same : b.holdings.reported resync.reports = start.holdings.reported resync.reports :=
    Holdings.reported_congr fun report listed => scriptOf?_run opened before between
      (asked report listed)
  have judged : b.holdings.Judged (b.holdings.reported resync.reports) (fun _ => True) c.holdings ∧
      ∀ coin ∈ c.ledger.coins, coin ∈ b.holdings.reported resync.reports := by
    apply Step.stateAfter_of_wp (P := fun c : Account =>
      b.holdings.Judged (b.holdings.reported resync.reports) (fun _ => True) c.holdings ∧
        ∀ coin ∈ c.ledger.coins, coin ∈ b.holdings.reported resync.reports)
    rw [Action.step, Step.wp_discard]
    exact b.wp_close_judged (List.isEmpty_iff.mpr answered) now
  rw [same] at judged
  exact ⟨judged.1, fun coin present => Holdings.mem_reported.mp (judged.2 coin present)⟩

/-- An address joins and gets a coin, while what is reported about another is taken in. -/
theorem judges_all_after_growth :
    let config : Config := { receivingGapLimit := 2, changeGapLimit := 1 }
    let script (index : UInt8) : Script :=
      .payToKeyHash ([0, 0, 0, 0, index] ++ List.replicate 15 0)
    let coin (index : UInt32) : Coin := ⟨⟨⟨7⟩, index⟩, ⟨30000, script (index.toUInt8 + 1)⟩⟩
    let between : List Action :=
      [.receive ⟨⟨7⟩, [], [(coin 0).output]⟩, .addCoin (coin 1)]
    let resync : Resync := { reports :=
      [(⟨"receiving-0"⟩, []), (⟨"receiving-1"⟩, [coin 0]), (⟨"change-0"⟩, [])] }
    ∃ a, ofConfig config (.numbered ∅ true) = .ok a ∧ resync.failures = [] ∧
      (∀ report ∈ resync.reports, report.1 ∈ (a.run []).keychain.addresses) ∧
      let b := (a.run []).run between
      let c := (Action.closeResync resync 0).perform b
      b.keychain.scriptOf? ⟨"receiving-2"⟩ = some (script 2) ∧
        b.ledger.contains (coin 1).outpoint ∧ c.ledger.contains (coin 0).outpoint ∧
        ∀ other ∈ c.ledger.coins, other ∈ [coin 0] := by
  intro config script coin between resync
  have answer : (ofConfig config (.numbered ∅ true)).toOption.any fun a =>
      let b := (a.run []).run between
      (∀ report ∈ resync.reports, report.1 ∈ (a.run []).keychain.addresses) ∧
        b.keychain.scriptOf? ⟨"receiving-2"⟩ = some (script 2) ∧
        b.ledger.contains (coin 1).outpoint ∧
        b.reservations.isWithheld (coin 0).outpoint = false ∧
        (a.run []).holdings.reported resync.reports = [coin 0] := by
    decide +kernel
  obtain ⟨a, opened, facts⟩ := Step.exists_ok_of_any answer
  obtain ⟨asked, joined, present, free, reported⟩ := of_decide_eq_true facts
  obtain ⟨judged, left⟩ := resync_judges_all opened [] between rfl asked 0
  refine ⟨a, opened, rfl, asked, joined, present, ?_, ?_⟩
  · rw [reported] at judged
    refine (judged.contains_iff _).mpr (.inl ⟨coin 0, List.mem_singleton_self _, rfl, ?_⟩)
    rw [Bool.not_eq_true]
    exact free
  · intro other listed
    rw [← reported]
    exact Holdings.mem_reported.mpr (left other listed)

/-- Marking an address makes another one join after the addresses were read. A coin of the new
address is dropped by the answers, and a payment that was completed with one of its coins is
pending no longer, though nobody asked about it. -/
theorem joined_address_dropped :
    let config : Config := { receivingGapLimit := 2, changeGapLimit := 1 }
    let script (index : UInt8) : Script :=
      .payToKeyHash ([0, 0, 0, 0, index] ++ List.replicate 15 0)
    let pay (id : Nat) (index : UInt8) (value : Amount) : Action :=
      .receive ⟨⟨id⟩, [], [⟨value, script index⟩]⟩
    let place (id : Nat) : OutPoint := ⟨⟨id⟩, 0⟩
    let between : List Action := [pay 1 1 30000, pay 2 2 100000,
      .reserve (.ofTarget 50000 ⟨1000⟩) 0, .release 1 .completed, pay 3 2 20000]
    let resync : Resync := { reports := [(⟨"receiving-0"⟩, []),
      (⟨"receiving-1"⟩, [⟨place 1, ⟨30000, script 1⟩⟩]), (⟨"change-0"⟩, [])] }
    ∃ a, ofConfig config (.numbered ∅ true) = .ok a ∧
      resync.reports.map (·.1) = a.keychain.addresses ∧
      let b := a.run between
      let c := (Action.closeResync resync 0).perform b
      b.keychain.scriptOf? ⟨"receiving-2"⟩ = some (script 2) ∧
        b.ledger.contains (place 3) ∧ c.ledger.contains (place 3) = false ∧
        b.reservations.pending[place 2]? = some (script 2) ∧
        c.reservations.isWithheld (place 2) = false := by
  intro config script pay place between resync
  have answer : (ofConfig config (.numbered ∅ true)).toOption.any fun a =>
      let b := a.run between
      let c := (Action.closeResync resync 0).perform b
      resync.reports.map (·.1) = a.keychain.addresses ∧
        b.keychain.scriptOf? ⟨"receiving-2"⟩ = some (script 2) ∧
        b.ledger.contains (place 3) ∧ c.ledger.contains (place 3) = false ∧
        b.reservations.pending[place 2]? = some (script 2) ∧
        c.reservations.isWithheld (place 2) = false := by
    decide +kernel
  obtain ⟨a, opened, facts⟩ := Step.exists_ok_of_any answer
  exact ⟨a, opened, of_decide_eq_true facts⟩

end Account

end HdWallet
