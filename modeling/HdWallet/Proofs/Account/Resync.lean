import HdWallet.KeySource.Scripted
import HdWallet.Proofs.Account.Addresses
import HdWallet.Proofs.Account.Total
import HdWallet.Proofs.Keychain.Marking

/-!
# Resyncing one address after another

A full resync settles all pending spends at once, fills an empty ledger and marks the addresses
with coins in the end. Resyncing one address settles the pending spends of its script, exchanges
the coins of that script and marks that address. If no two slots have the same script and nobody
disagrees about what is at an outpoint, resyncing every address, in any order, comes to the same
as a full resync with the same answers.
-/

namespace HdWallet

namespace Ledger

/-- The ledger when all coins of a script but these are taken out and these are put in. -/
def exchange (ledger : Ledger) (script : Script) (kept : List Coin) : Ledger :=
  let keep : Std.ExtTreeSet OutPoint := .ofList (kept.map (·.outpoint))
  let gone := (ledger.lockedBy script).filter fun coin => !keep.contains coin.outpoint
  ((ledger.removeAll (gone.map (·.outpoint))).1.addAll kept).1

theorem mem_coins_exchange {ledger : Ledger} {output : OutPoint → Output} {script : Script}
    {kept : List Coin} {coin : Coin} (fits : ∀ coin ∈ ledger.coins, coin.Fits output)
    (locked : ∀ coin ∈ kept, coin.script = script) (new : ∀ coin ∈ kept, coin.Fits output) :
    coin ∈ (ledger.exchange script kept).coins ↔
      if coin.script = script then coin ∈ kept else coin ∈ ledger.coins := by
  let keep : Std.ExtTreeSet OutPoint := .ofList (kept.map (·.outpoint))
  let gone := (ledger.lockedBy script).filter fun coin => !keep.contains coin.outpoint
  let rest := (ledger.removeAll (gone.map (·.outpoint))).1
  have mem_gone (other : Coin) : other ∈ gone ↔
      other ∈ ledger.coins ∧ other.script = script ∧ other ∉ kept := by
    simp only [gone, keep, lockedBy, List.mem_filter, Std.ExtTreeSet.contains_ofList, beq_iff_eq,
      Bool.not_eq_true', and_assoc]
    refine and_congr_right fun present => and_congr_right fun _ => ?_
    rw [← Bool.not_eq_true, List.contains_iff_mem, (fits other present).outpoint_mem_iff new]
  have mem_rest (other : Coin) : other ∈ rest.coins ↔
      other ∈ ledger.coins ∧ (other.script = script → other ∈ kept) := by
    rw [mem_coins_removeAll]
    refine and_congr_right fun present => ?_
    have gone_fits : ∀ coin ∈ gone, coin.Fits output :=
      fun coin listed => fits coin ((mem_gone coin).mp listed).1
    rw [(fits other present).outpoint_mem_iff gone_fits, mem_gone]
    tauto
  change coin ∈ (rest.addAll kept).1.coins ↔ _
  rw [mem_coins_addAll (fun other listed => fits other ((mem_rest other).mp listed).1) new,
    mem_rest]
  split
  next same => simp [same]
  next other =>
      have unlisted : coin ∉ kept := fun listed => other (locked coin listed)
      simp [other, unlisted]

/-- Outpoints of the script are taken as far as coins are put in there. -/
theorem contains_exchange {ledger : Ledger} {script : Script} {kept : List Coin} {o : OutPoint} :
    (ledger.exchange script kept).contains o ↔ (∃ coin ∈ kept, coin.outpoint = o) ∨
      ∃ coin ∈ ledger.coins, coin.outpoint = o ∧ coin.script ≠ script := by
  rw [exchange, contains_addAll, contains_removeAll, or_comm]
  by_cases put : ∃ coin ∈ kept, coin.outpoint = o
  · exact iff_of_true (.inl put) (.inl put)
  · refine or_congr_right ?_
    have unkept : (Std.ExtTreeSet.ofList (kept.map (·.outpoint))).contains o = false := by
      simpa [Std.ExtTreeSet.contains_ofList] using put
    rw [contains_iff_exists]
    constructor
    · rintro ⟨⟨coin, present, rfl⟩, stays⟩
      refine ⟨coin, present, rfl, fun own => stays (List.mem_map_of_mem ?_)⟩
      refine List.mem_filter.mpr ⟨List.mem_filter.mpr ⟨present, beq_iff_eq.mpr own⟩, ?_⟩
      rw [unkept, Bool.not_false]
    · rintro ⟨coin, present, rfl, foreign⟩
      refine ⟨⟨coin, present, rfl⟩, fun listed => ?_⟩
      obtain ⟨other, gone, place⟩ := List.mem_map.mp listed
      obtain ⟨there, own⟩ := List.mem_filter.mp (List.mem_of_mem_filter gone)
      rw [List.inj_on_of_nodup_map ledger.nodup_outpoints there present place] at own
      exact foreign (eq_of_beq own)

end Ledger

namespace Holdings

def resyncEach (answer : Address → List Coin) : List Address → Step Holdings Unit
  | [] => pure ()
  | address :: rest => do
    discard (resync address (answer address))
    resyncEach answer rest

variable {h t : Holdings} {answer : Address → List Coin} {output : OutPoint → Output}
  {done all : Set Address}

/-- The slots have different scripts. What is in the ledger, pending or reported agrees about
each outpoint, and the first two are locked by scripts of slots. -/
structure Consistent (h : Holdings) (answer : Address → List Coin) (output : OutPoint → Output) :
    Prop where
  nodup_scripts : (h.keychain.slots.map (·.script)).Nodup
  ledger : ∀ coin ∈ h.ledger.coins, coin.Fits output ∧ h.keychain.owns coin.script
  pending : ∀ o script, h.reservations.pending[o]? = some script →
    script = (output o).script ∧ h.keychain.owns script
  answers : ∀ address ∈ h.keychain.addresses, ∀ coin ∈ answer address, coin.Fits output

instance (h : Holdings) (answer : Address → List Coin) (output : OutPoint → Output) :
    Decidable (h.Consistent answer output) :=
  decidable_of_iff
    ((h.keychain.slots.map (·.script)).Nodup ∧
      (∀ coin ∈ h.ledger.coins, coin.Fits output ∧ h.keychain.owns coin.script) ∧
      (∀ entry ∈ h.reservations.pending.toList,
        entry.2 = (output entry.1).script ∧ h.keychain.owns entry.2) ∧
      ∀ address ∈ h.keychain.addresses, ∀ coin ∈ answer address, coin.Fits output)
    ⟨fun ⟨scripts, ledger, pending, answers⟩ => ⟨scripts, ledger, fun o script found =>
        pending (o, script) (Std.ExtTreeMap.mem_toList_iff_getElem?_eq_some.mpr found), answers⟩,
      fun hc => ⟨hc.nodup_scripts, hc.ledger, fun (o, script) listed =>
        hc.pending o script (Std.ExtTreeMap.mem_toList_iff_getElem?_eq_some.mp listed),
        hc.answers⟩⟩

/-- The coins reported about an address that its own script locks. -/
def own (h : Holdings) (answer : Address → List Coin) (address : Address) : List Coin :=
  (answer address).filter fun coin => h.keychain.scriptOf? address == some coin.script

def confirmed (h : Holdings) (answer : Address → List Coin) (address : Address) : List Coin :=
  (h.own answer address).filter fun coin => !h.reservations.isWithheld coin.outpoint

def receiving (h : Holdings) (answer : Address → List Coin) (done : Set Address) : Set Address :=
  {address ∈ done | h.confirmed answer address ≠ []}

def Asked (h : Holdings) (done : Set Address) (script : Script) : Prop :=
  ∃ address ∈ done, h.keychain.scriptOf? address = some script

theorem mem_own {address : Address} {coin : Coin} : coin ∈ h.own answer address ↔
    coin ∈ answer address ∧ h.keychain.scriptOf? address = some coin.script := by
  rw [own, List.mem_filter, beq_iff_eq]

theorem mem_confirmed {address : Address} {coin : Coin} : coin ∈ h.confirmed answer address ↔
    coin ∈ h.own answer address ∧ ¬h.reservations.isWithheld coin.outpoint := by
  rw [confirmed, List.mem_filter, Bool.not_eq_true', Bool.not_eq_true]

theorem script_of_mem_confirmed {address : Address} {coin : Coin}
    (listed : coin ∈ h.confirmed answer address) :
    h.keychain.scriptOf? address = some coin.script :=
  (mem_own.mp (mem_confirmed.mp listed).1).2

theorem mem_receiving {address : Address} : address ∈ h.receiving answer done ↔
    address ∈ done ∧ h.confirmed answer address ≠ [] := Iff.rfl

/-- The table after the pending spends of some addresses were settled. -/
structure Settles (h : Holdings) (answer : Address → List Coin) (done : Set Address)
    (table : ReservationTable) : Prop where
  eq_withPending : table = { h.reservations with pending := table.pending }
  pending_iff : ∀ {o script}, table.pending[o]? = some script ↔
    h.reservations.pending[o]? = some script ∧
      (h.Asked done script → ∃ address, ∃ coin ∈ h.own answer address, coin.outpoint = o)

/-- The ledger after the coins of some addresses were exchanged for those reported. -/
structure Refills (h : Holdings) (answer : Address → List Coin) (done : Set Address)
    (ledger : Ledger) : Prop where
  exact : ledger.Exact
  asked : ∀ {coin}, h.Asked done coin.script →
    (coin ∈ ledger.coins ↔ ∃ address, coin ∈ h.confirmed answer address)
  others : ∀ {coin}, ¬h.Asked done coin.script → (coin ∈ ledger.coins ↔ coin ∈ h.ledger.coins)

/-- What comes of some holdings when the answers about some addresses were taken in. -/
structure Resynced (h : Holdings) (answer : Address → List Coin) (done : Set Address)
    (t : Holdings) : Prop where
  keychain : h.keychain.Marked (h.receiving answer done) t.keychain
  reservations : h.Settles answer done t.reservations
  ledger : h.Refills answer done t.ledger

theorem Settles.unique {first second : ReservationTable} (hf : h.Settles answer done first)
    (hs : h.Settles answer done second) : second = first := by
  have pending : second.pending = first.pending := by
    apply Std.ExtTreeMap.ext_getElem?
    intro o
    apply Option.ext
    intro script
    rw [hs.pending_iff, hf.pending_iff]
  rw [hs.eq_withPending, hf.eq_withPending, pending]

theorem Refills.unique {first second : Ledger} (hf : h.Refills answer done first)
    (hs : h.Refills answer done second) : second = first := by
  apply hf.exact.eq_of_mem_coins hs.exact
  intro coin
  by_cases asked : h.Asked done coin.script
  · rw [hs.asked asked, hf.asked asked]
  · rw [hs.others asked, hf.others asked]

theorem Resynced.unique {first second : Holdings} (hf : h.Resynced answer done first)
    (hs : h.Resynced answer done second) : second = first :=
  Holdings.mk.injEq .. ▸ ⟨hf.keychain.unique hs.keychain, hf.ledger.unique hs.ledger,
    hf.reservations.unique hs.reservations⟩

theorem asked_insert {address : Address} {script other : Script}
    (hscript : h.keychain.scriptOf? address = some script) :
    h.Asked (insert address done) other ↔ other = script ∨ h.Asked done other := by
  constructor
  · rintro ⟨_, rfl | listed, found⟩
    · rw [hscript, Option.some.injEq] at found
      exact .inl found.symm
    · exact .inr ⟨_, listed, found⟩
  · rintro (rfl | ⟨_, listed, found⟩)
    · exact ⟨address, Set.mem_insert _ _, hscript⟩
    · exact ⟨_, Set.mem_insert_of_mem _ listed, found⟩

/-- In the end, every script that the account owns was asked about. -/
theorem asked_of_owns (sound : h.keychain.Sound)
    (covers : ∀ address ∈ h.keychain.addresses, address ∈ done) {script : Script}
    (owns : h.keychain.owns script) : h.Asked done script := by
  obtain ⟨slot, slots, rfl⟩ := sound.ofScript?_isSome_iff.mp owns
  exact ⟨slot.address, covers _ (List.mem_map_of_mem slots),
    sound.scriptOf?_eq_some_iff.mpr ⟨slot, slots, rfl, rfl⟩⟩

theorem receiving_mono {more : Set Address} (subset : done ⊆ more) :
    h.receiving answer done ⊆ h.receiving answer more :=
  fun _ ⟨listed, coming⟩ => ⟨subset listed, coming⟩

theorem receiving_insert_of_ne {address : Address} (coming : h.confirmed answer address ≠ []) :
    h.receiving answer (insert address done) = insert address (h.receiving answer done) := by
  ext other
  rw [Set.mem_insert_iff, mem_receiving, mem_receiving, Set.mem_insert_iff]
  constructor
  · rintro ⟨rfl | listed, some_confirmed⟩
    · exact .inl rfl
    · exact .inr ⟨listed, some_confirmed⟩
  · rintro (rfl | ⟨listed, some_confirmed⟩)
    · exact ⟨.inl rfl, coming⟩
    · exact ⟨.inr listed, some_confirmed⟩

theorem receiving_insert_of_eq {address : Address} (nothing : h.confirmed answer address = []) :
    h.receiving answer (insert address done) = h.receiving answer done := by
  ext other
  rw [mem_receiving, mem_receiving, Set.mem_insert_iff]
  refine and_congr_left fun some_confirmed => or_iff_right ?_
  rintro rfl
  exact some_confirmed nothing

theorem filter_script {address : Address} {script : Script}
    (hscript : h.keychain.scriptOf? address = some script) :
    (answer address).filter (·.script == script) = h.own answer address := by
  rw [own, hscript]
  apply List.filter_congr
  intro coin _
  rw [Bool.eq_iff_iff, beq_iff_eq, beq_iff_eq, Option.some.injEq, eq_comm]

/-- What is left of the answers about tracked addresses when foreign coins are dropped. -/
theorem filterMap_reports {h : Holdings} {addresses : List Address} (sound : h.keychain.Sound)
    (tracked : ∀ address ∈ addresses, address ∈ h.keychain.addresses) :
    (addresses.map fun address => (address, answer address)).filterMap
      (fun (address, coins) => (h.keychain.find? address).map fun slot =>
        (address, coins.filter (·.script == slot.script))) =
      addresses.map fun address => (address, h.own answer address) := by
  rw [List.filterMap_map, ← List.filterMap_eq_map]
  apply List.filterMap_congr
  intro address asked
  obtain ⟨script, hscript⟩ := sound.mem_addresses_iff.mp (tracked address asked)
  obtain ⟨slot, found, rfl⟩ := Option.map_eq_some_iff.mp hscript
  simp only [Function.comp_apply, found, Option.map_some, filter_script hscript]

theorem setOf_mem_nil_union : {address | address ∈ ([] : List Address)} ∪ done = done := by simp

theorem setOf_mem_cons_union (address : Address) (rest : List Address) :
    {other | other ∈ address :: rest} ∪ done = {other | other ∈ rest} ∪ insert address done := by
  ext other
  simp [or_assoc]

/-- Marking addresses one after another goes through, or stops half-way at one of them. Then no
order of these and more markings goes through. -/
theorem wp_markAllUsed_or_stops {before : Keychain} (hb : before.Sound) {marks : Set Address}
    {addresses : List Address} (ht : before.Marked marks t.keychain)
    (tracked : ∀ address ∈ addresses, address ∈ before.addresses) :
    (markAllUsed addresses).wp
      (fun _ u => before.Marked ({address | address ∈ addresses} ∪ marks) u.keychain ∧
        u = { t with keychain := u.keychain })
      (fun e u => (∃ done, done <+: addresses ∧
          before.Flagged ({address | address ∈ done} ∪ marks) u.keychain) ∧
        t.keychain.StopsShort e u.keychain ∧ u = { t with keychain := u.keychain } ∧
        ∀ all, {address | address ∈ addresses} ∪ marks ⊆ all → ¬before.Markable all) t := by
  induction addresses generalizing marks t with
  | nil =>
      rw [setOf_mem_nil_union]
      exact ⟨ht, rfl⟩
  | cons address rest ih =>
      rw [setOf_mem_cons_union]
      simp only [markAllUsed, Step.wp_bind, Step.wp_discard, onKeychain, Step.wp_onPart]
      apply (ht.wp_markUsed_or_stops hb (tracked address List.mem_cons_self)).mono
      · intro _ keychain marked
        have later := ih (t := { t with keychain }) marked fun other listed =>
          tracked other (List.mem_cons_of_mem _ listed)
        apply later.mono fun _ _ hu => hu
        rintro e u ⟨⟨done, begun, flagged⟩, short, rest_eq, stuck⟩
        rw [← setOf_mem_cons_union] at flagged
        refine ⟨⟨address :: done, (List.prefix_cons_inj address).mpr begun, flagged⟩, ?_, rest_eq,
          stuck⟩
        exact short.of_kept (ht.usedAt_mono marked.toFlagged (Set.subset_insert _ _))
      · rintro e keychain ⟨flagged, short, stuck⟩
        refine ⟨⟨[address], ⟨rest, rfl⟩, ?_⟩, short, trivial, fun all listed =>
          stuck all (Set.subset_union_right.trans listed)⟩
        rw [setOf_mem_cons_union, setOf_mem_nil_union]
        exact flagged

theorem wp_markAllUsed {before : Keychain} (hb : before.Sound) {marks all : Set Address}
    {addresses : List Address} (ht : before.Marked marks t.keychain)
    (tracked : ∀ address ∈ addresses, address ∈ before.addresses)
    (listed : {address | address ∈ addresses} ∪ marks ⊆ all) :
    (markAllUsed addresses).wp
      (fun _ u => before.Marked ({address | address ∈ addresses} ∪ marks) u.keychain ∧
        u = { t with keychain := u.keychain })
      (fun _ _ => ¬before.Markable all) t :=
  (wp_markAllUsed_or_stops hb ht tracked).mono (fun _ _ marked => marked)
    fun _ _ ⟨_, _, _, stuck⟩ => stuck all listed

theorem not_asked_empty (script : Script) : ¬h.Asked ∅ script :=
  fun ⟨_, listed, _⟩ => listed

theorem resynced_empty (sound : h.keychain.Sound) (exact : h.ledger.Exact)
    (answer : Address → List Coin) : h.Resynced answer ∅ h where
  keychain := by
    have none_marked : h.receiving answer ∅ = ∅ := Set.empty_inter _
    rw [none_marked]
    exact sound.marked_empty
  reservations := ⟨rfl, by simp [not_asked_empty]⟩
  ledger := ⟨exact, fun asked => absurd asked (not_asked_empty _), fun _ => Iff.rfl⟩

/-- Settling changes nothing for what is reported: it is withheld just if it was before. -/
theorem Settles.isWithheld_eq {table : ReservationTable} (hs : h.Settles answer done table)
    {address : Address} {coin : Coin} (reported : coin ∈ h.own answer address) :
    table.isWithheld coin.outpoint = h.reservations.isWithheld coin.outpoint := by
  have pending : table.pending[coin.outpoint]? = h.reservations.pending[coin.outpoint]? := by
    apply Option.ext
    intro script
    rw [hs.pending_iff]
    exact and_iff_left fun _ => ⟨address, coin, reported, rfl⟩
  have reserved : table.isReserved coin.outpoint = h.reservations.isReserved coin.outpoint := by
    rw [hs.eq_withPending]
    rfl
  simp only [ReservationTable.isWithheld, ReservationTable.isPending, reserved,
    Std.ExtTreeMap.contains_eq_isSome_getElem?, pending]

theorem Settles.kept_eq {table : ReservationTable} (hs : h.Settles answer done table)
    (address : Address) :
    (h.own answer address).filter (fun coin => !table.isWithheld coin.outpoint) =
      h.confirmed answer address := by
  apply List.filter_congr
  intro coin reported
  rw [hs.isWithheld_eq reported]

namespace Consistent

variable (hc : h.Consistent answer output) (sound : h.keychain.Sound)
include hc sound

theorem scriptOf?_inj {a b : Address} {script : Script}
    (ha : h.keychain.scriptOf? a = some script) (hb : h.keychain.scriptOf? b = some script) :
    a = b := by
  obtain ⟨x, hx, rfl, rfl⟩ := sound.scriptOf?_eq_some_iff.mp ha
  obtain ⟨y, hy, rfl, same⟩ := sound.scriptOf?_eq_some_iff.mp hb
  rw [List.inj_on_of_nodup_map hc.nodup_scripts hx hy same.symm]

theorem own_fits {address : Address} {coin : Coin} (reported : coin ∈ h.own answer address) :
    coin.Fits output := by
  obtain ⟨listed, hscript⟩ := mem_own.mp reported
  exact hc.answers address (sound.mem_addresses_iff.mpr ⟨_, hscript⟩) coin listed

theorem confirmed_fits {address : Address} {coin : Coin}
    (listed : coin ∈ h.confirmed answer address) : coin.Fits output :=
  hc.own_fits sound (mem_confirmed.mp listed).1

/-- One script more is settled. -/
theorem settle {table : ReservationTable} (hs : h.Settles answer done table) {address : Address}
    {script : Script} (hscript : h.keychain.scriptOf? address = some script) :
    h.Settles answer (insert address done)
      (table.settle (· == script) (.ofList ((h.own answer address).map (·.outpoint)))) := by
  refine ⟨by rw [hs.eq_withPending]; rfl, ?_⟩
  intro o other
  rw [ReservationTable.pending_settle_iff, hs.pending_iff, and_assoc]
  refine and_congr_right fun pending => ?_
  simp only [asked_insert hscript, Std.ExtTreeSet.contains_ofList, List.contains_iff_mem,
    List.mem_map, beq_iff_eq]
  constructor
  · rintro ⟨earlier, now⟩ (here | asked)
    · exact ⟨address, now here⟩
    · exact earlier asked
  · intro reported
    refine ⟨fun asked => reported (.inr asked), ?_⟩
    rintro rfl
    -- Whoever reports the outpoint reports it under the pending script.
    obtain ⟨side, coin, hcoin, rfl⟩ := reported (.inl rfl)
    have fits := hc.own_fits sound hcoin
    obtain ⟨-, there⟩ := mem_own.mp hcoin
    rw [Coin.script, fits, ← (hc.pending _ _ pending).1] at there
    obtain rfl := hc.scriptOf?_inj sound there hscript
    exact ⟨coin, hcoin, rfl⟩

theorem ledger_fits {ledger : Ledger} (hr : h.Refills answer done ledger) :
    ∀ coin ∈ ledger.coins, coin.Fits output := by
  intro coin present
  by_cases asked : h.Asked done coin.script
  · obtain ⟨address, listed⟩ := (hr.asked asked).mp present
    exact hc.confirmed_fits sound listed
  · exact (hc.ledger coin ((hr.others asked).mp present)).1

/-- The coins of one script more are exchanged. -/
theorem exchange {ledger : Ledger} (hr : h.Refills answer done ledger) {address : Address}
    {script : Script} (hscript : h.keychain.scriptOf? address = some script) :
    h.Refills answer (insert address done)
      (ledger.exchange script (h.confirmed answer address)) := by
  have locked : ∀ coin ∈ h.confirmed answer address, coin.script = script := by
    intro coin listed
    have there := script_of_mem_confirmed listed
    rw [hscript, Option.some.injEq] at there
    exact there.symm
  have exchanged {coin : Coin} :
      coin ∈ (ledger.exchange script (h.confirmed answer address)).coins ↔
        if coin.script = script then coin ∈ h.confirmed answer address
        else coin ∈ ledger.coins :=
    Ledger.mem_coins_exchange (hc.ledger_fits sound hr) locked fun _ => hc.confirmed_fits sound
  constructor
  case exact => exact (hr.exact.removeAll _).addAll _
  case asked =>
      intro coin asked
      rw [exchanged]
      split
      next here =>
          refine ⟨fun listed => ⟨address, listed⟩, ?_⟩
          rintro ⟨side, listed⟩
          have there := script_of_mem_confirmed listed
          obtain rfl := hc.scriptOf?_inj sound (here ▸ there) hscript
          exact listed
      next other => exact hr.asked (((asked_insert hscript).mp asked).resolve_left other)
  case others =>
      intro coin unasked
      rw [asked_insert hscript, not_or] at unasked
      rw [exchanged, if_neg unasked.1]
      exact hr.others unasked.2

/-- The answer about one address is taken in. It fails only if the markings of a resync of more
addresses cannot be made in any order. -/
theorem wp_resync (ht : h.Resynced answer done t) {address : Address}
    (tracked : address ∈ h.keychain.addresses)
    (listed : h.receiving answer (insert address done) ⊆ all) :
    (resync address (answer address)).wp
      (fun _ u => h.Resynced answer (insert address done) u)
      (fun _ _ => ¬h.keychain.Markable all) t := by
  obtain ⟨script, hscript⟩ := sound.mem_addresses_iff.mp tracked
  have now := ht.keychain.scriptOf?_eq sound tracked
  rw [hscript] at now
  obtain ⟨slot, found, rfl⟩ := Option.map_eq_some_iff.mp now
  have settles := hc.settle sound ht.reservations hscript
  have refills := hc.exchange sound ht.ledger hscript
  simp only [resync, Step.wp_bind, Step.wp_get, found, filter_script hscript, settles.kept_eq,
    Step.wp_modify]
  split
  next coming =>
      have some_confirmed : h.confirmed answer address ≠ [] := by simpa using coming
      rw [receiving_insert_of_ne some_confirmed] at listed
      have marks := ht.keychain.wp_markUsed sound tracked listed
      simp only [Step.wp_bind, Step.wp_discard, onKeychain, Step.wp_onPart, Step.wp_pure]
      apply marks.mono _ fun _ _ failed => failed
      rintro _ keychain marked
      exact ⟨by rwa [receiving_insert_of_ne some_confirmed], settles, refills⟩
  next nothing =>
      have none_confirmed : h.confirmed answer address = [] := by simpa using nothing
      exact ⟨by rw [receiving_insert_of_eq none_confirmed]; exact ht.keychain, settles, refills⟩

theorem wp_resyncEach {addresses : List Address} (ht : h.Resynced answer done t)
    (tracked : ∀ address ∈ addresses, address ∈ h.keychain.addresses)
    (listed : h.receiving answer ({address | address ∈ addresses} ∪ done) ⊆ all) :
    (resyncEach answer addresses).wp
      (fun _ u => h.Resynced answer ({address | address ∈ addresses} ∪ done) u)
      (fun _ _ => ¬h.keychain.Markable all) t := by
  induction addresses generalizing done t with
  | nil =>
      rw [setOf_mem_nil_union]
      exact ht
  | cons address rest ih =>
      rw [setOf_mem_cons_union] at listed ⊢
      have first := hc.wp_resync sound ht (tracked address List.mem_cons_self)
        ((receiving_mono Set.subset_union_right).trans listed)
      rw [resyncEach, Step.wp_bind, Step.wp_discard]
      apply first.mono _ fun _ _ failed => failed
      exact fun _ u hu => ih hu (fun other later => tracked other (List.mem_cons_of_mem _ later))
        listed

section All

variable {addresses : List Address}
  (all_asked : ∀ address, address ∈ addresses ↔ address ∈ h.keychain.addresses)
include all_asked

theorem settle_all : h.Settles answer {address | address ∈ addresses}
    (h.reservations.settle (fun _ => true)
      (.ofList ((addresses.map fun address => (address, h.own answer address)).flatMap
        (·.2.map (·.outpoint))))) := by
  refine ⟨rfl, ?_⟩
  intro o script
  rw [ReservationTable.pending_settle_iff]
  refine and_congr_right fun pending => ?_
  have asked : h.Asked {address | address ∈ addresses} script :=
    asked_of_owns sound (fun address tracked => (all_asked address).mpr tracked)
      (hc.pending o script pending).2
  simp only [asked, forall_const, Std.ExtTreeSet.contains_ofList, List.contains_iff_mem,
    List.mem_flatMap, List.mem_map]
  constructor
  · rintro ⟨_, ⟨address, -, rfl⟩, coin, hcoin, rfl⟩
    exact ⟨address, coin, hcoin, rfl⟩
  · rintro ⟨address, coin, hcoin, rfl⟩
    have tracked := sound.mem_addresses_iff.mpr ⟨_, (mem_own.mp hcoin).2⟩
    exact ⟨_, ⟨address, (all_asked address).mpr tracked, rfl⟩, coin, hcoin, rfl⟩

theorem refill_all : h.Refills answer {address | address ∈ addresses}
    (.ofCoins ((addresses.map fun address => (address, h.confirmed answer address)).flatMap
      (·.2))) := by
  have listed {coin : Coin} : coin ∈ (addresses.map fun address =>
      (address, h.confirmed answer address)).flatMap (·.2) ↔
      ∃ address, coin ∈ h.confirmed answer address := by
    simp only [List.mem_flatMap, List.mem_map]
    constructor
    · rintro ⟨_, ⟨address, -, rfl⟩, hcoin⟩
      exact ⟨address, hcoin⟩
    · rintro ⟨address, hcoin⟩
      have tracked := sound.mem_addresses_iff.mpr ⟨_, script_of_mem_confirmed hcoin⟩
      exact ⟨_, ⟨address, (all_asked address).mpr tracked, rfl⟩, hcoin⟩
  have fits : ∀ coin ∈ (addresses.map fun address =>
      (address, h.confirmed answer address)).flatMap (·.2), coin.Fits output := by
    intro coin hcoin
    obtain ⟨address, hcoin⟩ := listed.mp hcoin
    exact hc.confirmed_fits sound hcoin
  constructor
  case exact => exact Ledger.exact_ofCoins _
  case asked =>
      intro coin _
      rw [Ledger.mem_coins_ofCoins fits, listed]
  case others =>
      intro coin unasked
      rw [Ledger.mem_coins_ofCoins fits, listed]
      refine iff_of_false ?_ ?_
      · rintro ⟨address, hcoin⟩
        have hscript := script_of_mem_confirmed hcoin
        have tracked := sound.mem_addresses_iff.mpr ⟨_, hscript⟩
        exact unasked ⟨address, (all_asked address).mpr tracked, hscript⟩
      · intro present
        exact unasked (asked_of_owns sound (fun address tracked => (all_asked address).mpr tracked)
          (hc.ledger coin present).2)

/-- A full resync takes in the answers about all addresses at once. -/
theorem wp_replaceAll (listed : h.receiving answer {address | address ∈ addresses} ⊆ all) :
    (replaceAll (addresses.map fun address => (address, answer address))).wp
      (fun size u => h.Resynced answer {address | address ∈ addresses} u ∧ size = u.ledger.size)
      (fun _ _ => ¬h.keychain.Markable all) h := by
  have tracked (address) (asked : address ∈ addresses) := (all_asked address).mp asked
  have settles := hc.settle_all sound all_asked
  have refills := hc.refill_all sound all_asked
  have marking : {address | address ∈ ((addresses.map fun address =>
      (address, h.confirmed answer address)).filter (!·.2.isEmpty)).map (·.1)} ∪ ∅ =
      h.receiving answer {address | address ∈ addresses} := by
    ext address
    simp [mem_receiving]
  simp only [replaceAll, Step.wp_bind, Step.wp_get, filterMap_reports sound tracked,
    List.map_map, Function.comp_def, settles.kept_eq, Step.wp_modify, Step.wp_pure]
  have start : h.keychain.Marked ∅ h.keychain := sound.marked_empty
  refine Step.wp.mono (wp_markAllUsed (t := ⟨h.keychain, _, _⟩) sound start ?_
    (marking.subset.trans listed)) ?_ fun _ _ failed => failed
  · intro address coming
    simp only [List.mem_map, List.mem_filter] at coming
    obtain ⟨_, ⟨⟨_, asked, rfl⟩, -⟩, rfl⟩ := coming
    exact tracked _ asked
  · rintro _ u ⟨marked, hu⟩
    rw [marking] at marked
    refine ⟨⟨marked, ?_, ?_⟩, trivial⟩
    · rw [hu]
      exact settles
    · rw [hu]
      exact refills

end All

/-- Resyncing each address comes to what a full resync comes to, and one fails only if the other
does. With a dependable source none fails. -/
theorem resyncEach_iff_replaceAll (exact : h.ledger.Exact) {first second : List Address}
    (hfirst : first.Perm h.keychain.addresses) (hsecond : second.Perm h.keychain.addresses) :
    let reports := first.map fun address => (address, answer address)
    (∀ u, resyncEach answer second h = .ok () u ↔ replaceAll reports h = .ok u.ledger.size u) ∧
      (h.keychain.source.Dependable h.keychain.account →
        ∃ u, resyncEach answer second h = .ok () u) := by
  intro reports
  have start := resynced_empty sound exact answer
  have same : {address | address ∈ second} ∪ ∅ = {address | address ∈ first} := by
    ext address
    simp [hfirst.mem_iff, hsecond.mem_iff]
  have each := hc.wp_resyncEach sound start (fun address => hsecond.mem_iff.mp) subset_rfl
  have whole := hc.wp_replaceAll sound (fun address => hfirst.mem_iff) subset_rfl
  rw [same] at each
  refine ⟨fun u => ⟨fun incremental => ?_, fun full => ?_⟩, fun dependable => ?_⟩
  · have hu := each.of_ok incremental
    have markable : h.keychain.Markable _ := .inr ⟨_, hu.keychain⟩
    obtain ⟨_, v, full, hv, rfl⟩ := whole.exists_ok_of_not fun _ _ failed => failed markable
    rw [full, hu.unique hv]
  · obtain ⟨hu, -⟩ := whole.of_ok full
    have markable : h.keychain.Markable _ := .inr ⟨_, hu.keychain⟩
    obtain ⟨_, v, incremental, hv⟩ := each.exists_ok_of_not fun _ _ failed => failed markable
    rw [incremental, hu.unique hv]
  · obtain ⟨_, u, incremental, -⟩ :=
      each.exists_ok_of_not fun _ _ failed => failed (.inl dependable)
    exact ⟨u, incremental⟩

end Consistent

end Holdings

namespace Account

variable {config : Config} {source : KeySource} {a : Account}

/-- In every state whose coins and answers are consistent, resyncing every address, one after
another and in any order, comes to the same account as a full resync with the same answers. -/
theorem resyncEach_iff_close_run (opened : ofConfig config source = .ok a) (actions : List Action)
    {answer : Address → List Coin} {output : OutPoint → Output}
    (consistent : (a.run actions).holdings.Consistent answer output)
    {first second : List Address} (hfirst : first.Perm (a.run actions).keychain.addresses)
    (hsecond : second.Perm (a.run actions).keychain.addresses) (now : Timestamp) :
    let each := onHoldings (Holdings.resyncEach answer second)
    let full : Resync := { reports := first.map fun address => (address, answer address) }
    (∀ c, each (a.run actions) = .ok () c ↔
        full.close now (a.run actions) = .ok c.ledger.size c) ∧
      (source.Dependable config.accountPath → ∃ c, each (a.run actions) = .ok () c) := by
  intro each full
  obtain ⟨agree, succeeds⟩ := consistent.resyncEach_iff_replaceAll (sound_run opened actions)
    (exact_run opened actions) hfirst hsecond
  obtain ⟨same_source, same_account⟩ := origin_run opened actions
  refine ⟨fun c => ?_, fun dependable => ?_⟩
  · change onHoldings (Holdings.resyncEach answer second) _ = _ ↔
      onHoldings (Holdings.replaceAll full.reports) _ = _
    rw [onHoldings, onHoldings, Step.onPart_eq_ok_iff, Step.onPart_eq_ok_iff]
    constructor
    · rintro ⟨u, incremental, rfl⟩
      exact ⟨u, (agree u).mp incremental, rfl⟩
    · rintro ⟨u, replaced, rfl⟩
      exact ⟨u, (agree u).mpr replaced, rfl⟩
  · rw [← same_source, ← same_account] at dependable
    obtain ⟨u, incremental⟩ := succeeds dependable
    exact ⟨_, Step.onPart_eq_ok_iff.mpr ⟨u, incremental, rfl⟩⟩

/-- One coin is pending and still reported, and another is gone while a third one came. -/
theorem resyncEach_iff_close_of_pending_coin :
    let config : Config := { receivingGapLimit := 2, changeGapLimit := 1 }
    let script (index : UInt8) : Script :=
      .payToKeyHash ([0, 0, 0, 0, index] ++ List.replicate 15 0)
    let spent : Coin := ⟨⟨⟨1⟩, 0⟩, ⟨100000, script 0⟩⟩
    let gone : Coin := ⟨⟨⟨2⟩, 0⟩, ⟨20000, script 1⟩⟩
    let came : Coin := ⟨⟨⟨3⟩, 0⟩, ⟨30000, script 1⟩⟩
    let actions : List Action := [.addCoin spent, .reserve (.ofTarget 5000 ⟨1000⟩) 0,
      .release 1 .completed, .addCoin gone]
    let answer (address : Address) : List Coin :=
      if address = ⟨"receiving-0"⟩ then [spent]
      else if address = ⟨"receiving-1"⟩ then [came] else []
    let output (o : OutPoint) : Output :=
      if o = spent.outpoint then spent.output
      else if o = gone.outpoint then gone.output else came.output
    ∃ a c, ofConfig config (.numbered ∅ true) = .ok a ∧
      (a.run actions).holdings.Consistent answer output ∧
      (a.run actions).reservations.isPending spent.outpoint ∧
      (a.run actions).ledger.contains gone.outpoint ∧
      let addresses := (a.run actions).keychain.addresses
      let full : Resync := { reports := addresses.map fun address => (address, answer address) }
      onHoldings (Holdings.resyncEach answer addresses.reverse) (a.run actions) = .ok () c ∧
        full.close 0 (a.run actions) = .ok c.ledger.size c := by
  intro config script spent gone came actions answer output
  have checks : (ofConfig config (.numbered ∅ true)).toOption.any fun a =>
      (a.run actions).holdings.Consistent answer output ∧
        (a.run actions).reservations.isPending spent.outpoint ∧
        (a.run actions).ledger.contains gone.outpoint := by
    decide +kernel
  obtain ⟨a, opened, facts⟩ := Step.exists_ok_of_any checks
  obtain ⟨consistent, pending, present⟩ := of_decide_eq_true facts
  obtain ⟨agree, succeeds⟩ := resyncEach_iff_close_run opened actions consistent
    (List.Perm.refl _) (List.reverse_perm _) 0
  obtain ⟨c, incremental⟩ := succeeds (KeySource.dependable_numbered true _)
  exact ⟨a, c, opened, consistent, pending, present, incremental, (agree c).mp incremental⟩

end Account

end HdWallet
