import HdWallet.Proofs.Account.Addresses
import HdWallet.Proofs.Keychain.Marking

/-!
# Taking in what a transaction pays

Which outputs are the account's is decided before any address is marked used. The outputs that are
put in, and no others, then have the owners of their scripts marked, which may make further
addresses join. So an output that the same transaction pays to an address that joins is left out,
and so is the mark of an address whose output was in the ledger by another way. Taking the
transaction in once more puts in just the outputs that were left out, and changes nothing if there
are none.
-/

namespace HdWallet

namespace Keychain

/-- What comes of a keychain when the owners of some scripts are marked used, each as it is found
at that moment. -/
structure MarkedFor (before : Keychain) (scripts : List Script) (after : Keychain) : Prop
    extends Follows before after where
  size_le : ∀ branch, (before.chain branch).size ≤ (after.chain branch).size
  kept : ∀ {branch i}, before.UsedAt branch i → after.UsedAt branch i
  paid : ∀ script ∈ scripts, ∃ slot ∈ after.slots, slot.script = script ∧ slot.used
  only : ∀ {branch i slot}, (after.chain branch).slot? i = some slot → slot.used →
    before.UsedAt branch i ∨ slot.script ∈ scripts

namespace MarkedFor

variable {before mid after keys : Keychain} {branch : Branch} {scripts more : List Script}

theorem refl (sound : keys.Sound) : keys.MarkedFor [] keys where
  sound := sound
  settings := .refl keys
  size_le _ := Nat.le_refl _
  kept used := used
  paid _ listed := absurd listed List.not_mem_nil
  only hslot used := .inl ⟨_, hslot, used⟩

theorem owns (h : before.MarkedFor scripts after) (hb : before.Sound) {script : Script}
    (owned : before.owns script) : after.owns script := by
  obtain ⟨slot, listed, same⟩ := hb.ofScript?_isSome_iff.mp owned
  obtain ⟨branch, i, hslot⟩ := mem_slots.mp listed
  have kin := h.toFollows.kin hb
  obtain ⟨now, hnow, -⟩ := kin.exists_slot? (h.size_le branch) hslot
  have listed_now : now ∈ after.slots := mem_slots.mpr ⟨branch, i, hnow⟩
  exact h.sound.ofScript?_isSome_iff.mpr ⟨now, listed_now, (kin.script_eq hslot hnow).trans same⟩

theorem trans (h : before.MarkedFor scripts mid) (h' : mid.MarkedFor more after) :
    before.MarkedFor (scripts ++ more) after where
  sound := h'.sound
  settings := h.settings.trans h'.settings
  size_le branch := (h.size_le branch).trans (h'.size_le branch)
  kept used := h'.kept (h.kept used)
  paid script listed := by
    rcases List.mem_append.mp listed with listed | listed
    · obtain ⟨slot, slots, same, used⟩ := h.paid script listed
      obtain ⟨branch, i, hslot⟩ := mem_slots.mp slots
      obtain ⟨now, hnow, now_used⟩ := h'.kept ⟨slot, hslot, used⟩
      have hscript := (h'.toFollows.kin h.sound).script_eq hslot hnow
      exact ⟨now, mem_slots.mpr ⟨branch, i, hnow⟩, hscript.trans same, now_used⟩
    · exact h'.paid script listed
  only {branch i slot} hslot used := by
    rcases h'.only hslot used with ⟨middle, hmiddle, middle_used⟩ | listed
    · rw [(h'.toFollows.kin h.sound).script_eq hmiddle hslot]
      exact (h.only hmiddle middle_used).imp_right (List.mem_append_left _)
    · exact .inr (List.mem_append_right _ listed)

end MarkedFor

namespace Sound

variable {keys : Keychain} (h : keys.Sound)
include h

theorem markedFor_of_flagged {branch : Branch} {i : Nat} {slot : Slot}
    (hslot : (keys.chain branch).slot? i = some slot) {after : Keychain}
    (flagged : keys.Flagged (insert slot.address ∅) after) :
    keys.MarkedFor [slot.script] after where
  toFollows := flagged.toFollows
  size_le branch := (flagged.retains branch).size_le
  kept {side j} := by
    rintro ⟨other, hother, used⟩
    rw [UsedAt, flagged.used_eq]
    exact ⟨other, hother, .inl used⟩
  paid script listed := by
    obtain rfl := List.mem_singleton.mp listed
    have used : after.UsedAt branch i := by
      rw [UsedAt, flagged.used_eq]
      exact ⟨slot, hslot, .inr (Set.mem_insert _ _)⟩
    obtain ⟨now, hnow, used⟩ := used
    have same := (flagged.toFollows.kin h).script_eq hslot hnow
    exact ⟨now, mem_slots.mpr ⟨branch, i, hnow⟩, same, used⟩
  only {side j now} hnow used := by
    have there : after.UsedAt side j := ⟨now, hnow, used⟩
    rw [UsedAt, flagged.used_eq, mem_marked_insert h hslot] at there
    rcases there with ⟨rfl, rfl⟩ | ⟨other, hother, used | none_marked⟩
    · exact .inr (List.mem_singleton.mpr ((flagged.toFollows.kin h).script_eq hslot hnow))
    · exact .inl ⟨other, hother, used⟩
    · exact none_marked.elim

/-- Marking the owner of a script. The mark stays where the chain then stops short. -/
theorem wp_markUsed_slot {slot : Slot} (listed : slot ∈ keys.slots) :
    (markUsed slot.address).wp (fun _ after => keys.MarkedFor [slot.script] after)
      (fun e after => keys.MarkedFor [slot.script] after ∧ keys.StopsShort e after) keys := by
  obtain ⟨branch, i, hslot⟩ := mem_slots.mp listed
  have tracked : slot.address ∈ keys.addresses := List.mem_map_of_mem listed
  apply (h.marked_empty.wp_markUsed_or_stops h tracked).mono
  · exact fun _ after marked => h.markedFor_of_flagged hslot marked.toFlagged
  · rintro e after ⟨flagged, short, -⟩
    exact ⟨h.markedFor_of_flagged hslot flagged, short⟩

/-- A balance that changes marks nothing. -/
theorem markedFor_modifyCache (address : Address) {f : CachedBalance → CachedBalance}
    (lifetime : ∀ c, (f c).lifetime = c.lifetime) :
    keys.MarkedFor [] (keys.modifyCache address f).1 := by
  have follows := (restoring_follows keys).keeps_modifyCache lifetime ⟨h, .refl keys⟩ address
  obtain same | ⟨branch, index, changed⟩ := keys.modifyCache_cases address f
  · rw [same]
    exact .refl h
  · have used (side : Branch) : ((keys.modifyCache address f).1.chain side).indices (·.used) =
        (keys.chain side).indices (·.used) := by
      rw [changed]
      exact forall_chain_setChain
        (p := fun side c => c.indices (·.used) = (keys.chain side).indices (·.used))
        (Chain.indices_used_modifyCache index f) rfl side
    refine ⟨follows, fun side => ?_, fun {side i} there => ?_, nofun,
      fun {side i slot} hslot now => ?_⟩
    · rw [changed]
      exact forall_chain_setChain (p := fun side c => (keys.chain side).size ≤ c.size)
        (Chain.size_modifyCache index f).ge (Nat.le_refl _) side
    · rw [UsedAt, used]
      exact there
    · left
      rw [UsedAt, ← used]
      exact ⟨slot, hslot, now⟩

end Sound

end Keychain

/-- A coin is taken in if its script is one of the account's and nothing withholds it. -/
def Holdings.Accepts (h : Holdings) (coin : Coin) : Prop :=
  h.keychain.owns coin.script ∧ ¬h.reservations.isWithheld coin.outpoint

theorem Holdings.accepts_iff {h : Holdings} {coin : Coin} :
    (h.keychain.owns coin.script && !h.reservations.isWithheld coin.outpoint) ↔
      h.Accepts coin := by
  simp [Accepts]

namespace Account

variable {config : Config} {source : KeySource} {a b c : Account} {tx : Transaction}
  {added : List Coin}

theorem invalidateScript_spec (sound : a.keychain.Sound) (script : Script) :
    (a.invalidateScript script).ledger = a.ledger ∧
      (a.invalidateScript script).reservations = a.reservations ∧
      a.keychain.MarkedFor [] (a.invalidateScript script).keychain := by
  rw [invalidateScript]
  split
  next => exact ⟨rfl, rfl, .refl sound⟩
  next slot _ =>
      simp only [invalidateAddress]
      split
      next =>
          exact ⟨rfl, rfl, sound.markedFor_modifyCache slot.address
            fun _ => CachedBalance.lifetime_invalidate _⟩
      next => exact ⟨rfl, rfl, .refl sound⟩

/-- The owners of the coins are marked used, as far as their chains can grow, and coins and
reservations stay as they are. -/
theorem wp_noteReceived_marks (sound : a.keychain.Sound) {coins : List Coin}
    (owned : ∀ coin ∈ coins, a.keychain.owns coin.script) :
    (noteReceived coins).wp (fun _ c => c.ledger = a.ledger ∧ c.reservations = a.reservations ∧
        a.keychain.MarkedFor (coins.map (·.script)) c.keychain)
      (fun e c => c.ledger = a.ledger ∧ c.reservations = a.reservations ∧
        (∃ done, done ≠ [] ∧ done <+: coins ∧
          a.keychain.MarkedFor (done.map (·.script)) c.keychain) ∧
        a.keychain.StopsShort e c.keychain) a := by
  induction coins generalizing a with
  | nil => exact ⟨rfl, rfl, .refl sound⟩
  | cons coin rest ih =>
      obtain ⟨owned_here, owned⟩ := List.forall_mem_cons.mp owned
      obtain ⟨slot, found⟩ := Option.isSome_iff_exists.mp owned_here
      obtain ⟨listed, same⟩ := sound.script_of_ofScript? found
      simp only [noteReceived, markUsed, onKeychain, onHoldings, Holdings.onKeychain, Step.wp_bind,
        Step.wp_get, found, Step.wp_discard, Step.wp_onPart, Step.wp_modify]
      apply (sound.wp_markUsed_slot listed).mono
      · intro _ keys marked
        rw [same] at marked
        obtain ⟨ledger, reservations, noted⟩ :=
          invalidateScript_spec (a := a.setKeychain keys) marked.sound coin.script
        have first := marked.trans noted
        have owned (other : Coin) (later : other ∈ rest) := first.owns sound (owned other later)
        apply (ih first.sound owned).mono
        · rintro _ c ⟨ledger', reservations', later⟩
          exact ⟨ledger'.trans ledger, reservations'.trans reservations, first.trans later⟩
        · rintro e c ⟨ledger', reservations', ⟨done, -, begun, later⟩, short⟩
          exact ⟨ledger'.trans ledger, reservations'.trans reservations,
            ⟨coin :: done, List.cons_ne_nil _ _, (List.prefix_cons_inj coin).mpr begun,
              first.trans later⟩, short.of_kept first.kept⟩
      · rintro e keys ⟨marked, short⟩
        rw [same] at marked
        exact ⟨rfl, rfl, ⟨[coin], List.cons_ne_nil _ _, ⟨rest, rfl⟩, marked⟩, short⟩

/-- What is left when a transaction was taken in: further coins in the ledger, and their owners
marked used. -/
structure Received (b : Account) (tx : Transaction) (added : List Coin) (c : Account) : Prop where
  reservations_eq : c.reservations = b.reservations
  mem_coins_iff : ∀ coin, coin ∈ c.ledger.coins ↔ coin ∈ b.ledger.coins ∨ coin ∈ added
  contains_iff : ∀ o, c.ledger.contains o ↔
    b.ledger.contains o ∨ ∃ coin ∈ tx.coins, b.holdings.Accepts coin ∧ coin.outpoint = o
  accepted : ∀ coin ∈ added,
    coin ∈ tx.coins ∧ b.holdings.Accepts coin ∧ ¬b.ledger.contains coin.outpoint
  marked : b.keychain.MarkedFor (added.map (·.script)) c.keychain

/-- What is left when marking fails while a transaction is taken in: all of its coins are in the
ledger, but only the owners of the first ones are marked used. The chain of the last owner marked
is short of what the gap rule asks for. -/
structure HalfReceived (b : Account) (tx : Transaction) (e : Failure) (c : Account) : Prop where
  reservations_eq : c.reservations = b.reservations
  ledger_eq : c.ledger = (b.holdings.receive tx).1.ledger
  marked : ∃ done, done ≠ [] ∧ done <+: (b.holdings.receive tx).2 ∧
    b.keychain.MarkedFor (done.map (·.script)) c.keychain
  short : b.keychain.StopsShort e c.keychain

theorem of_mem_receive {coin : Coin} (new : coin ∈ (b.holdings.receive tx).2) :
    coin ∈ tx.coins ∧ b.holdings.Accepts coin ∧ ¬b.ledger.contains coin.outpoint := by
  obtain ⟨listed, free⟩ := b.ledger.of_mem_addAll new
  obtain ⟨made, accept⟩ := List.mem_filter.mp listed
  exact ⟨made, Holdings.accepts_iff.mp accept, free⟩

theorem contains_receive {o : OutPoint} : (b.holdings.receive tx).1.ledger.contains o ↔
    b.ledger.contains o ∨ ∃ coin ∈ tx.coins, b.holdings.Accepts coin ∧ coin.outpoint = o := by
  refine b.ledger.contains_receive.trans (or_congr_right (exists_congr fun coin => ?_))
  rw [← Holdings.accepts_iff]

theorem wp_receive (sound : b.keychain.Sound) (tx : Transaction) :
    (receive tx).wp (fun added c => b.Received tx added c) (fun e c => b.HalfReceived tx e c)
      b := by
  have owned : ∀ coin ∈ (b.holdings.receive tx).2, b.keychain.owns coin.script :=
    fun coin new => (of_mem_receive new).2.1.1
  simp only [receive, Step.wp_bind, Step.wp_get, Step.wp_modify, Step.wp_pure]
  apply (wp_noteReceived_marks (a := { b with holdings := (b.holdings.receive tx).1 }) sound
    owned).mono
  · rintro _ c ⟨ledger, reservations, marked⟩
    constructor
    case reservations_eq => exact reservations
    case mem_coins_iff =>
        intro coin
        rw [ledger]
        exact b.ledger.mem_coins_iff_of_addAll
    case contains_iff =>
        intro o
        rw [ledger]
        exact contains_receive
    case accepted => exact fun coin new => of_mem_receive new
    case marked => exact marked
  · rintro e c ⟨ledger, reservations, marked, short⟩
    exact ⟨reservations, ledger, marked, short⟩

/-- Taking in a transaction changes nothing just if everything that it pays to the account is in
the ledger or withheld. -/
theorem receive_eq_self_iff (sound : c.keychain.Sound) :
    receive tx c = .ok [] c ↔
      ∀ coin ∈ tx.coins, c.holdings.Accepts coin → c.ledger.contains coin.outpoint := by
  constructor
  · intro unchanged coin listed accepts
    have received : c.Received tx [] c := (wp_receive sound tx).of_ok unchanged
    exact (received.contains_iff _).mpr (.inr ⟨coin, listed, accepts, rfl⟩)
  · intro all
    have nothing : c.holdings.receive tx = (c.holdings, []) := by
      rw [Holdings.receive, Ledger.receive, Ledger.addAll_of_contains]
      intro coin accepted
      obtain ⟨listed, accept⟩ := List.mem_filter.mp accepted
      exact all coin listed (Holdings.accepts_iff.mp accept)
    rw [Step.eq_ok_iff]
    simp only [receive, Step.wp_bind, Step.wp_get, nothing, Step.wp_modify, noteReceived,
      Step.wp_pure, true_and]

namespace Received

variable (h : b.Received tx added c)
include h

/-- Where no two slots share a script, the slot that is found for a new coin is used. -/
theorem used_of_ofScript? (distinct : (c.keychain.slots.map (·.script)).Nodup) {coin : Coin}
    (new : coin ∈ added) :
    ∃ slot, c.keychain.ofScript? coin.script = some slot ∧ slot.used := by
  obtain ⟨slot, listed, same, used⟩ := h.marked.paid _ (List.mem_map_of_mem new)
  have owned := h.marked.sound.ofScript?_isSome_iff.mpr ⟨slot, listed, same⟩
  obtain ⟨found, hfound⟩ := Option.isSome_iff_exists.mp owned
  obtain ⟨hlisted, hsame⟩ := h.marked.sound.script_of_ofScript? hfound
  obtain rfl := List.inj_on_of_nodup_map distinct hlisted listed (hsame.trans same.symm)
  exact ⟨found, hfound, used⟩

/-- A coin is in the ledger if its script was the account's before. -/
theorem contains_of_owns {coin : Coin} (listed : coin ∈ tx.coins)
    (accepts : c.holdings.Accepts coin) (owned : b.keychain.owns coin.script) :
    c.ledger.contains coin.outpoint := by
  obtain ⟨-, free⟩ := accepts
  rw [show c.holdings.reservations = b.reservations from h.reservations_eq] at free
  exact (h.contains_iff _).mpr (.inr ⟨coin, listed, ⟨owned, free⟩, rfl⟩)

end Received

/-- After every run, taking in a transaction puts in the coins that belong to the account as it was
before, and marks their owners used and no others. Taking it in once more changes nothing just if
every coin that then belongs to the account is in the ledger or withheld, as is the case where no
address has joined that the transaction pays to. Otherwise it puts in coins of addresses that have
joined and no others. -/
theorem received_run (opened : ofConfig config source = .ok a) (before : List Action)
    (received : receive tx (a.run before) = .ok added c) :
    let b := a.run before
    b.Received tx added c ∧
    ((c.keychain.slots.map (·.script)).Nodup → ∀ coin ∈ added,
      ∃ slot, c.keychain.ofScript? coin.script = some slot ∧ slot.used) ∧
    (receive tx c = .ok [] c ↔
      ∀ coin ∈ tx.coins, c.holdings.Accepts coin → c.ledger.contains coin.outpoint) ∧
    ((∀ coin ∈ tx.coins, c.keychain.owns coin.script → b.keychain.owns coin.script) →
      receive tx c = .ok [] c) ∧
    ∀ more d, receive tx c = .ok more d → ∀ coin ∈ more,
      c.keychain.owns coin.script ∧ ¬b.keychain.owns coin.script := by
  intro b
  have first : b.Received tx added c := (wp_receive (sound_run opened before) tx).of_ok received
  have sound := first.marked.sound
  have unchanged_iff : receive tx c = .ok [] c ↔ _ := receive_eq_self_iff sound
  refine ⟨first, fun distinct coin new => first.used_of_ofScript? distinct new, unchanged_iff, ?_,
    ?_⟩
  · intro none_joined
    refine unchanged_iff.mpr fun coin listed accepts => ?_
    exact first.contains_of_owns listed accepts (none_joined coin listed accepts.1)
  · intro more d again coin new
    obtain ⟨listed, accepts, absent⟩ := ((wp_receive sound tx).of_ok again).accepted coin new
    exact ⟨accepts.1, fun owned => absent (first.contains_of_owns listed accepts owned)⟩

/-- A transaction pays to two addresses, one of which joins when the other is marked used. -/
theorem received_while_joining :
    let config : Config := { receivingGapLimit := 2, changeGapLimit := 1 }
    let script (index : UInt8) : Script :=
      .payToKeyHash ([0, 0, 0, 0, index] ++ List.replicate 15 0)
    let tx : Transaction := ⟨⟨1⟩, [], [⟨30000, script 1⟩, ⟨20000, script 2⟩]⟩
    ∃ a added c, ofConfig config (.numbered ∅ true) = .ok a ∧
      receive tx (a.run []) = .ok added c ∧ added.map (·.outpoint.index) = [0] ∧
      (a.run []).Received tx added c ∧
      (∀ coin ∈ added, ∃ slot, c.keychain.ofScript? coin.script = some slot ∧ slot.used) ∧
      receive tx c ≠ .ok [] c := by
  intro config script tx
  have answer : (ofConfig config (.numbered ∅ true)).toOption.any fun a =>
      match receive tx (a.run []) with
      | .ok added c =>
        added.map (·.outpoint.index) = [0] ∧ (c.keychain.slots.map (·.script)).Nodup ∧
          tx.coins.any fun coin => c.keychain.owns coin.script ∧
            ¬c.reservations.isWithheld coin.outpoint ∧ ¬c.ledger.contains coin.outpoint
      | .error _ _ => false := by
    decide +kernel
  obtain ⟨a, opened, facts⟩ := Step.exists_ok_of_any answer
  split at facts
  next added c received =>
      obtain ⟨first, distinct, left_out⟩ := of_decide_eq_true facts
      obtain ⟨coin, listed, missing⟩ := List.any_eq_true.mp left_out
      obtain ⟨owned, free, absent⟩ := of_decide_eq_true missing
      obtain ⟨outcome, used, unchanged_iff, -, -⟩ := received_run opened [] received
      refine ⟨a, added, c, opened, received, first, outcome, used distinct, ?_⟩
      exact fun unchanged => absent (unchanged_iff.mp unchanged coin listed ⟨owned, free⟩)
  next => cases facts

/-- Of two outputs the second pays to an address that joins when the first is taken in. It is left
out, and put in only when the transaction is taken in once more. The address of an output that was
in the ledger before is not marked used. -/
theorem joined_output_left_out :
    let config : Config := { receivingGapLimit := 2, changeGapLimit := 1 }
    let script (index : UInt8) : Script :=
      .payToKeyHash ([0, 0, 0, 0, index] ++ List.replicate 15 0)
    let coin (index : UInt32) (value : Amount) (owner : UInt8) : Coin :=
      ⟨⟨⟨1⟩, index⟩, ⟨value, script owner⟩⟩
    let tx : Transaction := ⟨⟨1⟩, [], [⟨30000, script 1⟩, ⟨20000, script 2⟩]⟩
    let known : Transaction := ⟨⟨1⟩, [], [⟨30000, script 0⟩]⟩
    ∃ a c d e, ofConfig config (.numbered ∅ true) = .ok a ∧
      receive tx a = .ok [coin 0 30000 1] c ∧
      (c.keychain.ofScript? (script 2)).any (!·.used) ∧
      c.reservations.isWithheld (coin 1 20000 2).outpoint = false ∧
      c.ledger.contains (coin 1 20000 2).outpoint = false ∧
      receive tx c = .ok [coin 1 20000 2] d ∧
      receive known (a.run [.addCoin (coin 0 30000 0)]) = .ok [] e ∧
      e.ledger.contains (coin 0 30000 0).outpoint ∧
      (e.keychain.ofScript? (script 0)).any (!·.used) := by
  intro config script coin tx known
  have answer : (ofConfig config (.numbered ∅ true)).toOption.any fun a =>
      match receive tx a, receive known (a.run [.addCoin (coin 0 30000 0)]) with
      | .ok added c, .ok none_added e =>
        match receive tx c with
        | .ok more _ =>
          added = [coin 0 30000 1] ∧ (c.keychain.ofScript? (script 2)).any (!·.used) ∧
            c.reservations.isWithheld (coin 1 20000 2).outpoint = false ∧
            c.ledger.contains (coin 1 20000 2).outpoint = false ∧ more = [coin 1 20000 2] ∧
            none_added = [] ∧ e.ledger.contains (coin 0 30000 0).outpoint ∧
            (e.keychain.ofScript? (script 0)).any (!·.used)
        | .error _ _ => false
      | _, _ => false := by
    decide +kernel
  obtain ⟨a, opened, facts⟩ := Step.exists_ok_of_any answer
  split at facts
  next added c none_added e received noted =>
      split at facts
      next more d again =>
          obtain ⟨rfl, unused, free, absent, rfl, rfl, present, unmarked⟩ := of_decide_eq_true facts
          exact ⟨a, c, d, e, opened, received, unused, free, absent, again, noted, present,
            unmarked⟩
      next => cases facts
  next => cases facts

end Account

end HdWallet
