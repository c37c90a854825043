import HdWallet.Proofs.Account.Resync

/-!
# Markings in any order

Queries about many addresses are answered in any order, and an address may be answered for more
than once. So the same addresses come to be marked used in one order or another. Each marking grows
a chain by what the gap rule asks for at that moment, but what all of them leave depends on the
set of addresses only.
-/

namespace HdWallet.Holdings

variable {config : Config} {source : KeySource} {a : Account}

/-- From every state, marking addresses in one order goes through just if marking them in another
one does, however often either order repeats them, and both leave the same holdings: the addresses
are used, and the chains of those that were unused are as long as the gap rule asks for in the
end. -/
theorem markAllUsed_iff_of_mem_iff (opened : Account.ofConfig config source = .ok a)
    (actions : List Account.Action) (operations : List Keychain.Operation) {h : Holdings}
    (reached : h.keychain = ((a.run actions).holdings.after operations).keychain)
    {first second : List Address} (tracked : ∀ address ∈ first, address ∈ h.keychain.addresses)
    (same : ∀ address, address ∈ first ↔ address ∈ second) :
    (∀ u, markAllUsed first h = .ok () u ↔ markAllUsed second h = .ok () u) ∧
    (∀ u, markAllUsed first h = .ok () u →
      h.keychain.Marked {address | address ∈ first} u.keychain ∧
      u = { h with keychain := u.keychain }) ∧
    (h.keychain.source.Dependable h.keychain.account →
      ∃ u, markAllUsed first h = .ok () u) := by
  have sound : h.keychain.Sound := by
    rw [reached]
    exact Keychain.enduring_sound.keeps_after (Account.sound_run opened actions) operations
  have marking {addresses : List Address}
      (listed : ∀ address, address ∈ addresses ↔ address ∈ first) :
      (markAllUsed addresses).wp
        (fun _ u => h.keychain.Marked {address | address ∈ first} u.keychain ∧
          u = { h with keychain := u.keychain })
        (fun _ _ => ¬h.keychain.Markable {address | address ∈ first}) h := by
    have set_eq : {address | address ∈ addresses} ∪ ∅ = {address | address ∈ first} := by
      ext address
      simp [listed]
    have known : ∀ address ∈ addresses, address ∈ h.keychain.addresses :=
      fun address given => tracked address ((listed address).mp given)
    have marks := wp_markAllUsed sound sound.marked_empty known subset_rfl
    rwa [set_eq] at marks
  -- What one order leaves shows that the other one goes through, and there is one such outcome.
  have transfer {these those : List Address}
      (here : ∀ address, address ∈ these ↔ address ∈ first)
      (there : ∀ address, address ∈ those ↔ address ∈ first) {u : Holdings}
      (done : markAllUsed these h = .ok () u) : markAllUsed those h = .ok () u := by
    obtain ⟨marked, hu⟩ := (marking here).of_ok done
    obtain ⟨_, v, other, marked', hv⟩ :=
      (marking there).exists_ok_of_not fun _ _ stuck => stuck (.inr ⟨_, marked⟩)
    rw [other, hu, hv, marked.unique marked']
  refine ⟨fun u => ⟨?_, ?_⟩, fun u => (marking fun _ => Iff.rfl).of_ok, fun dependable => ?_⟩
  · exact transfer (fun _ => Iff.rfl) fun address => (same address).symm
  · exact transfer (fun address => (same address).symm) fun _ => Iff.rfl
  · obtain ⟨_, u, done, -⟩ := (marking fun _ => Iff.rfl).exists_ok_of_not
      fun _ _ stuck => stuck (.inl dependable)
    exact ⟨u, done⟩

/-- The last address first and then the others, against the other way round with repetitions. -/
theorem markAllUsed_iff_of_two_orders :
    let config : Config := { receivingGapLimit := 3, changeGapLimit := 1 }
    let first : List Address := [⟨"receiving-2"⟩, ⟨"change-0"⟩, ⟨"receiving-1"⟩]
    let second : List Address :=
      [⟨"receiving-1"⟩, ⟨"receiving-2"⟩, ⟨"receiving-1"⟩, ⟨"change-0"⟩, ⟨"receiving-2"⟩]
    ∃ a, Account.ofConfig config (.numbered ∅ true) = .ok a ∧
      let h := (a.run [.markUsed ⟨"receiving-0"⟩]).holdings
      (∀ address ∈ first, address ∈ h.keychain.addresses) ∧
      ∃ u, markAllUsed first h = .ok () u ∧ markAllUsed second h = .ok () u ∧
        h.keychain.Marked {address | address ∈ first} u.keychain := by
  intro config first second
  have same (address : Address) : address ∈ first ↔ address ∈ second := by
    simp only [first, second, List.mem_cons, List.not_mem_nil, or_false]
    grind
  have answer : (Account.ofConfig config (.numbered ∅ true)).toOption.any fun a =>
      let h := (a.run [.markUsed ⟨"receiving-0"⟩]).holdings
      (∀ address ∈ first, address ∈ h.keychain.addresses) ∧
        ((markAllUsed first).answer h).isOk := by
    decide +kernel
  obtain ⟨a, opened, facts⟩ := Step.exists_ok_of_any answer
  obtain ⟨tracked, succeeded⟩ := of_decide_eq_true facts
  obtain ⟨u, done⟩ := Step.eq_ok_of_isOk succeeded
  obtain ⟨agree, leaves, -⟩ :=
    markAllUsed_iff_of_mem_iff opened [.markUsed ⟨"receiving-0"⟩] [] rfl tracked same
  exact ⟨a, opened, tracked, u, done, (agree u).mp done, (leaves u done).1⟩

end HdWallet.Holdings
