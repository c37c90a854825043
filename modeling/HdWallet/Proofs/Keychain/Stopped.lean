import HdWallet.Proofs.Keychain.Marking

/-!
# What a growth that stops leaves behind

Marking an address used and setting a gap limit change a chain first and then grow it to what the
gap rule asks for. Where the source fails on the way, or repeats an address, the growth stops and
the change stays. Setting the limit once more takes the growth up again. Marking once more does
not: it finds the slot used and asks for nothing.
-/

namespace HdWallet.Keychain

variable {keys t : Keychain} {branch : Branch}

/-- What a growth adds to a chain that was put in place before changes nothing else. -/
theorem Grows.frame {chain : Chain} (h : (setChain branch chain keys).Grows branch t) :
    t = setChain branch (t.chain branch) keys := by
  rw [h.eq_setChain, chain_setChain, setChain_setChain]

/-- What a marking leaves that fails after the slot was marked: the slot is used, and the chain is
short of what the gap rule then asks for. Marking the address again changes nothing, whatever the
source. -/
structure HalfMarked (address : Address) (branch : Branch) (index : Nat) (e : Failure)
    (keys t : Keychain) : Prop where
  place : keys.locate address = .ok (some (branch, index))
  unused : ¬keys.UsedAt branch index
  used_eq : (t.chain branch).indices (·.used) = insert index ((keys.chain branch).indices (·.used))
  highestUsed_eq : (t.chain branch).highestUsed =
    some (max ((keys.chain branch).highestUsed.getD 0) index)
  gapLimit_eq : (t.chain branch).gapLimit = (keys.chain branch).gapLimit
  slot?_eq : ∀ {i slot}, (keys.chain branch).slot? i = some slot →
    (t.chain branch).slot? i = some (if index = i then { slot with used := true } else slot)
  frame : t = setChain branch (t.chain branch) keys
  short : (t.chain branch).size < (t.chain branch).requiredSize
  blocked : t.Blocked branch e
  again : ∀ source, markUsed address { t with source } = .ok false { t with source }

/-- What setting a gap limit leaves that fails after the limit was set: the chain goes by the new
limit and is short of what the gap rule then asks for. Setting it again, whatever the source,
takes the growth up where it stopped. -/
structure HalfSet (branch : Branch) (limit : Nat) (e : Failure) (keys t : Keychain) : Prop where
  permitted : 1 ≤ limit ∧ limit ≤ largestGapLimit
  extended : Chain.Extends { keys.chain branch with gapLimit := limit } (t.chain branch)
  frame : t = setChain branch (t.chain branch) keys
  short : (t.chain branch).size < (t.chain branch).requiredSize
  blocked : t.Blocked branch e
  again : ∀ source, (setGapLimit branch limit).wp
    (fun _ u => (t.chain branch).Extends (u.chain branch) ∧
      (u.chain branch).requiredSize ≤ (u.chain branch).size)
    (fun e u => (t.chain branch).Extends (u.chain branch) ∧
      (u.chain branch).size < (u.chain branch).requiredSize ∧ u.Blocked branch e)
    { t with source }

theorem markUsed_of_used {address : Address} {index : Nat} {slot : Slot}
    (place : keys.locate address = .ok (some (branch, index)))
    (hslot : (keys.chain branch).slot? index = some slot) (used : slot.used = true) :
    markUsed address keys = .ok false keys := by
  rw [Step.eq_ok_iff]
  simp only [wp_markUsed_iff, place, markIndexUsed, Step.wp_bind, Step.wp_get]
  rw [Chain.markUsed_of_used hslot used, Step.wp_ofExcept_ok]
  exact ⟨rfl, rfl⟩

/-- Marking an address fails because it is unknown, or after its slot was marked. -/
theorem Sound.wp_markUsed_halfMarked (h : keys.Sound) (address : Address) :
    (markUsed address).wp (fun _ _ => True)
      (fun e t => e = .unknownAddress address ∧ keys.find? address = none ∧ t = keys ∨
        ∃ branch index, HalfMarked address branch index e keys t) keys := by
  obtain ⟨place, unknown⟩ | ⟨branch, index, place, found⟩ := h.locate_eq address
  · simp only [wp_markUsed_iff, place]
    exact .inl ⟨trivial, unknown, trivial⟩
  · simp only [wp_markUsed_iff, place]
    obtain ⟨slot, hslot, haddress⟩ := (h.chains branch).indexOf?_iff.mp found
    have kept := enduring_sound.toMarking.keeps_markIndexUsed branch index keys h
    apply ((markIndexUsed_spec branch index keys).and kept).mono fun _ _ _ => trivial
    rintro e t ⟨⟨missing, -⟩ | ⟨unused, marked, marking, grows, short, blocked⟩, sound⟩
    · rw [hslot] at missing
      cases missing
    obtain ⟨extended, -⟩ := grows.of_setChain
    have slots {i : Nat} {slot : Slot} (hslot : (keys.chain branch).slot? i = some slot) :
        (t.chain branch).slot? i =
          some (if index = i then { slot with used := true } else slot) := by
      have hmarked := Chain.slot?_markUsed marking i
      rw [hslot, Option.map_some] at hmarked
      rw [extended.slot?_eq (Chain.lt_size_of_slot? hmarked), hmarked]
    have now := slots hslot
    rw [if_pos rfl] at now
    have place_now := sound.locate_of_slot? now
    have required := extended.requiredSize_eq
    refine .inr ⟨branch, index, place, unused, ?_, ?_, ?_, slots, grows.frame, ?_, blocked, ?_⟩
    · rw [extended.indices_used, Chain.indices_markUsed marking]
    · rw [extended.highestUsed_eq, Chain.markUsed_eq_ok marking]
    · rw [extended.gapLimit_eq, Chain.markUsed_eq_ok marking]
    · rwa [required]
    · intro source
      have same : ({ t with source } : Keychain).chain branch = t.chain branch := by
        cases branch <;> rfl
      rw [← haddress]
      exact @markUsed_of_used { t with source } _ _ _ _ place_now (same ▸ now) rfl

/-- Setting a gap limit grows the chain to what the gap rule then asks for, as far as it can. -/
theorem setGapLimit_spec (branch : Branch) (limit : Nat) (keys : Keychain) :
    (setGapLimit branch limit).wp
      (fun _ t => (1 ≤ limit ∧ limit ≤ largestGapLimit) ∧
        Chain.Extends { keys.chain branch with gapLimit := limit } (t.chain branch) ∧
        t = setChain branch (t.chain branch) keys ∧
        (t.chain branch).requiredSize ≤ (t.chain branch).size)
      (fun e t => ¬(1 ≤ limit ∧ limit ≤ largestGapLimit) ∧ t = keys ∨
        (1 ≤ limit ∧ limit ≤ largestGapLimit) ∧
        Chain.Extends { keys.chain branch with gapLimit := limit } (t.chain branch) ∧
        t = setChain branch (t.chain branch) keys ∧
        (t.chain branch).size < (t.chain branch).requiredSize ∧ t.Blocked branch e) keys := by
  rw [setGapLimit]
  dsimp only
  split
  next refused => exact .inl ⟨by omega, rfl⟩
  next permitted =>
      have permitted : 1 ≤ limit ∧ limit ≤ largestGapLimit := by omega
      rw [Step.wp_bind, Step.wp_modify]
      apply (maintain_spec branch _).mono
      · rintro _ t ⟨grows, hsize⟩
        refine ⟨permitted, grows.of_setChain.1, grows.frame, ?_⟩
        rw [grows.extended.requiredSize_eq, hsize]
        exact Nat.le_max_right _ _
      · rintro e t ⟨grows, short, blocked⟩
        refine .inr ⟨permitted, grows.of_setChain.1, grows.frame, ?_, blocked⟩
        rwa [grows.extended.requiredSize_eq]

/-- Setting a gap limit fails because it is not permitted, or after the limit was set. -/
theorem wp_setGapLimit_halfSet (branch : Branch) (limit : Nat) (keys : Keychain) :
    (setGapLimit branch limit).wp (fun _ _ => True)
      (fun e t => ¬(1 ≤ limit ∧ limit ≤ largestGapLimit) ∧ t = keys ∨
        HalfSet branch limit e keys t) keys := by
  apply (setGapLimit_spec branch limit keys).mono fun _ _ _ => trivial
  rintro e t (refused | ⟨permitted, extended, frame, short, blocked⟩)
  · exact .inl refused
  refine .inr ⟨permitted, extended, frame, short, blocked, fun source => ?_⟩
  -- The limit is in place already, so setting it again changes nothing but the length.
  have same : { ({ t with source } : Keychain).chain branch with gapLimit := limit } =
      t.chain branch := by
    have limit_eq : (t.chain branch).gapLimit = limit := extended.gapLimit_eq
    cases branch <;> rw [← limit_eq] <;> rfl
  have again := setGapLimit_spec branch limit { t with source }
  rw [same] at again
  apply again.mono
  · rintro _ u ⟨-, further, -, enough⟩
    exact ⟨further, enough⟩
  · rintro e' u (⟨refused, -⟩ | ⟨-, further, -, still⟩)
    · exact absurd permitted refused
    · exact ⟨further, still⟩

end HdWallet.Keychain
