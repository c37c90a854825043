import HdWallet.Proofs.Chain.Growth
import HdWallet.Proofs.Keychain

/-!
# How a keychain grows

Each step that grows a chain says here how long the chain is afterwards, or where it
stopped and why. The gap rule is kept by every step that succeeds: marking a slot and
changing a gap limit ask for more slots and derive them at once.
-/

namespace HdWallet.Keychain

variable {keys : Keychain} {branch : Branch}

/-- One chain was extended, and nothing else changed. -/
structure Grows (branch : Branch) (before after : Keychain) : Prop where
  extended : (before.chain branch).Extends (after.chain branch)
  eq_setChain : after = setChain branch (after.chain branch) before

namespace Grows

variable {before after : Keychain}

theorem refl (branch : Branch) (keys : Keychain) : keys.Grows branch keys :=
  ⟨.refl _, setChain_chain.symm⟩

theorem of_extends {chain : Chain} (extended : (before.chain branch).Extends chain) :
    before.Grows branch (setChain branch chain before) := by
  constructor
  · rwa [chain_setChain]
  · rw [chain_setChain]

theorem chain_other (h : before.Grows branch after) :
    after.chain branch.other = before.chain branch.other :=
  chain_other_of_eq_setChain h.eq_setChain

/-- What growing adds to a chain that was put in place before. -/
theorem of_setChain {chain : Chain} (h : (setChain branch chain before).Grows branch after) :
    chain.Extends (after.chain branch) ∧
      after.chain branch.other = before.chain branch.other := by
  have extended := h.extended
  rw [chain_setChain] at extended
  exact ⟨extended, by rw [h.chain_other, chain_other_setChain]⟩

theorem extends_chain (h : before.Grows branch after) (side : Branch) :
    (before.chain side).Extends (after.chain side) := by
  obtain rfl | rfl := side.eq_or_eq_other branch
  · exact h.extended
  · rw [h.chain_other]
    exact .refl _

end Grows

/-- Why a branch cannot grow by a slot: the source derives none, or its address occurs
already. -/
def Blocked (keys : Keychain) (branch : Branch) (e : Failure) : Prop :=
  (keys.chain branch).Stops keys.source (keys.chain branch.other).contains e

theorem generate_spec (branch : Branch) (count : Nat) (keys : Keychain) :
    (generate branch count).wp
      (fun _ t => keys.Grows branch t ∧ (t.chain branch).size = (keys.chain branch).size + count)
      (fun e t => keys.Grows branch t ∧
        (t.chain branch).size < (keys.chain branch).size + count ∧ t.Blocked branch e) keys := by
  simp only [generate, onChain, Step.wp_bind, Step.wp_get, Step.wp_pure, Step.wp_onPart]
  apply (Chain.grow_spec keys.source (keys.chain branch.other).contains count _).mono
  · rintro _ chain ⟨extended, hsize⟩
    refine ⟨.of_extends extended, ?_⟩
    rwa [chain_setChain]
  · rintro e chain ⟨extended, hsize, stops⟩
    refine ⟨.of_extends extended, ?_, ?_⟩
    · rwa [chain_setChain]
    · rwa [Blocked, chain_setChain, chain_other_setChain, source_setChain]

theorem ensure_spec (branch : Branch) (count : Nat) (keys : Keychain) :
    (ensure branch count).wp
      (fun _ t => keys.Grows branch t ∧ (t.chain branch).size = max (keys.chain branch).size count)
      (fun e t => keys.Grows branch t ∧ (t.chain branch).size < max (keys.chain branch).size count ∧
        (e = .branchExhausted branch ∧ UInt32.size ≤ count ∨ t.Blocked branch e)) keys := by
  simp only [ensure, Step.wp_bind, Step.wp_get]
  have generated := generate_spec branch (count - (keys.chain branch).size) keys
  split
  next many =>
      simp only [Step.wp_bind, Step.wp_throw]
      have : 0 < UInt32.size := by decide
      exact ⟨.refl branch keys, by omega, .inl ⟨trivial, by omega⟩⟩
  next =>
      apply generated.mono
      · rintro _ t ⟨grows, hsize⟩
        exact ⟨grows, by omega⟩
      · rintro e t ⟨grows, hsize, blocked⟩
        exact ⟨grows, by omega, .inr blocked⟩

/-- Growing to what the gap rule asks for fails only where a slot that it asks for cannot be
derived. -/
theorem maintain_spec (branch : Branch) (keys : Keychain) :
    (maintain branch).wp
      (fun _ t => keys.Grows branch t ∧
        (t.chain branch).size = max (keys.chain branch).size (keys.chain branch).requiredSize)
      (fun e t => keys.Grows branch t ∧
        (t.chain branch).size < (keys.chain branch).requiredSize ∧ t.Blocked branch e) keys := by
  simp only [maintain, Step.wp_bind, Step.wp_get]
  apply (ensure_spec branch _ keys).mono fun _ _ ht => ht
  rintro e t ⟨grows, hsize, ⟨-, many⟩ | blocked⟩
  · have := (keys.chain branch).requiredSize_le
    have : lastNormalIndex + 1 < UInt32.size := by decide
    omega
  · have := grows.extended.size_le
    exact ⟨grows, by omega, blocked⟩

theorem nextUnused_grows (branch : Branch) (excluded : Std.ExtTreeSet Nat) (keys : Keychain) :
    (nextUnused branch excluded).wp (fun _ t => keys.Grows branch t)
      (fun _ t => keys.Grows branch t) keys := by
  simp only [nextUnused, Step.wp_bind, Step.wp_get]
  split
  next => exact .refl branch keys
  next =>
      simp only [Step.wp_bind, Step.wp_get, Step.wp_discard]
      apply (generate_spec branch _ keys).mono _ fun _ _ ht => ht.1
      rintro _ t ⟨grows, -⟩
      split <;> exact grows

def UsedAt (branch : Branch) (index : Nat) (keys : Keychain) : Prop :=
  index ∈ (keys.chain branch).indices (·.used)

/-- A marking stopped half-way: a slot that was unused is used, and its chain, which cannot grow,
is short of what the gap rule then asks for. -/
def StopsShort (before : Keychain) (e : Failure) (after : Keychain) : Prop :=
  ∃ branch index, ¬before.UsedAt branch index ∧ after.UsedAt branch index ∧
    (after.chain branch).size < (after.chain branch).requiredSize ∧ after.Blocked branch e

theorem StopsShort.of_kept {before mid after : Keychain} {e : Failure}
    (h : mid.StopsShort e after)
    (kept : ∀ {branch i}, before.UsedAt branch i → mid.UsedAt branch i) :
    before.StopsShort e after := by
  obtain ⟨branch, index, unused, used, short, blocked⟩ := h
  exact ⟨branch, index, fun earlier => unused (kept earlier), used, short, blocked⟩

/-- Marking a slot that was unused grows its chain to what the gap rule then asks for. If the
growth fails, the slot stays marked. -/
theorem markIndexUsed_spec (branch : Branch) (index : Nat) (keys : Keychain) :
    (markIndexUsed branch index).wp
      (fun isNew t => if isNew then ¬keys.UsedAt branch index ∧
          ∃ marked, (keys.chain branch).markUsed index = .ok (marked, true) ∧
            (setChain branch marked keys).Grows branch t ∧
            (t.chain branch).size = max marked.size marked.requiredSize
        else keys.UsedAt branch index ∧ t = keys)
      (fun e t => (keys.chain branch).slot? index = none ∧ t = keys ∨
        ¬keys.UsedAt branch index ∧
        ∃ marked, (keys.chain branch).markUsed index = .ok (marked, true) ∧
          (setChain branch marked keys).Grows branch t ∧
          (t.chain branch).size < marked.requiredSize ∧ t.Blocked branch e) keys := by
  simp only [markIndexUsed, Step.wp_bind, Step.wp_get]
  cases hslot : (keys.chain branch).slot? index with
  | none =>
      rw [Chain.markUsed, hslot]
      exact .inl ⟨rfl, rfl⟩
  | some slot =>
      cases used : slot.used with
      | true =>
          rw [Chain.markUsed_of_used hslot used]
          exact ⟨⟨slot, hslot, used⟩, rfl⟩
      | false =>
          obtain ⟨marked, marking⟩ := Chain.markUsed_of_unused hslot used
          have unused : ¬keys.UsedAt branch index := by
            rintro ⟨other, hother, other_used⟩
            rw [hslot] at hother
            cases hother
            rw [used] at other_used
            cases other_used
          rw [marking, Step.wp_ofExcept_ok]
          simp only [if_true, Step.wp_bind, Step.wp_modify, Step.wp_discard, Step.wp_pure]
          apply (maintain_spec branch _).mono
          · rintro _ t ⟨grows, hsize⟩
            rw [chain_setChain] at hsize
            exact ⟨unused, marked, rfl, grows, hsize⟩
          · rintro e t ⟨grows, hsize, blocked⟩
            rw [chain_setChain] at hsize
            exact .inr ⟨unused, marked, rfl, grows, hsize, blocked⟩

/-- Just the marked slot is used besides, however far its chain has grown. -/
theorem usedAt_iff_of_grows {index : Nat} {marked : Chain} {t : Keychain}
    (marking : (keys.chain branch).markUsed index = .ok (marked, true))
    (grows : (setChain branch marked keys).Grows branch t) {side : Branch} {j : Nat} :
    t.UsedAt side j ↔ (side = branch ∧ j = index) ∨ keys.UsedAt side j := by
  obtain ⟨extended, other⟩ := grows.of_setChain
  rw [UsedAt, UsedAt]
  obtain rfl | rfl := side.eq_or_eq_other branch
  · rw [extended.indices_used, Chain.indices_markUsed marking, Set.mem_insert_iff]
    simp
  · rw [other]
    simp [Branch.other_ne]

theorem usedAt_of_grows {index : Nat} {marked : Chain} {t : Keychain}
    (marking : (keys.chain branch).markUsed index = .ok (marked, true))
    (grows : (setChain branch marked keys).Grows branch t) : t.UsedAt branch index :=
  (usedAt_iff_of_grows marking grows).mpr (.inl ⟨rfl, rfl⟩)

/-- A slot of the chain is used after it was marked, even if the growth that follows fails. That
happens only if the slot was unused and the chain cannot grow to what the gap rule asks for. -/
theorem wp_markIndexUsed {index : Nat} (inside : index < (keys.chain branch).size) :
    (markIndexUsed branch index).wp (fun _ t => t.UsedAt branch index)
      (fun e t => ¬keys.UsedAt branch index ∧ t.UsedAt branch index ∧
        (t.chain branch).size < (t.chain branch).requiredSize ∧ t.Blocked branch e) keys := by
  apply (markIndexUsed_spec branch index keys).mono
  · intro isNew t ht
    cases isNew with
    | false =>
        obtain ⟨used, rfl⟩ := ht
        exact used
    | true =>
        obtain ⟨-, marked, marking, grows, -⟩ := ht
        exact usedAt_of_grows marking grows
  · rintro e t (⟨missing, -⟩ | ⟨unused, marked, marking, grows, short, blocked⟩)
    · obtain ⟨slot, hslot⟩ := (keys.chain branch).exists_slot?_of_lt_size inside
      rw [hslot] at missing
      cases missing
    obtain ⟨extended, -⟩ := grows.of_setChain
    rw [← extended.requiredSize_eq] at short
    exact ⟨unused, usedAt_of_grows marking grows, short, blocked⟩

/-- What marking an address used does to the lengths of the chains, if it was unused. -/
theorem size_markUsed {address : Address} {t : Keychain}
    (marking : markUsed address keys = .ok true t) :
    ∃ branch index, keys.locate address = .ok (some (branch, index)) ∧
      (t.chain branch).size = max (keys.chain branch).size
        (min (max ((keys.chain branch).highestUsed.getD 0) index + (keys.chain branch).gapLimit)
          (lastNormalIndex + 1)) ∧
      t.chain branch.other = keys.chain branch.other := by
  have spec : (markUsed address).wp (fun isNew t => isNew = true →
      ∃ branch index, keys.locate address = .ok (some (branch, index)) ∧
        (t.chain branch).size = max (keys.chain branch).size
          (min (max ((keys.chain branch).highestUsed.getD 0) index + (keys.chain branch).gapLimit)
            (lastNormalIndex + 1)) ∧
        t.chain branch.other = keys.chain branch.other) (fun _ _ => True) keys := by
    rw [wp_markUsed_iff]
    split
    next => trivial
    next => trivial
    next branch index place =>
        apply (markIndexUsed_spec branch index keys).mono _ fun _ _ _ => trivial
        rintro _ t ht rfl
        obtain ⟨-, marked, hmarked, grows, hsize⟩ := ht
        refine ⟨branch, index, place, ?_, grows.of_setChain.2⟩
        rw [hsize, Chain.markUsed_eq_ok hmarked]
        simp [Chain.size, Chain.requiredSize]
  exact spec.of_ok marking rfl

/-- Both chains are as long as the gap rule asks for. -/
def Adequate (keys : Keychain) : Prop :=
  ∀ branch, (keys.chain branch).requiredSize ≤ (keys.chain branch).size

namespace Adequate

theorem of_grows (h : keys.Adequate) {after : Keychain} (grows : keys.Grows branch after) :
    after.Adequate := fun side => by
  have extended := grows.extends_chain side
  rw [extended.requiredSize_eq]
  exact (h side).trans extended.size_le

/-- The gap rule holds again after the chain that may break it was grown. -/
theorem maintain_setChain (h : keys.Adequate) (chain : Chain) :
    (maintain branch).wp (fun _ => Adequate) (fun _ _ => True) (setChain branch chain keys) := by
  apply (maintain_spec branch _).mono _ fun _ _ _ => trivial
  rintro _ t ⟨grows, hsize⟩ side
  rw [(grows.extends_chain side).requiredSize_eq]
  obtain rfl | rfl := side.eq_or_eq_other branch
  · rw [hsize]
    exact Nat.le_max_right _ _
  · apply Nat.le_trans _ (grows.extends_chain _).size_le
    rw [chain_other_setChain]
    exact h _

end Adequate

/-- Steps that mark a slot or hand one out keep the gap rule if they succeed. -/
theorem carried_adequate : Carried Adequate fun _ => True where
  weaken _ _ := trivial
  nextUnused branch excluded keys hk :=
    (nextUnused_grows branch excluded keys).mono (fun _ _ grows => hk.of_grows grows)
      fun _ _ _ => trivial
  markIndexUsed branch index keys hk := by
    simp only [markIndexUsed, Step.wp_bind, Step.wp_get]
    rw [Step.wp_ofExcept]
    refine ⟨?_, fun _ _ => trivial⟩
    rintro ⟨marked, isNew⟩ -
    cases isNew with
    | false => exact hk
    | true =>
        simp only [if_true, Step.wp_bind, Step.wp_modify, Step.wp_discard, Step.wp_pure]
        exact hk.maintain_setChain marked

theorem keeps_setGapLimit_adequate (branch : Branch) (limit : Nat) :
    (Keychain.setGapLimit branch limit).Keeps Adequate fun _ => True := by
  intro keys hk
  rw [Keychain.setGapLimit]
  dsimp only
  split
  next => exact trivial
  next =>
      rw [Step.wp_bind, Step.wp_modify]
      exact hk.maintain_setChain _

/-- A chain that is long enough is left alone. -/
theorem ensure_of_le_size {count : Nat} (enough : count ≤ (keys.chain branch).size) :
    (ensure branch count).wp (fun _ t => t = keys) (fun _ _ => False) keys := by
  have : ¬UInt32.size ≤ 0 := by decide
  simp only [ensure, generate, onChain, Step.wp_bind, Step.wp_get, Step.wp_pure,
    Step.wp_onPart, Nat.sub_eq_zero_of_le enough, if_neg this]
  exact setChain_chain

theorem maintain_of_requiredSize_le
    (enough : (keys.chain branch).requiredSize ≤ (keys.chain branch).size) :
    (maintain branch).wp (fun _ t => t = keys) (fun _ _ => False) keys := by
  rw [maintain, Step.wp_bind, Step.wp_get]
  exact ensure_of_le_size enough

/-- Where a chain cannot grow, growing it to what the gap rule asks for changes nothing. -/
theorem maintain_of_blocked {e : Failure} (blocked : keys.Blocked branch e)
    (short : (keys.chain branch).size < (keys.chain branch).requiredSize) :
    (maintain branch).wp (fun _ _ => False) (fun e' t => e' = e ∧ t = keys) keys := by
  have few : ¬UInt32.size ≤ (keys.chain branch).requiredSize - (keys.chain branch).size := by
    have := (keys.chain branch).requiredSize_le
    have : lastNormalIndex + 1 < UInt32.size := by decide
    omega
  simp only [maintain, ensure, generate, onChain, Step.wp_bind, Step.wp_get, if_neg few,
    Step.wp_onPart]
  rw [Step.wp, Chain.grow_of_stops blocked (Nat.sub_pos_of_lt short)]
  exact ⟨rfl, setChain_chain⟩

/-- A chain without slots is filled to just what the gap rule asks for. -/
theorem maintain_of_empty (empty : (keys.chain branch).size = 0)
    (unused : (keys.chain branch).highestUsed = none) :
    (maintain branch).wp (fun _ t => (t.chain branch).size = (t.chain branch).requiredSize ∧
      (t.chain branch).highestUsed = none ∧ t.chain branch.other = keys.chain branch.other)
      (fun _ _ => True) keys := by
  apply (maintain_spec branch keys).mono _ fun _ _ _ => trivial
  rintro _ t ⟨grows, hsize⟩
  refine ⟨?_, ?_, grows.chain_other⟩
  · rw [grows.extended.requiredSize_eq]
    omega
  · rw [grows.extended.highestUsed_eq, unused]

/-- A new keychain is just as long as the gap rule asks for, and none of its slots is used. -/
theorem filled_of_ofConfig {config : Config} {source : KeySource}
    (opened : ofConfig config source = .ok keys) (branch : Branch) :
    (keys.chain branch).size = (keys.chain branch).requiredSize ∧
      (keys.chain branch).highestUsed = none := by
  refine of_ofConfig (Q := fun keys => ∀ side, (keys.chain side).size =
    (keys.chain side).requiredSize ∧ (keys.chain side).highestUsed = none) ?_ opened branch
  simp only [Step.wp_bind, Step.wp_discard]
  have receiving : ((blank config source).chain .receiving).size = 0 := rfl
  apply (maintain_of_empty receiving rfl).mono _ fun _ _ _ => trivial
  rintro _ t ⟨filled, unused, change⟩
  have change : t.chain .change = (blank config source).chain .change := change
  apply (maintain_of_empty (change ▸ rfl) (change ▸ rfl)).mono _ fun _ _ _ => trivial
  rintro _ u ⟨filled', unused', kept⟩ side
  cases side with
  | change => exact ⟨filled', unused'⟩
  | receiving =>
      have kept : u.chain .receiving = t.chain .receiving := kept
      rw [kept]
      exact ⟨filled, unused⟩

theorem adequate_of_ofConfig {config : Config} {source : KeySource}
    (opened : ofConfig config source = .ok keys) : keys.Adequate := fun branch =>
  Nat.le_of_eq (filled_of_ofConfig opened branch).1.symm

end HdWallet.Keychain
