import HdWallet.Keychain
import HdWallet.Proofs.Chain
import HdWallet.Proofs.Step

/-!
# What changes of a keychain keep

All steps on a keychain but restoring a snapshot are made of few changes: a slot is put
at the end of a chain, a slot is marked used, a gap limit or the lifetime of balances is
set. A property that survives these survives every step, whether the step fails or not.
-/

namespace HdWallet

theorem Branch.eq_or_eq_other (side branch : Branch) : side = branch ∨ side = branch.other := by
  cases side <;> cases branch <;> simp [other]

theorem Branch.other_ne (branch : Branch) : branch.other ≠ branch := by
  cases branch <;> decide

namespace Keychain

variable {keys : Keychain} {branch : Branch}

@[simp] theorem chain_setChain (chain : Chain) :
    (setChain branch chain keys).chain branch = chain := by
  cases branch <;> rfl

@[simp] theorem chain_other_setChain (chain : Chain) :
    (setChain branch chain keys).chain branch.other = keys.chain branch.other := by
  cases branch <;> rfl

@[simp] theorem source_setChain (chain : Chain) :
    (setChain branch chain keys).source = keys.source := by
  cases branch <;> rfl

@[simp] theorem setChain_setChain (first second : Chain) :
    setChain branch second (setChain branch first keys) = setChain branch second keys := by
  cases branch <;> rfl

@[simp] theorem setChain_chain : setChain branch (keys.chain branch) keys = keys := by
  cases branch <;> rfl

/-- Where nothing but the chain of a branch has changed, the other chain is as it was. -/
theorem chain_other_of_eq_setChain {t : Keychain}
    (frame : t = setChain branch (t.chain branch) keys) :
    t.chain branch.other = keys.chain branch.other := by
  rw [frame, chain_other_setChain]

/-- What holds of both chains after one was replaced. -/
theorem forall_chain_setChain {p : Branch → Chain → Prop} {chain : Chain} (here : p branch chain)
    (there : p branch.other (keys.chain branch.other)) (side : Branch) :
    p side ((setChain branch chain keys).chain side) := by
  obtain rfl | rfl := side.eq_or_eq_other branch
  · rwa [chain_setChain]
  · rwa [chain_other_setChain]

/-- Marking an address marks the one slot that has it. -/
theorem wp_markUsed_iff {address : Address} {Q : Bool → Keychain → Prop}
    {E : Failure → Keychain → Prop} :
    (markUsed address).wp Q E keys ↔
      match keys.locate address with
      | .error e => E e keys
      | .ok none => E (.unknownAddress address) keys
      | .ok (some (branch, index)) => (markIndexUsed branch index).wp Q E keys := by
  simp only [markUsed, Step.wp_bind, Step.wp_get]
  cases keys.locate address with
  | error e => rw [Step.wp_ofExcept_error]
  | ok place =>
      rw [Step.wp_ofExcept_ok]
      cases place with
      | none => rw [Step.wp_throw]
      | some place => rfl

theorem nextUnused_spec (branch : Branch) (excluded : Std.ExtTreeSet Nat)
    (keys : Keychain) :
    (nextUnused branch excluded).wp
      (fun slot t => slot ∈ (t.chain branch).slots ∧ slot.used = false ∧ slot.index ∉ excluded)
      (fun _ _ => True) keys := by
  simp only [nextUnused, Step.wp_bind, Step.wp_get]
  split
  next slot found => exact Chain.firstUnused?_spec found
  next =>
      simp only [Step.wp_bind, Step.wp_get, Step.wp_discard]
      rw [Step.wp_iff]
      constructor
      · intro _ grown _
        split
        next slot found => exact Chain.firstUnused?_spec found
        next => trivial
      · intros
        trivial

/-- A property that growing a chain by a slot keeps. The slot is the next one, and its
address occurs in neither chain. -/
structure Growth (P : Keychain → Prop) : Prop where
  push : ∀ {keys branch slot}, (keys.chain branch).next keys.source = .ok slot →
    ¬(keys.chain branch.other).contains slot.address → (keys.chain branch).refusal? slot = none →
    P keys → P (setChain branch ((keys.chain branch).push slot) keys)

namespace Growth

variable {P : Keychain → Prop} (growth : Growth P)
include growth

theorem wp_grow (count : Nat) (chain : Chain) (h : P (setChain branch chain keys)) :
    (Chain.grow keys.source (keys.chain branch.other).contains count).wp
      (fun _ grown => P (setChain branch grown keys))
      (fun _ grown => P (setChain branch grown keys)) chain := by
  induction count generalizing chain with
  | zero => exact h
  | succ count ih =>
      have push {slot : Slot} (next : chain.next keys.source = .ok slot)
          (fresh : ¬(keys.chain branch.other).contains slot.address)
          (fits : chain.refusal? slot = none) : P (setChain branch (chain.push slot) keys) := by
        have pushed := @Growth.push P growth (setChain branch chain keys) branch slot
        simp only [chain_setChain, source_setChain, chain_other_setChain, setChain_setChain]
          at pushed
        exact pushed next fresh fits h
      rw [Step.wp]
      rw [Chain.grow]
      cases next : chain.next keys.source with
      | error e => exact h
      | ok slot =>
          cases taken : (keys.chain branch.other).contains slot.address with
          | true =>
              simp only [taken, if_true]
              exact h
          | false =>
              simp only [taken, Bool.false_eq_true, if_false]
              cases fits : chain.refusal? slot with
              | some e => exact h
              | none => exact ih _ (push next (by rw [taken]; exact Bool.false_ne_true) fits)

theorem keeps_generate (branch : Branch) (count : Nat) : (generate branch count).Keeps P := by
  intro keys hk
  simp only [generate, onChain, Step.wp_bind, Step.wp_get, Step.wp_pure, Step.wp_onPart]
  refine growth.wp_grow count _ ?_
  rwa [setChain_chain]

theorem keeps_ensure (branch : Branch) (count : Nat) : (ensure branch count).Keeps P := by
  apply Step.keeps_get.bind
  intro keys
  dsimp only
  split
  next => exact (Step.keeps_throw _).bind fun _ => growth.keeps_generate _ _
  next => exact growth.keeps_generate _ _

theorem keeps_maintain (branch : Branch) : (maintain branch).Keeps P :=
  Step.keeps_get.bind fun _ => growth.keeps_ensure _ _

theorem keeps_nextUnused (branch : Branch) (excluded : Std.ExtTreeSet Nat) :
    (nextUnused branch excluded).Keeps P := by
  apply Step.keeps_get.bind
  intro keys
  split
  next => exact Step.keeps_pure _
  next =>
      refine Step.keeps_get.bind fun _ => (growth.keeps_generate _ _).discard.bind fun _ =>
        Step.keeps_get.bind fun grown => ?_
      split
      next => exact Step.keeps_pure _
      next => exact Step.keeps_throw _

end Growth

/-- A property that growing a chain and marking one of its slots used keeps. -/
structure Marking (P : Keychain → Prop) : Prop extends Growth P where
  mark : ∀ {keys branch index marked}, (keys.chain branch).markUsed index = .ok (marked, true) →
    P keys → P (setChain branch marked keys)

namespace Marking

variable {P : Keychain → Prop} (marking : Marking P)
include marking

theorem keeps_markIndexUsed (branch : Branch) (index : Nat) :
    (markIndexUsed branch index).Keeps P := by
  intro keys hk
  simp only [markIndexUsed, Step.wp_bind, Step.wp_get]
  cases marked : (keys.chain branch).markUsed index with
  | error e => exact hk
  | ok answer =>
      obtain ⟨chain, isNew⟩ := answer
      cases isNew with
      | false => exact hk
      | true =>
          have maintained := marking.toGrowth.keeps_maintain branch
          exact maintained.discard.bind (fun _ => Step.keeps_pure _) _ (marking.mark marked hk)

end Marking

/-- A property that the steps keep which hand out a slot or mark one used. Where such a step
fails it leaves `E` behind. -/
structure Carried (K : Keychain → Prop) (E : Keychain → Prop := K) : Prop where
  weaken : ∀ keys, K keys → E keys
  nextUnused : ∀ (branch : Branch) (excluded : Std.ExtTreeSet Nat),
    (nextUnused branch excluded).Keeps K E
  markIndexUsed : ∀ (branch : Branch) (index : Nat), (markIndexUsed branch index).Keeps K E

theorem Marking.carried {P : Keychain → Prop} (marking : Marking P) : Carried P where
  weaken _ hk := hk
  nextUnused := marking.toGrowth.keeps_nextUnused
  markIndexUsed := marking.keeps_markIndexUsed

theorem Carried.weakened {K E E' : Keychain → Prop} (carried : Carried K E)
    (weaken : ∀ keys, E keys → E' keys) : Carried K E' where
  weaken keys hk := weaken keys (carried.weaken keys hk)
  nextUnused branch excluded := (carried.nextUnused branch excluded).weaken weaken
  markIndexUsed branch index := (carried.markIndexUsed branch index).weaken weaken

theorem Carried.keeps_markUsed {K E : Keychain → Prop} (carried : Carried K E)
    (address : Address) : (markUsed address).Keeps K E := by
  intro keys hk
  rw [wp_markUsed_iff]
  split
  next => exact carried.weaken keys hk
  next => exact carried.weaken keys hk
  next branch index _ => exact carried.markIndexUsed branch index keys hk

/-- A property that growth, marking and a change of a gap limit keep. -/
structure Invariant (P : Keychain → Prop) : Prop extends Marking P where
  setGapLimit : ∀ {keys branch} (gapLimit : Nat),
    P keys → P (setChain branch { keys.chain branch with gapLimit } keys)

theorem Invariant.keeps_setGapLimit {P : Keychain → Prop} (inv : Invariant P) (branch : Branch)
    (limit : Nat) : (Keychain.setGapLimit branch limit).Keeps P := by
  rw [Keychain.setGapLimit]
  have set : Step.Keeps (do
      modify fun keys => setChain branch { keys.chain branch with gapLimit := limit } keys
      maintain branch : Step Keychain (List Address)) P :=
    (Step.keeps_modify fun _ hk => inv.setGapLimit limit hk).bind fun _ =>
      inv.toGrowth.keeps_maintain branch
  dsimp only
  split
  next => exact (Step.keeps_throw _).bind fun _ => set
  next => exact set

/-- Both chains are well formed, and their balances have the given lifetime. -/
structure WellFormed (keys : Keychain) (lifetime : UInt64) : Prop where
  chains : ∀ branch, (keys.chain branch).WellFormed
  lifetime_eq : ∀ branch, (keys.chain branch).cacheLifetime = lifetime

def reading (keys : Keychain) (address : Address) : Reading :=
  match keys.find? address with
  | some slot => slot.cache.reading
  | none => .unknown

theorem reading_eq (keys : Keychain) (address : Address) :
    keys.reading address =
      ((keys.receiving.reading? address).or (keys.change.reading? address)).getD .unknown := by
  simp only [reading, find?, Chain.reading?]
  cases keys.receiving.find? address with
  | some slot => rfl
  | none => cases keys.change.find? address <;> rfl

theorem reading_of_other_eq_none {address : Address}
    (h : (keys.chain branch.other).reading? address = none) :
    keys.reading address = ((keys.chain branch).reading? address).getD .unknown := by
  rw [reading_eq]
  cases branch with
  | receiving =>
      change keys.change.reading? address = none at h
      rw [h, Option.or_none]
      rfl
  | change =>
      change keys.receiving.reading? address = none at h
      rw [h, Option.none_or]
      rfl

theorem reading_setChain {chain : Chain} {address : Address}
    (same : chain.reading? address = (keys.chain branch).reading? address) :
    (setChain branch chain keys).reading address = keys.reading address := by
  rw [reading_eq, reading_eq]
  cases branch with
  | receiving => rw [setChain, same]; rfl
  | change => rw [setChain, same]; rfl

namespace WellFormed

variable {lifetime : UInt64}

theorem setChain (h : keys.WellFormed lifetime) {chain : Chain} (wellFormed : chain.WellFormed)
    (same : chain.cacheLifetime = (keys.chain branch).cacheLifetime) :
    (setChain branch chain keys).WellFormed lifetime where
  chains := forall_chain_setChain wellFormed (h.chains _)
  lifetime_eq := forall_chain_setChain (p := fun _ c => c.cacheLifetime = lifetime)
    (same.trans (h.lifetime_eq branch)) (h.lifetime_eq _)

theorem push (h : keys.WellFormed lifetime) {slot : Slot}
    (next : (keys.chain branch).next keys.source = .ok slot)
    (fits : (keys.chain branch).refusal? slot = none) :
    (Keychain.setChain branch ((keys.chain branch).push slot) keys).WellFormed lifetime := by
  refine h.setChain ((h.chains branch).push fits ?_) rfl
  obtain ⟨-, -, -, -, hcache⟩ := Chain.next_eq_ok next
  rw [hcache]
  rfl

theorem reading_push (h : keys.WellFormed lifetime) {slot : Slot}
    (next : (keys.chain branch).next keys.source = .ok slot)
    (fresh : ¬(keys.chain branch.other).contains slot.address)
    (fits : (keys.chain branch).refusal? slot = none) (address : Address) :
    (Keychain.setChain branch ((keys.chain branch).push slot) keys).reading address =
      keys.reading address := by
  obtain ⟨-, -, absent⟩ := Chain.refusal?_eq_none_iff.mp fits
  have pushed := (h.chains branch).reading?_push next fits address
  by_cases same : slot.address = address
  · -- An address that is new to both chains was unknown and has no balance yet.
    subst same
    rw [if_pos rfl] at pushed
    have here := Chain.reading?_eq_none_of_not_contains absent
    have there := Chain.reading?_eq_none_of_not_contains fresh
    rw [reading_of_other_eq_none (by rwa [chain_other_setChain]),
      reading_of_other_eq_none there, chain_setChain, pushed, here]
    rfl
  · rw [if_neg same] at pushed
    exact reading_setChain pushed

theorem setCacheLifetime (h : keys.WellFormed lifetime) (other : UInt64) :
    (keys.setCacheLifetime other).WellFormed other :=
  ⟨fun | .receiving => (h.chains .receiving).setCacheLifetime other
       | .change => (h.chains .change).setCacheLifetime other,
    fun | .receiving => rfl | .change => rfl⟩

end WellFormed

theorem chain_setCacheLifetime (keys : Keychain) (lifetime : UInt64) (branch : Branch) :
    (keys.setCacheLifetime lifetime).chain branch =
      (keys.chain branch).setCacheLifetime lifetime := by
  cases branch <;> rfl

theorem reading_setCacheLifetime (keys : Keychain) (lifetime : UInt64) (address : Address) :
    (keys.setCacheLifetime lifetime).reading address = keys.reading address := by
  simp only [reading_eq, setCacheLifetime, Chain.reading?_setCacheLifetime]

theorem WellFormed.lifetime_of_find? {lifetime : UInt64} (h : keys.WellFormed lifetime)
    {address : Address} {slot : Slot} (found : keys.find? address = some slot) :
    slot.cache.lifetime = lifetime := by
  rcases Option.or_eq_some_iff.mp found with found | ⟨-, found⟩
  · exact ((h.chains .receiving).of_find? found).2.trans (h.lifetime_eq .receiving)
  · exact ((h.chains .change).of_find? found).2.trans (h.lifetime_eq .change)

theorem gapLimit_blank (config : Config) (source : KeySource) (branch : Branch) :
    ((blank config source).chain branch).gapLimit = (config.gapLimit branch).toNat := by
  cases branch <;> rfl

theorem cacheLifetime_blank (config : Config) (source : KeySource) (branch : Branch) :
    ((blank config source).chain branch).cacheLifetime = config.cacheLifetime := by
  cases branch <;> rfl

theorem wellFormed_blank (config : Config) (source : KeySource) :
    (blank config source).WellFormed config.cacheLifetime :=
  ⟨fun | .receiving => Chain.wellFormed_blank _ _ _ _ | .change => Chain.wellFormed_blank _ _ _ _,
    fun | .receiving => rfl | .change => rfl⟩

theorem reading_blank (config : Config) (source : KeySource) (address : Address) :
    (blank config source).reading address = .unknown := by
  simp [reading, find?, Chain.find?, Chain.indexOf?, blank]

/-- Growth, marking and gap limits change no balance. -/
theorem invariant_reading (lifetime : UInt64) (readings : Address → Reading) :
    Invariant fun keys => keys.WellFormed lifetime ∧ ∀ a, keys.reading a = readings a where
  push next fresh fits := fun ⟨h, same⟩ =>
    ⟨h.push next fits, fun a => (h.reading_push next fresh fits a).trans (same a)⟩
  mark marked := fun ⟨h, same⟩ =>
    ⟨h.setChain ((h.chains _).markUsed marked) (by rw [Chain.markUsed_eq_ok marked]),
      fun a => (reading_setChain (Chain.reading?_markUsed marked a)).trans (same a)⟩
  setGapLimit gapLimit := by
    rintro ⟨h, same⟩
    refine ⟨h.setChain ⟨(h.chains _).indexOf?_iff, (h.chains _).lifetime_eq⟩ rfl, ?_⟩
    intro a
    rw [← same, reading_setChain]
    rfl

/-- A new keychain is a blank one that was grown. -/
theorem of_ofConfig {Q : Keychain → Prop} {config : Config} {source : KeySource}
    (filled : Step.wp (do discard (maintain .receiving); discard (maintain .change))
      (fun _ => Q) (fun _ _ => True) (blank config source))
    (opened : ofConfig config source = .ok keys) : Q keys := by
  rw [ofConfig] at opened
  cases valid : config.validate with
  | error e =>
      rw [valid] at opened
      cases opened
  | ok _ =>
      rw [valid] at opened
      simp only [bind, Except.bind] at opened
      split at opened
      next hfill =>
          cases opened
          exact filled.of_ok hfill
      next => cases opened

theorem Growth.of_ofConfig {P : Keychain → Prop} (growth : Growth P) {config : Config}
    {source : KeySource} (blank : P (blank config source))
    (opened : ofConfig config source = .ok keys) : P keys := by
  have fills := (growth.keeps_maintain .receiving).discard.bind
    fun _ => (growth.keeps_maintain .change).discard
  exact Keychain.of_ofConfig ((fills _ blank).mono (fun _ _ ht => ht) fun _ _ _ => trivial) opened

/-- A balance changes in one slot, if at all. -/
theorem modifyCache_cases (keys : Keychain) (address : Address)
    (f : CachedBalance → CachedBalance) :
    (keys.modifyCache address f).1 = keys ∨ ∃ branch index,
      (keys.modifyCache address f).1 =
        setChain branch ((keys.chain branch).modifyCache index f) keys := by
  rw [modifyCache]
  split
  next index _ => exact .inr ⟨.receiving, index, rfl⟩
  next =>
      split
      next index _ => exact .inr ⟨.change, index, rfl⟩
      next => exact .inl rfl

theorem modifyCache_of_unknown {address : Address} {f : CachedBalance → CachedBalance}
    (unknown : (keys.modifyCache address f).2 = false) :
    keys.modifyCache address f = (keys, false) := by
  rw [modifyCache] at unknown ⊢
  split at unknown
  next => cases unknown
  next =>
      split at unknown
      next => cases unknown
      next => rfl

def scriptOf? (keys : Keychain) (address : Address) : Option Script :=
  (keys.find? address).map (·.script)

theorem scriptOf?_modifyCache (keys : Keychain) (address other : Address)
    (f : CachedBalance → CachedBalance) :
    (keys.modifyCache address f).1.scriptOf? other = keys.scriptOf? other := by
  have same (chain : Chain) (index : Nat) :
      ((chain.modifyCache index f).find? other).map (·.script) =
        (chain.find? other).map (·.script) :=
    Chain.map_find?_modifyCache (fun _ _ => rfl) index f other
  rw [modifyCache]
  split
  next index _ => simp only [scriptOf?, find?, Option.map_or, same]
  next =>
      split
      next => simp only [scriptOf?, find?, Option.map_or, same]
      next => rfl

namespace WellFormed

variable {lifetime : UInt64}

theorem modifyCache (h : keys.WellFormed lifetime) (address : Address)
    {f : CachedBalance → CachedBalance} (same : ∀ c, (f c).lifetime = c.lifetime) :
    (keys.modifyCache address f).1.WellFormed lifetime := by
  rw [Keychain.modifyCache]
  split
  next => exact h.setChain ((h.chains .receiving).modifyCache _ same) rfl
  next =>
      split
      next => exact h.setChain ((h.chains .change).modifyCache _ same) rfl
      next => exact h

/-- Whether an address is known is whether it has a slot. -/
theorem modifyCache_snd (h : keys.WellFormed lifetime) (address : Address)
    (f : CachedBalance → CachedBalance) :
    (keys.modifyCache address f).2 = (keys.find? address).isSome := by
  have receiving := (h.chains .receiving).isSome_find? address
  have change := (h.chains .change).isSome_find? address
  simp only [chain] at receiving change
  rw [find?, Option.isSome_or, receiving, change, Keychain.modifyCache]
  cases keys.receiving.indexOf? address with
  | some index => rfl
  | none => cases keys.change.indexOf? address <;> rfl

theorem reading_setChain_modifyCache (h : keys.WellFormed lifetime) {address : Address}
    {index : Nat} (here : (keys.chain branch).indexOf? address = some index)
    (first : branch = .change → keys.receiving.indexOf? address = none)
    (f : CachedBalance → CachedBalance) :
    ∃ cache, ∀ a,
      (Keychain.setChain branch ((keys.chain branch).modifyCache index f) keys).reading a =
        if a = address then (f cache).reading else keys.reading a := by
  obtain ⟨slot, hslot, -⟩ := (h.chains branch).indexOf?_iff.mp here
  have found := Chain.find?_eq_some_iff.mpr ⟨index, here, hslot⟩
  refine ⟨slot.cache, ?_⟩
  intro a
  have changed := (h.chains branch).reading?_modifyCache here f a
  by_cases same : a = address
  · subst same
    rw [if_pos rfl, found, Option.map_some] at changed
    rw [if_pos rfl, reading_eq]
    cases branch with
    | receiving =>
        change (Chain.modifyCache keys.receiving index f).reading? a = _ at changed
        rw [Keychain.setChain, chain, changed]
        rfl
    | change =>
        have absent : keys.receiving.reading? a = none := by
          rw [Chain.reading?, Chain.find?, first rfl]
          rfl
        change (Chain.modifyCache keys.change index f).reading? a = _ at changed
        rw [Keychain.setChain, chain, changed, absent]
        rfl
  · rw [if_neg same] at changed
    rw [if_neg same, reading_setChain changed]

/-- If the address is known, its balance changes and no other does. -/
theorem reading_modifyCache (h : keys.WellFormed lifetime) {address : Address}
    {f : CachedBalance → CachedBalance} (known : (keys.modifyCache address f).2) :
    ∃ cache, ∀ a, (keys.modifyCache address f).1.reading a =
      if a = address then (f cache).reading else keys.reading a := by
  rw [Keychain.modifyCache] at known ⊢
  cases hr : keys.receiving.indexOf? address with
  | some index => exact @reading_setChain_modifyCache keys .receiving _ h _ _ hr nofun f
  | none =>
      cases hc : keys.change.indexOf? address with
      | some index => exact @reading_setChain_modifyCache keys .change _ h _ _ hc (fun _ => hr) f
      | none =>
          rw [hr, hc] at known
          cases known

end WellFormed

end Keychain

end HdWallet
