import HdWallet.Proofs.Keychain.Sound

/-!
# How far chains have grown in every state

A step that fails half way may leave a chain with fewer slots than the gap rule asks for. It
does so only where the chain cannot grow: the source derives no further slot, or one whose
address occurs already. Neither ever changes, since a source always gives the same answer and
no address is ever lost. So in every state each chain is as long as the gap rule asks for, or
it will never be longer than it is.
-/

namespace HdWallet.Keychain

variable {keys t : Keychain} {branch : Branch}

/-- A chain is as long as the gap rule asks for, or it cannot grow. -/
def Filled (keys : Keychain) (branch : Branch) : Prop :=
  (keys.chain branch).requiredSize ≤ (keys.chain branch).size ∨ ∃ e, keys.Blocked branch e

theorem Filled.of_kin (h : keys.Filled branch) (kin : t.Kin keys)
    (longer : ∀ side, (keys.chain side).size ≤ (t.chain side).size)
    (same : (t.chain branch).requiredSize = (keys.chain branch).requiredSize) :
    t.Filled branch := by
  obtain enough | ⟨e, blocked⟩ := h
  · exact .inl (same ▸ enough.trans (longer branch))
  · exact .inr ⟨e, kin.blocked longer blocked⟩

/-- However it ends, growing a chain to what the gap rule asks for fills it. -/
theorem maintain_fills (branch : Branch) (keys : Keychain) :
    (maintain branch).wp (fun _ t => keys.Grows branch t ∧ t.Filled branch)
      (fun _ t => keys.Grows branch t ∧ t.Filled branch) keys := by
  apply (maintain_spec branch keys).mono
  · rintro _ t ⟨grows, hsize⟩
    refine ⟨grows, .inl ?_⟩
    rw [grows.extended.requiredSize_eq, hsize]
    exact Nat.le_max_right _ _
  · rintro e t ⟨grows, -, blocked⟩
    exact ⟨grows, .inr ⟨e, blocked⟩⟩

/-- A filled chain is left as it is, and only one that the gap rule asks more of is refused. -/
theorem Filled.wp_maintain (h : keys.Filled branch) :
    (maintain branch).wp
      (fun _ t => t = keys ∧ (keys.chain branch).requiredSize ≤ (keys.chain branch).size)
      (fun e t => t = keys ∧ (keys.chain branch).size < (keys.chain branch).requiredSize ∧
        keys.Blocked branch e) keys := by
  by_cases enough : (keys.chain branch).requiredSize ≤ (keys.chain branch).size
  · exact (maintain_of_requiredSize_le enough).mono (fun _ _ ht => ⟨ht, enough⟩)
      fun _ _ failed => failed.elim
  · obtain ⟨e, blocked⟩ := h.resolve_left enough
    have short := Nat.lt_of_not_le enough
    apply (maintain_of_blocked blocked short).mono fun _ _ failed => failed.elim
    rintro _ t ⟨rfl, ht⟩
    exact ⟨ht, short, blocked⟩

/-- A sound keychain whose chains are filled. -/
structure Settled (keys : Keychain) : Prop extends Sound keys where
  filled : ∀ branch, keys.Filled branch

namespace Settled

/-- Chains may get longer as long as the gap rule asks for no more. -/
theorem of_longer (h : keys.Settled) (sound : t.Sound) (source : t.source = keys.source)
    (account : t.account = keys.account)
    (longer : ∀ side, (keys.chain side).size ≤ (t.chain side).size)
    (same : ∀ side, (t.chain side).requiredSize = (keys.chain side).requiredSize) :
    t.Settled :=
  ⟨sound, fun side => (h.filled side).of_kin ⟨sound, h.toSound, source.symm, account.symm⟩ longer
    (same side)⟩

theorem of_grows (h : keys.Settled) (sound : t.Sound) (grows : keys.Grows branch t) :
    t.Settled := by
  apply h.of_longer sound
  case source => rw [grows.eq_setChain, source_setChain]
  case account => rw [grows.eq_setChain, account_setChain]
  case longer => exact fun side => (grows.extends_chain side).size_le
  case same => exact fun side => (grows.extends_chain side).requiredSize_eq

theorem modifyCache (h : keys.Settled) (index : Nat) {f : CachedBalance → CachedBalance}
    (lifetime : ∀ c, (f c).lifetime = c.lifetime) :
    (setChain branch ((keys.chain branch).modifyCache index f) keys).Settled := by
  apply h.of_longer (enduring_sound.modifyCache index lifetime h.toSound) (source_setChain _)
    (account_setChain _)
  case longer =>
      exact forall_chain_setChain (p := fun side c => (keys.chain side).size ≤ c.size)
        (Nat.le_of_eq (Chain.size_modifyCache ..).symm) (Nat.le_refl _)
  case same =>
      have here : ((keys.chain branch).modifyCache index f).requiredSize =
          (keys.chain branch).requiredSize := rfl
      exact forall_chain_setChain
        (p := fun side c => c.requiredSize = (keys.chain side).requiredSize) here rfl

theorem setCacheLifetime (h : keys.Settled) (lifetime : UInt64) :
    (keys.setCacheLifetime lifetime).Settled := by
  apply h.of_longer (h.toSound.setCacheLifetime lifetime) rfl rfl
  case longer =>
      intro side
      rw [chain_setCacheLifetime, Chain.size_setCacheLifetime]
  case same =>
      intro side
      rw [chain_setCacheLifetime]
      rfl

/-- A chain that was replaced by one of the same branch that is as long is filled again. -/
theorem wp_maintain (h : keys.Settled) {chain : Chain}
    (longer : (keys.chain branch).size ≤ chain.size)
    (sound : (setChain branch chain keys).Sound) :
    (maintain branch).wp (fun _ => Settled) (fun _ => Settled) (setChain branch chain keys) := by
  have settled {t : Keychain} (grows : (setChain branch chain keys).Grows branch t)
      (here : t.Filled branch) (sound : t.Sound) : t.Settled := by
    have frame : t = setChain branch (t.chain branch) keys := by
      rw [grows.eq_setChain, chain_setChain, setChain_setChain]
    obtain ⟨extended, -⟩ := grows.of_setChain
    refine ⟨sound, fun side => ?_⟩
    obtain rfl | rfl := side.eq_or_eq_other branch
    · exact here
    · have kin : t.Kin keys := by
        refine ⟨sound, h.toSound, ?_, ?_⟩
        · rw [frame, source_setChain]
        · rw [frame, account_setChain]
      have other : t.chain branch.other = keys.chain branch.other :=
        chain_other_of_eq_setChain frame
      refine (h.filled branch.other).of_kin kin (fun side => ?_) (by rw [other])
      rw [frame]
      exact forall_chain_setChain (p := fun side c => (keys.chain side).size ≤ c.size)
        (longer.trans extended.size_le) (Nat.le_refl _) side
  have kept := enduring_sound.toGrowth.keeps_maintain branch _ sound
  apply ((maintain_fills branch _).and kept).mono
  · exact fun _ _ ht => settled ht.1.1 ht.1.2 ht.2
  · exact fun _ _ ht => settled ht.1.1 ht.1.2 ht.2

end Settled

theorem carried_settled : Carried Settled where
  weaken _ hk := hk
  nextUnused branch excluded keys hk := by
    have kept := enduring_sound.toGrowth.keeps_nextUnused branch excluded keys hk.toSound
    apply ((nextUnused_grows branch excluded keys).and kept).mono
    · exact fun _ _ ht => hk.of_grows ht.2 ht.1
    · exact fun _ _ ht => hk.of_grows ht.2 ht.1
  markIndexUsed branch index keys hk := by
    simp only [markIndexUsed, Step.wp_bind, Step.wp_get]
    rw [Step.wp_ofExcept]
    refine ⟨?_, fun _ _ => hk⟩
    rintro ⟨marked, isNew⟩ marking
    cases isNew with
    | false => exact hk
    | true =>
        simp only [if_true, Step.wp_bind, Step.wp_modify, Step.wp_discard, Step.wp_pure]
        apply hk.wp_maintain _ (enduring_sound.mark marking hk.toSound)
        rw [Chain.markUsed_eq_ok marking]
        simp [Chain.size]

theorem keeps_setGapLimit_settled (branch : Branch) (limit : Nat) :
    (Keychain.setGapLimit branch limit).Keeps Settled := by
  intro keys hk
  rw [Keychain.setGapLimit]
  dsimp only
  split
  next => exact hk
  next =>
      rw [Step.wp_bind, Step.wp_modify]
      exact hk.wp_maintain (Nat.le_refl _) (enduring_sound.setGapLimit limit hk.toSound)

theorem keeps_applyBranch_settled (snapshot : Snapshot) (branch : Branch) :
    (snapshot.applyBranch branch).Keeps Settled := by
  intro keys hk
  apply enduring_sound.toRestoring.wp_applyBranch hk.toSound
  · exact fun _ _ grows sound _ _ => hk.of_grows sound grows
  · intro grown chain grows sound _ restored laid
    exact (hk.of_grows sound grows).wp_maintain
      (Nat.le_of_eq (Chain.size_eq_of_slot? restored).symm) laid

theorem settled_of_ofConfig {config : Config} {source : KeySource}
    (opened : ofConfig config source = .ok keys) : keys.Settled :=
  ⟨sound_of_ofConfig opened, fun branch => .inl (adequate_of_ofConfig opened branch)⟩

end HdWallet.Keychain
