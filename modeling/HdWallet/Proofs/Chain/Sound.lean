import HdWallet.Proofs.Chain
import Mathlib.Data.Nat.SuccPred
import Mathlib.Order.Bounds.Basic
import Mathlib.Order.SuccPred.Archimedean

/-!
# What a chain is made of

A sound chain holds at each index what its source derives there. Both of its maps and the
highest used index say the same about these slots: an address leads to the one slot that
has it, a script to the last of those that it locks, and the highest used index is that of
the last used slot. Every change of a chain keeps it sound.
-/

namespace HdWallet

/-- What a slot has from its source; its use and its balance are left out. -/
def Slot.derivation (slot : Slot) : Path × Address × Script :=
  (slot.path, slot.address, slot.script)

theorem Slot.derivation_eq_iff {x y : Slot} :
    x.derivation = y.derivation ↔
      x.path = y.path ∧ x.address = y.address ∧ x.script = y.script := by
  simp only [derivation, Prod.mk.injEq]

namespace Chain

variable {chain : Chain} {source : KeySource}

def indices (chain : Chain) (p : Slot → Prop) : Set Nat :=
  {i | ∃ slot, chain.slot? i = some slot ∧ p slot}

theorem mem_indices {p : Slot → Prop} {i : Nat} :
    i ∈ chain.indices p ↔ ∃ slot, chain.slot? i = some slot ∧ p slot := Iff.rfl

theorem lt_size_of_slot? {i : Nat} {slot : Slot} (h : chain.slot? i = some slot) :
    i < chain.size :=
  (Array.getElem?_eq_some_iff.mp h).1

theorem exists_slot?_of_lt_size {i : Nat} (h : i < chain.size) :
    ∃ slot, chain.slot? i = some slot :=
  ⟨_, Array.getElem?_eq_getElem h⟩

theorem mem_slots {slot : Slot} : slot ∈ chain.slots.toList ↔ ∃ i, chain.slot? i = some slot := by
  rw [Array.mem_toList_iff, Array.mem_iff_getElem?]
  rfl

/-- If any slot has a property, there is a last one that has it. -/
theorem exists_isGreatest_indices {p : Slot → Prop} (some_has : (chain.indices p).Nonempty) :
    ∃ i, IsGreatest (chain.indices p) i := by
  apply BddAbove.exists_isGreatest_of_nonempty _ some_has
  exact ⟨chain.size, fun i ⟨_, hslot, _⟩ => Nat.le_of_lt (lt_size_of_slot? hslot)⟩

theorem indices_push (slot : Slot) (p : Slot → Prop) (i : Nat) :
    i ∈ (chain.push slot).indices p ↔ i = chain.size ∧ p slot ∨ i ∈ chain.indices p := by
  simp only [mem_indices, slot?_push]
  split
  next here =>
      subst here
      simp [slot?_size]
  next elsewhere => simp [elsewhere]

theorem isGreatest_indices_push (slot : Slot) (p : Slot → Prop) [Decidable (p slot)] (i : Nat) :
    IsGreatest ((chain.push slot).indices p) i ↔
      if p slot then i = chain.size else IsGreatest (chain.indices p) i := by
  split
  next has =>
      have last : IsGreatest ((chain.push slot).indices p) chain.size := by
        refine ⟨(indices_push ..).mpr (.inl ⟨rfl, has⟩), ?_⟩
        rintro j ⟨_, hslot, -⟩
        have := lt_size_of_slot? hslot
        simp only [size, push, Array.size_push] at this ⊢
        omega
      exact ⟨fun h => h.unique last, fun h => h ▸ last⟩
  next lacks =>
      have same : (chain.push slot).indices p = chain.indices p := by
        ext j
        rw [indices_push, or_iff_right fun h => lacks h.2]
      rw [same]

/-- Chains whose slots agree in what a property looks at have it at the same indices. -/
theorem indices_congr {β : Type} {g : Slot → β} {p : Slot → Prop} {other : Chain}
    (same : ∀ i, (other.slot? i).map g = (chain.slot? i).map g)
    (respects : ∀ {x y : Slot}, g x = g y → p x → p y) :
    other.indices p = chain.indices p := by
  have within {first second : Chain} {i : Nat}
      (same : (first.slot? i).map g = (second.slot? i).map g) (h : i ∈ first.indices p) :
      i ∈ second.indices p := by
    obtain ⟨slot, hslot, hp⟩ := h
    rw [hslot, Option.map_some] at same
    obtain ⟨found, hfound, hg⟩ := Option.map_eq_some_iff.mp same.symm
    exact ⟨found, hfound, respects hg.symm hp⟩
  ext i
  exact ⟨within (same i), within (same i).symm⟩

/-- What a change of one slot keeps of it, it keeps of all slots. -/
theorem map_slot?_of_change {β : Type} {g : Slot → β} {f : Slot → Slot} {other : Chain} {i : Nat}
    (change : ∀ j, other.slot? j =
      (chain.slot? j).map fun slot => if i = j then f slot else slot)
    (same : ∀ slot, g (f slot) = g slot) (j : Nat) :
    (other.slot? j).map g = (chain.slot? j).map g := by
  rw [change, Option.map_map]
  congr 1
  funext slot
  simp only [Function.comp_apply]
  split
  next => exact same slot
  next => rfl

theorem slot?_markUsed {index : Nat} {marked : Chain}
    (h : chain.markUsed index = .ok (marked, true)) (j : Nat) :
    marked.slot? j =
      (chain.slot? j).map fun slot => if index = j then { slot with used := true } else slot := by
  rw [markUsed_eq_ok h]
  exact slot?_modify index j _

theorem markUsed_of_used {index : Nat} {slot : Slot} (hslot : chain.slot? index = some slot)
    (used : slot.used = true) : chain.markUsed index = .ok (chain, false) := by
  simp only [markUsed, hslot, used, if_true]

theorem markUsed_of_unused {index : Nat} {slot : Slot} (hslot : chain.slot? index = some slot)
    (unused : slot.used = false) : ∃ marked, chain.markUsed index = .ok (marked, true) := by
  simp only [markUsed, hslot, unused, Bool.false_eq_true, if_false]
  exact ⟨_, rfl⟩

theorem indices_markUsed {index : Nat} {marked : Chain}
    (h : chain.markUsed index = .ok (marked, true)) :
    marked.indices (·.used) = insert index (chain.indices (·.used)) := by
  obtain ⟨slot, hslot⟩ : ∃ slot, chain.slot? index = some slot := by
    cases hslot : chain.slot? index with
    | none => simp [markUsed, hslot] at h
    | some slot => exact ⟨slot, rfl⟩
  ext j
  simp only [Set.mem_insert_iff, mem_indices, slot?_markUsed h, Option.map_eq_some_iff]
  constructor
  · rintro ⟨_, ⟨other, hother, rfl⟩, used⟩
    split at used
    next here => exact .inl here.symm
    next => exact .inr ⟨other, hother, used⟩
  · rintro (rfl | ⟨other, hother, used⟩)
    · exact ⟨_, ⟨slot, hslot, rfl⟩, by simp⟩
    · exact ⟨_, ⟨other, hother, rfl⟩, by split <;> simp [used]⟩

theorem slot?_unmark {index : Nat} {cleared : Chain}
    (h : chain.setUsed index false = .ok cleared) (j : Nat) :
    cleared.slot? j =
      (chain.slot? j).map fun slot => if index = j then { slot with used := false } else slot := by
  rw [unmark_eq_ok h]
  exact slot?_modify index j _

theorem slot?_modifyCache (index j : Nat) (f : CachedBalance → CachedBalance) :
    (chain.modifyCache index f).slot? j = (chain.slot? j).map fun slot =>
      if index = j then { slot with cache := f slot.cache } else slot :=
  slot?_modify index j _

theorem indices_used_modifyCache (index : Nat) (f : CachedBalance → CachedBalance) :
    (chain.modifyCache index f).indices (·.used) = chain.indices (·.used) := by
  have same := map_slot?_of_change (g := Slot.used) (fun j => chain.slot?_modifyCache index j f)
    fun _ => rfl
  exact indices_congr same fun hxy => by rw [hxy]; exact id

/-- A change of the lifetime of balances keeps all of a slot but its balance. -/
theorem map_slot?_setCacheLifetime {β : Type} {g : Slot → β} (lifetime : UInt64)
    (same : ∀ slot cache, g { slot with cache } = g slot) (i : Nat) :
    ((chain.setCacheLifetime lifetime).slot? i).map g = (chain.slot? i).map g := by
  rw [slot?_setCacheLifetime, Option.map_map]
  congr 1
  funext slot
  exact same _ _

theorem indices_used_setCacheLifetime (lifetime : UInt64) :
    (chain.setCacheLifetime lifetime).indices (·.used) = chain.indices (·.used) :=
  indices_congr (g := Slot.used) (map_slot?_setCacheLifetime lifetime fun _ _ => rfl)
    fun hxy => by rw [hxy]; exact id

theorem lastUsedBelow_eq_some_iff {slots : Array Slot} {n i : Nat} :
    lastUsedBelow slots n = some i ↔
      IsGreatest {j | j < n ∧ ∃ slot, slots[j]? = some slot ∧ slot.used} i := by
  induction n with
  | zero => simp [lastUsedBelow, IsGreatest]
  | succ n ih =>
      rw [lastUsedBelow]
      split
      next used =>
          obtain ⟨slot, hslot, hused⟩ : ∃ slot, slots[n]? = some slot ∧ slot.used := by
            cases hn : slots[n]? with
            | none => simp [hn] at used
            | some slot => exact ⟨slot, rfl, by simpa [hn] using used⟩
          have last : IsGreatest {j | j < n + 1 ∧ ∃ slot, slots[j]? = some slot ∧ slot.used} n :=
            ⟨⟨Nat.lt_succ_self n, slot, hslot, hused⟩, fun j hj => Nat.le_of_lt_succ hj.1⟩
          rw [Option.some.injEq]
          exact ⟨fun h => h ▸ last, fun h => last.unique h⟩
      next unused =>
          have same : {j | j < n + 1 ∧ ∃ slot, slots[j]? = some slot ∧ slot.used} =
              {j | j < n ∧ ∃ slot, slots[j]? = some slot ∧ slot.used} := by
            ext j
            refine and_congr_left ?_
            rintro ⟨slot, hslot, hused⟩
            have : j ≠ n := by
              rintro rfl
              simp [hslot, hused] at unused
            omega
          rw [ih, same]

/-- The slots are what the source derives at consecutive indices, and the maps and the
highest used index agree with them. -/
structure Sound (source : KeySource) (chain : Chain) : Prop extends WellFormed chain where
  size_le : chain.size ≤ lastNormalIndex + 1
  path_eq : ∀ {i slot}, chain.slot? i = some slot →
    slot.path = chain.account.child chain.branch (UInt32.ofNat i)
  derive_eq : ∀ {i slot}, chain.slot? i = some slot →
    source.derive slot.path = .ok ⟨slot.address, slot.script⟩
  indexOfScript?_iff : ∀ {script i}, chain.indexOfScript? script = some i ↔
    IsGreatest (chain.indices (·.script = script)) i
  highestUsed_iff : ∀ {i}, chain.highestUsed = some i ↔ IsGreatest (chain.indices (·.used)) i

theorem toNat_ofNat_of_le_lastNormalIndex {i : Nat} (h : i ≤ lastNormalIndex) :
    (UInt32.ofNat i).toNat = i := by
  have : lastNormalIndex < UInt32.size := by decide
  exact UInt32.toNat_ofNat_of_lt' (by omega)

/-- A slot that comes next is refused only if its address is not new. -/
theorem refusal?_of_next {slot : Slot} (next : chain.next source = .ok slot) :
    chain.refusal? slot =
      if chain.contains slot.address then some (.duplicateAddress slot.address) else none := by
  obtain ⟨room, hpath, -⟩ := next_eq_ok next
  have index : slot.index = chain.size := by
    rw [Slot.index, hpath]
    exact toNat_ofNat_of_le_lastNormalIndex room
  have branch : slot.path.branch = chain.branch := by rw [hpath]; rfl
  rw [refusal?, if_neg (by simp [index, branch])]

namespace Sound

theorem index_eq (h : chain.Sound source) {i : Nat} {slot : Slot}
    (hslot : chain.slot? i = some slot) : slot.index = i := by
  have := lt_size_of_slot? hslot
  have := h.size_le
  rw [Slot.index, h.path_eq hslot]
  exact toNat_ofNat_of_le_lastNormalIndex (by omega)

theorem highestUsed_eq_none_iff (h : chain.Sound source) :
    chain.highestUsed = none ↔ ∀ i slot, chain.slot? i = some slot → slot.used = false := by
  constructor
  · intro none_used i slot hslot
    by_contra used
    obtain ⟨last, hlast⟩ := exists_isGreatest_indices (p := (·.used))
      ⟨i, slot, hslot, Bool.eq_true_of_not_eq_false used⟩
    rw [h.highestUsed_iff.mpr hlast] at none_used
    cases none_used
  · intro unused
    cases hused : chain.highestUsed with
    | none => rfl
    | some i =>
        obtain ⟨slot, hslot, used⟩ := (h.highestUsed_iff.mp hused).1
        rw [unused i slot hslot] at used
        cases used

/-- The highest used index depends on which slots are used, and on nothing else. -/
theorem highestUsed_eq_of_indices_eq (h : chain.Sound source) {other : Chain}
    (h' : other.Sound source) (same : other.indices (·.used) = chain.indices (·.used)) :
    other.highestUsed = chain.highestUsed := by
  apply Option.ext
  intro i
  rw [h'.highestUsed_iff, h.highestUsed_iff, same]

theorem highestUsed_eq_of_slots_eq (h : chain.Sound source) {other : Chain}
    (h' : other.Sound source) (same : other.slots = chain.slots) :
    other.highestUsed = chain.highestUsed := by
  apply h.highestUsed_eq_of_indices_eq h'
  simp only [indices, slot?, same]

/-- Every slot's script leads to a slot with that script. -/
theorem ofScript?_isSome_iff (h : chain.Sound source) {script : Script} :
    (chain.ofScript? script).isSome ↔ ∃ i slot, chain.slot? i = some slot ∧
      slot.script = script := by
  rw [Option.isSome_iff_exists]
  constructor
  · rintro ⟨slot, found⟩
    obtain ⟨i, hi, hslot⟩ := Option.bind_eq_some_iff.mp found
    obtain ⟨other, hother, same⟩ := (h.indexOfScript?_iff.mp hi).1
    exact ⟨i, other, hother, same⟩
  · rintro ⟨i, slot, hslot, same⟩
    obtain ⟨last, hlast⟩ := exists_isGreatest_indices (p := (·.script = script))
      ⟨i, slot, hslot, same⟩
    obtain ⟨found, hfound, -⟩ := hlast.1
    exact ⟨found, Option.bind_eq_some_iff.mpr ⟨last, h.indexOfScript?_iff.mpr hlast, hfound⟩⟩

theorem script_of_ofScript? (h : chain.Sound source) {script : Script} {slot : Slot}
    (found : chain.ofScript? script = some slot) :
    ∃ i, chain.slot? i = some slot ∧ slot.script = script := by
  obtain ⟨i, hi, hslot⟩ := Option.bind_eq_some_iff.mp found
  obtain ⟨other, hother, same⟩ := (h.indexOfScript?_iff.mp hi).1
  rw [hslot] at hother
  cases hother
  exact ⟨i, hslot, same⟩

theorem blank (account : AccountPath) (branch : Branch) (gapLimit : Nat)
    (cacheLifetime : UInt64) : Sound source { account, branch, gapLimit, cacheLifetime } where
  toWellFormed := wellFormed_blank account branch gapLimit cacheLifetime
  size_le := Nat.zero_le _
  path_eq hslot := by simp [slot?] at hslot
  derive_eq hslot := by simp [slot?] at hslot
  indexOfScript?_iff := by simp [indexOfScript?, IsGreatest, indices, slot?]
  highestUsed_iff := by simp [IsGreatest, indices, slot?]

theorem push (h : chain.Sound source) {slot : Slot} (next : chain.next source = .ok slot)
    (fits : chain.refusal? slot = none) : (chain.push slot).Sound source := by
  obtain ⟨room, hpath, derived, unused, hcache⟩ := next_eq_ok next
  obtain ⟨hindex, -, -⟩ := refusal?_eq_none_iff.mp fits
  constructor
  case toWellFormed =>
      apply h.toWellFormed.push fits
      rw [hcache]
      rfl
  case size_le =>
      simp only [size, Chain.push, Array.size_push] at room ⊢
      omega
  case path_eq =>
      intro i other hother
      rw [slot?_push] at hother
      split at hother
      next last =>
          cases hother
          rw [hpath, last]
          rfl
      next => exact h.path_eq hother
  case derive_eq =>
      intro i other hother
      rw [slot?_push] at hother
      split at hother
      next =>
          cases hother
          exact derived
      next => exact h.derive_eq hother
  case indexOfScript?_iff =>
      intro script i
      rw [isGreatest_indices_push, indexOfScript?, Chain.push, Std.ExtTreeMap.getElem?_insert]
      simp only [Std.compare_eq_iff_eq]
      split
      next => rw [Option.some.injEq, hindex, eq_comm]
      next => exact h.indexOfScript?_iff
  case highestUsed_iff =>
      intro i
      rw [isGreatest_indices_push, if_neg (by rw [unused]; exact Bool.false_ne_true)]
      exact h.highestUsed_iff

/-- A change of the slots that keeps what was derived. -/
theorem recast (h : chain.Sound source) {other : Chain}
    (same : ∀ i, (other.slot? i).map Slot.derivation = (chain.slot? i).map Slot.derivation)
    (lifetime : ∀ {i slot}, other.slot? i = some slot → slot.cache.lifetime = other.cacheLifetime)
    (highest : ∀ {i}, other.highestUsed = some i ↔ IsGreatest (other.indices (·.used)) i)
    (account : other.account = chain.account := by rfl)
    (branch : other.branch = chain.branch := by rfl)
    (byAddress : other.byAddress = chain.byAddress := by rfl)
    (byScript : other.byScript = chain.byScript := by rfl) : other.Sound source := by
  have before {i : Nat} {slot : Slot} (hslot : other.slot? i = some slot) :
      ∃ old, chain.slot? i = some old ∧ old.derivation = slot.derivation := by
    have hsame := same i
    rw [hslot, Option.map_some] at hsame
    exact Option.map_eq_some_iff.mp hsame.symm
  constructor
  case toWellFormed =>
      refine ⟨?_, lifetime⟩
      intro address i
      have addresses : other.indices (·.address = address) = chain.indices (·.address = address) :=
        indices_congr same fun hxy => by
          obtain ⟨-, haddress, -⟩ := Slot.derivation_eq_iff.mp hxy
          rw [haddress]
          exact id
      rw [indexOf?, byAddress]
      exact h.indexOf?_iff.trans (Set.ext_iff.mp addresses i).symm
  case size_le =>
      by_contra beyond
      obtain ⟨slot, hslot⟩ := other.exists_slot?_of_lt_size (Nat.lt_of_not_le beyond)
      obtain ⟨old, hold, -⟩ := before hslot
      have := lt_size_of_slot? hold
      have := h.size_le
      omega
  case path_eq =>
      intro i slot hslot
      obtain ⟨old, hold, hderivation⟩ := before hslot
      obtain ⟨hpath, -, -⟩ := Slot.derivation_eq_iff.mp hderivation
      rw [← hpath, h.path_eq hold, account, branch]
  case derive_eq =>
      intro i slot hslot
      obtain ⟨old, hold, hderivation⟩ := before hslot
      obtain ⟨hpath, haddress, hscript⟩ := Slot.derivation_eq_iff.mp hderivation
      rw [← hpath, ← haddress, ← hscript, h.derive_eq hold]
  case indexOfScript?_iff =>
      intro script i
      have scripts : other.indices (·.script = script) = chain.indices (·.script = script) :=
        indices_congr same fun hxy => by
          obtain ⟨-, -, hscript⟩ := Slot.derivation_eq_iff.mp hxy
          rw [hscript]
          exact id
      rw [indexOfScript?, byScript, scripts]
      exact h.indexOfScript?_iff
  case highestUsed_iff => exact highest

/-- The highest used index after a further one is used. -/
theorem isGreatest_insert_used (h : chain.Sound source) (index : Nat) :
    IsGreatest (insert index (chain.indices (·.used))) (max (chain.highestUsed.getD 0) index) := by
  cases hused : chain.highestUsed with
  | some highest =>
      rw [max_comm]
      exact (h.highestUsed_iff.mp hused).insert index
  | none =>
      have empty : chain.indices (·.used) = ∅ := by
        rw [Set.eq_empty_iff_forall_notMem]
        rintro j ⟨other, hother, used⟩
        rw [h.highestUsed_eq_none_iff.mp hused j other hother] at used
        cases used
      rw [empty, insert_empty_eq, Option.getD_none, Nat.zero_max]
      exact isGreatest_singleton

theorem markUsed (h : chain.Sound source) {index : Nat} {marked : Chain}
    (hmarked : chain.markUsed index = .ok (marked, true)) : marked.Sound source := by
  have change := slot?_markUsed hmarked
  have fields := markUsed_eq_ok hmarked
  refine h.recast (map_slot?_of_change change fun _ => rfl)
    (h.toWellFormed.markUsed hmarked).lifetime_eq ?_
    (by rw [fields]) (by rw [fields]) (by rw [fields]) (by rw [fields])
  intro j
  have last := h.isGreatest_insert_used index
  rw [indices_markUsed hmarked, fields, Option.some.injEq]
  exact ⟨fun here => here ▸ last, fun other => last.unique other⟩

theorem unmark (h : chain.Sound source) {index : Nat} {cleared : Chain}
    (hcleared : chain.setUsed index false = .ok cleared) : cleared.Sound source := by
  have change := slot?_unmark hcleared
  have modified := h.toWellFormed.modify index (f := ({ · with used := false }))
    (fun _ => rfl) fun _ => rfl
  rw [unmark_eq_ok hcleared] at change ⊢
  refine h.recast (map_slot?_of_change change fun _ => rfl) modified.lifetime_eq ?_
  -- The highest used index is looked for anew among all slots.
  intro j
  have all (slots : Array Slot) :
      {j | j < slots.size ∧ ∃ slot, slots[j]? = some slot ∧ slot.used} =
        {j | ∃ slot, slots[j]? = some slot ∧ slot.used} := by
    ext j
    exact and_iff_right_of_imp fun ⟨_, hslot, _⟩ => (Array.getElem?_eq_some_iff.mp hslot).1
  rw [lastUsedBelow_eq_some_iff, all]
  rfl

theorem modifyCache (h : chain.Sound source) (index : Nat) {f : CachedBalance → CachedBalance}
    (lifetime : ∀ c, (f c).lifetime = c.lifetime) : (chain.modifyCache index f).Sound source := by
  have change (j : Nat) := chain.slot?_modifyCache index j f
  refine h.recast (map_slot?_of_change change fun _ => rfl)
    (h.toWellFormed.modifyCache index lifetime).lifetime_eq ?_
  intro i
  rw [indices_used_modifyCache]
  exact h.highestUsed_iff

theorem setCacheLifetime (h : chain.Sound source) (lifetime : UInt64) :
    (chain.setCacheLifetime lifetime).Sound source := by
  refine h.recast (map_slot?_setCacheLifetime lifetime fun _ _ => rfl)
    (h.toWellFormed.setCacheLifetime lifetime).lifetime_eq ?_
  intro i
  rw [indices_used_setCacheLifetime]
  exact h.highestUsed_iff

theorem withGapLimit (h : chain.Sound source) (gapLimit : Nat) :
    Sound source { chain with gapLimit } :=
  ⟨⟨h.indexOf?_iff, h.lifetime_eq⟩, h.size_le, h.path_eq, h.derive_eq, h.indexOfScript?_iff,
    h.highestUsed_iff⟩

section OneBranch

variable {other : Chain} (h : chain.Sound source) (h' : other.Sound source)
  (account : other.account = chain.account) (branch : other.branch = chain.branch)
include h h' account branch

theorem derivation_eq {i : Nat} {slot slot' : Slot} (hslot : chain.slot? i = some slot)
    (hslot' : other.slot? i = some slot') : slot'.derivation = slot.derivation := by
  have hpath : slot'.path = slot.path := by
    rw [h'.path_eq hslot', account, branch, ← h.path_eq hslot]
  have derived := h'.derive_eq hslot'
  rw [hpath, h.derive_eq hslot, Except.ok.injEq, Derived.mk.injEq] at derived
  obtain ⟨haddress, hscript⟩ := derived
  exact Slot.derivation_eq_iff.mpr ⟨hpath, haddress.symm, hscript.symm⟩

/-- The longer chain has each address of the shorter one at the same index. -/
theorem indexOf?_of_size_le (shorter : other.size ≤ chain.size) {address : Address} {i : Nat}
    (found : other.indexOf? address = some i) : chain.indexOf? address = some i := by
  obtain ⟨slot', hslot', rfl⟩ := h'.indexOf?_iff.mp found
  obtain ⟨slot, hslot⟩ := chain.exists_slot?_of_lt_size ((lt_size_of_slot? hslot').trans_le shorter)
  obtain ⟨-, haddress, -⟩ :=
    Slot.derivation_eq_iff.mp (h.derivation_eq h' account branch hslot hslot')
  exact h.indexOf?_iff.mpr ⟨slot, hslot, haddress.symm⟩

omit h' in
/-- What comes next in the shorter chain has the address that the longer one has there. -/
theorem next_of_slot? {slot : Slot} (hslot : chain.slot? other.size = some slot) :
    ∃ fresh, other.next source = .ok fresh ∧ fresh.address = slot.address := by
  have room : ¬lastNormalIndex < other.size := by
    have := lt_size_of_slot? hslot
    have := h.size_le
    omega
  rw [next, if_neg room, account, branch, ← h.path_eq hslot]
  dsimp only
  rw [h.derive_eq hslot]
  exact ⟨_, rfl, rfl⟩

end OneBranch

end Sound

end Chain

end HdWallet
