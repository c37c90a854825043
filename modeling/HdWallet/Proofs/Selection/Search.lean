import Mathlib.Data.List.Lex
import HdWallet.Proofs.Fee
import HdWallet.Proofs.Selection.Ranking
import HdWallet.Selection.Search

/-!
# What branch and bound finds

The search is compared with one that has no cuts. `setsBelow` lists every set that
covers the payment below a node, in the order in which the search would meet them,
and folding `improve` over that list keeps the first set of least excess. A cut is
sound because the list below the cut is empty or changes nothing in that fold.

A set of positions is its increasing list, so the order of meeting is the
lexicographic order of lists: an earlier position comes first, and a set comes before
those that it is the beginning of.
-/

namespace HdWallet

namespace Payment

variable (payment : Payment)

theorem required_mono {i j : Nat} (h : i ≤ j) : payment.required i ≤ payment.required j :=
  Nat.add_le_add_left (payment.rate.feeFor_mono h (Nat.le_refl _)) _

/-- Coins that are worth their input fees pay for what they add to the payment. -/
theorem required_add_inputs_le (inputs more : Nat) :
    payment.required (inputs + more) ≤
      payment.required inputs + more * payment.rate.inputFee := by
  have fees := payment.rate.feeFor_add_inputs_le inputs more payment.outputs
  simp only [required]
  omega

end Payment

namespace Search

def worth (values : List Nat) : List Nat → Nat
  | [] => 0
  | i :: rest => values[i]?.getD 0 + worth values rest

def excess (payment : Payment) (values positions : List Nat) : Nat :=
  worth values positions - payment.required positions.length

/-- A set of coins that covers the payment: positions in increasing order, at least
one, and worth the target and the fee for so many inputs. -/
structure Covers (payment : Payment) (values positions : List Nat) : Prop where
  nonempty : positions ≠ []
  increasing : positions.Pairwise (· < ·)
  inRange : ∀ i ∈ positions, i < values.length
  enough : payment.required positions.length ≤ worth values positions

/-- The covering set that comes first in lexicographic order among those of least
excess. -/
structure FirstBest (payment : Payment) (values positions : List Nat) : Prop where
  covers : Covers payment values positions
  least : ∀ other, Covers payment values other →
    excess payment values positions ≤ excess payment values other
  first : ∀ other, Covers payment values other →
    excess payment values other = excess payment values positions →
      other = positions ∨ List.Lex (· < ·) positions other

theorem improve_of_le {known found : Found} (h : known.excess ≤ found.excess) :
    improve (some known) found = some known := by
  simp [improve, Nat.not_lt.mpr h]

theorem improve_of_lt {best : Option Found} {found : Found}
    (h : ∀ known ∈ best, found.excess < known.excess) : improve best found = some found := by
  cases best with
  | none => rfl
  | some known => simp [improve, h known rfl]

theorem exists_improve_eq_some (best : Option Found) (found : Found) :
    ∃ kept, improve best found = some kept ∧ kept.excess ≤ found.excess ∧
      (kept = found ∨ kept ∈ best) := by
  cases best with
  | none => exact ⟨found, rfl, Nat.le_refl _, .inl rfl⟩
  | some known =>
      by_cases better : found.excess < known.excess
      · exact ⟨found, by simp [improve, better], Nat.le_refl _, .inl rfl⟩
      · exact ⟨known, by simp [improve, better], Nat.le_of_not_lt better, .inr rfl⟩

theorem foldl_improve_of_le {known : Found} {sets : List Found}
    (h : ∀ f ∈ sets, known.excess ≤ f.excess) : sets.foldl improve (some known) = some known := by
  induction sets with
  | nil => rfl
  | cons f rest ih =>
      rw [List.foldl_cons, improve_of_le (h f List.mem_cons_self)]
      exact ih fun g hg => h g (List.mem_cons_of_mem f hg)

/-- What is kept never gets worse. -/
theorem exists_le_foldl_improve (sets : List Found) (known : Found) :
    ∃ kept, sets.foldl improve (some known) = some kept ∧ kept.excess ≤ known.excess := by
  induction sets generalizing known with
  | nil => exact ⟨known, rfl, Nat.le_refl _⟩
  | cons f rest ih =>
      by_cases better : f.excess < known.excess
      · obtain ⟨kept, hkept, hle⟩ := ih f
        refine ⟨kept, ?_, Nat.le_trans hle (Nat.le_of_lt better)⟩
        simpa [improve, better] using hkept
      · obtain ⟨kept, hkept, hle⟩ := ih known
        refine ⟨kept, ?_, hle⟩
        simpa [improve, better] using hkept

/-- The set kept in the end splits the list: those before it are worse, and those
after it are not better. -/
theorem split_of_foldl_improve {sets : List Found} {known kept : Found}
    (h : sets.foldl improve (some known) = some kept) :
    ∃ before after, known :: sets = before ++ kept :: after ∧
      (∀ f ∈ before, kept.excess < f.excess) ∧ ∀ f ∈ after, kept.excess ≤ f.excess := by
  induction sets generalizing known with
  | nil =>
      obtain rfl : known = kept := by simpa using h
      exact ⟨[], [], rfl, by simp, by simp⟩
  | cons f rest ih =>
      by_cases better : f.excess < known.excess
      · have hrest : rest.foldl improve (some f) = some kept := by
          simpa [improve, better] using h
        obtain ⟨before, after, hsplit, hbefore, hafter⟩ := ih hrest
        have hle : kept.excess ≤ f.excess := by
          obtain ⟨last, hlast, hle⟩ := exists_le_foldl_improve rest f
          rw [hrest] at hlast
          cases hlast
          exact hle
        refine ⟨known :: before, after, by rw [hsplit, List.cons_append], ?_, hafter⟩
        exact List.forall_mem_cons.mpr ⟨Nat.lt_of_le_of_lt hle better, hbefore⟩
      · have hrest : rest.foldl improve (some known) = some kept := by
          simpa [improve, better] using h
        obtain ⟨before, after, hsplit, hbefore, hafter⟩ := ih hrest
        cases before with
        | nil =>
            obtain ⟨rfl, rfl⟩ := List.cons.inj hsplit
            refine ⟨[], f :: rest, rfl, by simp, ?_⟩
            exact List.forall_mem_cons.mpr ⟨Nat.le_of_not_lt better, hafter⟩
        | cons first before =>
            obtain ⟨rfl, rfl⟩ := List.cons.inj hsplit
            obtain ⟨hknown, hbefore⟩ := List.forall_mem_cons.mp hbefore
            refine ⟨known :: f :: before, after, rfl, ?_, hafter⟩
            have hf : kept.excess < f.excess := by omega
            exact List.forall_mem_cons.mpr ⟨hknown, List.forall_mem_cons.mpr ⟨hf, hbefore⟩⟩

/-- The set of a node, if it covers the payment. -/
def set? (payment : Payment) (picked : List Nat) (count total : Nat) : Option Found :=
  if 0 < count ∧ payment.required count ≤ total then
    some ⟨total - payment.required count, picked.reverse⟩
  else none

/-- The covering sets that extend the set of a node, in the order in which they are met. -/
def setsBelow (payment : Payment) :
    (values : List Nat) → (next : Nat) → (picked : List Nat) → (count total : Nat) → List Found
  | [], _, _, _, _ => []
  | value :: rest, next, picked, count, total =>
    (set? payment (next :: picked) (count + 1) (total + value)).toList
      ++ setsBelow payment rest (next + 1) (next :: picked) (count + 1) (total + value)
      ++ setsBelow payment rest (next + 1) picked count total

def remaining (values : List Nat) : Nat := values.foldr (· + ·) 0

theorem withRemaining_cons (value : Nat) (rest : List Nat) :
    withRemaining (value :: rest) = (value, value + remaining rest) :: withRemaining rest := by
  induction rest generalizing value with
  | nil => rfl
  | cons other rest ih =>
      rw [withRemaining, ih other]
      rfl

theorem eq_of_mem_set? {payment : Payment} {picked : List Nat} {count total : Nat} {f : Found}
    (h : f ∈ set? payment picked count total) :
    0 < count ∧ payment.required count ≤ total ∧
      f = ⟨total - payment.required count, picked.reverse⟩ := by
  rw [set?] at h
  split at h
  next covers => exact ⟨covers.1, covers.2, (Option.some.inj h).symm⟩
  next => simp at h

/-- A set below a node has more coins than the node. They are worth no more than what
is left, and at least the least value times their number. -/
theorem cost_of_mem_setsBelow {payment : Payment} {values : List Nat} {next : Nat}
    {picked : List Nat} {count total : Nat} {f : Found}
    (h : f ∈ setsBelow payment values next picked count total) :
    ∃ more gain, f.excess = total + gain - payment.required (count + more) ∧
      payment.required (count + more) ≤ total + gain ∧ gain ≤ remaining values ∧
      ∀ least, (∀ v ∈ values, least ≤ v) → more * least ≤ gain := by
  induction values generalizing next picked count total with
  | nil => simp [setsBelow] at h
  | cons value rest ih =>
      simp only [setsBelow, List.mem_append, Option.mem_toList] at h
      rcases h with (here | included) | excluded
      · obtain ⟨-, covers, rfl⟩ := eq_of_mem_set? here
        refine ⟨1, value, rfl, covers, Nat.le_add_right _ _, ?_⟩
        intro least hleast
        simpa using hleast value List.mem_cons_self
      · obtain ⟨more, gain, hexcess, covers, hgain, hleast⟩ := ih included
        refine ⟨more + 1, value + gain, ?_, ?_, Nat.add_le_add_left hgain value, ?_⟩
        · rw [hexcess, Nat.add_assoc, Nat.add_assoc, Nat.add_comm 1]
        · rwa [Nat.add_comm more, ← Nat.add_assoc, ← Nat.add_assoc]
        · intro least h
          obtain ⟨hvalue, hrest⟩ := List.forall_mem_cons.mp h
          have := hleast least hrest
          rw [Nat.succ_mul]
          omega
      · obtain ⟨more, gain, hexcess, covers, hgain, hleast⟩ := ih excluded
        refine ⟨more, gain, hexcess, covers, Nat.le_trans hgain (Nat.le_add_left _ _), ?_⟩
        intro least h
        exact hleast least (List.forall_mem_cons.mp h).2

/-- The first cut loses nothing: too little is left. -/
theorem setsBelow_eq_nil {payment : Payment} {values : List Nat} {next : Nat}
    {picked : List Nat} {count total : Nat}
    (h : total + remaining values < payment.required count) :
    setsBelow payment values next picked count total = [] := by
  rw [List.eq_nil_iff_forall_not_mem]
  intro f hf
  obtain ⟨more, gain, -, covers, hgain, -⟩ := cost_of_mem_setsBelow hf
  have := payment.required_mono (Nat.le_add_right count more)
  omega

/-- The second cut loses nothing: coins that are worth their input fees never lower
the excess. -/
theorem excess_le_of_mem_setsBelow {payment : Payment} {values : List Nat} {next : Nat}
    {picked : List Nat} {count total : Nat} {f : Found}
    (covers : payment.required count ≤ total)
    (economic : ∀ v ∈ values, payment.rate.inputFee ≤ v)
    (h : f ∈ setsBelow payment values next picked count total) :
    total - payment.required count ≤ f.excess := by
  obtain ⟨more, gain, hexcess, -, -, hleast⟩ := cost_of_mem_setsBelow h
  have hgain := hleast _ economic
  have := payment.required_add_inputs_le count more
  omega

/-- A walk that is not stopped by its budget ends with `best`, and stops early only
for a set without excess. -/
def Walk.EndsWith (best : Option Found) : Walk → Prop
  | .more progress => progress.best = best ∧ ∀ known ∈ best, 0 < known.excess
  | .exact found => best = some found ∧ found.excess = 0
  | .exceeded => True

/-- What a walk does below a node whose own set is dealt with. -/
def descend (payment : Payment) (economic : Bool) (rest : List (Nat × Nat)) (next : Nat)
    (picked : List Nat) (count total : Nat) (progress : Progress) : Walk :=
  match rest with
  | [] => .more progress
  | (value, sum) :: rest =>
    if total + sum < payment.required count then .more progress
    else
      match walk payment economic rest (next + 1) (next :: picked) (count + 1)
          (total + value) progress with
      | .more progress => walk payment economic rest (next + 1) picked count total progress
      | stopped => stopped

section Walk

variable {payment : Payment} {economic : Bool} {rest : List (Nat × Nat)} {values : List Nat}
variable {next count total : Nat} {picked : List Nat}

theorem walk_zero (best : Option Found) :
    walk payment economic rest next picked count total ⟨0, best⟩ = .exceeded := by
  rw [walk.eq_def]

theorem walk_of_set?_eq_none (h : set? payment picked count total = none)
    (budget : Nat) (best : Option Found) :
    walk payment economic rest next picked count total ⟨budget + 1, best⟩ =
      descend payment economic rest next picked count total ⟨budget, best⟩ := by
  have short : ¬(0 < count ∧ payment.required count ≤ total) := by
    intro covers
    simp [set?, covers] at h
  rw [walk.eq_def]
  simp [short]
  rfl

theorem walk_of_set?_eq_some {found : Found} (h : set? payment picked count total = some found)
    (budget : Nat) (best : Option Found) :
    walk payment economic rest next picked count total ⟨budget + 1, best⟩ =
      if found.excess = 0 then .exact found
      else if economic then .more ⟨budget, improve best found⟩
      else descend payment economic rest next picked count total ⟨budget, improve best found⟩ := by
  obtain ⟨nonempty, covers, rfl⟩ := eq_of_mem_set? h
  rw [walk.eq_def]
  simp [nonempty, covers]
  rfl

/-- It remains to look below a node: the own set of the node is considered first. -/
theorem walk_endsWith_of_descend
    (worthwhile : economic → ∀ v ∈ values, payment.rate.inputFee ≤ v)
    (descends : ∀ progress : Progress, (∀ known ∈ progress.best, 0 < known.excess) →
      (∀ f ∈ set? payment picked count total, ∃ known ∈ progress.best, known.excess ≤ f.excess) →
      (descend payment economic (withRemaining values) next picked count total progress).EndsWith
        ((setsBelow payment values next picked count total).foldl improve progress.best))
    (progress : Progress) (positive : ∀ known ∈ progress.best, 0 < known.excess) :
    (walk payment economic (withRemaining values) next picked count total progress).EndsWith
      (((set? payment picked count total).toList
        ++ setsBelow payment values next picked count total).foldl improve progress.best) := by
  obtain ⟨budget, best⟩ := progress
  cases budget with
  | zero =>
      rw [walk_zero]
      trivial
  | succ budget =>
      rw [List.foldl_append]
      cases hset : set? payment picked count total with
      | none =>
          rw [walk_of_set?_eq_none hset]
          exact descends ⟨budget, best⟩ positive (by simp [hset])
      | some found =>
          rw [walk_of_set?_eq_some hset]
          obtain ⟨-, covers, hfound⟩ := eq_of_mem_set? hset
          change Walk.EndsWith ((setsBelow payment values next picked count total).foldl improve
            (improve best found)) _
          split
          next perfect =>
              have kept : improve best found = some found :=
                improve_of_lt fun known hknown => perfect ▸ positive known hknown
              rw [kept, foldl_improve_of_le fun f _ => perfect ▸ Nat.zero_le _]
              exact ⟨rfl, perfect⟩
          next imperfect =>
              obtain ⟨kept, hkept, hle, hfrom⟩ := exists_improve_eq_some best found
              rw [hkept]
              have hpositive : 0 < kept.excess := by
                rcases hfrom with rfl | hknown
                · exact Nat.pos_of_ne_zero imperfect
                · exact positive kept hknown
              split
              next cut =>
                  have worse : ∀ f ∈ setsBelow payment values next picked count total,
                      kept.excess ≤ f.excess := by
                    intro f hf
                    have := excess_le_of_mem_setsBelow covers (worthwhile cut) hf
                    rw [hfound] at hle
                    exact Nat.le_trans hle this
                  rw [foldl_improve_of_le worse]
                  exact ⟨rfl, by simpa using hpositive⟩
              next =>
                  apply descends ⟨budget, some kept⟩
                  · simpa using hpositive
                  · simpa [hset] using hle

/-- A walk that goes on after including a coin has considered every set with that coin. -/
theorem descend_endsWith {value : Nat} {values : List Nat}
    (walks : ∀ (next : Nat) (picked : List Nat) (count total : Nat) (progress : Progress),
      (∀ known ∈ progress.best, 0 < known.excess) →
      (walk payment economic (withRemaining values) next picked count total progress).EndsWith
        (((set? payment picked count total).toList
          ++ setsBelow payment values next picked count total).foldl improve progress.best))
    (progress : Progress) (positive : ∀ known ∈ progress.best, 0 < known.excess)
    (settled : ∀ f ∈ set? payment picked count total,
      ∃ known ∈ progress.best, known.excess ≤ f.excess) :
    (descend payment economic (withRemaining (value :: values)) next picked count total
      progress).EndsWith
        ((setsBelow payment (value :: values) next picked count total).foldl improve
          progress.best) := by
  rw [withRemaining_cons, descend]
  split
  next cut =>
      rw [setsBelow_eq_nil cut]
      exact ⟨rfl, positive⟩
  next =>
      have included :=
        walks (next + 1) (next :: picked) (count + 1) (total + value) progress positive
      rw [setsBelow, List.foldl_append]
      generalize hbest : List.foldl improve progress.best (_ ++ _) = best at included ⊢
      have settled : ∀ f ∈ set? payment picked count total,
          ∃ known ∈ best, known.excess ≤ f.excess := by
        intro f hf
        obtain ⟨known, hknown, hle⟩ := settled f hf
        rw [Option.mem_def.mp hknown] at hbest
        obtain ⟨kept, hkept, hle'⟩ := exists_le_foldl_improve _ known
        exact ⟨kept, hbest ▸ hkept, Nat.le_trans hle' hle⟩
      cases hwalk : walk payment economic (withRemaining values) (next + 1) (next :: picked)
          (count + 1) (total + value) progress with
      | exceeded => trivial
      | exact found =>
          rw [hwalk] at included
          obtain ⟨rfl, perfect⟩ := included
          rw [foldl_improve_of_le fun f _ => perfect ▸ Nat.zero_le _]
          exact ⟨rfl, perfect⟩
      | more progress =>
          rw [hwalk] at included
          obtain ⟨rfl, positive⟩ := included
          -- The set of the node is met again, and what is kept is at least as good.
          have again : (set? payment picked count total).toList.foldl improve progress.best =
              progress.best := by
            cases hset : set? payment picked count total with
            | none => rfl
            | some found =>
                obtain ⟨known, hknown, hle⟩ := settled found hset
                rw [Option.mem_def.mp hknown]
                exact improve_of_le hle
          have excluded := walks (next + 1) picked count total progress positive
          rw [List.foldl_append, again] at excluded
          exact excluded

end Walk

/-- A walk keeps what a search without cuts would keep, as long as the best set so far
has an excess. -/
theorem walk_endsWith {payment : Payment} {economic : Bool} {values : List Nat}
    (worthwhile : economic → ∀ v ∈ values, payment.rate.inputFee ≤ v)
    (next : Nat) (picked : List Nat) (count total : Nat) (progress : Progress)
    (positive : ∀ known ∈ progress.best, 0 < known.excess) :
    (walk payment economic (withRemaining values) next picked count total progress).EndsWith
      (((set? payment picked count total).toList
        ++ setsBelow payment values next picked count total).foldl improve progress.best) := by
  induction values generalizing next picked count total progress with
  | nil =>
      apply walk_endsWith_of_descend worthwhile _ progress positive
      intro progress positive _
      exact ⟨rfl, positive⟩
  | cons value rest ih =>
      apply walk_endsWith_of_descend worthwhile _ progress positive
      intro progress positive settled
      apply descend_endsWith _ progress positive settled
      exact ih fun economic v hv => worthwhile economic v (List.mem_cons_of_mem value hv)

/-- Positions in increasing order, none of them before `next`. -/
structure Positions (values : List Nat) (next : Nat) (positions : List Nat) : Prop where
  increasing : positions.Pairwise (· < ·)
  inRange : ∀ i ∈ positions, next ≤ i ∧ i < values.length

namespace Positions

variable {values : List Nat} {next : Nat} {positions : List Nat}

theorem nil : Positions values next [] := ⟨.nil, by simp⟩

theorem cons (bound : next < values.length) (h : Positions values (next + 1) positions) :
    Positions values next (next :: positions) := by
  refine ⟨List.pairwise_cons.mpr ⟨?_, h.increasing⟩, ?_⟩
  · intro i hi
    exact (h.inRange i hi).1
  · refine List.forall_mem_cons.mpr ⟨⟨Nat.le_refl _, bound⟩, ?_⟩
    intro i hi
    exact ⟨Nat.le_of_succ_le (h.inRange i hi).1, (h.inRange i hi).2⟩

theorem of_succ (h : Positions values (next + 1) positions) : Positions values next positions :=
  ⟨h.increasing, fun i hi => ⟨Nat.le_of_succ_le (h.inRange i hi).1, (h.inRange i hi).2⟩⟩

/-- The next position is either the first one or left out. -/
theorem cases_next (h : Positions values next positions) :
    (∃ rest, positions = next :: rest ∧ Positions values (next + 1) rest) ∨
      Positions values (next + 1) positions := by
  cases positions with
  | nil => exact .inr nil
  | cons first rest =>
      obtain ⟨before, increasing⟩ := List.pairwise_cons.mp h.increasing
      obtain ⟨⟨hfirst, bound⟩, inRange⟩ := List.forall_mem_cons.mp h.inRange
      rcases Nat.eq_or_lt_of_le hfirst with rfl | later
      · exact .inl ⟨rest, rfl, increasing, fun i hi => ⟨before i hi, (inRange i hi).2⟩⟩
      · refine .inr ⟨h.increasing, List.forall_mem_cons.mpr ⟨⟨later, bound⟩, ?_⟩⟩
        exact fun i hi => ⟨Nat.lt_of_le_of_lt hfirst (before i hi), (inRange i hi).2⟩

end Positions

/-- What is found if the coins at some positions are added to a node. -/
def extend (payment : Payment) (values picked : List Nat) (count total : Nat)
    (positions : List Nat) : Found :=
  ⟨total + worth values positions - payment.required (count + positions.length),
    picked.reverse ++ positions⟩

theorem extend_cons (payment : Payment) (values picked : List Nat) (count total i : Nat)
    (rest : List Nat) :
    extend payment values picked count total (i :: rest) =
      extend payment values (i :: picked) (count + 1) (total + values[i]?.getD 0) rest := by
  simp only [extend, worth, List.length_cons, List.reverse_cons, List.append_assoc,
    List.singleton_append]
  rw [Nat.add_assoc count, Nat.add_comm 1, Nat.add_assoc total]

/-- The search without cuts considers every covering set below a node. -/
theorem mem_setsBelow {payment : Payment} {values rest : List Nat} {next : Nat}
    {picked : List Nat} {count total : Nat} (suffix : values.drop next = rest) {f : Found} :
    f ∈ setsBelow payment rest next picked count total ↔
      ∃ positions, positions ≠ [] ∧ Positions values next positions ∧
        payment.required (count + positions.length) ≤ total + worth values positions ∧
        f = extend payment values picked count total positions := by
  induction rest generalizing next picked count total with
  | nil =>
      have bound : values.length ≤ next := List.drop_eq_nil_iff.mp suffix
      simp only [setsBelow, List.not_mem_nil, false_iff]
      rintro ⟨positions, nonempty, hpositions, -, -⟩
      obtain ⟨i, hi⟩ := List.exists_mem_of_ne_nil positions nonempty
      have := hpositions.inRange i hi
      omega
  | cons value rest ih =>
      have bound : next < values.length := by
        have := congrArg List.length suffix
        simp only [List.length_drop, List.length_cons] at this
        omega
      obtain ⟨hvalue, hrest⟩ := List.cons.inj (List.drop_eq_getElem_cons bound ▸ suffix)
      have hvalue : values[next]?.getD 0 = value := by
        rw [List.getElem?_eq_getElem bound, hvalue, Option.getD_some]
      simp only [setsBelow, List.mem_append, Option.mem_toList, ih hrest]
      constructor
      · rintro ((here | ⟨more, -, hmore, covers, rfl⟩) | ⟨positions, nonempty, h, covers, rfl⟩)
        · obtain ⟨-, covers, rfl⟩ := eq_of_mem_set? here
          refine ⟨[next], by simp, Positions.nil.cons bound, ?_, ?_⟩
          · simpa [worth, hvalue] using covers
          · simp [extend, worth, hvalue]
        · refine ⟨next :: more, by simp, hmore.cons bound, ?_, ?_⟩
          · rw [worth, hvalue, List.length_cons, ← Nat.add_assoc total, Nat.add_comm more.length,
              ← Nat.add_assoc count]
            exact covers
          · rw [extend_cons, hvalue]
        · exact ⟨positions, nonempty, h.of_succ, covers, rfl⟩
      · rintro ⟨positions, nonempty, h, covers, rfl⟩
        rcases h.cases_next with ⟨more, rfl, hmore⟩ | h
        · rw [worth, hvalue, List.length_cons, ← Nat.add_assoc total, Nat.add_comm more.length,
            ← Nat.add_assoc count] at covers
          rw [extend_cons, hvalue]
          left
          cases more with
          | nil =>
              left
              have covers : payment.required (count + 1) ≤ total + value := covers
              simp [set?, covers, extend, worth]
          | cons i more => exact .inr ⟨i :: more, by simp, hmore, covers, rfl⟩
        · exact .inr ⟨positions, nonempty, h, covers, rfl⟩

/-- The search without cuts considers sets in lexicographic order. -/
theorem pairwise_setsBelow {payment : Payment} {values rest : List Nat} {next : Nat}
    {picked : List Nat} {count total : Nat} (suffix : values.drop next = rest) :
    (setsBelow payment rest next picked count total).Pairwise
      fun f g => List.Lex (· < ·) f.positions g.positions := by
  induction rest generalizing next picked count total with
  | nil => exact .nil
  | cons value rest ih =>
      have hrest : values.drop (next + 1) = rest := by
        rw [← List.tail_drop, suffix, List.tail_cons]
      simp only [setsBelow, List.pairwise_append, List.mem_append, Option.mem_toList]
      refine ⟨⟨?_, ih hrest, ?_⟩, ih hrest, ?_⟩
      · cases set? payment (next :: picked) (count + 1) (total + value) <;> simp
      · intro f hf g hg
        obtain ⟨-, -, rfl⟩ := eq_of_mem_set? hf
        obtain ⟨positions, nonempty, -, -, rfl⟩ := (mem_setsBelow hrest).mp hg
        obtain ⟨i, more, rfl⟩ := List.exists_cons_of_ne_nil nonempty
        have longer : List.Lex (· < ·) [] (i :: more) := List.Lex.nil
        simpa [extend] using List.Lex.append_left (· < ·) longer (picked.reverse ++ [next])
      · -- Sets with the coin at `next` come before those that leave it out.
        intro f hf g hg
        obtain ⟨later, nonempty, hlater, -, rfl⟩ := (mem_setsBelow hrest).mp hg
        obtain ⟨i, more, rfl⟩ := List.exists_cons_of_ne_nil nonempty
        have hi : next < i := (hlater.inRange i List.mem_cons_self).1
        obtain ⟨with_next, hpositions⟩ : ∃ rest, f.positions = picked.reverse ++ next :: rest := by
          rcases hf with here | included
          · obtain ⟨-, -, rfl⟩ := eq_of_mem_set? here
            exact ⟨[], by simp⟩
          · obtain ⟨positions, -, -, -, rfl⟩ := (mem_setsBelow hrest).mp included
            exact ⟨positions, by simp [extend]⟩
        rw [hpositions]
        exact List.Lex.append_left (· < ·) (List.Lex.rel hi) picked.reverse

theorem mem_setsBelow_root {payment : Payment} {values : List Nat} {f : Found} :
    f ∈ setsBelow payment values 0 [] 0 0 ↔
      Covers payment values f.positions ∧ f.excess = excess payment values f.positions := by
  obtain ⟨gain, positions⟩ := f
  rw [mem_setsBelow List.drop_zero]
  constructor
  · rintro ⟨positions, nonempty, h, enough, hf⟩
    simp only [extend, Nat.zero_add, List.reverse_nil, List.nil_append] at enough hf
    cases hf
    exact ⟨⟨nonempty, h.increasing, fun i hi => (h.inRange i hi).2, enough⟩, rfl⟩
  · rintro ⟨h, hexcess⟩
    refine ⟨positions, h.nonempty, ⟨h.increasing, ?_⟩, ?_, ?_⟩
    · exact fun i hi => ⟨Nat.zero_le i, h.inRange i hi⟩
    · simpa using h.enough
    · simpa [extend, excess] using hexcess

theorem Covers.mem_setsBelow {payment : Payment} {values positions : List Nat}
    (h : Covers payment values positions) :
    ⟨excess payment values positions, positions⟩ ∈ setsBelow payment values 0 [] 0 0 :=
  mem_setsBelow_root.mpr ⟨h, rfl⟩

/-- The set that is kept of all covering sets is the first best one. -/
theorem firstBest_of_foldl_improve {payment : Payment} {values : List Nat} {kept : Found}
    (h : (setsBelow payment values 0 [] 0 0).foldl improve none = some kept) :
    FirstBest payment values kept.positions := by
  have ordered := @pairwise_setsBelow payment values values 0 [] 0 0 values.drop_zero
  have sound := @mem_setsBelow_root payment values kept
  have complete := @Covers.mem_setsBelow payment values
  generalize setsBelow payment values 0 [] 0 0 = sets at h ordered sound complete
  cases sets with
  | nil => simp at h
  | cons first rest =>
      obtain ⟨before, after, hsplit, hbefore, hafter⟩ := @split_of_foldl_improve rest first kept h
      rw [hsplit] at ordered sound complete
      obtain ⟨covers, hexcess⟩ := sound.mp (List.mem_append_right before List.mem_cons_self)
      obtain ⟨-, ordered, -⟩ := List.pairwise_append.mp ordered
      -- Where another covering set stands in the list says how it compares.
      have compared : ∀ other, Covers payment values other →
          kept.excess < excess payment values other ∨ other = kept.positions ∨
            kept.excess ≤ excess payment values other ∧
              List.Lex (· < ·) kept.positions other := by
        intro other hother
        rcases List.mem_append.mp (complete hother) with hmem | hmem
        · exact .inl (hbefore _ hmem)
        · rcases List.mem_cons.mp hmem with hkept | hmem
          · exact .inr (.inl (congrArg Found.positions hkept))
          · exact .inr (.inr ⟨hafter _ hmem, (List.pairwise_cons.mp ordered).1 _ hmem⟩)
      refine ⟨covers, ?_, ?_⟩
      · intro other hother
        rw [← hexcess]
        rcases compared other hother with h | rfl | h
        · exact Nat.le_of_lt h
        · exact Nat.le_of_eq hexcess
        · exact h.1
      · intro other hother hequal
        rcases compared other hother with h | h | h
        · omega
        · exact .inl h
        · exact .inr h.2

/-- If the least value is worth the input fee, every value is. -/
theorem le_of_le_getLast {least : Nat} {values : List Nat} (ranked : values.Pairwise (· ≥ ·))
    (h : values.getLast?.all (least ≤ ·)) : ∀ v ∈ values, least ≤ v := by
  intro v hv
  obtain ⟨front, last, rfl⟩ := (List.eq_nil_or_concat' values).resolve_left (List.ne_nil_of_mem hv)
  have hlast : least ≤ last := by simpa using h
  rcases List.mem_append.mp hv with hv | hv
  · have := (List.pairwise_append.mp ranked).2.2 v hv last List.mem_cons_self
    omega
  · obtain rfl := List.mem_singleton.mp hv
    exact hlast

/-- A search of ranked values that ends within its budget answers as one without cuts. -/
theorem run_eq {payment : Payment} {values : List Nat} (ranked : values.Pairwise (· ≥ ·))
    {budget : Nat} (within : run payment values budget ≠ .exceeded) :
    run payment values budget =
      match (setsBelow payment values 0 [] 0 0).foldl improve none with
      | some kept => .found kept.positions
      | none => .exhausted := by
  have ends := @walk_endsWith payment _ values (le_of_le_getLast ranked) 0 [] 0 0 ⟨budget, none⟩
    (by simp)
  have root : set? payment [] 0 0 = none := by simp [set?]
  rw [root, Option.toList_none, List.nil_append] at ends
  cases hwalk : walk payment (values.getLast?.all (payment.rate.inputFee ≤ ·))
      (withRemaining values) 0 [] 0 0 ⟨budget, none⟩ with
  | exceeded =>
      simp only [run, hwalk] at within
      exact absurd rfl within
  | exact found =>
      rw [hwalk] at ends
      simp only [run, hwalk, ends.1]
  | more progress =>
      rw [hwalk] at ends
      obtain ⟨left, best⟩ := progress
      obtain ⟨rfl, -⟩ := ends
      simp only [run, hwalk]
      split <;> simp_all

theorem run_eq_exhausted_iff {payment : Payment} {values : List Nat}
    (ranked : values.Pairwise (· ≥ ·)) {budget : Nat}
    (within : run payment values budget ≠ .exceeded) :
    run payment values budget = .exhausted ↔ ∀ positions, ¬Covers payment values positions := by
  rw [run_eq ranked within]
  cases hsets : setsBelow payment values 0 [] 0 0 with
  | nil =>
      refine ⟨?_, fun _ => rfl⟩
      intro _ positions h
      have hmem := h.mem_setsBelow
      simp [hsets] at hmem
  | cons first rest =>
      obtain ⟨covers, -⟩ := mem_setsBelow_root.mp (hsets ▸ List.mem_cons_self)
      obtain ⟨kept, hkept, -⟩ := exists_le_foldl_improve rest first
      refine ⟨?_, fun h => absurd covers (h _)⟩
      intro h
      simp [improve, hkept] at h

theorem firstBest_of_run_eq_found {payment : Payment} {values : List Nat}
    (ranked : values.Pairwise (· ≥ ·)) {budget : Nat} {picked : List Nat}
    (h : run payment values budget = .found picked) : FirstBest payment values picked := by
  rw [run_eq ranked (by simp [h])] at h
  split at h
  next kept hkept =>
      cases h
      exact firstBest_of_foldl_improve hkept
  next => simp at h

/-- Branch and bound is exact. If it ends within its budget, it is exhausted just when
no set of ranked candidates covers the payment, and otherwise finds the covering set
of least excess that comes first. -/
theorem run_ranked_firstBest (payment : Payment) (candidates : List Coin) (budget : Nat)
    (within : run payment ((Coin.ranked candidates).map (·.value.toNat)) budget ≠ .exceeded) :
    let values := (Coin.ranked candidates).map (·.value.toNat)
    (run payment values budget = .exhausted ↔ ∀ positions, ¬Covers payment values positions) ∧
      ((∃ positions, Covers payment values positions) →
        ∃ picked, run payment values budget = .found picked) ∧
      ∀ picked, run payment values budget = .found picked →
        FirstBest payment values picked := by
  intro values
  have ranked := Coin.pairwise_value_ranked candidates
  have exhausted := run_eq_exhausted_iff ranked within
  refine ⟨exhausted, ?_, fun picked => firstBest_of_run_eq_found ranked⟩
  rintro ⟨positions, covers⟩
  cases outcome : run payment values budget with
  | found picked => exact ⟨picked, rfl⟩
  | exhausted => exact absurd covers (exhausted.mp outcome positions)
  | exceeded => exact absurd outcome within

/-- Of two sets with the least excess, 6000 with 3000 and 5000 with 4000, the search
finds the one that comes first. -/
theorem run_firstBest_among_equals :
    let payment : Payment := { target := 8160, outputs := 1, rate := ⟨1000⟩ }
    let candidates : List Coin := [3000, 5000, 6000, 4000].map (⟨default, ⟨·, default⟩⟩)
    let values := (Coin.ranked candidates).map (·.value.toNat)
    run payment values 100 = .found [0, 3] ∧ FirstBest payment values [0, 3] := by
  intro payment candidates values
  have found : run payment values 100 = .found [0, 3] := by decide +kernel
  have within : run payment values 100 ≠ .exceeded := by simp [found]
  exact ⟨found, (run_ranked_firstBest payment candidates 100 within).2.2 _ found⟩

end Search

end HdWallet
