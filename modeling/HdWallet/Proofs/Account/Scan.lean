import HdWallet.Proofs.Account.Addresses
import HdWallet.Proofs.Keychain.Discovery
import HdWallet.Proofs.Scripted.Course

/-!
# A scan that nothing interrupts

Where the source has one history for each address and nothing else acts on the account, a scan
finds every address with a history, also those that join while others are marked. Between two
rounds, every address with a history that was asked about is used, and nothing was marked or derived
that does not have to be. A scan ends, since each round asks about further addresses and there is
room for so many only, and then no address is left to ask about. So it leaves the least keychain
that covers the addresses with a history, whatever order the answers of its rounds came in. The
scans that run end like that when they are polled without interruption.
-/

namespace HdWallet

namespace Scan

/-- A round of a scan with the answers in the given order. -/
def round (history : Address → List HistoryItem) (order : List Address) (s : Scan) :
    Step Account Scan := do
  let s ← Scripted.Activity.absorbAll absorb s (order.map fun x => (x, .ok (history x)))
  Step.ofExcept s.closeRound
  pure s

theorem round_of_ok {history : Address → List HistoryItem} {order : List Address} {s next : Scan}
    {a b : Account} (absorbed : Scripted.Activity.absorbAll absorb s
      (order.map fun x => (x, .ok (history x))) a = .ok next b)
    (closes : next.closeRound = .ok ()) : round history order s a = .ok next b := by
  simp only [round, bind, EStateM.bind, absorbed, closes]
  rfl

theorem round_of_error {history : Address → List HistoryItem} {order : List Address} {s : Scan}
    {a b : Account} {e : Failure} (failed : Scripted.Activity.absorbAll absorb s
      (order.map fun x => (x, .ok (history x))) a = .error e b) :
    round history order s a = .error e b := by
  simp only [round, bind, EStateM.bind, failed]

/-- How a scan ends that goes on from `s` with the account `a`. The answers of each round come in
an order of its own of the addresses that it asks about. -/
inductive Ends (history : Address → List HistoryItem) :
    (Nat → List Address → List Address) → Scan → Account → Except Failure Nat → Account → Prop
  | done {arrange : Nat → List Address → List Address} {s : Scan} {a : Account}
      (none_left : (s.startRound a).2 = []) : Ends history arrange s a (.ok s.found) a
  | onward {arrange : Nat → List Address → List Address} {s next : Scan} {a b c : Account}
      {result : Except Failure Nat} (some_left : (s.startRound a).2 ≠ [])
      (answered : round history (arrange 0 (s.startRound a).2) (s.startRound a).1 a = .ok next b)
      (rest : Ends history (fun k => arrange (k + 1)) next b result c) :
      Ends history arrange s a result c
  | failed {arrange : Nat → List Address → List Address} {s : Scan} {a b : Account} {e : Failure}
      (some_left : (s.startRound a).2 ≠ [])
      (stopped : round history (arrange 0 (s.startRound a).2) (s.startRound a).1 a = .error e b) :
      Ends history arrange s a (.error e) b

def active (history : Address → List HistoryItem) : Set Address := {x | history x ≠ []}

/-- What a scan has come to when some of the addresses that it asks about have no answer yet. -/
structure Progress (b : Account) (history : Address → List HistoryItem) (waiting : List Address)
    (s : Scan) (a : Account) : Prop where
  frame : a = b.setKeychain a.keychain
  forced : b.keychain.Forced (active history) a.keychain
  found_eq : (b.keychain.newlyUsed a.keychain).encard = s.found
  silent : s.failures = []
  known : ∀ x ∈ s.asked, x ∈ a.keychain.addresses
  answered : ∀ x ∈ s.asked, x ∈ active history → x ∈ waiting ∨ a.keychain.IsUsed x

variable {b a : Account} {history : Address → List HistoryItem} {s : Scan}

theorem mem_startRound {x : Address} :
    x ∈ (s.startRound a).2 ↔
      ∃ slot ∈ a.keychain.slots,
        (slot.used = false ∧ slot.address ∉ s.asked) ∧ slot.address = x := by
  have absent {y : Address} : s.asked.contains y = false ↔ y ∉ s.asked := by
    rw [← Bool.not_eq_true, Std.ExtTreeSet.contains_iff_mem]
  simp [startRound, pending, and_assoc, absent]

theorem mem_asked_startRound {x : Address} :
    x ∈ (s.startRound a).1.asked ↔ x ∈ s.asked ∨ x ∈ (s.startRound a).2 := by
  simp [startRound, Std.ExtTreeSet.mem_insertMany_list]

namespace Progress

/-- A scan that has asked about nothing yet. -/
theorem start (history : Address → List HistoryItem) (sound : b.keychain.Sound)
    (adequate : b.keychain.Adequate) : Progress b history [] {} b where
  frame := rfl
  forced := sound.forced_self adequate
  found_eq := by simp [Keychain.newlyUsed_self]
  silent := rfl
  known x hx := by simp at hx
  answered x hx := by simp at hx

variable {x : Address} {rest : List Address}

/-- An answer that marks nothing. -/
theorem skip (h : Progress b history (x :: rest) s a)
    (needless : x ∈ s.asked → x ∈ active history → a.keychain.IsUsed x) :
    Progress b history rest s a where
  frame := h.frame
  forced := h.forced
  found_eq := h.found_eq
  silent := h.silent
  known := h.known
  answered y asked evident := by
    obtain here | used := h.answered y asked evident
    · obtain rfl | here := List.mem_cons.mp here
      · exact .inr (needless asked evident)
      · exact .inl here
    · exact .inr used

/-- An answer that marks an address, unless it was marked already. -/
theorem mark (h : Progress b history (x :: rest) s a) {t : Keychain} {found : Nat}
    (forced : b.keychain.Forced (active history) t) (continues : a.keychain.Continues t)
    (count : (b.keychain.newlyUsed t).encard = found)
    (kept : ∀ {side j}, a.keychain.UsedAt side j → t.UsedAt side j) (used : t.IsUsed x) :
    Progress b history rest { s with found } (a.setKeychain t) where
  frame := by
    rw [h.frame]
    rfl
  forced := forced
  found_eq := count
  silent := h.silent
  known y asked := continues.addresses_subset h.forced.sound (h.known y asked)
  answered y asked evident := by
    obtain here | before := h.answered y asked evident
    · obtain rfl | here := List.mem_cons.mp here
      · exact .inr used
      · exact .inl here
    · exact .inr (before.of_continues h.forced.sound continues kept)

/-- An answer fails only where nothing covers the addresses with a history. -/
theorem absorb (h : Progress b history (x :: rest) s a) :
    (s.absorb x (.ok (history x))).wp
      (fun s' c => Progress b history rest s' c ∧ s'.asked = s.asked)
      (fun _ _ => ¬b.keychain.Coverable (active history)) a := by
  cases evident : history x with
  | nil => exact ⟨h.skip fun _ active => (active evident).elim, rfl⟩
  | cons item items =>
      have evident : x ∈ active history := by simp [active, evident]
      simp only [Scan.absorb, Step.wp_bind, Step.wp_get]
      cases found : a.keychain.find? x with
      | none =>
          refine ⟨h.skip fun asked _ => ?_, rfl⟩
          obtain ⟨slot, listed, same⟩ := List.mem_map.mp (h.known x asked)
          rw [h.forced.sound.find?_iff.mpr ⟨listed, same⟩] at found
          cases found
      | some slot =>
          obtain ⟨listed, rfl⟩ := h.forced.sound.find?_iff.mp found
          obtain ⟨branch, i, hslot⟩ := Keychain.mem_slots.mp listed
          simp only [Option.isNone_some, Bool.false_eq_true, if_false, Step.wp_bind]
          rw [Account.wp_markUsed]
          apply (h.forced.wp_markUsed hslot evident).mono _ fun _ _ refused => refused
          rintro isNew t ⟨forced, continues, used_iff, isNew_iff⟩
          have count := h.forced.encard_newlyUsed used_iff isNew_iff
          have used := (used_iff.mpr (.inl ⟨rfl, rfl⟩)).isUsed h.forced.sound continues hslot
          rw [h.found_eq] at count
          cases isNew with
          | false => exact ⟨h.mark forced continues count (used_iff.mpr <| .inr ·) used, rfl⟩
          | true => exact ⟨h.mark forced continues count (used_iff.mpr <| .inr ·) used, rfl⟩

theorem absorbAll {order : List Address} (h : Progress b history order s a) :
    (Scripted.Activity.absorbAll Scan.absorb s (order.map fun x => (x, .ok (history x)))).wp
      (fun s' c => Progress b history [] s' c ∧ s'.asked = s.asked)
      (fun _ _ => ¬b.keychain.Coverable (active history)) a := by
  induction order generalizing s a with
  | nil => exact ⟨h, rfl⟩
  | cons x rest ih =>
      simp only [List.map_cons, Scripted.Activity.absorbAll, Step.wp_bind]
      apply h.absorb.mono _ fun _ _ refused => refused
      rintro s' c ⟨progress, same⟩
      apply (ih progress).mono _ fun _ _ refused => refused
      rintro s'' d ⟨progress, same'⟩
      exact ⟨progress, same'.trans same⟩

theorem startRound (h : Progress b history [] s a) {order : List Address}
    (perm : order.Perm (s.startRound a).2) : Progress b history order (s.startRound a).1 a where
  frame := h.frame
  forced := h.forced
  found_eq := h.found_eq
  silent := h.silent
  known x asked := by
    obtain asked | new := mem_asked_startRound.mp asked
    · exact h.known x asked
    · obtain ⟨slot, listed, -, rfl⟩ := mem_startRound.mp new
      exact List.mem_map_of_mem listed
  answered x asked evident := by
    obtain asked | new := mem_asked_startRound.mp asked
    · exact .inr ((h.answered x asked evident).resolve_left List.not_mem_nil)
    · exact .inl (perm.mem_iff.mpr new)

theorem closeRound (h : Progress b history [] s a) : s.closeRound = .ok () := by
  rw [Scan.closeRound, h.silent]
  rfl

/-- A round with the answers in any order. -/
theorem round (h : Progress b history [] s a) {order : List Address}
    (perm : order.Perm (s.startRound a).2) :
    (Scan.round history order (s.startRound a).1).wp
      (fun s' c => Progress b history [] s' c ∧ s'.asked = (s.startRound a).1.asked)
      (fun _ _ => ¬b.keychain.Coverable (active history)) a := by
  rw [Scan.round, Step.wp_bind]
  apply (h.startRound perm).absorbAll.mono _ fun _ _ refused => refused
  rintro s' c ⟨progress, same⟩
  rw [progress.closeRound]
  exact ⟨progress, same⟩

/-- No address is left to ask about once all that have a history are used. -/
theorem covers (h : Progress b history [] s a) (none_left : (s.startRound a).2 = []) :
    b.keychain.Covers (active history) a.keychain where
  toFollows := h.forced.toFollows
  size_le branch := (h.forced.retains branch).size_le
  used_of_used := h.forced.used_of_used
  used_of_mem {branch i slot} hslot evident := by
    by_contra unused
    have listed := Keychain.mem_slots.mpr ⟨branch, i, hslot⟩
    have asked : slot.address ∈ s.asked := by
      by_contra new
      have waiting := mem_startRound.mpr
        ⟨slot, listed, ⟨Bool.eq_false_of_not_eq_true unused, new⟩, rfl⟩
      rw [none_left] at waiting
      cases waiting
    have used := (h.answered _ asked evident).resolve_left List.not_mem_nil
    exact unused (h.forced.sound.used_of_isUsed hslot used)
  adequate := h.forced.adequate

/-- There is room for so many addresses only. -/
theorem size_asked_le (h : Progress b history [] s a) :
    s.asked.size ≤ 2 * (lastNormalIndex + 1) := by
  have distinct : s.asked.toList.Nodup :=
    s.asked.distinct_toList.imp fun differ same => differ (Std.compare_eq_iff_eq.mpr same)
  have listed : s.asked.toList ⊆ a.keychain.addresses := fun x hx =>
    h.known x (Std.ExtTreeSet.mem_toList.mp hx)
  have short := (List.subperm_of_subset distinct listed).length_le
  have receiving := (h.forced.sound.chains .receiving).size_le
  have change := (h.forced.sound.chains .change).size_le
  rw [Std.ExtTreeSet.length_toList, Keychain.addresses, List.length_map, Keychain.slots,
    List.length_append] at short
  simp only [Array.length_toList] at short
  simp only [Keychain.chain, Chain.size] at receiving change
  omega

/-- A round asks about further addresses. -/
theorem size_asked_lt (h : Progress b history [] s a) (some_left : (s.startRound a).2 ≠ []) :
    s.asked.size < (s.startRound a).1.asked.size := by
  have distinct : (s.startRound a).2.Nodup :=
    h.forced.sound.nodup_addresses.sublist (List.filter_sublist.map _)
  have new : ∀ x ∈ s.asked, (s.startRound a).2.contains x = false := by
    intro x asked
    rw [← Bool.not_eq_true, List.contains_iff_mem]
    intro listed
    obtain ⟨slot, -, ⟨-, unasked⟩, rfl⟩ := mem_startRound.mp listed
    exact unasked asked
  have grown : (s.startRound a).1.asked.size = s.asked.size + (s.startRound a).2.length :=
    Std.ExtTreeSet.size_insertMany_list
      (distinct.imp fun differ same => differ (Std.compare_eq_iff_eq.mp same)) new
  have := List.length_pos_iff.mpr some_left
  omega

/-- Induction over the rounds of a scan: each asks about further addresses, and there is room for so
many only. -/
theorem rounds {P : Scan → Account → Prop} (h : Progress b history [] s a)
    (step : ∀ {s a}, Progress b history [] s a →
      (∀ {order next c}, order.Perm (s.startRound a).2 → (s.startRound a).2 ≠ [] →
        Scan.round history order (s.startRound a).1 a = .ok next c → P next c) → P s a) :
    P s a := by
  induction room : 2 * (lastNormalIndex + 1) - s.asked.size using Nat.strong_induction_on
    generalizing s a with
  | h room ih =>
      apply step h
      intro order next c perm some_left answered
      obtain ⟨progress, same⟩ := (h.round perm).of_ok answered
      have more := h.size_asked_lt some_left
      have bound := progress.size_asked_le
      rw [← same] at more
      exact ih _ (by omega) progress rfl

/-- A scan ends. -/
theorem exists_ends (h : Progress b history [] s a) :
    ∀ arrange : Nat → List Address → List Address, (∀ k l, (arrange k l).Perm l) →
      ∃ result c, Ends history arrange s a result c := by
  apply h.rounds
  intro s a h later arrange perm
  by_cases none_left : (s.startRound a).2 = []
  · exact ⟨_, _, .done none_left⟩
  · cases answered : Scan.round history (arrange 0 (s.startRound a).2) (s.startRound a).1 a with
    | error e c => exact ⟨_, _, .failed none_left answered⟩
    | ok next c =>
        obtain ⟨result, d, rest⟩ := later (perm 0 _) none_left answered _ fun k => perm (k + 1)
        exact ⟨result, d, .onward none_left answered rest⟩

end Progress

section Running

open Scripted (Activity Batch Source World)

/-- A world whose source has one history for each address. -/
def Lasts (config : Config) (history : Address → List HistoryItem) (w : World) : Prop :=
  w.source.answer Source.askHistory (Batch.timeoutOf config) = fun x => .ok (history x)

def goOn (s : Scan) (w : World) : World × Scripted.Progress :=
  match s.closeRound with
  | .error e => (w, .finished (.error e))
  | .ok () => (w, Activity.start.startScan w s)

theorem serves (steady : World → Prop) :
    Activity.Serves steady Source.askHistory absorb goOn Activity.scan where
  resume_eq s b inFront w _ := by
    rw [Activity.resume]
    generalize Activity.serve _ _ inFront s b w = served
    obtain ⟨w', e | ⟨s', b'⟩⟩ := served <;> rfl
  collect_eq _ _ _ := rfl

/-- The order in which the answers of the first round came, and those of the later rounds. -/
def arrangeFirst (addresses order : List Address) (later : Nat → List Address → List Address) :
    Nat → List Address → List Address
  | 0, l => Scripted.rearrange addresses order l
  | k + 1, l => later k l

theorem perm_arrangeFirst {addresses order : List Address}
    {later : Nat → List Address → List Address} (first : order.Perm addresses)
    (perm : ∀ k l, (later k l).Perm l) (k : Nat) (l : List Address) :
    (arrangeFirst addresses order later k l).Perm l := by
  cases k with
  | zero => exact Scripted.perm_rearrange first l
  | succ k => exact perm k l

/-- A scan that runs without interruption ends as one whose answers come in the order in which they
arrived. -/
theorem Progress.ends_of_settles (h : Progress b history [] s a)
    {result : Except Failure Scripted.Result} {c : Account} :
    ∀ w : World, w.account = a →
      Activity.Settles (Lasts b.config history) (Activity.start.startScan w s) a result c →
      ∃ arrange answer, (∀ k l, (arrange k l).Perm l) ∧ result = answer.map .scanned ∧
        Ends history arrange s a answer c := by
  apply h.rounds
  rintro s _ h onward w rfl settles
  rw [Activity.start.startScan] at settles
  split at settles
  next s' started =>
      obtain ⟨rfl, rfl⟩ := settles.eq_of_finished
      have found_eq : s'.found = s.found := (congrArg (·.1.found) started).symm
      rw [found_eq]
      exact ⟨fun _ => id, .ok s.found, fun _ => .refl, rfl, .done (congrArg (·.2) started)⟩
  next s' addresses some_left started =>
      obtain rfl : (s.startRound w.account).1 = s' := congrArg (·.1) started
      obtain rfl : (s.startRound w.account).2 = addresses := congrArg (·.2) started
      have same_config : w.account.config = b.config := by
        rw [h.frame]
        rfl
      rw [same_config] at settles
      obtain ⟨order, perm, outcome⟩ := settles.batch (serves _) Source.steady_askHistory
        (fun _ lasts => lasts) rfl (.ofAddresses _ b.config _)
      have some_left : (s.startRound w.account).2 ≠ [] := some_left
      have ordered (later) : arrangeFirst (s.startRound w.account).2 order later 0
          (s.startRound w.account).2 = order := Scripted.rearrange_self _ order
      cases absorbed : Activity.absorbAll Scan.absorb (s.startRound w.account).1
        (order.map fun x => (x, .ok (history x))) w.account with
      | error e d =>
          obtain ⟨rfl, rfl⟩ := outcome.of_error absorbed
          have stopped := round_of_error absorbed
          rw [← ordered fun _ => id] at stopped
          exact ⟨_, .error e, perm_arrangeFirst perm fun _ => .refl, rfl,
            .failed some_left stopped⟩
      | ok next d =>
          obtain ⟨v, rfl, settles⟩ := outcome.of_ok absorbed
          have closes := ((h.startRound perm).absorbAll.of_ok absorbed).1.closeRound
          have answered := round_of_ok absorbed closes
          rw [goOn, closes] at settles
          obtain ⟨later, result, perm', rfl, ends⟩ :=
            onward perm some_left answered v rfl settles
          rw [← ordered later] at answered
          exact ⟨_, result, perm_arrangeFirst perm perm', rfl, .onward some_left answered ends⟩

end Running

/-- What comes of the account `b` when a scan has found so many addresses. Only the keychain is
another one: the least that covers the addresses with a history. -/
structure Found (b : Account) (history : Address → List HistoryItem) (found : Nat) (c : Account) :
    Prop where
  frame : c = b.setKeychain c.keychain
  covers : b.keychain.Covers (active history) c.keychain
  forced : b.keychain.Forced (active history) c.keychain
  found_eq : (b.keychain.newlyUsed c.keychain).encard = found

theorem Found.unique {n m : Nat} {c d : Account} (h : Found b history n c)
    (h' : Found b history m d) : m = n ∧ d = c := by
  have same := h.forced.unique h.covers h'.forced h'.covers
  have accounts : d = c := by rw [h'.frame, same, ← h.frame]
  have counts := h'.found_eq
  rw [accounts, h.found_eq] at counts
  exact ⟨(Nat.cast_inj.mp counts).symm, accounts⟩

/-- A scan that goes on finds what has to be found, and fails only where nothing covers it. -/
theorem Ends.spec {arrange : Nat → List Address → List Address} {result : Except Failure Nat}
    {c : Account} (ends : Ends history arrange s a result c) (perm : ∀ k l, (arrange k l).Perm l)
    (h : Progress b history [] s a) :
    (∀ n, result = .ok n → Found b history n c) ∧
      ∀ e, result = .error e → ¬b.keychain.Coverable (active history) := by
  induction ends with
  | done none_left =>
      refine ⟨?_, nofun⟩
      rintro n ⟨⟩
      exact ⟨h.frame, h.covers none_left, h.forced, h.found_eq⟩
  | onward some_left answered rest ih =>
      exact ih (fun k => perm (k + 1)) ((h.round (perm 0 _)).of_ok answered).1
  | failed some_left stopped =>
      refine ⟨nofun, fun _ _ => ?_⟩
      exact (h.round (perm 0 _)).of_error stopped

end Scan

namespace Account

variable {config : Config} {source : KeySource} {a : Account}

/-- A scan ends in any order of the answers, and it succeeds where the source is dependable or some
keychain covers the addresses with a history. -/
theorem scan_ends (opened : ofConfig config source = .ok a) {actions : List Action}
    (succeeds : a.succeeds actions) (history : Address → List HistoryItem)
    {arrange : Nat → List Address → List Address} (perm : ∀ k l, (arrange k l).Perm l) :
    let b := a.run actions
    ∃ result c, Scan.Ends history arrange {} b result c ∧
      (b.keychain.Coverable (Scan.active history) → ∃ n, result = .ok n) := by
  intro b
  have begun := Scan.Progress.start history (sound_run opened actions)
    (adequate_run opened succeeds)
  obtain ⟨result, c, ends⟩ := begun.exists_ends _ perm
  refine ⟨result, c, ends, fun coverable => ?_⟩
  cases result with
  | ok n => exact ⟨n, rfl⟩
  | error e => exact absurd coverable ((ends.spec perm begun).2 e rfl)

/-- A scan that is begun on an account and runs without interruption ends as one whose answers come
in some order. -/
theorem scan_of_settles (opened : ofConfig config source = .ok a) {actions : List Action}
    (succeeds : a.succeeds actions) {history : Address → List HistoryItem} {w : Scripted.World}
    (here : w.account = a.run actions) {result : Except Failure Scripted.Result} {c : Account}
    (settles : Scripted.Activity.Settles (Scan.Lasts w.account.config history)
      (Scripted.Activity.start .scan w).2 w.account result c) :
    ∃ arrange answer, (∀ k l, (arrange k l).Perm l) ∧ result = answer.map .scanned ∧
      Scan.Ends history arrange {} w.account answer c := by
  have begun := Scan.Progress.start history (sound_run opened actions)
    (adequate_run opened succeeds)
  rw [← here] at begun
  exact begun.ends_of_settles w rfl settles

/-- A scan that succeeds has marked just the addresses with a history, those that joined meanwhile
as well, and what it leaves is the same for any order of the answers. -/
theorem scan_run (opened : ofConfig config source = .ok a) {actions : List Action}
    (succeeds : a.succeeds actions) {history : Address → List HistoryItem}
    {arrange : Nat → List Address → List Address} (perm : ∀ k l, (arrange k l).Perm l) {n : Nat}
    {c : Account} (scanned : Scan.Ends history arrange {} (a.run actions) (.ok n) c) :
    Scan.Found (a.run actions) history n c ∧
      ∀ (other : Nat → List Address → List Address), (∀ k l, (other k l).Perm l) →
        ∀ result d, Scan.Ends history other {} (a.run actions) result d ↔
          result = .ok n ∧ d = c := by
  have begun := Scan.Progress.start history (sound_run opened actions)
    (adequate_run opened succeeds)
  have found := (scanned.spec perm begun).1 n rfl
  have same {other : Nat → List Address → List Address} (perm : ∀ k l, (other k l).Perm l)
      {result : Except Failure Nat} {d : Account}
      (ends : Scan.Ends history other {} (a.run actions) result d) : result = .ok n ∧ d = c := by
    cases result with
    | ok m =>
        obtain ⟨rfl, rfl⟩ := found.unique ((ends.spec perm begun).1 m rfl)
        exact ⟨rfl, rfl⟩
    | error e => exact absurd (.inr ⟨_, found.covers⟩) ((ends.spec perm begun).2 e rfl)
  refine ⟨found, fun other perm result d => ⟨same perm, ?_⟩⟩
  rintro ⟨rfl, rfl⟩
  obtain ⟨result, e, ends⟩ := begun.exists_ends _ perm
  obtain ⟨rfl, rfl⟩ := same perm ends
  exact ends

/-- One address with a history is there when the scan begins, and the other one joins when that is
marked. -/
theorem scan_of_two_histories :
    let config : Config := { receivingGapLimit := 2, changeGapLimit := 1 }
    let history (x : Address) : List HistoryItem :=
      if x = ⟨"receiving-1"⟩ ∨ x = ⟨"receiving-2"⟩ then [default] else []
    let actions : List Action := [.markUsed ⟨"receiving-0"⟩]
    ∃ a n c, ofConfig config (.numbered ∅ true) = .ok a ∧ a.succeeds actions ∧
      Scan.Ends history (fun _ => List.reverse) {} (a.run actions) (.ok n) c ∧
      Scan.Found (a.run actions) history n c ∧
      Scan.Ends history (fun _ => id) {} (a.run actions) (.ok n) c := by
  intro config history actions
  have checked : (ofConfig config (.numbered ∅ true)).toOption.any fun a => a.succeeds actions := by
    decide +kernel
  obtain ⟨a, opened, succeeds⟩ := Step.exists_ok_of_any checked
  obtain ⟨same_source, -⟩ := origin_run opened actions
  have dependable := KeySource.dependable_numbered true (a.run actions).keychain.account
  obtain ⟨result, c, ends, finds⟩ :=
    scan_ends opened succeeds history fun _ => List.reverse_perm
  obtain ⟨n, rfl⟩ := finds (.inl (same_source ▸ dependable))
  obtain ⟨found, any_order⟩ := scan_run opened succeeds (fun _ => List.reverse_perm) ends
  exact ⟨a, n, c, opened, succeeds, ends, found,
    (any_order (fun _ => id) (fun _ => List.Perm.refl) _ _).mpr ⟨rfl, rfl⟩⟩

end Account

end HdWallet
