import HdWallet.Failure

/-!
# What holds after a step

`Step.wp` is the weakest precondition of a step: what has to hold before it so that
one thing holds after it succeeds and another after it fails. A failing step keeps
what it did, so both states matter. The equations below take a step apart along the
`do` block that it is written in; a part of the state is read through `onPart`.
-/

namespace HdWallet.Step

variable {σ τ α β : Type}

/-- After the step, `ok` holds of its answer and state if it succeeds, and `err` of
its failure and state if it does not. -/
def wp (step : Step σ α) (ok : α → σ → Prop) (err : Failure → σ → Prop) (s : σ) : Prop :=
  match step s with
  | .ok a t => ok a t
  | .error e t => err e t

variable {ok : α → σ → Prop} {err : Failure → σ → Prop}

@[simp] theorem wp_pure (a : α) (s : σ) : wp (pure a) ok err s ↔ ok a s := Iff.rfl

@[simp] theorem wp_throw (e : Failure) (s : σ) :
    wp (throw e : Step σ α) ok err s ↔ err e s := Iff.rfl

@[simp] theorem wp_get {ok : σ → σ → Prop} (s : σ) : wp get ok err s ↔ ok s s := Iff.rfl

@[simp] theorem wp_set {ok : PUnit → σ → Prop} (s t : σ) : wp (set t) ok err s ↔ ok ⟨⟩ t := Iff.rfl

@[simp] theorem wp_modify {ok : PUnit → σ → Prop} (f : σ → σ) (s : σ) :
    wp (modify f) ok err s ↔ ok ⟨⟩ (f s) := Iff.rfl

@[simp] theorem wp_bind {ok : β → σ → Prop} (first : Step σ α) (rest : α → Step σ β) (s : σ) :
    wp (first >>= rest) ok err s ↔ wp first (fun a t => wp (rest a) ok err t) err s := by
  simp only [wp, bind, EStateM.bind]
  cases first s <;> rfl

@[simp] theorem wp_map {ok : β → σ → Prop} (f : α → β) (step : Step σ α) (s : σ) :
    wp (f <$> step) ok err s ↔ wp step (fun a => ok (f a)) err s := by
  simp only [wp, Functor.map, EStateM.map]
  cases step s <;> rfl

@[simp] theorem wp_discard {ok : PUnit → σ → Prop} (step : Step σ α) (s : σ) :
    wp (discard step) ok err s ↔ wp step (fun _ => ok ⟨⟩) err s :=
  wp_map _ _ _

@[simp] theorem wp_onPart {ok : α → σ → Prop} (part : σ → τ) (put : τ → σ → σ)
    (step : Step τ α) (s : σ) :
    wp (step.onPart part put) ok err s ↔
      wp step (fun a t => ok a (put t s)) (fun e t => err e (put t s)) (part s) := by
  simp only [wp, onPart]
  cases step (part s) <;> rfl

@[simp] theorem wp_ofExcept_ok (a : α) (s : σ) :
    wp (ofExcept (.ok a)) ok err s ↔ ok a s := Iff.rfl

@[simp] theorem wp_ofExcept_error (e : Failure) (s : σ) :
    wp (ofExcept (.error e)) ok err s ↔ err e s := Iff.rfl

theorem wp_ofExcept (answer : Except Failure α) (s : σ) :
    wp (ofExcept answer) ok err s ↔
      (∀ a, answer = .ok a → ok a s) ∧ ∀ e, answer = .error e → err e s := by
  cases answer <;> simp

theorem wp.mono {ok' : α → σ → Prop} {err' : Failure → σ → Prop} {step : Step σ α} {s : σ}
    (h : wp step ok err s) (hok : ∀ a t, ok a t → ok' a t) (herr : ∀ e t, err e t → err' e t) :
    wp step ok' err' s := by
  rw [wp] at h ⊢
  cases hs : step s with
  | ok a t =>
      rw [hs] at h
      exact hok a t h
  | error e t =>
      rw [hs] at h
      exact herr e t h

theorem wp.and {ok' : α → σ → Prop} {err' : Failure → σ → Prop} {step : Step σ α} {s : σ}
    (h : wp step ok err s) (h' : wp step ok' err' s) :
    wp step (fun a t => ok a t ∧ ok' a t) (fun e t => err e t ∧ err' e t) s := by
  rw [wp] at h h' ⊢
  cases hs : step s with
  | ok a t =>
      rw [hs] at h h'
      exact ⟨h, h'⟩
  | error e t =>
      rw [hs] at h h'
      exact ⟨h, h'⟩

theorem wp_iff (step : Step σ α) (s : σ) :
    wp step ok err s ↔
      (∀ a t, step s = .ok a t → ok a t) ∧ ∀ e t, step s = .error e t → err e t := by
  rw [wp]
  cases step s <;> simp

theorem wp.of_ok {step : Step σ α} {s t : σ} {a : α} (h : wp step ok err s)
    (hs : step s = .ok a t) : ok a t :=
  ((wp_iff step s).mp h).1 a t hs

theorem wp.of_error {step : Step σ α} {s t : σ} {e : Failure} (h : wp step ok err s)
    (hs : step s = .error e t) : err e t :=
  ((wp_iff step s).mp h).2 e t hs

/-- A step that must not fail has to succeed. -/
theorem wp_iff_exists_ok (step : Step σ α) (s : σ) :
    wp step ok (fun _ _ => False) s ↔ ∃ a t, step s = .ok a t ∧ ok a t := by
  rw [wp]
  cases step s with
  | ok a t =>
      refine ⟨fun h => ⟨a, t, rfl, h⟩, ?_⟩
      rintro ⟨_, _, ⟨⟩, h⟩
      exact h
  | error e t =>
      refine ⟨False.elim, ?_⟩
      rintro ⟨_, _, ⟨⟩, _⟩

theorem wp.exists_ok {step : Step σ α} {s : σ} (h : wp step ok (fun _ _ => False) s) :
    ∃ a t, step s = .ok a t ∧ ok a t :=
  (wp_iff_exists_ok step s).mp h

theorem wp.exists_ok_of_not {step : Step σ α} {s : σ} (h : wp step ok err s)
    (possible : ∀ e t, ¬err e t) : ∃ a t, step s = .ok a t ∧ ok a t :=
  (h.mono (fun _ _ ht => ht) possible).exists_ok

/-- A step that must not succeed has to fail. -/
theorem wp.exists_error {step : Step σ α} {s : σ} (h : wp step (fun _ _ => False) err s) :
    ∃ e t, step s = .error e t ∧ err e t := by
  rw [wp] at h
  split at h
  next => exact h.elim
  next e t failed => exact ⟨e, t, failed, h⟩

theorem wp_ofExcept_iff_exists_ok (answer : Except Failure α) (s : σ) :
    wp (ofExcept answer) ok (fun _ _ => False) s ↔ ∃ a, answer = .ok a ∧ ok a s := by
  cases answer <;> simp

theorem eq_ok_iff {step : Step σ α} {s t : σ} {a : α} :
    step s = .ok a t ↔ wp step (fun b u => b = a ∧ u = t) (fun _ _ => False) s := by
  rw [wp]
  cases step s <;> simp

theorem eq_error_iff {step : Step σ α} {s t : σ} {e : Failure} :
    step s = .error e t ↔ wp step (fun _ _ => False) (fun f u => f = e ∧ u = t) s := by
  rw [wp]
  cases step s <;> simp

theorem onPart_eq_ok_iff {part : σ → τ} {put : τ → σ → σ} {step : Step τ α} {s t : σ} {a : α} :
    step.onPart part put s = .ok a t ↔ ∃ u, step (part s) = .ok a u ∧ t = put u s := by
  rw [onPart]
  cases step (part s) with
  | error e u => simp
  | ok b u => simp [and_assoc, @eq_comm _ t]

theorem stateAfter_of_ok {step : Step σ α} {s t : σ} {a : α} (h : step s = .ok a t) :
    step.stateAfter s = t := by
  rw [stateAfter, h]

theorem stateAfter_of_error {step : Step σ α} {s t : σ} {e : Failure} (h : step s = .error e t) :
    step.stateAfter s = t := by
  rw [stateAfter, h]

theorem eq_ok_of_isOk {step : Step σ Unit} {s : σ} (h : (step.answer s).isOk) :
    ∃ t, step s = .ok () t := by
  rw [answer] at h
  cases hs : step s with
  | ok _ t => exact ⟨t, rfl⟩
  | error e t =>
      rw [hs] at h
      cases h

/-- An answer of which something holds is no failure. -/
theorem exists_ok_of_any {ε : Type} {answer : Except ε α} {p : α → Bool}
    (h : answer.toOption.any p) : ∃ a, answer = .ok a ∧ p a := by
  cases answer with
  | ok a => exact ⟨a, rfl, h⟩
  | error e => cases h

/-- What holds after success and failure holds of the state left behind. -/
theorem stateAfter_of_wp {P : σ → Prop} {step : Step σ α} {s : σ}
    (h : wp step (fun _ => P) (fun _ => P) s) : P (step.stateAfter s) := by
  rw [wp] at h
  rw [stateAfter]
  cases hs : step s with
  | ok a t =>
      rw [hs] at h
      exact h
  | error e t =>
      rw [hs] at h
      exact h

/-- The step keeps what held of the state if it succeeds, and leaves `E` behind if it fails.
Where `E` is left out, the step keeps the same in both cases. -/
def Keeps (step : Step σ α) (P : σ → Prop) (E : σ → Prop := P) : Prop :=
  ∀ s, P s → wp step (fun _ => P) (fun _ => E) s

variable {P E : σ → Prop}

theorem keeps_pure (a : α) : Keeps (pure a) P E := fun _ hs => hs

theorem keeps_throw (e : Failure) (weaken : ∀ s, P s → E s := by exact fun _ hs => hs) :
    Keeps (throw e : Step σ α) P E :=
  weaken

theorem keeps_get : Keeps get P E := fun _ hs => hs

theorem keeps_modify {f : σ → σ} (h : ∀ s, P s → P (f s)) : Keeps (modify f) P E := h

theorem keeps_ofExcept (answer : Except Failure α)
    (weaken : ∀ s, P s → E s := by exact fun _ hs => hs) : Keeps (ofExcept answer) P E :=
  fun s hs => (wp_ofExcept answer s).mpr ⟨fun _ _ => hs, fun _ _ => weaken s hs⟩

theorem keeps_onPart {part : σ → τ} {put : τ → σ → σ} {step : Step τ α}
    (h : ∀ s, P s → wp step (fun _ t => P (put t s)) (fun _ t => E (put t s)) (part s)) :
    (step.onPart part put).Keeps P E := fun s hs =>
  (wp_onPart part put step s).mpr (h s hs)

/-- A step on a part keeps what does not depend on that part. -/
theorem keeps_onPart_of_frame {part : σ → τ} {put : τ → σ → σ} (step : Step τ α)
    (frame : ∀ s t, P s → P (put t s)) : (step.onPart part put).Keeps P :=
  keeps_onPart fun s hs => (wp_iff _ _).mpr ⟨fun _ t _ => frame s t hs, fun _ t _ => frame s t hs⟩

theorem Keeps.bind {first : Step σ α} {rest : α → Step σ β} (hfirst : first.Keeps P E)
    (hrest : ∀ a, (rest a).Keeps P E) : (first >>= rest).Keeps P E := fun s hs =>
  (wp_bind first rest s).mpr ((hfirst s hs).mono (fun a t ht => hrest a t ht) fun _ _ ht => ht)

theorem Keeps.discard {step : Step σ α} (h : step.Keeps P E) : (discard step).Keeps P E :=
  fun s hs => (wp_discard step s).mpr (h s hs)

theorem Keeps.weaken {E' : σ → Prop} {step : Step σ α} (h : step.Keeps P E)
    (weaken : ∀ s, E s → E' s) : step.Keeps P E' := fun s hs =>
  (h s hs).mono (fun _ _ ht => ht) fun _ t ht => weaken t ht

theorem Keeps.stateAfter {step : Step σ α} (h : step.Keeps P) {s : σ} (hs : P s) :
    P (step.stateAfter s) :=
  stateAfter_of_wp (h s hs)

end HdWallet.Step
