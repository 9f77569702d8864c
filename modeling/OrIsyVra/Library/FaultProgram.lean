import Mathlib.Tactic.Common

/-!
# Programs that may fail or be cut short

A program over a state `σ` ends in one of three ways: it returns a value, it returns an error to
its caller, or the process that runs it dies.  The first two leave the caller in control (an error
can be caught by `attempt`); the third cannot be caught, and what is left is the state.

`wp p Q s` says that running `p` from `s` ends in a way that `Q` allows, with one postcondition for
each of the three endings.  The rules below are the usual ones: `wp_bind` and its companions unfold
a program step by step, `wp_mono` weakens a postcondition, and `wp_zoom` runs a program on a part
of a larger state.
-/

namespace FaultProgram

/-- How a program ends. -/
inductive Outcome (ε α : Type) where
  | ok (value : α)
  | error (error : ε)
  | crash
  deriving DecidableEq, Repr

/-- The same ending with another value. -/
def Outcome.map {ε α β : Type} (f : α → β) : Outcome ε α → Outcome ε β
  | ok a => ok (f a)
  | error e => error e
  | crash => crash

/-- The ending of a pure result. -/
def Outcome.of {ε α : Type} : Except ε α → Outcome ε α
  | .ok a => ok a
  | .error e => error e

/-- A program over the state `σ` with errors in `ε`. -/
def Prog (σ ε α : Type) : Type := σ → Outcome ε α × σ

variable {σ τ ε ε' α β : Type}

namespace Prog

protected def pure (a : α) : Prog σ ε α := fun s => (.ok a, s)

protected def bind (p : Prog σ ε α) (f : α → Prog σ ε β) : Prog σ ε β := fun s =>
  match p s with
  | (.ok a, s') => f a s'
  | (.error e, s') => (.error e, s')
  | (.crash, s') => (.crash, s')

instance : Monad (Prog σ ε) where
  pure := Prog.pure
  bind := Prog.bind

instance : LawfulMonad (Prog σ ε) := LawfulMonad.mk' (Prog σ ε)
  (fun p => funext fun s => by
    show Prog.bind p (fun a => Prog.pure (id a)) s = p s
    unfold Prog.bind Prog.pure
    rcases p s with ⟨_ | _ | _, t⟩ <;> rfl)
  (fun _ _ => rfl)
  (fun p f g => funext fun s => by
    show Prog.bind (Prog.bind p f) g s = Prog.bind p (fun a => Prog.bind (f a) g) s
    unfold Prog.bind
    rcases p s with ⟨_ | _ | _, t⟩ <;> rfl)

/-- Return an error. -/
def fail (e : ε) : Prog σ ε α := fun s => (.error e, s)

/-- The current state. -/
def get : Prog σ ε σ := fun s => (.ok s, s)

/-- Change the state. -/
def modify (f : σ → σ) : Prog σ ε Unit := fun s => (.ok (), f s)

/-- The process dies here. -/
def die : Prog σ ε α := fun s => (.crash, s)

/-- A pure result that may be an error. -/
def ofExcept : Except ε α → Prog σ ε α
  | .ok a => pure a
  | .error e => fail e

/-- Run a program and look at the error it may return; a crash goes through. -/
def attempt (p : Prog σ ε α) : Prog σ ε' (Except ε α) := fun s =>
  match p s with
  | (.ok a, s') => (.ok (.ok a), s')
  | (.error e, s') => (.ok (.error e), s')
  | (.crash, s') => (.crash, s')

/-- The same program, with its errors translated. -/
def mapError (f : ε → ε') (p : Prog σ ε α) : Prog σ ε' α := fun s =>
  match p s with
  | (.ok a, s') => (.ok a, s')
  | (.error e, s') => (.error (f e), s')
  | (.crash, s') => (.crash, s')

/-- Run a program on a part of the state. -/
def zoom (view : τ → σ) (put : τ → σ → τ) (p : Prog σ ε α) : Prog τ ε α := fun t =>
  match p (view t) with
  | (o, s') => (o, put t s')

end Prog

open Prog

/-- A postcondition: one predicate for each way a program ends. -/
structure Post (σ ε α : Type) where
  ok : α → σ → Prop
  error : ε → σ → Prop
  crash : σ → Prop

/-- The program ends, from `s`, in a way the postcondition allows. -/
def wp (p : Prog σ ε α) (Q : Post σ ε α) (s : σ) : Prop :=
  match p s with
  | (.ok a, s') => Q.ok a s'
  | (.error e, s') => Q.error e s'
  | (.crash, s') => Q.crash s'

variable {p : Prog σ ε α} {Q R : Post σ ε α} {s s' : σ}

/-! ## Reading a postcondition off a run -/

theorem wp.ok {a : α} (h : wp p Q s) (hp : p s = (.ok a, s')) : Q.ok a s' := by
  unfold wp at h
  rw [hp] at h
  exact h

theorem wp.error {e : ε} (h : wp p Q s) (hp : p s = (.error e, s')) : Q.error e s' := by
  unfold wp at h
  rw [hp] at h
  exact h

theorem wp.crash (h : wp p Q s) (hp : p s = (.crash, s')) : Q.crash s' := by
  unfold wp at h
  rw [hp] at h
  exact h

/-- A run whose end is known. -/
theorem wp_of_ok {a : α} (hp : p s = (.ok a, s')) (h : Q.ok a s') : wp p Q s := by
  unfold wp
  rw [hp]
  exact h

/-- A program meets a postcondition that says how it ended. -/
theorem wp_self (p : Prog σ ε α) (s : σ) :
    wp p ⟨fun a t => p s = (.ok a, t), fun e t => p s = (.error e, t), fun t => p s = (.crash, t)⟩
      s := by
  unfold wp
  rcases h : p s with ⟨_ | _ | _, t⟩ <;> rfl

/-- A relation between how a program ends and where, read off its rule. -/
theorem wp_outcome {R : Outcome ε α → σ → Prop}
    (h : wp p ⟨fun a => R (.ok a), fun e => R (.error e), R .crash⟩ s) : R (p s).1 (p s).2 := by
  unfold wp at h
  split at h <;> rename_i hp <;> rw [hp] <;> exact h

/-- Weaken a postcondition. -/
theorem wp_mono (h : wp p Q s) (hok : ∀ a t, Q.ok a t → R.ok a t)
    (herror : ∀ e t, Q.error e t → R.error e t) (hcrash : ∀ t, Q.crash t → R.crash t) :
    wp p R s := by
  unfold wp at h ⊢
  split at h
  · exact hok _ _ h
  · exact herror _ _ h
  · exact hcrash _ h

/-- However a program ends, something holds. -/
theorem wp_of_forall (hok : ∀ a t, Q.ok a t) (herror : ∀ e t, Q.error e t)
    (hcrash : ∀ t, Q.crash t) :
    wp p Q s :=
  wp_mono (wp_self p s) (fun a t _ => hok a t) (fun e t _ => herror e t) fun t _ => hcrash t

/-- Two facts about the same run. -/
theorem wp_and (h : wp p Q s) (h' : wp p R s) :
    wp p ⟨fun a t => Q.ok a t ∧ R.ok a t, fun e t => Q.error e t ∧ R.error e t,
      fun t => Q.crash t ∧ R.crash t⟩ s := by
  unfold wp at h h' ⊢
  rcases hp : p s with ⟨_ | _ | _, t⟩ <;> rw [hp] at h h' <;> exact ⟨h, h'⟩

/-- If the program returns a value, it satisfies a predicate. -/
def Post.ifOk (P : α → σ → Prop) : Post σ ε α := ⟨P, fun _ _ => True, fun _ => True⟩

/-- The program returns a value, and it satisfies a predicate. -/
def Post.only (P : α → σ → Prop) : Post σ ε α := ⟨P, fun _ _ => False, fun _ => False⟩

theorem wp_only {P : α → σ → Prop} :
    wp p (Post.only P) s ↔ ∃ a t, p s = (.ok a, t) ∧ P a t := by
  unfold wp
  rcases h : p s with ⟨a | e | _, t⟩
  · constructor
    · exact fun hP => ⟨a, t, rfl, hP⟩
    · rintro ⟨a', t', hrun, hP⟩
      obtain ⟨hvalue, rfl⟩ := Prod.mk.inj hrun
      obtain rfl := Outcome.ok.inj hvalue
      exact hP
  · constructor
    · exact False.elim
    · rintro ⟨a', t', hrun, -⟩
      exact Outcome.noConfusion rfl rfl (heq_of_eq (Prod.mk.inj hrun).1)
  · constructor
    · exact False.elim
    · rintro ⟨a', t', hrun, -⟩
      exact Outcome.noConfusion rfl rfl (heq_of_eq (Prod.mk.inj hrun).1)

/-! ## The program constructs -/

@[simp] theorem wp_pure (a : α) (Q : Post σ ε α) (s : σ) :
    wp (pure a : Prog σ ε α) Q s ↔ Q.ok a s := Iff.rfl

@[simp] theorem wp_fail (e : ε) (Q : Post σ ε α) (s : σ) : wp (Prog.fail e) Q s ↔ Q.error e s :=
  Iff.rfl

@[simp] theorem wp_get (Q : Post σ ε σ) (s : σ) : wp Prog.get Q s ↔ Q.ok s s := Iff.rfl

@[simp] theorem wp_modify (f : σ → σ) (Q : Post σ ε Unit) (s : σ) :
    wp (Prog.modify f) Q s ↔ Q.ok () (f s) := Iff.rfl

@[simp] theorem wp_bind (p : Prog σ ε α) (f : α → Prog σ ε β) (Q : Post σ ε β) (s : σ) :
    wp (p >>= f) Q s ↔ wp p ⟨fun a => wp (f a) Q, Q.error, Q.crash⟩ s := by
  show wp (Prog.bind p f) Q s ↔ _
  unfold wp Prog.bind
  rcases p s with ⟨_ | _ | _, t⟩ <;> rfl

@[simp] theorem wp_map (p : Prog σ ε α) (f : α → β) (Q : Post σ ε β) (s : σ) :
    wp (f <$> p) Q s ↔ wp p ⟨fun a => Q.ok (f a), Q.error, Q.crash⟩ s :=
  wp_bind p (fun a => pure (f a)) Q s

@[simp] theorem wp_ofExcept_ok (a : α) (Q : Post σ ε α) (s : σ) :
    wp (Prog.ofExcept (.ok a)) Q s ↔ Q.ok a s := Iff.rfl

@[simp] theorem wp_ofExcept_error (e : ε) (Q : Post σ ε α) (s : σ) :
    wp (Prog.ofExcept (.error e)) Q s ↔ Q.error e s := Iff.rfl

theorem wp_ofExcept (r : Except ε α) (Q : Post σ ε α) (s : σ) :
    wp (Prog.ofExcept r) Q s ↔ (∀ a, r = .ok a → Q.ok a s) ∧ ∀ e, r = .error e → Q.error e s := by
  cases r with
  | ok a => simp
  | error e => simp

@[simp] theorem wp_attempt (p : Prog σ ε α) (Q : Post σ ε' (Except ε α)) (s : σ) :
    wp (Prog.attempt p) Q s ↔
      wp p ⟨fun a => Q.ok (.ok a), fun e => Q.ok (.error e), Q.crash⟩ s := by
  unfold wp Prog.attempt
  rcases p s with ⟨_ | _ | _, t⟩ <;> rfl

@[simp] theorem wp_mapError (f : ε → ε') (p : Prog σ ε α) (Q : Post σ ε' α) (s : σ) :
    wp (Prog.mapError f p) Q s ↔ wp p ⟨Q.ok, fun e => Q.error (f e), Q.crash⟩ s := by
  unfold wp Prog.mapError
  rcases p s with ⟨_ | _ | _, t⟩ <;> rfl

@[simp] theorem wp_zoom (view : τ → σ) (put : τ → σ → τ) (p : Prog σ ε α) (Q : Post τ ε α)
    (t : τ) : wp (Prog.zoom view put p) Q t ↔
      wp p ⟨fun a s => Q.ok a (put t s), fun e s => Q.error e (put t s),
        fun s => Q.crash (put t s)⟩ (view t) := by
  unfold wp Prog.zoom
  rcases p (view t) with ⟨_ | _ | _, s⟩ <;> rfl

@[simp] theorem wp_ite (c : Prop) [Decidable c] (p q : Prog σ ε α) (Q : Post σ ε α) (s : σ) :
    wp (if c then p else q) Q s ↔ (c → wp p Q s) ∧ (¬c → wp q Q s) := by
  split <;> simp [*]

theorem wp_ifOk_fail {P : α → σ → Prop} (e : ε) : wp (Prog.fail e) (.ifOk P) s :=
  (wp_fail e _ s).mpr trivial

/-- A test that refuses is out of the way when it does not. -/
theorem wp_ifOk_guard {c : Prop} [Decidable c] {e : ε} {P : α → σ → Prop}
    (h : ¬c → wp p (.ifOk P) s) : wp (if c then Prog.fail e else p) (.ifOk P) s :=
  (wp_ite c _ p _ s).mpr ⟨fun _ => wp_ifOk_fail e, h⟩

/-! ## Running a composite program -/

theorem bind_ok {f : α → Prog σ ε β} {a : α} (h : p s = (.ok a, s')) : (p >>= f) s = f a s' := by
  show Prog.bind p f s = _
  rw [Prog.bind, h]

theorem bind_error {f : α → Prog σ ε β} {e : ε} (h : p s = (.error e, s')) :
    (p >>= f) s = (.error e, s') := by
  show Prog.bind p f s = _
  rw [Prog.bind, h]

theorem bind_crash {f : α → Prog σ ε β} (h : p s = (.crash, s')) :
    (p >>= f) s = (.crash, s') := by
  show Prog.bind p f s = _
  rw [Prog.bind, h]

/-- Mapping the value of a program maps how it ends. -/
theorem run_map (p : Prog σ ε α) (f : α → β) (s : σ) :
    (f <$> p) s = ((p s).1.map f, (p s).2) := by
  show Prog.bind p (fun a => Prog.pure (f a)) s = _
  unfold Prog.bind
  rcases p s with ⟨_ | _ | _, t⟩ <;> rfl

theorem attempt_ok {a : α} (h : p s = (.ok a, s')) :
    (Prog.attempt p : Prog σ ε' (Except ε α)) s = (.ok (.ok a), s') := by
  rw [Prog.attempt, h]

theorem attempt_error {e : ε} (h : p s = (.error e, s')) :
    (Prog.attempt p : Prog σ ε' (Except ε α)) s = (.ok (.error e), s') := by
  rw [Prog.attempt, h]

theorem attempt_crash (h : p s = (.crash, s')) :
    (Prog.attempt p : Prog σ ε' (Except ε α)) s = (.crash, s') := by
  rw [Prog.attempt, h]

theorem mapError_ok {f : ε → ε'} {a : α} (h : p s = (.ok a, s')) :
    Prog.mapError f p s = (.ok a, s') := by
  rw [Prog.mapError, h]

theorem mapError_error {f : ε → ε'} {e : ε} (h : p s = (.error e, s')) :
    Prog.mapError f p s = (.error (f e), s') := by
  rw [Prog.mapError, h]

theorem mapError_crash {f : ε → ε'} (h : p s = (.crash, s')) :
    Prog.mapError f p s = (.crash, s') := by
  rw [Prog.mapError, h]

/-! ## What a run that returned has done -/

section

variable {a : α}

theorem pure_eq_ok {b : α} : (pure a : Prog σ ε α) s = (.ok b, s') ↔ a = b ∧ s = s' := by
  constructor
  · intro h
    obtain ⟨hvalue, rfl⟩ := Prod.mk.inj h
    exact ⟨Outcome.ok.inj hvalue, rfl⟩
  · rintro ⟨rfl, rfl⟩
    rfl

theorem fail_ne_ok {e : ε} : (Prog.fail e : Prog σ ε α) s ≠ (.ok a, s') := fun h =>
  Outcome.noConfusion rfl rfl (heq_of_eq (Prod.mk.inj h).1)

theorem ofExcept_eq_ok {r : Except ε α} : Prog.ofExcept r s = (.ok a, s') ↔ r = .ok a ∧ s = s' := by
  cases r with
  | ok b => exact pure_eq_ok.trans ⟨fun h => ⟨congrArg _ h.1, h.2⟩, fun h =>
    ⟨Except.ok.inj h.1, h.2⟩⟩
  | error e => exact ⟨fun h => absurd h fail_ne_ok, fun h => absurd h.1 (by simp)⟩

/-- Both parts have returned. -/
theorem bind_eq_ok {f : α → Prog σ ε β} {b : β} :
    (p >>= f) s = (.ok b, s') ↔ ∃ a t, p s = (.ok a, t) ∧ f a t = (.ok b, s') := by
  rcases hp : p s with ⟨a | e | _, t⟩
  · rw [bind_ok hp]
    refine ⟨fun h => ⟨a, t, rfl, h⟩, ?_⟩
    rintro ⟨a', t', hrun, h⟩
    obtain ⟨hvalue, rfl⟩ := Prod.mk.inj hrun
    rwa [Outcome.ok.inj hvalue]
  · rw [bind_error hp]
    refine ⟨fun h => absurd h fail_ne_ok, ?_⟩
    rintro ⟨a', t', hrun, -⟩
    exact absurd hrun fail_ne_ok
  · rw [bind_crash hp]
    constructor
    · intro h
      exact Outcome.noConfusion rfl rfl (heq_of_eq (Prod.mk.inj h).1)
    · rintro ⟨a', t', hrun, -⟩
      exact Outcome.noConfusion rfl rfl (heq_of_eq (Prod.mk.inj hrun).1)

theorem mapError_eq_ok {f : ε → ε'} : Prog.mapError f p s = (.ok a, s') ↔ p s = (.ok a, s') := by
  rcases hp : p s with ⟨b | e | _, t⟩
  · rw [mapError_ok hp]
    constructor <;> intro h <;> obtain ⟨hvalue, rfl⟩ := Prod.mk.inj h <;> rw [Outcome.ok.inj hvalue]
  · rw [mapError_error hp]
    exact ⟨fun h => absurd h fail_ne_ok, fun h => absurd h fail_ne_ok⟩
  · rw [mapError_crash hp]
    constructor <;> intro h <;> exact Outcome.noConfusion rfl rfl (heq_of_eq (Prod.mk.inj h).1)

/-- What an attempt has seen. -/
theorem attempt_eq_ok {r : Except ε α} :
    (Prog.attempt p : Prog σ ε' (Except ε α)) s = (.ok r, s') ↔
      (∃ a, r = .ok a ∧ p s = (.ok a, s')) ∨ ∃ e, r = .error e ∧ p s = (.error e, s') := by
  constructor
  · intro h
    rcases hp : p s with ⟨a | e | _, t⟩
    · rw [attempt_ok hp] at h
      obtain ⟨hvalue, rfl⟩ := Prod.mk.inj h
      exact Or.inl ⟨a, (Outcome.ok.inj hvalue).symm, rfl⟩
    · rw [attempt_error hp] at h
      obtain ⟨hvalue, rfl⟩ := Prod.mk.inj h
      exact Or.inr ⟨e, (Outcome.ok.inj hvalue).symm, rfl⟩
    · rw [attempt_crash hp] at h
      exact Outcome.noConfusion rfl rfl (heq_of_eq (Prod.mk.inj h).1)
  · rintro (⟨a, rfl, hp⟩ | ⟨e, rfl, hp⟩)
    · exact attempt_ok hp
    · exact attempt_error hp

end

/-! ## Pure results -/

/-- A composite computation succeeds when both parts do. -/
theorem except_bind_eq_ok {x : Except ε α} {f : α → Except ε β} {b : β} :
    (x >>= f) = .ok b ↔ ∃ a, x = .ok a ∧ f a = .ok b := by
  cases x with
  | error e =>
    constructor
    · intro h
      exact absurd h (by simp [bind, Except.bind])
    · rintro ⟨a, ha, -⟩
      exact absurd ha (by simp)
  | ok a =>
    constructor
    · exact fun h => ⟨a, rfl, h⟩
    · rintro ⟨a', ha, h⟩
      obtain rfl := Except.ok.inj ha
      exact h

theorem except_mapError_eq_ok {x : Except ε α} {f : ε → ε'} {a : α} :
    x.mapError f = .ok a ↔ x = .ok a := by
  cases x with
  | error e => exact ⟨fun h => absurd h (by simp [Except.mapError]), fun h => absurd h (by simp)⟩
  | ok b => exact ⟨fun h => congrArg _ (Except.ok.inj h), fun h => congrArg _ (Except.ok.inj h)⟩

/-! ## Programs that leave a part of the state alone -/

/-- However the program ends, the part of the state that `view` shows is what it was. -/
def Leaves {ρ : Type} (view : σ → ρ) (p : Prog σ ε α) : Prop := ∀ s, view (p s).2 = view s

namespace Leaves

variable {ρ : Type} {view : σ → ρ}

theorem pure (a : α) : Leaves view (Pure.pure a : Prog σ ε α) := fun _ => rfl

theorem fail (e : ε) : Leaves view (Prog.fail e : Prog σ ε α) := fun _ => rfl

theorem ofExcept (r : Except ε α) : Leaves view (Prog.ofExcept r : Prog σ ε α) := by
  cases r with
  | ok a => exact pure a
  | error e => exact fail e

theorem bind {f : α → Prog σ ε β} (hp : Leaves view p) (hf : ∀ a, Leaves view (f a)) :
    Leaves view (p >>= f) := by
  intro s
  have hs := hp s
  rcases h : p s with ⟨a | e | _, t⟩ <;> rw [h] at hs
  · rw [bind_ok h, hf a t]
    exact hs
  · rw [bind_error h]
    exact hs
  · rw [bind_crash h]
    exact hs

theorem attempt (hp : Leaves view p) :
    Leaves view (Prog.attempt p : Prog σ ε' (Except ε α)) := by
  intro s
  have hs := hp s
  rcases h : p s with ⟨a | e | _, t⟩ <;> rw [h] at hs
  · rw [attempt_ok h]
    exact hs
  · rw [attempt_error h]
    exact hs
  · rw [attempt_crash h]
    exact hs

theorem ite {c : Prop} [Decidable c] {q : Prog σ ε α} (hp : Leaves view p) (hq : Leaves view q) :
    Leaves view (if c then p else q) := by
  split
  · exact hp
  · exact hq

/-- The frame, as a postcondition. -/
protected theorem wp (hp : Leaves view p) (s : σ) :
    wp p ⟨fun _ t => view t = view s, fun _ t => view t = view s, fun t => view t = view s⟩ s := by
  have hs := hp s
  refine wp_mono (wp_self p s) (fun a t hrun => ?_) (fun e t hrun => ?_) fun t hrun => ?_
  all_goals
    rw [hrun] at hs
    exact hs

end Leaves

/-! ## Programs that keep a property of the state -/

/-- However the program ends, the property holds if it held before. -/
def Maintains (P : σ → Prop) (p : Prog σ ε α) : Prop := ∀ s, P s → P (p s).2

namespace Maintains

variable {P : σ → Prop}

theorem pure (a : α) : Maintains P (Pure.pure a : Prog σ ε α) := fun _ hs => hs

theorem fail (e : ε) : Maintains P (Prog.fail e : Prog σ ε α) := fun _ hs => hs

theorem ofExcept (r : Except ε α) : Maintains P (Prog.ofExcept r : Prog σ ε α) := by
  cases r with
  | ok a => exact pure a
  | error e => exact fail e

/-- What is behind a program may rely on what the program says of its value. -/
theorem bind_ok {f : α → Prog σ ε β} {Q : α → Prop} (hp : Maintains P p)
    (hQ : ∀ s a t, P s → p s = (.ok a, t) → Q a) (hf : ∀ a, Q a → Maintains P (f a)) :
    Maintains P (p >>= f) := by
  intro s hs
  have ht := hp s hs
  rcases h : p s with ⟨a | e | _, t⟩ <;> rw [h] at ht
  · rw [FaultProgram.bind_ok h]
    exact hf a (hQ s a t hs h) t ht
  · rw [bind_error h]
    exact ht
  · rw [bind_crash h]
    exact ht

theorem bind {f : α → Prog σ ε β} (hp : Maintains P p) (hf : ∀ a, Maintains P (f a)) :
    Maintains P (p >>= f) :=
  hp.bind_ok (Q := fun _ => True) (fun _ _ _ _ _ => trivial) fun a _ => hf a

theorem attempt (hp : Maintains P p) : Maintains P (Prog.attempt p : Prog σ ε' (Except ε α)) := by
  intro s hs
  have ht := hp s hs
  rcases h : p s with ⟨a | e | _, t⟩ <;> rw [h] at ht
  · rw [attempt_ok h]
    exact ht
  · rw [attempt_error h]
    exact ht
  · rw [attempt_crash h]
    exact ht

theorem mapError (f : ε → ε') (hp : Maintains P p) : Maintains P (Prog.mapError f p) := by
  intro s hs
  have ht := hp s hs
  rcases h : p s with ⟨a | e | _, t⟩ <;> rw [h] at ht
  · rw [mapError_ok h]
    exact ht
  · rw [mapError_error h]
    exact ht
  · rw [mapError_crash h]
    exact ht

theorem ite {c : Prop} [Decidable c] {q : Prog σ ε α} (hp : c → Maintains P p)
    (hq : ¬c → Maintains P q) : Maintains P (if c then p else q) := by
  split
  · next hc => exact hp hc
  · next hc => exact hq hc

/-- A program keeps what can be seen of the part it leaves alone. -/
theorem of_leaves {ρ : Type} {view : σ → ρ} (hp : Leaves view p)
    (hview : ∀ s t, view t = view s → P s → P t) : Maintains P p :=
  fun s hs => hview s _ (hp s) hs

end Maintains

/-! ## Contracts -/

/-- From a state with `P` the program ends with `Q` when it returns a value, and with `E` when it
does not. -/
def Contract (P : σ → Prop) (p : Prog σ ε α) (Q : α → σ → Prop) (E : σ → Prop) : Prop :=
  ∀ s, P s → wp p ⟨Q, fun _ => E, E⟩ s

namespace Contract

variable {P P' E E' : σ → Prop} {Q Q' : α → σ → Prop}

theorem pure (a : α) (h : ∀ s, P s → Q a s) : Contract P (Pure.pure a : Prog σ ε α) Q E := h

theorem bind {f : α → Prog σ ε β} {R : β → σ → Prop} (hp : Contract P p Q E)
    (hf : ∀ a, Contract (Q a) (f a) R E) : Contract P (p >>= f) R E := by
  intro s hs
  rw [wp_bind]
  exact wp_mono (hp s hs) (fun a t ht => hf a t ht) (fun _ _ ht => ht) fun _ ht => ht

/-- An error is looked at, and what the program has left is at hand. -/
theorem attempt {R : Except ε α → σ → Prop} (hp : Contract P p Q E)
    (hok : ∀ a s, Q a s → R (.ok a) s) (herror : ∀ e s, E s → R (.error e) s) :
    Contract P (Prog.attempt p : Prog σ ε' (Except ε α)) R E := by
  intro s hs
  rw [wp_attempt]
  exact wp_mono (hp s hs) hok herror fun _ ht => ht

theorem ite {c : Prop} [Decidable c] {q : Prog σ ε α} (hp : c → Contract P p Q E)
    (hq : ¬c → Contract P q Q E) : Contract P (if c then p else q) Q E := by
  split
  · next hc => exact hp hc
  · next hc => exact hq hc

theorem mono (h : Contract P p Q E) (hP : ∀ s, P' s → P s) (hQ : ∀ a s, Q a s → Q' a s)
    (hE : ∀ s, E s → E' s) : Contract P' p Q' E' :=
  fun s hs => wp_mono (h s (hP s hs)) hQ (fun _ => hE) hE

/-- A fact that follows from the precondition is at hand. -/
theorem given {c : Prop} (hc : ∀ s, P s → c) (h : c → Contract P p Q E) : Contract P p Q E :=
  fun s hs => h (hc s hs) s hs

/-- One program for each item of a list. -/
theorem forM {ι : Type} {f : ι → Prog σ ε PUnit} (items : List ι)
    (h : ∀ i ∈ items, Contract P (f i) (fun _ => P) E) : Contract P (items.forM f)
    (fun _ => P) E := by
  induction items with
  | nil => exact .pure _ fun _ hs => hs
  | cons i items ih =>
    exact .bind (h i List.mem_cons_self) fun _ => ih fun j hj => h j (List.mem_cons_of_mem i hj)

theorem of_maintains (h : Maintains P p) : Contract P p (fun _ => P) P := by
  intro s hs
  have ht := h s hs
  refine wp_mono (wp_self p s) (fun a t hrun => ?_) (fun e t hrun => ?_) fun t hrun => ?_
  all_goals
    rw [hrun] at ht
    exact ht

end Contract

-- from here on a program is run through its rules, never by unfolding
attribute [irreducible] wp

end FaultProgram
