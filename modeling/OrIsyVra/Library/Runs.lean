import Mathlib.Tactic.Common

/-!
# Runs of a labelled transition system

A system is a relation `step s e s'`; a run is a list of labels with a step for each.  Two rules
carry a property of one step to a whole run: an invariant holds at the end of every run it holds at
the start of (`Run.invariant`), and a simulation gives, for every run of the concrete system, a run
of the abstract one with the same labels (`Run.simulation`).
-/

namespace Runs

variable {σ τ ε : Type}

/-- A run from the first state to the second, with the labels of its steps in order. -/
inductive Run (step : σ → ε → σ → Prop) (s : σ) : List ε → σ → Prop where
  | refl : Run step s [] s
  | step {t u : σ} {es : List ε} {e : ε} : Run step s es t → step t e u → Run step s (es ++ [e]) u

namespace Run

variable {step : σ → ε → σ → Prop} {s t : σ} {es : List ε}

/-- **Invariants.**  What holds at the start and is kept by every step holds at the end. -/
theorem invariant {P : σ → Prop} (h : Run step s es t) (hs : P s)
    (hstep : ∀ s e t, P s → step s e t → P t) : P t := by
  induction h with
  | refl => exact hs
  | step _ hlast ih => exact hstep _ _ _ ih hlast

/-- An invariant that also says something about the labels. -/
theorem labels {P : σ → Prop} {Q : ε → Prop} (h : Run step s es t) (hs : P s)
    (hstep : ∀ s e t, P s → step s e t → P t ∧ Q e) : ∀ e ∈ es, Q e := by
  induction h with
  | refl => exact fun e he => absurd he List.not_mem_nil
  | @step t u es e hrun hlast ih =>
    have ht : P t := hrun.invariant hs fun s e t hP h => (hstep s e t hP h).1
    intro e' he'
    rcases List.mem_append.mp he' with hm | hm
    · exact ih e' hm
    · rw [List.mem_singleton.mp hm]
      exact (hstep _ _ _ ht hlast).2

/-- **Frames.**  What holds at the start, and is kept by every step whose label is of a kind, holds
at the end of a run whose labels all are. -/
theorem frame {P : σ → Prop} {Q : ε → Prop} (h : Run step s es t) (hs : P s) (hes : ∀ e ∈ es, Q e)
    (hstep : ∀ s e t, P s → Q e → step s e t → P t) : P t := by
  induction h with
  | refl => exact hs
  | @step t u es e _ hlast ih =>
    have ht : P t := ih fun e' he' => hes e' (List.mem_append_left _ he')
    exact hstep _ _ _ ht (hes e (List.mem_append_right _ List.mem_cons_self)) hlast

/-- **Simulation.**  A step-wise simulation lifts to runs with the same labels. -/
theorem simulation {step' : τ → ε → τ → Prop} {R : σ → τ → Prop} {m : τ} (h : Run step s es t)
    (hs : R s m) (hstep : ∀ s e t m, R s m → step s e t → ∃ m', step' m e m' ∧ R t m') :
    ∃ m', Run step' m es m' ∧ R t m' := by
  induction h with
  | refl => exact ⟨m, .refl, hs⟩
  | step _ hlast ih =>
    obtain ⟨m₁, hrun₁, hR₁⟩ := ih
    obtain ⟨m₂, hlast₂, hR₂⟩ := hstep _ _ _ m₁ hR₁ hlast
    exact ⟨m₂, hrun₁.step hlast₂, hR₂⟩

/-- **Stuttering simulation.**  Where a concrete step is one abstract step or none, a concrete run
is an abstract one with the labels that are seen. -/
theorem stuttering {ε' : Type} {step' : τ → ε' → τ → Prop} {R : σ → τ → Prop} {seen : ε → Option ε'}
    {m : τ} (h : Run step s es t) (hs : R s m)
    (hstep : ∀ s e t m, R s m → step s e t →
      (seen e = none ∧ R t m) ∨ ∃ e' m', seen e = some e' ∧ step' m e' m' ∧ R t m') :
    ∃ m', Run step' m (es.filterMap seen) m' ∧ R t m' := by
  induction h with
  | refl => exact ⟨m, .refl, hs⟩
  | @step t u es e _ hlast ih =>
    obtain ⟨m₁, hrun₁, hR₁⟩ := ih
    rw [List.filterMap_append]
    rcases hstep _ _ _ m₁ hR₁ hlast with ⟨hseen, hR₂⟩ | ⟨e', m₂, hseen, hlast₂, hR₂⟩
    · rw [List.filterMap_cons_none hseen, List.filterMap_nil, List.append_nil]
      exact ⟨m₁, hrun₁, hR₂⟩
    · rw [List.filterMap_cons_some hseen, List.filterMap_nil]
      exact ⟨m₂, hrun₁.step hlast₂, hR₂⟩

/-- A run of steps that are steps of another system too. -/
theorem mono {step' : σ → ε → σ → Prop} (h : Run step s es t)
    (hstep : ∀ s e t, step s e t → step' s e t) : Run step' s es t := by
  induction h with
  | refl => exact .refl
  | step _ hlast ih => exact ih.step (hstep _ _ _ hlast)

/-- A run may be continued. -/
theorem append {es' : List ε} {u : σ} (h : Run step s es t) (h' : Run step t es' u) :
    Run step s (es ++ es') u := by
  induction h' with
  | refl => rwa [List.append_nil]
  | step _ hlast ih =>
    rw [← List.append_assoc]
    exact ih.step hlast

/-- The run up to a label, the step with the label, and the rest. -/
theorem split {es₁ es₂ : List ε} {e : ε} (h : Run step s (es₁ ++ e :: es₂) t) :
    ∃ u v, Run step s es₁ u ∧ step u e v ∧ Run step v es₂ t := by
  generalize hes : es₁ ++ e :: es₂ = es at h
  induction h generalizing es₂ with
  | refl => exact absurd hes (by simp)
  | @step t u es' e' hrun hlast ih =>
    rcases List.eq_nil_or_concat es₂ with rfl | ⟨es₃, e₃, rfl⟩
    · obtain ⟨rfl, hlabel⟩ := List.append_inj' hes rfl
      rw [(List.cons.inj hlabel).1]
      exact ⟨t, u, hrun, hlast, .refl⟩
    · rw [List.concat_eq_append, ← List.cons_append, ← List.append_assoc] at hes
      obtain ⟨rfl, hlabel⟩ := List.append_inj' hes rfl
      obtain ⟨v, v', hfirst, hstep, hrest⟩ := ih rfl
      rw [List.concat_eq_append, (List.cons.inj hlabel).1]
      exact ⟨v, v', hfirst, hstep, hrest.step hlast⟩

/-- A run without its last step, and the step. -/
theorem dropLast {e : ε} (h : Run step s (es ++ [e]) t) : ∃ u, Run step s es u ∧ step u e t := by
  generalize hes : es ++ [e] = es' at h
  cases h with
  | refl => exact absurd hes (by simp)
  | step hrun hlast =>
    obtain ⟨rfl, hlabel⟩ := List.append_inj' hes rfl
    rw [(List.cons.inj hlabel).1]
    exact ⟨_, hrun, hlast⟩

end Run

/-! ## What has been so -/

/-- Some state of the run has the property. -/
def Sometime (step : σ → ε → σ → Prop) (s : σ) (es : List ε) (t : σ) (P : σ → Prop) : Prop :=
  ∃ es₁ es₂ u, es = es₁ ++ es₂ ∧ Run step s es₁ u ∧ Run step u es₂ t ∧ P u

section

variable {step : σ → ε → σ → Prop} {s t u : σ} {es : List ε} {e : ε} {P : σ → Prop}

theorem Run.sometime (h : Run step s es t) (hP : P t) : Sometime step s es t P :=
  ⟨es, [], t, (List.append_nil es).symm, h, .refl, hP⟩

theorem Sometime.later (h : Sometime step s es t P) (hstep : step t e u) :
    Sometime step s (es ++ [e]) u P := by
  obtain ⟨es₁, es₂, v, rfl, hrun, hrest, hP⟩ := h
  exact ⟨es₁, es₂ ++ [e], v, List.append_assoc _ _ _, hrun, hrest.step hstep, hP⟩

end

/-! ## Logs -/

/-- Every event of the log has what it needs in what is before it. -/
def Justified (just : List ε → ε → Prop) (log : List ε) : Prop :=
  ∀ before e after, log = before ++ e :: after → just before e

section

variable {just : List ε → ε → Prop} {log : List ε} {e : ε}

theorem justified_nil : Justified just [] := fun before e after h => absurd h (by simp)

theorem Justified.before {before after : List ε} (h : Justified just (before ++ after)) :
    Justified just before :=
  fun before' e after' hlog => h before' e (after' ++ after)
    (by rw [hlog, List.append_assoc, List.cons_append])

theorem justified_concat : Justified just (log ++ [e]) ↔ Justified just log ∧ just log e := by
  constructor
  · intro h
    refine ⟨fun before e' after hlog => h before e' (after ++ [e]) ?_, h log e [] rfl⟩
    rw [hlog, List.append_assoc, List.cons_append]
  · rintro ⟨hlog, hlast⟩ before e' after h
    rcases List.eq_nil_or_concat after with rfl | ⟨rest, last, rfl⟩
    · obtain ⟨rfl, hsingle⟩ := List.append_inj' h rfl
      rwa [← (List.cons.inj hsingle).1]
    · rw [List.concat_eq_append, ← List.cons_append, ← List.append_assoc] at h
      exact hlog before e' rest (List.append_inj' h rfl).1

end

/-! ## Executing a run -/

variable {κ : Type}

/-- Carry out commands one after the other, as long as each can be. -/
def execute (next : σ → κ → Option (ε × σ)) : List κ → σ → Option (List ε × σ)
  | [], s => some ([], s)
  | k :: ks, s =>
    match next s k with
    | none => none
    | some (e, t) =>
      match execute next ks t with
      | none => none
      | some (es, u) => some (e :: es, u)

/-- **What is executed is a run**, when every command is a step. -/
theorem execute_run {step : σ → ε → σ → Prop} {next : σ → κ → Option (ε × σ)} {ks : List κ}
    {s t : σ} {es : List ε} (hstep : ∀ k ∈ ks, ∀ s e t, next s k = some (e, t) → step s e t)
    (h : execute next ks s = some (es, t)) : Run step s es t := by
  induction ks generalizing s es with
  | nil =>
    obtain ⟨rfl, rfl⟩ : [] = es ∧ s = t := by simpa [execute] using h
    exact .refl
  | cons k ks ih =>
    unfold execute at h
    split at h
    · exact absurd h (by simp)
    next e u hnext =>
    split at h
    · exact absurd h (by simp)
    next es' t' hrest =>
    obtain ⟨rfl, rfl⟩ : e :: es' = es ∧ t' = t := by simpa using h
    have hfirst : Run step s ([] ++ [e]) u := Run.refl.step (hstep k List.mem_cons_self _ _ _ hnext)
    exact hfirst.append (ih (fun k' hk' => hstep k' (List.mem_cons_of_mem _ hk')) hrest)

/-- A run whose end can be computed, with what a test finds there. -/
theorem exists_run_of_execute {step : σ → ε → σ → Prop} {next : σ → κ → Option (ε × σ)}
    {ks : List κ} {s : σ} (test : List ε → σ → Bool)
    (hstep : ∀ k ∈ ks, ∀ s e t, next s k = some (e, t) → step s e t)
    (h : (execute next ks s).any (fun r => test r.1 r.2) = true) :
    ∃ es t, Run step s es t ∧ test es t = true := by
  obtain ⟨⟨es, t⟩, hrun, htest⟩ := (Option.any_eq_true _ _).mp h
  exact ⟨es, t, execute_run hstep hrun, htest⟩

end Runs
