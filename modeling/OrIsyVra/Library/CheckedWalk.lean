import Mathlib.Order.Nat
import Mathlib.Tactic.Common

/-!
# Walks over a string of bytes, in machine words

A parser that goes through a string chunk by chunk keeps a cursor, a machine word.  An addition on
it may overflow, and a slice may reach past the end of the string or end before it starts; each of
these is a `Fault` here, and the end of the pass.  `Loop.run` executes such a loop and keeps, beside
the result, the places where a pass began and the moves of the cursor.

What a loop is compared with is `positions`, the decomposition of the string on natural numbers.  A
run is `Safe` when it has no fault, begins its passes at the first places of the decomposition, and
moves by no less than the room it asks for.  `Loop.run_safe` gets this from what one pass does at
the places it comes to, and `Loop.run_error` is the converse: a place that faults, and is come to,
fails the run.
-/

namespace CheckedWalk

variable {α β σ : Type}

/-! ## Words and slices -/

inductive Fault where
  | overflow
  | slice
  /-- The loop has not ended when its fuel has. -/
  | stuck
  deriving DecidableEq, Repr

/-- The sum of two words below `top`. -/
def add (top a b : ℕ) : Except Fault ℕ := if a + b < top then .ok (a + b) else .error .overflow

/-- The sum that reports an overflow to its caller. -/
def checkedAdd (top a b : ℕ) : Option ℕ := if a + b < top then some (a + b) else none

/-- The elements from one place to another. -/
def sliceAt (xs : List β) (start stop : ℕ) : Except Fault (List β) :=
  if start ≤ stop ∧
    stop ≤ xs.length then .ok ((xs.drop start).take (stop - start)) else .error .slice

theorem ok_bind (a : α) (f : α → Except Fault β) : (Except.ok a >>= f) = f a := rfl

theorem error_bind (fault : Fault) (f : α → Except Fault β) :
    ((Except.error fault : Except Fault α) >>= f) = .error fault := rfl

theorem add_eq_ok {top a b : ℕ} (h : a + b < top) : add top a b = .ok (a + b) := if_pos h

theorem add_eq_error {top a b : ℕ} (h : top ≤ a + b) : add top a b = .error .overflow :=
  if_neg (not_lt.mpr h)

theorem checkedAdd_eq_some {top a b : ℕ} (h : a + b < top) : checkedAdd top a b = some (a + b) :=
  if_pos h

theorem checkedAdd_eq_none {top a b : ℕ} (h : top ≤ a + b) : checkedAdd top a b = none :=
  if_neg (not_lt.mpr h)

theorem sliceAt_eq_ok {xs : List β} {start stop : ℕ} (hle : start ≤ stop)
    (hlen : stop ≤ xs.length) :
    sliceAt xs start stop = .ok ((xs.drop start).take (stop - start)) :=
  if_pos ⟨hle, hlen⟩

/-! ## Loops -/

/-- How a pass ends. -/
inductive Pass (σ α : Type) where
  /-- The function returns from within the loop. -/
  | stop (result : α)
  /-- The cursor moves, and the loop ends. -/
  | leave (cursor : ℕ) (state : σ)
  | next (cursor : ℕ) (state : σ)

/-- What a run leaves: where its passes began, how the cursor moved, and what it returned. -/
structure Trace (α : Type) where
  visited : List ℕ
  moves : List (ℕ × ℕ)
  result : Except Fault α

namespace Trace

/-- Nothing is visited. -/
def still (result : Except Fault α) : Trace α := ⟨[], [], result⟩

/-- What is computed before a loop, and the loop. -/
def beginning (first : Except Fault β) (rest : β → Trace α) : Trace α :=
  match first with
  | .error fault => still (.error fault)
  | .ok b => rest b

/-- One pass before the others. -/
def after (start next : ℕ) (t : Trace α) : Trace α :=
  ⟨start :: t.visited, (start, next) :: t.moves, t.result⟩

end Trace

/-- A loop over a string of a length, as long as there is room behind the cursor. -/
structure Loop (σ α : Type) where
  top : ℕ
  length : ℕ
  room : ℕ
  body : ℕ → σ → Except Fault (Pass σ α)
  /-- What is behind the loop. -/
  finish : σ → α

def Loop.run (l : Loop σ α) : ℕ → ℕ → σ → Trace α
  | 0, _, _ => .still (.error .stuck)
  | fuel + 1, cursor, s =>
    match add l.top cursor l.room with
    | .error fault => .still (.error fault)
    | .ok bound =>
      if bound ≤ l.length then
        match l.body cursor s with
        | .error fault => ⟨[cursor], [], .error fault⟩
        | .ok (.stop result) => ⟨[cursor], [], .ok result⟩
        | .ok (.leave next s') => ⟨[cursor], [(cursor, next)], .ok (l.finish s')⟩
        | .ok (.next next s') => (l.run fuel next s').after cursor next
      else .still (.ok (l.finish s))

/-! ## The decomposition -/

/-- The places from the cursor on, as long as there is room, each with the one that follows it. -/
def positions (length room : ℕ) (next : ℕ → Option ℕ) : ℕ → ℕ → List ℕ
  | 0, _ => []
  | fuel + 1, cursor =>
    if cursor + room ≤ length then
      cursor :: (next cursor).elim [] (fun stop => positions length room next fuel stop)
    else []

/-- What follows is behind the room, and within the string. -/
def Forward (length room : ℕ) (next : ℕ → Option ℕ) : Prop :=
  ∀ cursor stop, next cursor = some stop → cursor + room ≤ stop ∧ stop ≤ length

section

variable {length room : ℕ} {next : ℕ → Option ℕ} {fuel cursor : ℕ}

theorem positions_eq_nil (h : length < cursor + room) :
    positions length room next fuel cursor = [] := by
  cases fuel with
  | zero => rfl
  | succ fuel => rw [positions, if_neg (not_le.mpr h)]

theorem positions_eq_singleton (hroom : cursor + room ≤ length) (h : next cursor = none) :
    positions length room next (fuel + 1) cursor = [cursor] := by
  rw [positions, if_pos hroom, h, Option.elim_none]

theorem positions_eq_cons {stop : ℕ} (hroom : cursor + room ≤ length)
    (h : next cursor = some stop) :
    positions length room next (fuel + 1) cursor =
      cursor :: positions length room next fuel stop := by
  rw [positions, if_pos hroom, h, Option.elim_some]

/-- The decomposition goes forward. -/
theorem le_of_mem_positions (hnext : Forward length room next) {c : ℕ}
    (h : c ∈ positions length room next fuel cursor) : cursor ≤ c := by
  induction fuel generalizing cursor with
  | zero => exact absurd h List.not_mem_nil
  | succ fuel ih =>
    by_cases hroom : cursor + room ≤ length
    swap
    · rw [positions_eq_nil (not_le.mp hroom)] at h
      exact absurd h List.not_mem_nil
    rcases hstop : next cursor with _ | stop
    · rw [positions_eq_singleton hroom hstop] at h
      exact (List.mem_singleton.mp h).ge
    rw [positions_eq_cons hroom hstop] at h
    rcases List.mem_cons.mp h with rfl | h
    · exact le_rfl
    · have hmove := (hnext cursor stop hstop).1
      have hle := ih h
      omega

/-- At each place there is room. -/
theorem room_of_mem_positions {c : ℕ} (h : c ∈ positions length room next fuel cursor) :
    c + room ≤ length := by
  induction fuel generalizing cursor with
  | zero => exact absurd h List.not_mem_nil
  | succ fuel ih =>
    by_cases hroom : cursor + room ≤ length
    swap
    · rw [positions_eq_nil (not_le.mp hroom)] at h
      exact absurd h List.not_mem_nil
    rcases hstop : next cursor with _ | stop
    · rw [positions_eq_singleton hroom hstop] at h
      rwa [List.mem_singleton.mp h]
    rw [positions_eq_cons hroom hstop] at h
    rcases List.mem_cons.mp h with rfl | h
    · exact hroom
    · exact ih h

/-- All places but the last are followed by one. -/
theorem next_of_lt (hnext : Forward length room next) {b c : ℕ}
    (hb : b ∈ positions length room next fuel cursor)
    (hc : c ∈ positions length room next fuel cursor) (hlt : b < c) :
    ∃ stop, next b = some stop := by
  induction fuel generalizing cursor with
  | zero => exact absurd hb List.not_mem_nil
  | succ fuel ih =>
    have hroom : cursor + room ≤ length := by
      by_contra hfull
      rw [positions_eq_nil (not_le.mp hfull)] at hb
      exact absurd hb List.not_mem_nil
    rcases hstop : next cursor with _ | stop
    · rw [positions_eq_singleton hroom hstop] at hb hc
      rw [List.mem_singleton.mp hb, List.mem_singleton.mp hc] at hlt
      exact absurd hlt (lt_irrefl cursor)
    rw [positions_eq_cons hroom hstop] at hb hc
    rcases List.mem_cons.mp hb with rfl | hb'
    · exact ⟨stop, hstop⟩
    rcases List.mem_cons.mp hc with hhead | hc'
    · have hmove := (hnext cursor stop hstop).1
      have hle := le_of_mem_positions hnext hb'
      omega
    · exact ih hb' hc'

/-- **Fuel does not cut the decomposition short**: more of it than bytes are left changes
nothing. -/
theorem positions_fuel (hnext : Forward length room next) (hpos : 0 < room)
    (hfuel : length < cursor + fuel) :
    positions length room next (fuel + 1) cursor = positions length room next fuel cursor := by
  induction fuel generalizing cursor with
  | zero => rw [positions_eq_nil (by omega), positions_eq_nil (by omega)]
  | succ fuel ih =>
    by_cases hroom : cursor + room ≤ length
    swap
    · rw [positions_eq_nil (not_le.mp hroom), positions_eq_nil (not_le.mp hroom)]
    rcases hstop : next cursor with _ | stop
    · rw [positions_eq_singleton hroom hstop, positions_eq_singleton hroom hstop]
    have hmove := (hnext cursor stop hstop).1
    rw [positions_eq_cons hroom hstop, positions_eq_cons hroom hstop, ih (by omega)]

end

/-! ## Safe runs -/

/-- No fault, no place but the first ones of the decomposition, and no short move. -/
structure Safe (room : ℕ) (reference : List ℕ) (t : Trace α) : Prop where
  returns : ∃ result, t.result = .ok result
  visits : t.visited <+: reference
  advances : ∀ move ∈ t.moves, move.1 + room ≤ move.2

theorem safe_still {room : ℕ} {reference : List ℕ} (result : α) :
    Safe room reference (.still (.ok result)) :=
  ⟨⟨result, rfl⟩, List.nil_prefix, fun _ h => absurd h List.not_mem_nil⟩

/-- A pass that ends the run, or goes where the decomposition goes. -/
def Pass.Follows (room : ℕ) (next : ℕ → Option ℕ) (cursor : ℕ) : Pass σ α → Prop
  | .stop _ => True
  | .leave place _ => cursor + room ≤ place
  | .next place _ => next cursor = some place

namespace Loop

variable {l : Loop σ α} {next : ℕ → Option ℕ} {fuel cursor : ℕ} {s : σ}

/-- The loop goes on behind the place. -/
def Passes (l : Loop σ α) (c : ℕ) : Prop := ∃ s stop s', l.body c s = .ok (.next stop s')

theorem run_of_room (htop : cursor + l.room < l.top) (hroom : cursor + l.room ≤ l.length) :
    l.run (fuel + 1) cursor s =
      match l.body cursor s with
      | .error fault => ⟨[cursor], [], .error fault⟩
      | .ok (.stop result) => ⟨[cursor], [], .ok result⟩
      | .ok (.leave next s') => ⟨[cursor], [(cursor, next)], .ok (l.finish s')⟩
      | .ok (.next next s') => (l.run fuel next s').after cursor next := by
  rw [run, add_eq_ok htop]
  exact if_pos hroom

theorem run_of_full (htop : cursor + l.room < l.top) (hfull : l.length < cursor + l.room) :
    l.run (fuel + 1) cursor s = .still (.ok (l.finish s)) := by
  rw [run, add_eq_ok htop]
  exact if_neg (not_le.mpr hfull)

/-- **A run is safe** when its passes follow the decomposition at every place the run can come
to. -/
theorem run_safe (hnext : Forward l.length l.room next) (hpos : 0 < l.room)
    (htop : l.length + l.room < l.top)
    (hbody : ∀ c ∈ positions l.length l.room next fuel cursor,
      (∀ b ∈ positions l.length l.room next fuel cursor, b < c → l.Passes b) →
      ∀ s, ∃ flow, l.body c s = .ok flow ∧ flow.Follows l.room next c)
    (hcursor : cursor ≤ l.length) (hfuel : l.length < cursor + fuel) :
    Safe l.room (positions l.length l.room next fuel cursor) (l.run fuel cursor s) := by
  induction fuel generalizing cursor s with
  | zero => omega
  | succ fuel ih =>
    by_cases hroom : cursor + l.room ≤ l.length
    swap
    · rw [run_of_full (by omega) (not_le.mp hroom)]
      exact safe_still _
    have hmem : cursor ∈ positions l.length l.room next (fuel + 1) cursor := by
      rw [positions, if_pos hroom]
      exact List.mem_cons_self
    have hhead : [cursor] <+: positions l.length l.room next (fuel + 1) cursor := by
      rw [positions, if_pos hroom]
      exact (List.cons_prefix_cons).mpr ⟨rfl, List.nil_prefix⟩
    obtain ⟨flow, hflow, hfollows⟩ := hbody cursor hmem
      (fun b hb hlt => absurd (le_of_mem_positions hnext hb) (not_le.mpr hlt)) s
    rw [run_of_room (by omega) hroom, hflow]
    cases flow with
    | stop result => exact ⟨⟨result, rfl⟩, hhead, fun _ h => absurd h List.not_mem_nil⟩
    | leave stop s' =>
      refine ⟨⟨_, rfl⟩, hhead, fun move hmove => ?_⟩
      rw [List.mem_singleton.mp hmove]
      exact hfollows
    | next stop s' =>
      have hstop : next cursor = some stop := hfollows
      obtain ⟨hmove, hle⟩ := hnext cursor stop hstop
      rw [positions_eq_cons hroom hstop] at hbody ⊢
      have hrest : Safe l.room (positions l.length l.room next fuel stop) (l.run fuel stop s') := by
        refine ih (fun c hc hearlier => hbody c (List.mem_cons_of_mem _ hc) fun b hb hlt => ?_) hle
          (by omega)
        rcases List.mem_cons.mp hb with rfl | hb
        · exact ⟨s, stop, s', hflow⟩
        · exact hearlier b hb hlt
      refine ⟨hrest.returns, List.cons_prefix_cons.mpr ⟨rfl, hrest.visits⟩, fun move hmem => ?_⟩
      rcases List.mem_cons.mp hmem with rfl | hmem
      · exact hmove
      · exact hrest.advances move hmem

/-- **A fault is met** at a place of the decomposition, when nothing before it ends the run. -/
theorem run_error (hnext : Forward l.length l.room next) (htop : l.length + l.room < l.top) {c : ℕ}
    {fault : Fault} (hc : c ∈ positions l.length l.room next fuel cursor)
    (hpass : ∀ b stop s, next b = some stop → ∃ s', l.body b s = .ok (.next stop s'))
    (hbody : ∀ s, l.body c s = .error fault) (hcursor : cursor ≤ l.length) :
    (l.run fuel cursor s).result = .error fault := by
  induction fuel generalizing cursor s with
  | zero => exact absurd hc List.not_mem_nil
  | succ fuel ih =>
    by_cases hroom : cursor + l.room ≤ l.length
    swap
    · rw [positions_eq_nil (not_le.mp hroom)] at hc
      exact absurd hc List.not_mem_nil
    rw [run_of_room (by omega) hroom]
    rcases hstop : next cursor with _ | stop
    · rw [positions_eq_singleton hroom hstop] at hc
      rw [← List.mem_singleton.mp hc, hbody s]
    rw [positions_eq_cons hroom hstop] at hc
    rcases List.mem_cons.mp hc with rfl | hc
    · rw [hbody s]
    · obtain ⟨s', hs'⟩ := hpass cursor stop s hstop
      rw [hs']
      exact ih hc (hnext cursor stop hstop).2

end Loop

end CheckedWalk
