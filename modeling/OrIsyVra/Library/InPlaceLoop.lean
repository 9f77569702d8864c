import Mathlib.Data.List.Basic
import Mathlib.Tactic.Common

/-!
# Loops that rewrite their state in place, and running them backwards

A cipher round is a sequence of `for` loops, each of which overwrites one lane of a small array at
a time and may read lanes the same loop has already overwritten.  Such a loop is undone by the loop
of the inverse steps in the *reverse* order, and that is all this file says: no step has to commute
with any other, and nothing is assumed about what a step reads, only that it can be undone where it
stands.

* `foldl_reverse_cancel`, `foldl_cancel_reverse`: a loop followed by the reversed loop of the
  inverse steps, in both orders.
* `set_cancel`: an overwritten lane, overwritten back.
* `getElem_foldl_set`: a loop that rewrites every lane from its own value alone, in any order.
* `rotateRight_rotateLeft`, `rotateLeft_rotateRight`: the two word rotations.
-/

namespace InPlaceLoop

variable {σ ι : Type*}

/-- A loop, then the reversed loop of the inverse steps.  The induction is on the list of loop
indices: the last step of the backward loop undoes the first step of the forward one. -/
theorem foldl_reverse_cancel {f g : σ → ι → σ} {l : List ι}
    (h : ∀ i ∈ l, ∀ s, g (f s i) i = s) (s : σ) : l.reverse.foldl g (l.foldl f s) = s := by
  induction l generalizing s with
  | nil => rfl
  | cons i l ih =>
    have hl : ∀ j ∈ l, ∀ s, g (f s j) j = s := fun j hj => h j (List.mem_cons_of_mem _ hj)
    rw [List.foldl_cons, List.reverse_cons, List.foldl_append, ih hl, List.foldl_cons,
      List.foldl_nil]
    exact h i List.mem_cons_self s

/-- The reversed loop first, then the forward one. -/
theorem foldl_cancel_reverse {f g : σ → ι → σ} {l : List ι}
    (h : ∀ i ∈ l, ∀ s, f (g s i) i = s) (s : σ) : l.foldl f (l.reverse.foldl g s) = s := by
  have h' := foldl_reverse_cancel (f := g) (g := f) (l := l.reverse)
    (fun i hi => h i (List.mem_reverse.mp hi)) s
  rwa [List.reverse_reverse] at h'

/-- Overwriting a lane and then writing its old value back is doing nothing. -/
theorem set_cancel {α : Type*} {n : ℕ} (v : Vector α n) (i : ℕ) (hi : i < n) (x y : α)
    (hy : y = v[i]) : (v.set i x hi).set i y hi = v := by
  subst hy
  rw [Vector.set_set]
  exact Vector.set_getElem_self hi

/-- A loop that writes each index of `p` at most once, each time from the value it finds there,
rewrites every lane independently. -/
theorem getElem_foldl_set [DecidableEq ι] {α : Type*} {n : ℕ} {p : ι → Fin n}
    (hp : Function.Injective p) (f : ι → α → α) {l : List ι} (hl : l.Nodup) (v : Vector α n)
    (k : ι) :
    (l.foldl (fun v o => v.set (p o) (f o v[p o])) v)[p k] =
      if k ∈ l then f k v[p k] else v[p k] := by
  induction l generalizing v with
  | nil => simp
  | cons o l ih =>
    obtain ⟨ho, hl⟩ := List.nodup_cons.mp hl
    rw [List.foldl_cons, ih hl]
    by_cases hko : k = o
    · subst hko
      simp [ho]
    · have hne : (p o : ℕ) ≠ p k := fun h => hko (hp (Fin.ext h.symm))
      simp [hko, hne]

/-! ## Word rotations -/

theorem rotateRight_rotateLeft {w : ℕ} (x : BitVec w) (r : ℕ) :
    (x.rotateLeft r).rotateRight r = x := by
  rcases Nat.eq_zero_or_pos w with rfl | hw
  · exact Subsingleton.elim _ _
  have hr : r % w < w := Nat.mod_lt _ hw
  ext i hi
  rw [BitVec.getElem_rotateRight]
  split
  · next h =>
    rw [BitVec.getElem_rotateLeft, dif_neg (by omega)]
    congr 1
    omega
  · next h =>
    rw [BitVec.getElem_rotateLeft, dif_pos (by omega)]
    congr 1
    omega

theorem rotateLeft_rotateRight {w : ℕ} (x : BitVec w) (r : ℕ) :
    (x.rotateRight r).rotateLeft r = x := by
  rcases Nat.eq_zero_or_pos w with rfl | hw
  · exact Subsingleton.elim _ _
  have hr : r % w < w := Nat.mod_lt _ hw
  ext i hi
  rw [BitVec.getElem_rotateLeft]
  split
  · next h =>
    rw [BitVec.getElem_rotateRight, dif_neg (by omega)]
    congr 1
    omega
  · next h =>
    rw [BitVec.getElem_rotateRight, dif_pos (by omega)]
    congr 1
    omega

end InPlaceLoop
