import OrIsyVra.Library.ByteString

/-!
# Byte strings in blocks, and lists of byte strings in one

Two ways of reading a byte string.  `chunks` cuts it into blocks of one size, and `flatten_chunks`
puts them together again.  `frame` writes a list of byte strings one after the other, the length in
front of each; that is a prefix code, so the list can be read back (`frame_injective`), however many
strings there are and whatever is in them.
-/

namespace Blocks

open ByteString

/-! ## Blocks -/

/-- The first `n` blocks of `r` bytes. -/
def chunks (r n : ℕ) (t : Bytes) : List Bytes := (List.range n).map fun i => slice t (i * r) r

variable {r n : ℕ} {t : Bytes}

@[simp] theorem length_chunks : (chunks r n t).length = n := by
  rw [chunks, List.length_map, List.length_range]

@[simp] theorem chunks_zero : chunks r 0 t = [] := rfl

theorem chunks_succ : chunks r (n + 1) t = chunks r n t ++ [slice t (n * r) r] := by
  rw [chunks, List.range_succ, List.map_append]
  rfl

/-- What comes behind the blocks does not count. -/
theorem chunks_append (u : Bytes) (h : n * r ≤ t.length) : chunks r n (t ++ u) = chunks r n t := by
  refine List.map_congr_left fun i hi => slice_congr fun j _ hj => ?_
  have hle : (i + 1) * r ≤ n * r := Nat.mul_le_mul_right r (List.mem_range.mp hi)
  rw [Nat.succ_mul] at hle
  exact List.getElem?_append_left (by omega)

/-- **The blocks make up the string.** -/
theorem flatten_chunks (t : Bytes) : (chunks r n t).flatten = t.take (n * r) := by
  induction n with
  | zero => rw [chunks_zero, Nat.zero_mul, List.take_zero, List.flatten_nil]
  | succ n ih =>
    rw [chunks_succ, List.flatten_append, ih, List.flatten_cons, List.flatten_nil, List.append_nil,
      slice, ← List.take_add, Nat.succ_mul]

/-! ## Pieces -/

/-- The whole string in pieces of `size` bytes, the last of which may be shorter. -/
def pieces (size : ℕ) (bs : Bytes) : List Bytes :=
  if size = 0 ∨ bs = [] then [] else bs.take size :: pieces size (bs.drop size)
termination_by bs.length
decreasing_by
  rename_i h
  have hlen := List.length_pos_iff.mpr fun hbs => h (Or.inr hbs)
  rw [List.length_drop]
  omega

variable {size : ℕ} {bs : Bytes}

@[simp] theorem pieces_nil (size : ℕ) : pieces size [] = [] := by
  rw [pieces, if_pos (Or.inr rfl)]

theorem pieces_of_ne_nil (hsize : 0 < size) (hbs : bs ≠ []) :
    pieces size bs = bs.take size :: pieces size (bs.drop size) := by
  rw [pieces, if_neg]
  rintro (hzero | hnil)
  · omega
  · exact hbs hnil

/-- **The pieces make up the string.** -/
theorem flatten_pieces (hsize : 0 < size) (bs : Bytes) : (pieces size bs).flatten = bs := by
  fun_induction pieces size bs with
  | case1 bs h =>
    rcases h with hzero | rfl
    · omega
    · rfl
  | case2 bs h ih => rw [List.flatten_cons, ih, List.take_append_drop]

theorem length_le_of_mem_pieces {piece : Bytes} (h : piece ∈ pieces size bs) :
    piece.length ≤ size := by
  fun_induction pieces size bs with
  | case1 bs hstop => exact absurd h List.not_mem_nil
  | case2 bs hgo ih =>
    rcases List.mem_cons.mp h with rfl | hrest
    · exact List.length_take_le _ _
    · exact ih hrest

/-- How many pieces there are. -/
theorem length_pieces_le_iff (hsize : 0 < size) {n : ℕ} :
    (pieces size bs).length ≤ n ↔ bs.length ≤ n * size := by
  fun_induction pieces size bs generalizing n with
  | case1 bs h =>
    rcases h with hzero | rfl
    · omega
    · simp only [List.length_nil, Nat.zero_le]
  | case2 bs h ih =>
    have hpos := List.length_pos_iff.mpr fun hbs => h (Or.inr hbs)
    rw [List.length_cons]
    rcases n with _ | n
    · omega
    · rw [Nat.succ_le_succ_iff, ih, List.length_drop, Nat.succ_mul]
      omega

/-! ## Buffers -/

/-- Writing behind the used part of a buffer. -/
theorem overwrite_append_replicate {v c : Bytes} {m : ℕ} (h : c.length ≤ m) :
    overwrite (v ++ List.replicate m 0) v.length c = v ++ c ++ List.replicate (m - c.length) 0 := by
  by_cases hc : c = []
  · subst hc
    rw [overwrite_nil, List.append_nil, List.length_nil, Nat.sub_zero]
  · rw [overwrite, if_neg hc, resize, List.take_left, List.length_append, ← List.append_assoc,
      Nat.sub_eq_zero_of_le (Nat.le_add_right _ _), List.replicate_zero, List.append_nil,
      ← List.drop_drop, List.drop_left, List.drop_replicate]

/-- Changing a byte behind the used part of a buffer. -/
theorem modify_append (v z : Bytes) (i : ℕ) (f : UInt8 → UInt8) :
    (v ++ z).modify (v.length + i) f = v ++ z.modify i f := by
  induction v with
  | nil => rw [List.nil_append, List.nil_append, List.length_nil, Nat.zero_add]
  | cons x v ih =>
    rw [List.cons_append, List.length_cons, show v.length + 1 + i = v.length + i + 1 by omega,
      List.modify_succ_cons, ih, List.cons_append]

/-! ## Frames -/

/-- Byte strings one after the other, the length of each in front of it. -/
def frame (w : ℕ) (parts : List Bytes) : Bytes :=
  parts.flatMap fun part => toLE w part.length ++ part

@[simp] theorem frame_nil (w : ℕ) : frame w [] = [] := rfl

theorem frame_cons (w : ℕ) (part : Bytes) (parts : List Bytes) :
    frame w (part :: parts) = toLE w part.length ++ part ++ frame w parts := rfl

/-- No part is longer than the frame. -/
theorem length_le_of_mem {w : ℕ} {parts : List Bytes} {part : Bytes} (h : part ∈ parts) :
    part.length ≤ (frame w parts).length := by
  induction parts with
  | nil => exact absurd h List.not_mem_nil
  | cons first parts ih =>
    rw [frame_cons, List.length_append, List.length_append]
    rcases List.mem_cons.mp h with rfl | hm
    · omega
    · exact (ih hm).trans (Nat.le_add_left _ _)

/-- **Frames can be read back.** -/
theorem frame_injective {w : ℕ} (hw : 0 < w) {parts parts' : List Bytes}
    (hparts : ∀ part ∈ parts, part.length < 256 ^ w)
    (hparts' : ∀ part ∈ parts', part.length < 256 ^ w) (h : frame w parts = frame w parts') :
    parts = parts' := by
  induction parts generalizing parts' with
  | nil =>
    cases parts' with
    | nil => rfl
    | cons first rest =>
      have hlen := congrArg List.length h
      rw [frame_cons, frame_nil, List.length_append, List.length_append, length_toLE,
        List.length_nil] at hlen
      omega
  | cons first rest ih =>
    cases parts' with
    | nil =>
      have hlen := congrArg List.length h
      rw [frame_cons, frame_nil, List.length_append, List.length_append, length_toLE,
        List.length_nil] at hlen
      omega
    | cons first' rest' =>
      rw [frame_cons, frame_cons, List.append_assoc, List.append_assoc] at h
      obtain ⟨hlength, hbehind⟩ := List.append_inj h (by rw [length_toLE, length_toLE])
      have hsame : first.length = first'.length := toLE_injective
        (hparts _ List.mem_cons_self) (hparts' _ List.mem_cons_self) hlength
      obtain ⟨rfl, hrest⟩ := List.append_inj hbehind hsame
      rw [ih (fun part hp => hparts part (List.mem_cons_of_mem _ hp))
        (fun part hp => hparts' part (List.mem_cons_of_mem _ hp)) hrest]

end Blocks
