import Mathlib.Logic.Function.Basic
import OrIsyVra.Library.ByteString

/-!
# A byte array kept in blocks

A byte array of length `cap` is cut into blocks of `size` bytes, the last of which may be cut short,
and kept as a map from block numbers to payloads.  A block that is missing is zero, and so is what a
payload does not reach; what reaches behind the end of the array does not count.

`contents` is the array.  Changing one block changes its range and nothing else (`contents_update`),
and a map that differs from another one just by the bytes of a range has the contents with that
range overwritten (`contents_eq_overwrite`).
-/

namespace BlockArray

open ByteString

/-- The byte of the array at an offset. -/
def byteAt (size : ℕ) (m : ℕ → Option Bytes) (i : ℕ) : UInt8 :=
  ((m (i / size)).getD []).getD (i % size) 0

/-- The array. -/
def contents (cap size : ℕ) (m : ℕ → Option Bytes) : Bytes := (List.range cap).map (byteAt size m)

/-- The bytes of the array that a block has. -/
def blockLen (cap size k : ℕ) : ℕ := min (cap - k * size) size

variable {cap size off k i : ℕ} {m m' : ℕ → Option Bytes} {bs payload : Bytes}

@[simp] theorem length_contents : (contents cap size m).length = cap := by
  rw [contents, List.length_map, List.length_range]

theorem getElem?_contents (hi : i < cap) : (contents cap size m)[i]? = some (byteAt size m i) := by
  rw [contents, List.getElem?_map, List.getElem?_range hi]
  rfl

/-- The bytes of one block. -/
theorem byteAt_in_block {t : ℕ} (h : i % size + t < size) :
    byteAt size m (i + t) = ((m (i / size)).getD []).getD (i % size + t) 0 := by
  have hadd : i + t = (i % size + t) + size * (i / size) := by
    have hdiv := Nat.mod_add_div i size
    omega
  have hquot : (i + t) / size = i / size := by
    rw [hadd, Nat.add_mul_div_left _ _ (by omega), Nat.div_eq_of_lt h, Nat.zero_add]
  have hrest : (i + t) % size = i % size + t := by
    rw [hadd, Nat.add_mul_mod_self_left, Nat.mod_eq_of_lt h]
  rw [byteAt, hquot, hrest]

/-- Without blocks, the array is zero. -/
theorem contents_none : contents cap size (fun _ => none) = List.replicate cap 0 := by
  apply List.ext_getElem?
  intro i
  by_cases hi : i < cap
  · rw [getElem?_contents hi, List.getElem?_replicate, if_pos hi]
    rfl
  · rw [List.getElem?_eq_none (by rw [length_contents]; omega),
      List.getElem?_eq_none (by rw [List.length_replicate]; omega)]

/-- **A range is overwritten** when its bytes have changed and no others. -/
theorem contents_eq_overwrite (hfits : off + bs.length ≤ cap)
    (h : ∀ i < cap, byteAt size m' i =
      if off ≤ i ∧ i < off + bs.length then bs.getD (i - off) 0 else byteAt size m i) :
    contents cap size m' = overwrite (contents cap size m) off bs := by
  by_cases hbs : bs = []
  · subst hbs
    rw [overwrite_nil]
    refine List.map_congr_left fun i hi => ?_
    rw [h i (List.mem_range.mp hi), if_neg]
    rw [List.length_nil]
    omega
  apply List.ext_getElem?
  intro i
  by_cases hi : i < cap
  swap
  · rw [List.getElem?_eq_none (by rw [length_contents]; omega), List.getElem?_eq_none]
    rw [length_overwrite hbs, length_contents]
    omega
  rw [getElem?_contents hi, h i hi]
  by_cases hrange : off ≤ i ∧ i < off + bs.length
  · rw [if_pos hrange, getElem?_overwrite_self hrange.1 hrange.2, List.getD_eq_getElem?_getD,
      List.getElem?_eq_getElem (by omega), Option.getD_some]
  · rw [if_neg hrange,
      getElem?_overwrite_of_disjoint (by rw [length_contents]; exact hi) (by omega),
      getElem?_contents hi]

/-- The bytes of a map with one block changed. -/
theorem byteAt_update :
    byteAt size (Function.update m k (some payload)) i =
      if i / size = k then payload.getD (i % size) 0 else byteAt size m i := by
  unfold byteAt
  by_cases hk : i / size = k
  · rw [if_pos hk, hk, Function.update_self, Option.getD_some]
  · rw [if_neg hk, Function.update_of_ne hk]

/-- An offset is in a block of the array exactly when it is in its range. -/
theorem div_eq_iff_in_block (hsize : 0 < size) (hi : i < cap) :
    i / size = k ↔ k * size ≤ i ∧ i < k * size + blockLen cap size k := by
  rw [Nat.div_eq_iff hsize, blockLen]
  omega

/-- **Changing a block** overwrites its range with the payload, padded or cut to the block. -/
theorem contents_update (hsize : 0 < size) (hk : k * size < cap) :
    contents cap size (Function.update m k (some payload)) =
      overwrite (contents cap size m) (k * size) (resize payload (blockLen cap size k)) := by
  have hlen : blockLen cap size k ≤ cap - k * size := min_le_left _ _
  refine contents_eq_overwrite (by rw [length_resize]; omega) fun i hi => ?_
  rw [byteAt_update, length_resize]
  by_cases hblock : i / size = k
  · have hrange := (div_eq_iff_in_block hsize hi).mp hblock
    have hmod : i % size = i - k * size := by
      rw [← hblock, Nat.mod_eq_sub_mul_div, Nat.mul_comm]
    rw [if_pos hblock, if_pos hrange, getD_resize _ (by omega), hmod]
  · rw [if_neg hblock, if_neg fun hrange => hblock ((div_eq_iff_in_block hsize hi).mpr hrange)]

end BlockArray
