import Mathlib.Data.List.Basic
import Mathlib.Tactic.Common
import Mathlib.Tactic.Ring

/-!
# Byte strings, as files and as packed records

Lists of bytes, read two ways.  As a *file image*: `slice` reads a range, `overwrite` is a
positioned write (a write past the end zero-fills the gap) and `resize` changes the length.  As a
*packed record*: `toLE` and `fromLE` are the little-endian codec of every fixed-width field, and a
record is the concatenation of its fields, read back one by one with `slice_flatten`.

The lemmas a proof about a file format needs are those that say which ranges an update leaves alone
(`slice_overwrite_of_disjoint`, `slice_resize`), what a write leaves behind (`slice_overwrite_self`)
and how a range splits (`slice_add`, `slice_slice`).
-/

namespace ByteString

/-- A byte string. -/
abbrev Bytes := List UInt8

/-! ## Little-endian fields -/

/-- The `w` little-endian bytes of `n`. -/
def toLE : ℕ → ℕ → Bytes
  | 0, _ => []
  | w + 1, n => UInt8.ofNat n :: toLE w (n / 256)

/-- The number whose little-endian bytes are given. -/
def fromLE : Bytes → ℕ
  | [] => 0
  | b :: bs => b.toNat + 256 * fromLE bs

@[simp] theorem length_toLE (w n : ℕ) : (toLE w n).length = w := by
  induction w generalizing n with
  | zero => rfl
  | succ w ih => rw [toLE, List.length_cons, ih]

theorem fromLE_toLE {w n : ℕ} (h : n < 256 ^ w) : fromLE (toLE w n) = n := by
  induction w generalizing n with
  | zero =>
    rw [pow_zero, Nat.lt_one_iff] at h
    rw [h]
    rfl
  | succ w ih =>
    have hdiv : n / 256 < 256 ^ w := by
      rw [Nat.div_lt_iff_lt_mul (by omega), ← pow_succ]
      exact h
    rw [toLE, fromLE, ih hdiv, UInt8.toNat_ofNat']
    omega

theorem fromLE_lt (bs : Bytes) : fromLE bs < 256 ^ bs.length := by
  induction bs with
  | nil => exact Nat.one_pos
  | cons b bs ih =>
    have hb : b.toNat < 256 := b.toNat_lt
    rw [fromLE, List.length_cons, pow_succ]
    omega

theorem toLE_fromLE (bs : Bytes) : toLE bs.length (fromLE bs) = bs := by
  induction bs with
  | nil => rfl
  | cons b bs ih =>
    have hb : b.toNat < 256 := b.toNat_lt
    have hdiv : (b.toNat + 256 * fromLE bs) / 256 = fromLE bs := by omega
    rw [List.length_cons, fromLE, toLE, hdiv, ih]
    congr 1
    apply UInt8.toNat_inj.mp
    rw [UInt8.toNat_ofNat']
    omega

/-- Equal encodings of one width are encodings of equal numbers. -/
theorem toLE_injective {w m n : ℕ} (hm : m < 256 ^ w) (hn : n < 256 ^ w)
    (h : toLE w m = toLE w n) : m = n := by
  rw [← fromLE_toLE hm, ← fromLE_toLE hn, h]

/-! ## Ranges of a file image -/

/-- The `n` bytes from offset `off`, fewer when the image ends before. -/
def slice (img : Bytes) (off n : ℕ) : Bytes := (img.drop off).take n

theorem length_slice {img : Bytes} {off n : ℕ} (h : off + n ≤ img.length) :
    (slice img off n).length = n := by
  rw [slice, List.length_take, List.length_drop]
  omega

theorem getElem?_slice (img : Bytes) (off n i : ℕ) :
    (slice img off n)[i]? = if i < n then img[off + i]? else none := by
  rw [slice, List.getElem?_take]
  split
  · rw [List.getElem?_drop]
  · rfl

/-- Two images agree on a range when they agree at every offset of it. -/
theorem slice_congr {img img' : Bytes} {off n : ℕ}
    (h : ∀ i, off ≤ i → i < off + n → img[i]? = img'[i]?) : slice img off n = slice img' off n := by
  apply List.ext_getElem?
  intro i
  rw [getElem?_slice, getElem?_slice]
  split
  · exact h _ (by omega) (by omega)
  · rfl

theorem getElem?_of_slice_eq {img img' : Bytes} {off n i : ℕ}
    (h : slice img off n = slice img' off n) (hi : off ≤ i) (hn : i < off + n) :
    img[i]? = img'[i]? := by
  have h' := congrArg (fun l => l[i - off]?) h
  simp only [getElem?_slice, if_pos (show i - off < n by omega),
    show off + (i - off) = i by omega] at h'
  exact h'

/-- A range of a range. -/
theorem slice_slice {img : Bytes} {off n a b : ℕ} (h : a + b ≤ n) :
    slice (slice img off n) a b = slice img (off + a) b := by
  apply List.ext_getElem?
  intro i
  rw [getElem?_slice, getElem?_slice, getElem?_slice]
  split
  · rw [if_pos (by omega), Nat.add_assoc]
  · rfl

theorem slice_add (img : Bytes) (off a b : ℕ) :
    slice img off (a + b) = slice img off a ++ slice img (off + a) b := by
  rw [slice, slice, slice, List.take_add, List.drop_drop]

/-- Ranges one after the other, of the given lengths. -/
def slices (img : Bytes) : ℕ → List ℕ → List Bytes
  | _, [] => []
  | off, n :: ns => slice img off n :: slices img (off + n) ns

/-- **A range is made of its parts.** -/
theorem flatten_slices (img : Bytes) (off : ℕ) (ns : List ℕ) :
    (slices img off ns).flatten = slice img off ns.sum := by
  induction ns generalizing off with
  | nil => rfl
  | cons n ns ih => rw [slices, List.flatten_cons, ih, List.sum_cons, slice_add]

theorem slice_zero_of_length {img : Bytes} {n : ℕ} (h : img.length = n) : slice img 0 n = img := by
  rw [slice, List.drop_zero, List.take_of_length_le h.le]

/-- Agreement on a range is agreement on each of its parts. -/
theorem slice_eq_of_slice_eq {img img' : Bytes} {off n a b : ℕ}
    (h : slice img off n = slice img' off n) (ha : off ≤ a) (hb : a + b ≤ off + n) :
    slice img a b = slice img' a b :=
  slice_congr fun _ hi hi' => getElem?_of_slice_eq h (by omega) (by omega)

/-! ## Updates of a file image -/

/-- The image cut or zero-extended to `n` bytes. -/
def resize (img : Bytes) (n : ℕ) : Bytes := img.take n ++ List.replicate (n - img.length) 0

@[simp] theorem length_resize (img : Bytes) (n : ℕ) : (resize img n).length = n := by
  rw [resize, List.length_append, List.length_take, List.length_replicate]
  omega

theorem resize_of_length_eq {img : Bytes} {n : ℕ} (h : img.length = n) : resize img n = img := by
  rw [resize, List.take_of_length_le (by omega), h, Nat.sub_self, List.replicate_zero,
    List.append_nil]

theorem getElem?_resize {img : Bytes} {n i : ℕ} (hi : i < n) (hi' : i < img.length) :
    (resize img n)[i]? = img[i]? := by
  rw [resize, List.getElem?_append_left (by rw [List.length_take]; omega), List.getElem?_take,
    if_pos hi]

/-- A positioned write.  Writing nothing changes nothing, not even the length; writing past the end
zero-fills the gap. -/
def overwrite (img : Bytes) (off : ℕ) (bs : Bytes) : Bytes :=
  if bs = [] then img else resize img off ++ (bs ++ img.drop (off + bs.length))

@[simp] theorem overwrite_nil (img : Bytes) (off : ℕ) : overwrite img off [] = img := if_pos rfl

theorem length_overwrite {img bs : Bytes} {off : ℕ} (h : bs ≠ []) :
    (overwrite img off bs).length = max img.length (off + bs.length) := by
  rw [overwrite, if_neg h, List.length_append, length_resize, List.length_append, List.length_drop]
  omega

theorem le_length_overwrite (img bs : Bytes) (off : ℕ) :
    img.length ≤ (overwrite img off bs).length := by
  by_cases h : bs = []
  · rw [h, overwrite_nil]
  · rw [length_overwrite h]
    exact le_max_left _ _

/-- The byte at an offset that may be outside. -/
theorem getD_resize (img : Bytes) {n i : ℕ} (hi : i < n) :
    (resize img n).getD i 0 = img.getD i 0 := by
  rw [resize, List.getD_eq_getElem?_getD, List.getD_eq_getElem?_getD]
  by_cases himg : i < img.length
  · rw [List.getElem?_append_left (by rw [List.length_take]; omega), List.getElem?_take, if_pos hi]
  · rw [List.getElem?_append_right (by rw [List.length_take]; omega), List.getElem?_replicate,
      List.getElem?_eq_none (not_lt.mp himg)]
    split <;> rfl

/-- A write leaves every offset outside its range alone. -/
theorem getElem?_overwrite_of_disjoint {img bs : Bytes} {off i : ℕ} (hi : i < img.length)
    (h : i < off ∨ off + bs.length ≤ i) : (overwrite img off bs)[i]? = img[i]? := by
  by_cases hbs : bs = []
  · rw [hbs, overwrite_nil]
  rw [overwrite, if_neg hbs]
  rcases h with h | h
  · rw [List.getElem?_append_left (by rw [length_resize]; exact h), getElem?_resize h hi]
  · rw [List.getElem?_append_right (by rw [length_resize]; omega), length_resize,
      List.getElem?_append_right (by omega), List.getElem?_drop]
    congr 1
    omega

theorem slice_overwrite_of_disjoint {img bs : Bytes} {off lo n : ℕ} (hn : lo + n ≤ img.length)
    (h : lo + n ≤ off ∨ off + bs.length ≤ lo) :
    slice (overwrite img off bs) lo n = slice img lo n :=
  slice_congr fun i hi hi' => getElem?_overwrite_of_disjoint (by omega) (by omega)

/-- A write puts its bytes in its range. -/
theorem getElem?_overwrite_self {img bs : Bytes} {off i : ℕ} (h : off ≤ i)
    (hi : i < off + bs.length) :
    (overwrite img off bs)[i]? = bs[i - off]? := by
  have hbs : bs ≠ [] := by
    rintro rfl
    rw [List.length_nil] at hi
    omega
  rw [overwrite, if_neg hbs, List.getElem?_append_right (by rw [length_resize]; exact h),
    length_resize, List.getElem?_append_left (by omega)]

/-- What a write leaves behind in its own range. -/
theorem slice_overwrite_self (img bs : Bytes) (off : ℕ) :
    slice (overwrite img off bs) off bs.length = bs := by
  by_cases hbs : bs = []
  · rw [hbs, overwrite_nil]
    exact List.take_zero
  rw [overwrite, if_neg hbs, slice, List.drop_left' (length_resize img off), List.take_left]

theorem slice_resize {img : Bytes} {lo n m : ℕ} (hn : lo + n ≤ img.length) (hm : lo + n ≤ m) :
    slice (resize img m) lo n = slice img lo n :=
  slice_congr fun i hi hi' => getElem?_resize (by omega) (by omega)

/-! ## Packed records -/

/-- The bytes of a string literal. -/
def ascii (s : String) : Bytes := s.toUTF8.data.toList

/-- Byte strings of one length. -/
abbrev FixedBytes (n : ℕ) : Type := {bs : Bytes // bs.length = n}

/-- A buffer of `n` bytes into which `bs` is copied. -/
def FixedBytes.of (n : ℕ) (bs : Bytes) : FixedBytes n := ⟨resize bs n, length_resize bs n⟩

@[simp] theorem FixedBytes.length_val {n : ℕ} (x : FixedBytes n) : x.val.length = n := x.property

theorem FixedBytes.val_of {n : ℕ} {bs : Bytes} (h : bs.length = n) :
    (FixedBytes.of n bs).val = bs :=
  resize_of_length_eq h

@[simp] theorem FixedBytes.of_val {n : ℕ} (x : FixedBytes n) : FixedBytes.of n x.val = x :=
  Subtype.ext (val_of x.property)

/-- Reading one field of a record that is the concatenation of its fields: the field starts where
the lengths of the earlier ones add up to. -/
theorem slice_flatten {fields : List Bytes} {field : Bytes} {off n : ℕ} (i : ℕ)
    (h : fields[i]? = some field) (hoff : ((fields.take i).map List.length).sum = off)
    (hn : field.length = n) : slice fields.flatten off n = field := by
  have hsplit : fields = fields.take i ++ field :: fields.drop (i + 1) := by
    obtain ⟨hi, rfl⟩ := List.getElem?_eq_some_iff.mp h
    rw [List.getElem_cons_drop, List.take_append_drop]
  have hlen : (fields.take i).flatten.length = off := by rw [List.length_flatten, hoff]
  rw [hsplit, List.flatten_append, List.flatten_cons, slice, List.drop_left' hlen,
    List.take_left' hn]

end ByteString
