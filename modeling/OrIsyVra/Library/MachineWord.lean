import OrIsyVra.Library.ByteString

/-!
# Fixed-width words: packed fields and checked arithmetic

The little-endian fields of the three word sizes a packed header uses, and the checked and
saturating additions on 64-bit counters.  Every word round-trips through its field in both
directions, so a header codec needs no range hypothesis on its fields; `checkedAdd` is characterised
once, by `checkedAdd_eq_some`, in terms of the numbers the words stand for.
-/

namespace MachineWord

open ByteString

/-! ## Packed fields -/

def le16 (x : UInt16) : Bytes := toLE 2 x.toNat
def le32 (x : UInt32) : Bytes := toLE 4 x.toNat
def le64 (x : UInt64) : Bytes := toLE 8 x.toNat

def ofLe16 (bs : Bytes) : UInt16 := UInt16.ofNat (fromLE bs)
def ofLe32 (bs : Bytes) : UInt32 := UInt32.ofNat (fromLE bs)
def ofLe64 (bs : Bytes) : UInt64 := UInt64.ofNat (fromLE bs)

@[simp] theorem length_le16 (x : UInt16) : (le16 x).length = 2 := length_toLE 2 _
@[simp] theorem length_le32 (x : UInt32) : (le32 x).length = 4 := length_toLE 4 _
@[simp] theorem length_le64 (x : UInt64) : (le64 x).length = 8 := length_toLE 8 _

@[simp] theorem ofLe16_le16 (x : UInt16) : ofLe16 (le16 x) = x := by
  rw [ofLe16, le16, fromLE_toLE (lt_of_lt_of_le x.toNat_lt (by norm_num)), UInt16.ofNat_toNat]

@[simp] theorem ofLe32_le32 (x : UInt32) : ofLe32 (le32 x) = x := by
  rw [ofLe32, le32, fromLE_toLE (lt_of_lt_of_le x.toNat_lt (by norm_num)), UInt32.ofNat_toNat]

@[simp] theorem ofLe64_le64 (x : UInt64) : ofLe64 (le64 x) = x := by
  rw [ofLe64, le64, fromLE_toLE (lt_of_lt_of_le x.toNat_lt (by norm_num)), UInt64.ofNat_toNat]

theorem le16_ofLe16 {bs : Bytes} (h : bs.length = 2) : le16 (ofLe16 bs) = bs := by
  have hlt : fromLE bs < UInt16.size := by
    have := fromLE_lt bs
    rw [h] at this
    exact lt_of_lt_of_le this (by decide)
  have hle := toLE_fromLE bs
  rw [le16, ofLe16, UInt16.toNat_ofNat_of_lt' hlt]
  rwa [h] at hle

theorem le32_ofLe32 {bs : Bytes} (h : bs.length = 4) : le32 (ofLe32 bs) = bs := by
  have hlt : fromLE bs < UInt32.size := by
    have := fromLE_lt bs
    rw [h] at this
    exact lt_of_lt_of_le this (by decide)
  have hle := toLE_fromLE bs
  rw [le32, ofLe32, UInt32.toNat_ofNat_of_lt' hlt]
  rwa [h] at hle

theorem le64_ofLe64 {bs : Bytes} (h : bs.length = 8) : le64 (ofLe64 bs) = bs := by
  have hlt : fromLE bs < UInt64.size := by
    have := fromLE_lt bs
    rw [h] at this
    exact lt_of_lt_of_le this (by decide)
  have hle := toLE_fromLE bs
  rw [le64, ofLe64, UInt64.toNat_ofNat_of_lt' hlt]
  rwa [h] at hle

theorem le64_injective {x y : UInt64} (h : le64 x = le64 y) : x = y := by
  rw [← ofLe64_le64 x, h, ofLe64_le64]

/-! ## Counters -/

/-- Addition that reports overflow. -/
def checkedAdd (x y : UInt64) : Option UInt64 :=
  if x.toNat + y.toNat < 2 ^ 64 then some (x + y) else none

/-- Addition that stops at the largest word. -/
def saturatingAdd (x y : UInt64) : UInt64 := (checkedAdd x y).getD (UInt64.ofNat (2 ^ 64 - 1))

theorem checkedAdd_eq_some {x y z : UInt64} :
    checkedAdd x y = some z ↔ z.toNat = x.toNat + y.toNat := by
  have hz := z.toNat_lt
  unfold checkedAdd
  constructor
  · intro h
    split at h
    · next hlt =>
      rw [← Option.some.inj h, UInt64.toNat_add, Nat.mod_eq_of_lt hlt]
    · exact absurd h (by simp)
  · intro h
    rw [if_pos (by omega), Option.some.injEq]
    apply UInt64.toNat_inj.mp
    rw [UInt64.toNat_add, h, Nat.mod_eq_of_lt (by omega)]

theorem toNat_add_one {x : UInt64} (h : x.toNat + 1 < 2 ^ 64) : (x + 1).toNat = x.toNat + 1 := by
  rw [UInt64.toNat_add]
  exact Nat.mod_eq_of_lt h

theorem checkedAdd_of_lt {x y : UInt64} (h : x.toNat + y.toNat < 2 ^ 64) :
    checkedAdd x y = some (x + y) :=
  if_pos h

theorem checkedAdd_eq_none {x y : UInt64} :
    checkedAdd x y = none ↔ 2 ^ 64 ≤ x.toNat + y.toNat := by
  unfold checkedAdd
  split
  · simp only [reduceCtorEq, false_iff]
    omega
  · simp only [true_iff]
    omega

/-- Multiplication that reports overflow. -/
def checkedMul (x y : UInt64) : Option UInt64 :=
  if x.toNat * y.toNat < 2 ^ 64 then some (x * y) else none

theorem checkedMul_eq_some {x y z : UInt64} :
    checkedMul x y = some z ↔ z.toNat = x.toNat * y.toNat := by
  have hz := z.toNat_lt
  unfold checkedMul
  constructor
  · intro h
    split at h
    · next hlt =>
      rw [← Option.some.inj h, UInt64.toNat_mul, Nat.mod_eq_of_lt hlt]
    · exact absurd h (by simp)
  · intro h
    rw [if_pos (by omega), Option.some.injEq]
    apply UInt64.toNat_inj.mp
    rw [UInt64.toNat_mul, h, Nat.mod_eq_of_lt (by omega)]

theorem checkedMul_eq_none {x y : UInt64} :
    checkedMul x y = none ↔ 2 ^ 64 ≤ x.toNat * y.toNat := by
  unfold checkedMul
  split
  · simp only [reduceCtorEq, false_iff]
    omega
  · simp only [true_iff]
    omega

theorem toNat_saturatingAdd (x y : UInt64) :
    (saturatingAdd x y).toNat = min (x.toNat + y.toNat) (2 ^ 64 - 1) := by
  unfold saturatingAdd
  cases h : checkedAdd x y with
  | none =>
    rw [checkedAdd_eq_none] at h
    rw [Option.getD_none, UInt64.toNat_ofNat_of_lt' (by decide)]
    omega
  | some z =>
    rw [checkedAdd_eq_some] at h
    have hz := z.toNat_lt
    rw [Option.getD_some]
    omega

/-- A counter that has room is counted up. -/
theorem toNat_saturatingAdd_one {x : UInt64} (h : x.toNat + 1 < 2 ^ 64) :
    (saturatingAdd x 1).toNat = x.toNat + 1 := by
  have hone : (1 : UInt64).toNat = 1 := rfl
  rw [toNat_saturatingAdd, hone]
  exact min_eq_left (by omega)

theorem toNat_min (x y : UInt64) : (min x y).toNat = min x.toNat y.toNat := by
  change (if x ≤ y then x else y).toNat = _
  split
  · next h => exact (min_eq_left (UInt64.le_iff_toNat_le.mp h)).symm
  · next h => exact (min_eq_right (UInt64.lt_iff_toNat_lt.mp (UInt64.not_le.mp h)).le).symm

end MachineWord
