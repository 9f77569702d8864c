import OrIsyVra.Mount.Lifecycle
import OrIsyVra.Mount.Sectors
import OrIsyVra.Volume.FailedUpdates

/-!
# The partition table of a new volume

`initialize_mbr` writes a master boot record into the first sector of an empty volume: one partition
from the first mebibyte to the end of the volume.

The record gives the partition twice, as a start and a count of sectors and as two triples of
cylinder, head and sector.  The second triple is that of the sector *behind* the partition.  From
16450560 sectors on both triples are the largest one, so there the record is right
(`mbrFields_describe_iff`); below, it is wrong for every capacity.

The call fails without having touched the disk, unless a sync fails behind the commit of its batch
(`PartitionEffect`).
-/

namespace OrIsyVra.Mount

open ByteString MachineWord DurableFile FaultProgram KeyedLog BlockArray Volume

/-! ## Cylinders, heads and sectors -/

def sectorsPerTrack : UInt32 := 63
def headsPerCylinder : UInt32 := 255

def lbaToChs (lba : UInt32) : Bytes :=
  let cylinder := lba / (headsPerCylinder * sectorsPerTrack)
  let head := (lba / sectorsPerTrack) % headsPerCylinder
  let sector := lba % sectorsPerTrack + 1
  let clamped := cylinder > 1023
  let head : UInt32 := if clamped then 254 else head
  let sector : UInt32 := if clamped then 63 else sector
  let cylinder : UInt32 := if clamped then 1023 else cylinder
  let packed : UInt32 := (sector &&& (0x3f : UInt32)) ||| ((cylinder >>> 2) &&& (0xc0 : UInt32))
  [head.toUInt8, packed.toUInt8, (cylinder &&& (0xff : UInt32)).toUInt8]

/-- The address a triple stands for. -/
def chsToLba (chs : Bytes) : ℕ :=
  let head := (chs.getD 0 0).toNat
  let sector := (chs.getD 1 0).toNat % 64
  let cylinder := (chs.getD 1 0).toNat / 64 * 256 + (chs.getD 2 0).toNat
  (cylinder * 255 + head) * 63 + sector - 1

/-- The sector and the upper bits of the cylinder share a byte. -/
theorem packed_byte {sector cylinder : ℕ} (hsector : sector < 64) (hcylinder : cylinder < 1024) :
    (sector &&& 63) ||| ((cylinder >>> 2) &&& 192) = sector + 64 * (cylinder / 256) := by
  have hlow : sector &&& 63 = sector := by
    rw [show 63 = 2 ^ 6 - 1 from rfl, Nat.and_two_pow_sub_one_eq_mod, Nat.mod_eq_of_lt hsector]
  have hhigh : ∀ c < 1024, (c >>> 2) &&& 192 = 64 * (c / 256) := by decide +kernel
  have hor : ∀ s < 64, ∀ q < 4, s ||| 64 * q = s + 64 * q := by decide +kernel
  rw [hlow, hhigh cylinder hcylinder, hor sector hsector _ (by omega)]

/-- **The triple of an address** that has a cylinder. -/
theorem lbaToChs_eq {lba : UInt32} (h : lba.toNat / 16065 ≤ 1023) :
    (lbaToChs lba).map UInt8.toNat = [lba.toNat / 63 % 255,
      lba.toNat % 63 + 1 + 64 * (lba.toNat / 16065 / 256), lba.toNat / 16065 % 256] := by
  have hcylinder : (lba / (headsPerCylinder * sectorsPerTrack)).toNat = lba.toNat / 16065 := by
    rw [UInt32.toNat_div]
    rfl
  have hhead : (lba / sectorsPerTrack % headsPerCylinder).toNat = lba.toNat / 63 % 255 := by
    rw [UInt32.toNat_mod, UInt32.toNat_div]
    rfl
  have hsector : (lba % sectorsPerTrack + 1).toNat = lba.toNat % 63 + 1 := by
    have hmod : (lba % sectorsPerTrack).toNat = lba.toNat % 63 := by
      rw [UInt32.toNat_mod]
      rfl
    have hlt := Nat.mod_lt lba.toNat (show 0 < 63 by decide)
    rw [UInt32.toNat_add, hmod]
    exact Nat.mod_eq_of_lt (by
      have hone : (1 : UInt32).toNat = 1 := rfl
      omega)
  have hkept : ¬lba / (headsPerCylinder * sectorsPerTrack) > 1023 := by
    have hbound : (1023 : UInt32).toNat = 1023 := rfl
    rw [gt_iff_lt, UInt32.lt_iff_toNat_lt, hcylinder]
    omega
  have hshift : ((lba / (headsPerCylinder * sectorsPerTrack)) >>> 2).toNat =
      (lba.toNat / 16065) >>> 2 := by
    rw [UInt32.toNat_shiftRight, hcylinder]
    rfl
  have hlow := Nat.and_two_pow_sub_one_eq_mod (lba.toNat / 16065) 8
  have hpacked := packed_byte (show lba.toNat % 63 + 1 < 64 by omega)
    (show lba.toNat / 16065 < 1024 by omega)
  unfold lbaToChs
  simp only [if_neg hkept, List.map_cons, List.map_nil, UInt32.toNat_toUInt8, UInt32.toNat_or,
    UInt32.toNat_and, hhead, hsector, hshift, hcylinder]
  have h63 : UInt32.toNat 0x3f = 63 := rfl
  have h192 : UInt32.toNat 0xc0 = 192 := rfl
  have h255 : UInt32.toNat 0xff = 2 ^ 8 - 1 := rfl
  have hhead_fits : lba.toNat / 63 % 255 < 2 ^ 8 := by omega
  have hpacked_fits : lba.toNat % 63 + 1 + 64 * (lba.toNat / 16065 / 256) < 2 ^ 8 := by omega
  rw [h63, h192, h255, hpacked, hlow, Nat.mod_eq_of_lt hhead_fits, Nat.mod_eq_of_lt hpacked_fits,
    Nat.mod_mod]

/-- **Triples can be read back** where the address has a cylinder. -/
theorem chsToLba_lbaToChs {lba : UInt32} (h : lba.toNat / 16065 ≤ 1023) :
    chsToLba (lbaToChs lba) = lba.toNat := by
  have hbytes := lbaToChs_eq h
  have hget : ∀ i, ((lbaToChs lba).getD i 0).toNat = ((lbaToChs lba).map UInt8.toNat).getD i 0 := by
    intro i
    rw [List.getD_eq_getElem?_getD, List.getD_eq_getElem?_getD, List.getElem?_map]
    cases (lbaToChs lba)[i]? <;> rfl
  unfold chsToLba
  rw [hget, hget, hget, hbytes]
  simp only [List.getD_cons_zero, List.getD_cons_succ]
  have hsplit : lba.toNat / 16065 = lba.toNat / 63 / 255 := by
    rw [Nat.div_div_eq_div_mul]
  omega

/-- Behind the last cylinder the triple is the largest one. -/
theorem lbaToChs_of_gt {lba : UInt32} (h : 1023 < lba.toNat / 16065) :
    lbaToChs lba = [254, 255, 255] := by
  have hclamped : lba / (headsPerCylinder * sectorsPerTrack) > 1023 := by
    have hcylinder : (lba / (headsPerCylinder * sectorsPerTrack)).toNat = lba.toNat / 16065 := by
      rw [UInt32.toNat_div]
      rfl
    rw [gt_iff_lt, UInt32.lt_iff_toNat_lt, hcylinder]
    exact h
  unfold lbaToChs
  simp only [if_pos hclamped]
  decide

/-! ## The record -/

def startLba : UInt64 := 1024 * 1024 / sectorSize

/-- The last address the table is written for. -/
def lastLba (partitionCount : UInt64) : UInt32 :=
  (min (startLba + partitionCount) (UInt64.ofNat (2 ^ 32 - 1))).toUInt32

def mbrFields (volumeId : Bytes) (partitionCount : UInt64) : List Bytes :=
  [[0xcd, 0x18, 0xf4, 0xeb, 0xfd],
    List.replicate 435 0,
    slice volumeId 0 4,
    List.replicate 2 0,
    [0],
    lbaToChs startLba.toUInt32,
    [0x07],
    lbaToChs (lastLba partitionCount),
    le32 startLba.toUInt32,
    le32 partitionCount.toUInt32,
    List.replicate 48 0,
    [0x55, 0xaa]]

def mbrBytes (volumeId : Bytes) (partitionCount : UInt64) : Bytes :=
  (mbrFields volumeId partitionCount).flatten

/-- **The table describes a disk of `sectors` sectors**: its only partition reaches from the first
mebibyte at the earliest to the end of the disk, every sector of it has an address, and the two
triples are those of its first and last sector. -/
structure Describes (mbr : Bytes) (sectors : ℕ) : Prop where
  start : 256 ≤ (ofLe32 (slice mbr 454 4)).toNat
  ends : (ofLe32 (slice mbr 454 4)).toNat + (ofLe32 (slice mbr 458 4)).toNat = sectors
  addressed : sectors - 1 < 2 ^ 32
  first : slice mbr 447 3 = lbaToChs (ofLe32 (slice mbr 454 4))
  last : slice mbr 451 3 = lbaToChs (UInt32.ofNat (sectors - 1))
  single : slice mbr 462 48 = List.replicate 48 0
  signature : slice mbr 510 2 = [0x55, 0xaa]

@[simp] theorem length_lbaToChs (lba : UInt32) : (lbaToChs lba).length = 3 := rfl

theorem startLba_toNat : startLba.toNat = 256 := by decide

section Record

variable {volumeId : Bytes} {partitionCount : UInt64}

theorem mbrFields_lengths (hid : volumeId.length = 32) :
    (mbrFields volumeId partitionCount).map List.length =
      [5, 435, 4, 2, 1, 3, 1, 3, 4, 4, 48, 2] := by
  have hfirst : (slice volumeId 0 4).length = 4 := length_slice (by omega)
  simp only [mbrFields, List.map_cons, List.map_nil, List.length_cons, List.length_nil,
    List.length_replicate, hfirst, length_lbaToChs, length_le32]

theorem length_mbrBytes (hid : volumeId.length = 32) :
    (mbrBytes volumeId partitionCount).length = 512 := by
  rw [mbrBytes, List.length_flatten, mbrFields_lengths hid]
  rfl

/-- The fields of the entry. -/
theorem mbrBytes_fields (partitionCount : UInt64) (hid : volumeId.length = 32) :
    let mbr := mbrBytes volumeId partitionCount
    slice mbr 447 3 = lbaToChs startLba.toUInt32 ∧
    slice mbr 451 3 = lbaToChs (lastLba partitionCount) ∧
      slice mbr 454 4 = le32 startLba.toUInt32 ∧ slice mbr 458 4 = le32 partitionCount.toUInt32 ∧
      slice mbr 462 48 = List.replicate 48 0 ∧ slice mbr 510 2 = [0x55, 0xaa] := by
  have hoff : ∀ i, (((mbrFields volumeId partitionCount).take i).map List.length).sum =
      ([5, 435, 4, 2, 1, 3, 1, 3, 4, 4, 48, 2].take i).sum := by
    intro i
    rw [List.map_take, mbrFields_lengths hid]
  refine ⟨?_, ?_, ?_, ?_, ?_, ?_⟩
  · exact slice_flatten 5 rfl (hoff 5) rfl
  · exact slice_flatten 7 rfl (hoff 7) rfl
  · exact slice_flatten 8 rfl (hoff 8) (length_le32 _)
  · exact slice_flatten 9 rfl (hoff 9) (length_le32 _)
  · exact slice_flatten 10 rfl (hoff 10) List.length_replicate
  · exact slice_flatten 11 rfl (hoff 11) rfl

/-- The address behind the partition, if a word can hold it. -/
theorem lastLba_eq (hcount : partitionCount.toNat < 2 ^ 32) :
    lastLba partitionCount = UInt32.ofNat (min (256 + partitionCount.toNat) (2 ^ 32 - 1)) := by
  have hmax : (UInt64.ofNat (2 ^ 32 - 1)).toNat = 2 ^ 32 - 1 := by decide
  have hsize : UInt32.size = 2 ^ 32 := rfl
  have hsum : (startLba + partitionCount).toNat = 256 + partitionCount.toNat := by
    rw [UInt64.toNat_add, startLba_toNat, Nat.mod_eq_of_lt (by omega)]
  apply UInt32.toNat_inj.mp
  rw [lastLba, UInt64.toNat_toUInt32, toNat_min, hsum, hmax, Nat.mod_eq_of_lt (by omega),
    UInt32.toNat_ofNat_of_lt' (by omega)]

/-- **When the record is right.**  The triple of the last sector and that of the sector behind it
agree exactly when both are the largest one. -/
theorem mbrBytes_describe_iff (hid : volumeId.length = 32) (hcount : partitionCount.toNat < 2 ^ 32)
    (hsmall : 3840 ≤ partitionCount.toNat) :
    Describes (mbrBytes volumeId partitionCount) (256 + partitionCount.toNat) ↔
      16450560 ≤ 256 + partitionCount.toNat ∧ 256 + partitionCount.toNat ≤ 2 ^ 32 := by
  obtain ⟨hstart, hend, hstartLba, hcountField, hzero, hsignature⟩ :=
    mbrBytes_fields partitionCount hid
  have hstartWord : startLba.toUInt32.toNat = 256 := by decide
  have hcountWord : partitionCount.toUInt32.toNat = partitionCount.toNat := by
    rw [UInt64.toNat_toUInt32, Nat.mod_eq_of_lt hcount]
  have hsize : UInt32.size = 2 ^ 32 := rfl
  have hlast : (lastLba partitionCount).toNat = min (256 + partitionCount.toNat) (2 ^ 32 - 1) := by
    rw [lastLba_eq hcount, UInt32.toNat_ofNat_of_lt' (by omega)]
  constructor
  · intro h
    have hbound := h.addressed
    have hsame := h.last
    rw [hend] at hsame
    refine ⟨?_, by omega⟩
    by_contra hfew
    -- both addresses have a cylinder, so their triples differ
    have hword : (UInt32.ofNat (256 + partitionCount.toNat - 1)).toNat =
        256 + partitionCount.toNat - 1 := UInt32.toNat_ofNat_of_lt' (by omega)
    have hread := congrArg chsToLba hsame
    rw [chsToLba_lbaToChs, chsToLba_lbaToChs, hlast, hword] at hread
    · omega
    · omega
    · rw [hlast]
      omega
  · rintro ⟨hmany, hbound⟩
    have hword : (UInt32.ofNat (256 + partitionCount.toNat - 1)).toNat =
        256 + partitionCount.toNat - 1 := UInt32.toNat_ofNat_of_lt' (by omega)
    refine ⟨?_, ?_, by omega, ?_, ?_, hzero, hsignature⟩
    · rw [hstartLba, ofLe32_le32, hstartWord]
    · rw [hstartLba, hcountField, ofLe32_le32, ofLe32_le32, hstartWord, hcountWord]
    · rw [hstart, hstartLba, ofLe32_le32]
    · have hlargest : lbaToChs (lastLba partitionCount) = [254, 255, 255] :=
        lbaToChs_of_gt (by rw [hlast]; omega)
      rw [hend, hlargest]
      by_cases hcylinder : 1023 < (256 + partitionCount.toNat - 1) / 16065
      · rw [lbaToChs_of_gt (by rw [hword]; exact hcylinder)]
      · -- the very last sector that has a cylinder
        have hvalue : 256 + partitionCount.toNat - 1 = 16450559 := by omega
        rw [hvalue]
        decide

end Record

/-! ## The call -/

/-- What the call answers when it fails: a text of its own or the text of a volume error. -/
inductive MbrError where
  | text (message : String)
  | volume (error : VolumeError)
  deriving DecidableEq, Repr

/-- The checks on the capacity before anything is read. -/
def checkCapacity (info : VolumeInfo) : Except MbrError Unit :=
  if info.logicalCapacity < 16 * 1024 * 1024 then
    .error (.text "volume is too small for the Windows partition layout")
  else if info.logicalCapacity % sectorSize ≠ 0 then
    .error (.text ("logical capacity must be divisible by " ++ toString sectorSize))
  else .ok ()

def countSectors (info : VolumeInfo) : Except MbrError UInt64 :=
  let blockCount := info.logicalCapacity / sectorSize
  if startLba ≤ blockCount then
    let partitionCount := blockCount - startLba
    if partitionCount > UInt64.ofNat (2 ^ 32 - 1) then
      .error (.text "MBR layout supports at most 2^32 logical sectors")
    else .ok partitionCount
  else .error (.text "volume has no space for a partition")

/-- The record for a disk that begins with `existing`. -/
def mbrFor (info : VolumeInfo) (existing : Bytes) : Except MbrError Bytes :=
  if existing.any (· ≠ 0) then
    .error (.text "sector 0 is not empty; refusing to overwrite an existing partition table")
  else do
    let partitionCount ← countSectors info
    .ok (mbrBytes info.volumeId.val partitionCount)

section Crypto

variable [Crypto]

/-- The call up to its write. -/
def mbrSector : Prog Session MbrError Bytes := do
  let s ← Prog.get
  let info := info s.volume
  Prog.ofExcept (checkCapacity info)
  let existing ← Prog.mapError .volume (readBytes 0 (List.replicate 512 0))
  Prog.ofExcept (mbrFor info existing)

def initializeMbr : Prog Session MbrError Unit := do
  let mbr ← mbrSector
  Prog.mapError .volume (writeBytes 0 mbr)
  Prog.mapError .volume sync

/-! ## Ranges of the first block -/

variable {master : Bytes} {b : Bootstrap} {m : BlockMap} {s s' : Session} {es : List Entry}

/-- The first block with its first bytes replaced. -/
def patchFirst (b : Bootstrap) (found : Option Bytes) (input : Bytes) : Bytes :=
  let len := blockLen b.logicalCapacity.toNat b.blockSize.toNat 0
  overwrite (resize (found.getD (List.replicate len 0)) len) 0 input

/-- The loop stops when the buffer is full. -/
theorem readLoop_done {info : VolumeInfo} {offset : UInt64} {output : Bytes} {fuel done : ℕ}
    (h : output.length ≤ done) : readLoop info offset fuel output done = pure output := by
  cases fuel with
  | zero => rfl
  | succ fuel => rw [readLoop, if_neg (not_lt.mpr h)]

/-- The loop stops when the input is used up. -/
theorem writeLoop_done {info : VolumeInfo} {offset : UInt64} {input : Bytes} {fuel done : ℕ}
    {updates : List (UInt64 × Bytes)} (h : input.length ≤ done) :
    writeLoop info offset input fuel done updates = pure updates := by
  cases fuel with
  | zero => rfl
  | succ fuel => rw [writeLoop, if_neg (not_lt.mpr h)]

omit [Crypto] in
/-- What is copied from the first block is the beginning of the flat disk. -/
theorem copyBlock_first {n : ℕ} (hblock : n ≤ b.blockSize.toNat)
    (hcap : n ≤ b.logicalCapacity.toNat) :
    copyBlock (List.replicate n 0) 0 (m 0) 0 n = (flat b m).take n := by
  have hbuffer : (List.replicate n (0 : UInt8)).length = n := List.length_replicate
  have hfits : 0 + n ≤ (List.replicate n (0 : UInt8)).length := by omega
  obtain ⟨hlen, hbytes⟩ := copyBlock_spec (m 0) 0 hfits fun j _ hj => by
    rw [List.getElem?_replicate, if_pos (by omega)]
  ext j : 1
  by_cases hj : j < n
  · have hdiv : j / b.blockSize.toNat = 0 := Nat.div_eq_of_lt (by omega)
    rw [hbytes j (by omega), if_pos (by omega), List.getElem?_take_of_lt hj, flat,
      getElem?_contents (by omega), byteAt, hdiv, byNumber_of_lt (by decide),
      Nat.mod_eq_of_lt (by omega), Nat.zero_add, Nat.sub_zero]
    rfl
  · rw [List.getElem?_eq_none (by omega), List.getElem?_eq_none]
    rw [List.length_take]
    omega

/-- A range in the first block is read in one pass. -/
theorem readBytes_first (output : Bytes) (hpos : 0 < output.length)
    (hblock : output.length ≤ s.volume.bootstrap.blockSize.toNat)
    (hcap : output.length ≤ s.volume.bootstrap.logicalCapacity.toNat) :
    readBytes 0 output s = ((readBlock 0 s).1.map fun found =>
      copyBlock (List.replicate output.length 0) 0 found 0 output.length, (readBlock 0 s).2) := by
  have hget : (Prog.get : Prog Session VolumeError Session) s = (.ok s, s) := rfl
  have hrange : checkRange (info s.volume) 0 output.length = .ok () := checkRange_eq_ok.mpr (by
    have hzero : (0 : UInt64).toNat = 0 := rfl
    have hcapacity : (info s.volume).logicalCapacity = s.volume.bootstrap.logicalCapacity := rfl
    rw [hzero, hcapacity]
    omega)
  obtain ⟨n, hn⟩ : ∃ n, output.length = n + 1 := ⟨output.length - 1, by omega⟩
  have hin : (0 : UInt64).toNat + 0 < s.volume.bootstrap.logicalCapacity.toNat := hpos.trans_le hcap
  obtain ⟨hindex, hoffset, -, -⟩ := toNat_words hin
  have hsize : (info s.volume).blockSize.toNat = s.volume.bootstrap.blockSize.toNat := rfl
  have hzero : (0 : UInt64).toNat + 0 = 0 := rfl
  rw [hzero, Nat.zero_div] at hindex
  rw [hzero, Nat.zero_mod] at hoffset
  rw [readBytes, bind_ok hget, hrange, ← run_map]
  show readLoop (info s.volume) 0 output.length (List.replicate output.length 0) 0 s = _
  rw [hn, readLoop, List.length_replicate, if_pos (Nat.succ_pos n), hindex, hoffset, hsize,
    Nat.sub_zero, Nat.sub_zero, Nat.min_eq_left (by omega), Nat.zero_add]
  have hrest : ∀ found, readLoop (info s.volume) 0 n
      (copyBlock (List.replicate (n + 1) 0) 0 found 0 (n + 1)) (n + 1) =
      pure (copyBlock (List.replicate (n + 1) 0) 0 found 0 (n + 1)) := by
    intro found
    refine readLoop_done ?_
    have hfits : 0 + (n + 1) ≤ (List.replicate (n + 1) (0 : UInt8)).length := by
      rw [List.length_replicate, Nat.zero_add]
    obtain ⟨hlen, -⟩ := copyBlock_spec found 0 hfits fun j _ hj => by
      rw [List.length_replicate] at hj
      rw [List.getElem?_replicate, if_pos hj]
    rw [hlen, List.length_replicate]
  simp only [hrest]
  rfl

/-- A range in the first block is written as one update, of that block. -/
theorem writeBytes_first (input : Bytes) (hpos : 0 < input.length)
    (hblock : input.length ≤ s.volume.bootstrap.blockSize.toNat)
    (hcap : input.length ≤ s.volume.bootstrap.logicalCapacity.toNat) :
    writeBytes 0 input s = (do
      let found ← readBlock 0
      let _ ← writeBlocks [(0, patchFirst s.volume.bootstrap found input)]
      pure ()) s := by
  have hget : (Prog.get : Prog Session VolumeError Session) s = (.ok s, s) := rfl
  have hrange : checkRange (info s.volume) 0 input.length = .ok () := checkRange_eq_ok.mpr (by
    have hzero : (0 : UInt64).toNat = 0 := rfl
    have hcapacity : (info s.volume).logicalCapacity = s.volume.bootstrap.logicalCapacity := rfl
    rw [hzero, hcapacity]
    omega)
  obtain ⟨n, hn⟩ : ∃ n, input.length = n + 1 := ⟨input.length - 1, by omega⟩
  have hin : (0 : UInt64).toNat + 0 < s.volume.bootstrap.logicalCapacity.toNat := hpos.trans_le hcap
  obtain ⟨hindex, -, hoffset, hlen⟩ := toNat_words hin
  have hzero : (0 : UInt64).toNat + 0 = 0 := rfl
  rw [hzero, Nat.zero_div] at hindex
  rw [hzero, Nat.zero_mod] at hoffset
  rw [hzero, Nat.zero_div] at hlen
  have hempty : ¬input.isEmpty = true := by
    rw [List.isEmpty_iff, ← List.length_eq_zero_iff]
    omega
  have htake : min (input.length - 0)
      (blockLen s.volume.bootstrap.logicalCapacity.toNat s.volume.bootstrap.blockSize.toNat 0 - 0) =
      n + 1 := by
    rw [blockLen]
    omega
  have hall : slice input 0 (n + 1) = input := slice_zero_of_length hn
  rw [writeBytes, bind_ok hget, hrange]
  show (if input.isEmpty then pure () else _ : Prog Session VolumeError Unit) s = _
  rw [if_neg hempty, hn, writeLoop, if_pos hpos]
  dsimp only
  rw [hoffset, hlen, hindex, htake, Nat.zero_add]
  simp only [writeLoop_done hn.le, List.nil_append, hall, bind_assoc, pure_bind]
  rfl

omit [Crypto] in
/-- The update writes the range of the flat disk. -/
theorem patchFirst_spec (m : BlockMap) {input : Bytes} (hpos : 0 < input.length)
    (hblock : input.length ≤ b.blockSize.toNat) (hcap : input.length ≤ b.logicalCapacity.toNat) :
    BatchValid b [(0, patchFirst b (m 0) input)] ∧
      flat b (assign m [(0, patchFirst b (m 0) input)]) = overwrite (flat b m) 0 input := by
  have hzero : (0 : UInt64).toNat = 0 := rfl
  have htake : min (input.length - 0)
      (blockLen b.logicalCapacity.toNat b.blockSize.toNat 0 - 0 % b.blockSize.toNat) =
        input.length := by
    rw [blockLen, Nat.zero_mod]
    omega
  have hnil : Staged b m 0 input 0 [] := Staged.nil input
  obtain ⟨-, hstaged⟩ := hnil.next hpos (by omega) hzero (Nat.zero_div _) rfl htake
  have hall : slice input 0 input.length = input := slice_zero_of_length rfl
  rw [Nat.zero_mod, hall, Nat.zero_add, List.nil_append] at hstaged
  refine ⟨hstaged.valid, contents_eq_overwrite (by omega) hstaged.bytes⟩

/-! ## What the call can do -/

/-- The session is an open volume, and `disk` is what it serves. -/
def Shows (master : Bytes) (s : Session) (disk : Bytes) : Prop :=
  ∃ es, Sees master s es ∧ disk = flat s.volume.bootstrap (served es)

/-- A volume has one log, so it serves one disk. -/
theorem Shows.unique {disk disk' : Bytes} (h : Shows master s disk) (h' : Shows master s disk') :
    disk = disk' := by
  obtain ⟨es, hs, rfl⟩ := h
  obtain ⟨es', hs', rfl⟩ := h'
  obtain ⟨rfl, -⟩ := Scans.unique hs.log hs'.log rfl
  rfl

/-- What is left as it was by a call that writes nothing. -/
structure Kept (s s' : Session) : Prop where
  volume : s'.volume = s.volume
  disk : s'.file.disk = s.file.disk
  faults : s'.file.faults ⊆ s.file.faults

omit [Crypto] in
theorem Kept.trans {s'' : Session} (h : Kept s s') (h' : Kept s' s'') : Kept s s'' :=
  ⟨h'.volume.trans h.volume, h'.disk.trans h.disk, List.Subset.trans h'.faults h.faults⟩

theorem Kept.sees (h : Kept s s') (hs : Sees master s es) : Sees master s' es :=
  hs.same h.volume (congrArg Disk.view h.disk)

/-- A read keeps what there is, and what it returns is what the log stores. -/
theorem readBlock_kept (hs : Sees master s es) (hd : ¬s.file.MayDamage) (k : UInt64) :
    Kept s (readBlock k s).2 ∧ ∀ found, (readBlock k s).1 = .ok found → found = served es k := by
  have heffect := readBlock_effect k hd hs.log
  refine ⟨⟨heffect.volume, heffect.file.disk, heffect.file.faults⟩, fun found hfound => ?_⟩
  rcases heffect.answer with hanswer | ⟨⟨e, he⟩, -⟩ | ⟨hcrash, -⟩
  · rw [hfound] at hanswer
    unfold readAnswer at hanswer
    split at hanswer
    swap
    · exact absurd hanswer nofun
    cases hlookup : s.volume.index.lookup k with
    | none =>
      rw [hlookup] at hanswer
      rw [hs.indexes.served_eq_none hlookup]
      exact Outcome.ok.inj hanswer
    | some record =>
      rw [hlookup] at hanswer
      dsimp only at hanswer
      split at hanswer
      · exact Outcome.ok.inj hanswer
      · exact absurd hanswer nofun
  · exact absurd (hfound.symm.trans he) nofun
  · exact absurd (hfound.symm.trans hcrash) nofun

omit [Crypto] in
theorem checkCapacity_ok {info : VolumeInfo} (h : checkCapacity info = .ok ()) :
    2 ^ 24 ≤ info.logicalCapacity.toNat := by
  unfold checkCapacity at h
  split at h
  · exact absurd h (by simp)
  next hlarge =>
  have hbound : (16 * 1024 * 1024 : UInt64).toNat = 2 ^ 24 := by decide
  rwa [UInt64.lt_iff_toNat_lt, hbound, not_lt] at hlarge

omit [Crypto] in
theorem countSectors_ok {info : VolumeInfo} {partitionCount : UInt64}
    (h : countSectors info = .ok partitionCount) :
    256 + partitionCount.toNat = info.logicalCapacity.toNat / 4096 ∧
    partitionCount.toNat < 2 ^ 32 := by
  unfold countSectors at h
  dsimp only at h
  split at h
  swap
  · exact absurd h (by simp)
  next hroom =>
  split at h
  · exact absurd h (by simp)
  next hfew =>
  obtain rfl := Except.ok.inj h
  have hcount : (info.logicalCapacity / sectorSize).toNat = info.logicalCapacity.toNat / 4096 := by
    rw [UInt64.toNat_div]
    rfl
  have hmax : (UInt64.ofNat (2 ^ 32 - 1)).toNat = 2 ^ 32 - 1 := by decide
  rw [gt_iff_lt, UInt64.lt_iff_toNat_lt, hmax, UInt64.toNat_sub_of_le _ _ hroom, hcount,
    startLba_toNat] at hfew
  rw [UInt64.le_iff_toNat_le, hcount, startLba_toNat] at hroom
  rw [UInt64.toNat_sub_of_le _ _ (by rwa [UInt64.le_iff_toNat_le, hcount, startLba_toNat]), hcount,
    startLba_toNat]
  omega

omit [Crypto] in
theorem mbrFor_ok {info : VolumeInfo} {existing mbr : Bytes} (h : mbrFor info existing = .ok mbr) :
    existing = List.replicate existing.length 0 ∧ ∃ partitionCount,
      countSectors info = .ok partitionCount ∧ mbr = mbrBytes info.volumeId.val partitionCount := by
  unfold mbrFor at h
  split at h
  · exact absurd h (by simp)
  next hzero =>
  obtain ⟨partitionCount, hcount, hmbr⟩ := except_bind_eq_ok.mp h
  refine ⟨List.eq_replicate_iff.mpr ⟨rfl, fun x hx => ?_⟩, partitionCount, hcount,
    (Except.ok.inj hmbr).symm⟩
  by_contra hne
  exact hzero (List.any_eq_true.mpr ⟨x, hx, by simpa using hne⟩)

/-- The disk has no table yet, and `mbr` is the one it gets. -/
structure Prepared (v : Volume) (disk mbr : Bytes) : Prop where
  capacity : 2 ^ 24 ≤ v.bootstrap.logicalCapacity.toNat
  empty : disk.take 512 = List.replicate 512 0
  bytes : ∃ partitionCount, countSectors (info v) = .ok partitionCount ∧
    mbr = mbrBytes v.bootstrap.volumeId.val partitionCount

/-- **Up to its write** the call keeps what there is. -/
theorem mbrSector_spec (hs : Sees master s es) (hd : ¬s.file.MayDamage) :
    Kept s (mbrSector s).2 ∧ ∀ mbr, (mbrSector s).1 = .ok mbr →
      Prepared s.volume (flat s.volume.bootstrap (served es)) mbr := by
  have hget : (Prog.get : Prog Session MbrError Session) s = (.ok s, s) := rfl
  have herror : ∀ {e : MbrError} {mbr : Bytes}, Outcome.error e ≠ .ok mbr :=
    fun h => absurd h (by simp)
  have hmin : 4096 ≤ s.volume.bootstrap.blockSize.toNat :=
    (validateOptions_ok s.volume.bootstrap.valid).2.1
  rcases hcheck : checkCapacity (info s.volume) with e | ⟨⟩
  · have hrun : mbrSector s = (.error e, s) := by
      rw [mbrSector, bind_ok hget, hcheck]
      rfl
    rw [hrun]
    exact ⟨⟨rfl, rfl, List.Subset.refl _⟩, fun _ hok => absurd hok herror⟩
  have hcap : 2 ^ 24 ≤ s.volume.bootstrap.logicalCapacity.toNat := checkCapacity_ok hcheck
  have hbuffer : (List.replicate 512 (0 : UInt8)).length = 512 := List.length_replicate
  obtain ⟨hkept, hfound⟩ := readBlock_kept hs hd 0
  have hread := readBytes_first (s := s) (List.replicate 512 0) (by omega) (by omega) (by omega)
  have hrun : mbrSector s =
    (Prog.mapError .volume (readBytes 0 (List.replicate 512 0)) >>= fun existing =>
      Prog.ofExcept (mbrFor (info s.volume) existing)) s := by
    rw [mbrSector, bind_ok hget, hcheck]
    exact bind_ok (rfl : (Prog.ofExcept (.ok ()) : Prog Session MbrError Unit) s = (.ok (), s))
  rcases hblock : readBlock 0 s with ⟨found | e | _, s₁⟩
  · rw [hblock] at hkept hfound hread
    rw [hbuffer, hfound found rfl] at hread
    simp only [Outcome.map] at hread
    rw [copyBlock_first (b := s.volume.bootstrap) (m := served es) (by omega) (by omega)] at hread
    rw [hrun, bind_ok (mapError_ok hread)]
    generalize hexisting : (flat s.volume.bootstrap (served es)).take 512 = existing
    have hlength : existing.length = 512 := by
      rw [← hexisting, List.length_take, flat, length_contents]
      omega
    rcases hmbr : mbrFor (info s.volume) existing with e | mbr
    · exact ⟨hkept, fun _ hok => absurd hok herror⟩
    refine ⟨hkept, fun mbr' hmbr' => ?_⟩
    obtain rfl := Outcome.ok.inj hmbr'
    obtain ⟨hzero, hbytes⟩ := mbrFor_ok hmbr
    exact ⟨hcap, by rw [hexisting, hzero, hlength], hbytes⟩
  · rw [hblock] at hkept hread
    rw [hrun, bind_error (mapError_error hread)]
    exact ⟨hkept, fun _ hok => absurd hok herror⟩
  · rw [hblock] at hkept hread
    rw [hrun, bind_crash (mapError_crash hread)]
    exact ⟨hkept, fun _ hok => absurd hok (by simp)⟩

/-- The batch the call hands to `write_blocks`: the first block with the record in it. -/
def mbrBatch : Prog Session MbrError (List (UInt64 × Bytes)) := do
  let mbr ← mbrSector
  let s ← Prog.get
  let found ← Prog.mapError .volume (readBlock 0)
  pure [(0, patchFirst s.volume.bootstrap found mbr)]

theorem mbrBatch_spec (hs : Sees master s es) (hd : ¬s.file.MayDamage) :
    Kept s (mbrBatch s).2 ∧ ∀ batch, (mbrBatch s).1 = .ok batch → ∃ mbr,
      Prepared s.volume (flat s.volume.bootstrap (served es)) mbr ∧
        batch = [(0, patchFirst s.volume.bootstrap (served es 0) mbr)] := by
  obtain ⟨hkept, hprepared⟩ := mbrSector_spec hs hd
  rcases hrun : mbrSector s with ⟨mbr | e | _, s₁⟩
  · rw [hrun] at hkept hprepared
    have hkept₁ : Kept s s₁ := hkept
    obtain ⟨hkept₂, hfound⟩ :=
      readBlock_kept (hkept₁.sees hs) (fun h => hd (h.mono hkept₁.faults)) 0
    have hget : (Prog.get : Prog Session MbrError Session) s₁ = (.ok s₁, s₁) := rfl
    rcases hread : readBlock 0 s₁ with ⟨found | e | _, s₂⟩
    · rw [hread] at hkept₂ hfound
      rw [mbrBatch, bind_ok hrun, bind_ok hget, bind_ok (mapError_ok hread)]
      refine ⟨hkept₁.trans hkept₂, fun batch hbatch => ⟨mbr, hprepared mbr rfl, ?_⟩⟩
      rw [← Outcome.ok.inj hbatch, hkept₁.volume, hfound found rfl]
    · rw [hread] at hkept₂
      rw [mbrBatch, bind_ok hrun, bind_ok hget, bind_error (mapError_error hread)]
      exact ⟨hkept₁.trans hkept₂, nofun⟩
    · rw [hread] at hkept₂
      rw [mbrBatch, bind_ok hrun, bind_ok hget, bind_crash (mapError_crash hread)]
      exact ⟨hkept₁.trans hkept₂, nofun⟩
  · rw [hrun] at hkept
    rw [mbrBatch, bind_error hrun]
    exact ⟨hkept, nofun⟩
  · rw [hrun] at hkept
    rw [mbrBatch, bind_crash hrun]
    exact ⟨hkept, nofun⟩

/-- The call hands its batch to `write_blocks` and syncs. -/
theorem initializeMbr_eq (hs : Sees master s es) (hd : ¬s.file.MayDamage) :
    initializeMbr s = (mbrBatch >>= fun batch =>
      Prog.mapError .volume (writeBlocks batch >>= fun _ => sync)) s := by
  obtain ⟨hkept, hprepared⟩ := mbrSector_spec hs hd
  rcases hrun : mbrSector s with ⟨mbr | e | _, s₁⟩
  · rw [hrun] at hkept hprepared
    obtain ⟨hcap, -, partitionCount, -, rfl⟩ := hprepared mbr rfl
    have hvolume : s₁.volume = s.volume := hkept.volume
    have hlength : (mbrBytes s.volume.bootstrap.volumeId.val partitionCount).length = 512 :=
      length_mbrBytes s.volume.bootstrap.volumeId.property
    have hmin : 4096 ≤ s.volume.bootstrap.blockSize.toNat :=
      (validateOptions_ok s.volume.bootstrap.valid).2.1
    have hwrite := writeBytes_first (s := s₁)
      (mbrBytes s.volume.bootstrap.volumeId.val partitionCount) (by omega)
      (by rw [hvolume]; omega) (by rw [hvolume]; omega)
    have hget : (Prog.get : Prog Session MbrError Session) s₁ = (.ok s₁, s₁) := rfl
    rw [initializeMbr, bind_ok hrun, mbrBatch, bind_assoc, bind_ok hrun, bind_assoc, bind_ok hget]
    generalize mbrBytes s.volume.bootstrap.volumeId.val partitionCount = mbr at hwrite ⊢
    rcases hread : readBlock 0 s₁ with ⟨found | e | _, s₂⟩
    · rw [bind_ok hread] at hwrite
      rw [bind_assoc, bind_ok (mapError_ok hread), pure_bind]
      rcases hblocks : writeBlocks [(0, patchFirst s₁.volume.bootstrap found mbr)] s₂ with
        ⟨gens | e | _, s₃⟩
      · rw [bind_ok hblocks] at hwrite
        rw [bind_ok (mapError_ok hwrite)]
        unfold Prog.mapError
        rw [bind_ok hblocks]
      · rw [bind_error hblocks] at hwrite
        rw [bind_error (mapError_error hwrite), mapError_error (bind_error hblocks)]
      · rw [bind_crash hblocks] at hwrite
        rw [bind_crash (mapError_crash hwrite), mapError_crash (bind_crash hblocks)]
    · rw [bind_error hread] at hwrite
      rw [bind_error (mapError_error hwrite), bind_assoc, bind_error (mapError_error hread)]
    · rw [bind_crash hread] at hwrite
      rw [bind_crash (mapError_crash hwrite), bind_assoc, bind_crash (mapError_crash hread)]
  · rw [initializeMbr, bind_error hrun, mbrBatch, bind_assoc, bind_error hrun]
  · rw [initializeMbr, bind_crash hrun, mbrBatch, bind_assoc, bind_crash hrun]

/-- The volume has moved on by the batch, and its first block can be read. -/
structure Wrote (master : Bytes) (m : BlockMap) (b : Bootstrap) (s' : Session) : Prop where
  bootstrap : s'.volume.bootstrap = b
  sees : ∃ es, Sees master s' es ∧ served es = m
  readable : ∃ record, s'.volume.index.lookup 0 = some record ∧ record.offset.toNat < maxOffset

/-- **A batch of the first block** is written when the call returns, and also when it is its last
sync that fails; otherwise an error leaves the volume as it was. -/
theorem writeBlocks_first [LawfulCrypto] {payload : Bytes} {o : Outcome VolumeError (List UInt64)}
    (hs : Sees master s es) (hvalid : BatchValid s.volume.bootstrap [(0, payload)])
    (hrun : writeBlocks [(0, payload)] s = (o, s')) :
    (∀ gens, o = .ok gens →
      Wrote master (assign (served es) [(0, payload)]) s.volume.bootstrap s') ∧
    ∀ e, o = .error e →
      (FinalSyncFails s [(0, payload)] →
        Wrote master (assign (served es) [(0, payload)]) s.volume.bootstrap s') ∧
      (¬FinalSyncFails s [(0, payload)] → s'.volume = s.volume ∧ Sees master s' es) := by
  have heffect := writeBlocks_effect s [(0, payload)]
  rw [hrun] at heffect
  obtain ⟨es', hmoves, hs'⟩ := heffect.moves hs
  have hwrote :
    ∀ {rs last next}, Appends s.volume s.volume.state.committedEnd [(0, payload)] rs last →
      s'.volume = Volume.committed s.volume rs next → Sees master s' (es ++ rs.map Appended.entry) →
      Wrote master (assign (served es) [(0, payload)]) s.volume.bootstrap s' := by
    intro rs last next happends hvolume hsees
    refine ⟨by rw [hvolume]; rfl, ⟨_, hsees, served_append happends⟩, ?_⟩
    rw [hvolume]
    cases happends with
    | @cons _ next' _ _ _ _ _ header _ _ _ hheader _ hnext hlt hrest =>
      cases hrest
      refine ⟨⟨s.volume.state.committedEnd, header.generation, header.plaintextLen,
        header.ciphertextLen⟩, ?_, by dsimp only; omega⟩
      obtain ⟨hblock, -, -⟩ := recordHeader_eq_ok hheader
      show (s.volume.index.insert header.blockIndex _).lookup 0 = _
      rw [hblock, Finmap.lookup_insert]
      rfl
  refine ⟨fun gens hok => ?_, fun e herror => ⟨fun hfails => ?_, fun hfails => ?_⟩⟩
  · subst hok
    cases heffect with
    | empty hempty => exact absurd hempty (by simp)
    | staging _ _ _ _ hno _ _ => exact absurd rfl (hno gens)
    | uncommitted _ _ _ hend =>
      rcases hend with ⟨-, e, he, -⟩ | ⟨_, -, -, hcut⟩
      · exact absurd he nofun
      · exact absurd hcut id
    | torn _ _ _ _ _ hcut _ => exact absurd hcut id
    | unsynced _ _ _ _ _ hcut => exact absurd hcut id
    | committed _ happends hnext himage hafter =>
      refine hwrote happends rfl ?_
      rw [Sees, hafter.disk, Disk.view_sync]
      exact Sees.commit hs hvalid happends hnext himage
  · subst herror
    have hmoved : s'.volume ≠ s.volume := by
      intro hsame
      refine writeBlocks_error_keeps_iff.mp (fun e' s'' hrun' => ?_) hfails
      obtain ⟨-, rfl⟩ := Prod.mk.inj (hrun.symm.trans hrun')
      exact hsame
    cases heffect with
    | rejected _ => exact absurd rfl hmoved
    | staging _ _ _ _ _ _ _ => exact absurd rfl hmoved
    | uncommitted _ _ _ _ => exact absurd rfl hmoved
    | torn _ _ _ _ _ _ _ => exact absurd rfl hmoved
    | unsynced _ happends hnext himage hafter _ =>
      refine hwrote happends rfl ?_
      rw [Sees, hafter.disk]
      exact Sees.commit hs hvalid happends hnext himage
  · have hsame := writeBlocks_error_keeps_iff.mpr hfails e s' (by rw [hrun, herror])
    obtain rfl := hmoves.log_eq hsame
    exact ⟨hsame, hs'⟩

/-! ## The table and the volume -/

/-- A sync behind the commit of a batch fails: the last one of `write_blocks` or the one that
follows. -/
def LastSyncsFail (s : Session) (batch : List (UInt64 × Bytes)) : Prop :=
  FinalSyncFails s batch ∨ ∃ gens s₁ e s₂, writeBlocks batch s = (.ok gens, s₁) ∧
    sync s₁ = (.error e, s₂)

/-- Everything succeeds up to the commit of the table, and a sync behind it fails. -/
def LateSyncFails (s : Session) : Prop :=
  ∃ batch s₁, mbrBatch s = (.ok batch, s₁) ∧ LastSyncsFail s₁ batch

namespace Wrote

theorem same {s'' : Session} (h : Wrote master m b s') (hvolume : s''.volume = s'.volume)
    (hview : s''.file.disk.view = s'.file.disk.view) : Wrote master m b s'' := by
  obtain ⟨es, hs, hm⟩ := h.sees
  refine ⟨hvolume ▸ h.bootstrap, ⟨es, hs.same hvolume hview, hm⟩, ?_⟩
  rw [hvolume]
  exact h.readable

theorem shows_flat (h : Wrote master m b s') : Shows master s' (flat b m) := by
  obtain ⟨es, hs, rfl⟩ := h.sees
  exact ⟨es, hs, by rw [h.bootstrap]⟩

theorem synced (h : Wrote master m b s') : Wrote master m b (sync s').2 := by
  have heffect := sync_effect s'
  refine h.same heffect.volume ?_
  rcases heffect.file with hfile | hfile
  · rw [hfile.disk]
  · rw [hfile.disk, Disk.view_sync]

/-- The first sector can be read back. -/
theorem readBytes (h : Wrote master m b s') (hcap : 512 ≤ b.logicalCapacity.toNat) :
    ∃ s'', Mount.readBytes 0 (List.replicate 512 0)
      (s'.script []) = (.ok ((flat b m).take 512), s'') := by
  obtain ⟨es, hs, rfl⟩ := h.sees
  obtain ⟨record, hlookup, hlimit⟩ := h.readable
  obtain rfl := h.bootstrap
  have hmin : 4096 ≤ s'.volume.bootstrap.blockSize.toNat :=
    (validateOptions_ok s'.volume.bootstrap.valid).2.1
  have hblock : (0 : UInt64) < s'.volume.bootstrap.blockCount := by
    have hfirst := block_lt_blockCount (b := s'.volume.bootstrap) (i := 0) (by omega)
    rwa [Nat.zero_div] at hfirst
  have hanswer : (readBlock 0 (s'.script [])).1 = .ok (served es 0) := by
    rw [readBlock_answers 0 hs.log, readAnswer, if_pos hblock, hlookup]
    dsimp only
    rw [if_pos hlimit]
  have hbuffer : (List.replicate 512 (0 : UInt8)).length = 512 := List.length_replicate
  have hread := readBytes_first (s := s'.script []) (List.replicate 512 0) (by omega)
    (by rw [hbuffer]; exact le_trans (by omega) hmin) (by rw [hbuffer]; exact hcap)
  rw [hanswer, hbuffer] at hread
  simp only [Outcome.map] at hread
  rw [copyBlock_first (b := s'.volume.bootstrap) (m := served es) (by omega) hcap] at hread
  exact ⟨_, hread⟩

end Wrote

/-- **From the batch on**, the disk has moved when the call returns or a sync behind the commit
fails, and has not when anything else does. -/
theorem commit_spec [LawfulCrypto] {payload : Bytes} {o : Outcome VolumeError Unit}
    (hs : Sees master s es) (hvalid : BatchValid s.volume.bootstrap [(0, payload)])
    (hrun : (writeBlocks [(0, payload)] >>= fun _ => sync) s = (o, s')) :
    (o = .ok () → Wrote master (assign (served es) [(0, payload)]) s.volume.bootstrap s') ∧
    (∀ e, o = .error e →
      (LastSyncsFail s [(0, payload)] →
        Wrote master (assign (served es) [(0, payload)]) s.volume.bootstrap s') ∧
      (¬LastSyncsFail s [(0, payload)] → s'.volume = s.volume ∧ Sees master s' es)) ∧
    ∃ es', Sees master s' es' := by
  rcases hwrite : writeBlocks [(0, payload)] s with ⟨gens | e | _, s₁⟩
  · obtain ⟨hdone, -⟩ := writeBlocks_first hs hvalid hwrite
    have hwrote := (hdone gens rfl).synced
    rw [bind_ok hwrite] at hrun
    rw [hrun] at hwrote
    obtain ⟨es', hs', -⟩ := hwrote.sees
    refine ⟨fun _ => hwrote, fun e he => ⟨fun _ => hwrote, fun hfails => ?_⟩, es', hs'⟩
    exact absurd (Or.inr ⟨gens, s₁, e, s', hwrite, by rw [hrun, he]⟩) hfails
  · obtain ⟨-, hfailed⟩ := writeBlocks_first hs hvalid hwrite
    obtain ⟨hfinal, hother⟩ := hfailed e rfl
    rw [bind_error hwrite] at hrun
    obtain ⟨rfl, rfl⟩ := Prod.mk.inj hrun
    have hlast : LastSyncsFail s [(0, payload)] ↔ FinalSyncFails s [(0, payload)] := by
      refine ⟨?_, Or.inl⟩
      rintro (hfinal' | ⟨gens, s₂, -, -, hok, -⟩)
      · exact hfinal'
      · exact absurd (congrArg Prod.fst (hwrite.symm.trans hok)) nofun
    rw [hlast]
    refine ⟨nofun, fun _ _ => ⟨hfinal, hother⟩, ?_⟩
    by_cases hfails : FinalSyncFails s [(0, payload)]
    · obtain ⟨es', hs', -⟩ := (hfinal hfails).sees
      exact ⟨es', hs'⟩
    · exact ⟨es, (hother hfails).2⟩
  · obtain ⟨es', -, hs'⟩ := (writeBlocks_effect s [(0, payload)]).moves hs
    rw [hwrite] at hs'
    rw [bind_crash hwrite] at hrun
    obtain ⟨rfl, rfl⟩ := Prod.mk.inj hrun
    exact ⟨nofun, nofun, es', hs'⟩

omit [Crypto] in
/-- What the record makes of a disk without one. -/
theorem Prepared.disk {v : Volume} {disk mbr : Bytes} (h : Prepared v disk mbr) :
    (overwrite disk 0 mbr).drop 512 = disk.drop 512 ∧ (overwrite disk 0 mbr).take 512 = mbr ∧
      overwrite disk 0 mbr ≠ disk ∧
      slice mbr 451 3 = lbaToChs
        (UInt32.ofNat (min (v.bootstrap.logicalCapacity.toNat / 4096) (2 ^ 32 - 1))) ∧
      (Describes mbr (v.bootstrap.logicalCapacity.toNat / 4096) ↔
        16450560 ≤ v.bootstrap.logicalCapacity.toNat / 4096 ∧
          v.bootstrap.logicalCapacity.toNat / 4096 ≤ 2 ^ 32) := by
  have hcap := h.capacity
  obtain ⟨partitionCount, hcount, rfl⟩ := h.bytes
  obtain ⟨hsum, hbound⟩ := countSectors_ok hcount
  have hid := v.bootstrap.volumeId.property
  have hcapacity : (info v).logicalCapacity = v.bootstrap.logicalCapacity := rfl
  rw [hcapacity] at hsum
  have hmbr : (mbrBytes v.bootstrap.volumeId.val partitionCount).length = 512 := length_mbrBytes hid
  obtain ⟨-, hend, -, -, -, hsignature⟩ := mbrBytes_fields partitionCount hid
  rw [← hsum, mbrBytes_describe_iff hid hbound (by omega)]
  rw [lastLba_eq hbound] at hend
  generalize mbrBytes v.bootstrap.volumeId.val partitionCount = mbr at hmbr hsignature hend ⊢
  have hsplit : overwrite disk 0 mbr = mbr ++ disk.drop 512 := by
    rw [overwrite, if_neg (by rw [← List.length_eq_zero_iff]; omega), hmbr, Nat.zero_add, resize,
      List.take_zero, Nat.zero_sub, List.replicate_zero, List.nil_append, List.nil_append]
  have htake : (overwrite disk 0 mbr).take 512 = mbr := by
    rw [hsplit, List.take_left' hmbr]
  refine ⟨by rw [hsplit, List.drop_left' hmbr], htake, fun hsame => ?_, hend, Iff.rfl⟩
  rw [hsame, h.empty] at htake
  rw [← htake, slice, List.drop_replicate, List.take_replicate] at hsignature
  exact absurd hsignature (by decide)

/-- **What the call does to the disk.** -/
theorem initializeMbr_spec [LawfulCrypto] {o : Outcome MbrError Unit} {disk : Bytes}
    (hs : Shows master s disk) (hd : ¬s.file.MayDamage) (hrun : initializeMbr s = (o, s')) :
    ∃ disk', Shows master s' disk' ∧
      (o = .ok () → disk'.drop 512 = disk.drop 512 ∧
        (∃ s'', readBytes 0 (List.replicate 512 0) (s'.script []) = (.ok (disk'.take 512), s'')) ∧
        slice (disk'.take 512) 451 3 = lbaToChs (UInt32.ofNat
          (min (s.volume.bootstrap.logicalCapacity.toNat / 4096) (2 ^ 32 - 1))) ∧
        (Describes (disk'.take 512) (s.volume.bootstrap.logicalCapacity.toNat / 4096) ↔
          16450560 ≤ s.volume.bootstrap.logicalCapacity.toNat / 4096 ∧
            s.volume.bootstrap.logicalCapacity.toNat / 4096 ≤ 2 ^ 32)) ∧
      ∀ e, o = .error e → (disk' = disk ↔ ¬LateSyncFails s) := by
  obtain ⟨es, hsees, rfl⟩ := hs
  obtain ⟨hkept, hprepared⟩ := mbrBatch_spec hsees hd
  rw [initializeMbr_eq hsees hd] at hrun
  rcases hbatch : mbrBatch s with ⟨batch | e | _, s₁⟩
  · rw [hbatch] at hkept hprepared
    have hkept₁ : Kept s s₁ := hkept
    obtain ⟨mbr, hmbr, rfl⟩ := hprepared batch rfl
    obtain ⟨hrest, htable, hmoved, hlast, hdescribes⟩ := hmbr.disk
    have hcap := hmbr.capacity
    have hlength : mbr.length = 512 := by
      obtain ⟨partitionCount, -, rfl⟩ := hmbr.bytes
      exact length_mbrBytes s.volume.bootstrap.volumeId.property
    have hmin : 4096 ≤ s.volume.bootstrap.blockSize.toNat :=
      (validateOptions_ok s.volume.bootstrap.valid).2.1
    obtain ⟨hvalid, hflat⟩ := patchFirst_spec (served es)
      (by omega : 0 < mbr.length) (by omega : mbr.length ≤ s.volume.bootstrap.blockSize.toNat)
      (by omega)
    generalize patchFirst s.volume.bootstrap (served es 0) mbr = payload at *
    rw [bind_ok hbatch] at hrun
    rcases hcommit : (writeBlocks [(0, payload)] >>= fun _ => sync) s₁ with ⟨u | e | _, s₂⟩
    all_goals
      obtain ⟨hdone, hfailed, es', hsees'⟩ :=
        commit_spec (hkept₁.sees hsees) (hkept₁.volume ▸ hvalid) hcommit
      rw [hkept₁.volume] at hdone hfailed
    · rw [mapError_ok hcommit] at hrun
      obtain ⟨rfl, rfl⟩ := Prod.mk.inj hrun
      have hwrote := hdone rfl
      have hshows := hwrote.shows_flat
      obtain ⟨s'', hread⟩ := hwrote.readBytes (by omega)
      rw [hflat] at hshows hread
      refine ⟨_, hshows, fun _ => ⟨hrest, ⟨s'', hread⟩, ?_⟩, nofun⟩
      rw [htable]
      exact ⟨hlast, hdescribes⟩
    · rw [mapError_error hcommit] at hrun
      obtain ⟨rfl, rfl⟩ := Prod.mk.inj hrun
      obtain ⟨hlate, hearly⟩ := hfailed e rfl
      have hiff : LateSyncFails s ↔ LastSyncsFail s₁ [(0, payload)] := by
        refine ⟨?_, fun h => ⟨_, s₁, hbatch, h⟩⟩
        rintro ⟨batch, s₂', hbatch', h⟩
        obtain ⟨hsame, rfl⟩ := Prod.mk.inj (hbatch.symm.trans hbatch')
        rwa [Outcome.ok.inj hsame]
      by_cases hfails : LastSyncsFail s₁ [(0, payload)]
      · have hshows := (hlate hfails).shows_flat
        rw [hflat] at hshows
        refine ⟨_, hshows, nofun, fun e' _ => ?_⟩
        rw [hiff]
        exact iff_of_false hmoved (not_not.mpr hfails)
      · obtain ⟨hvolume, hsees₂⟩ := hearly hfails
        refine ⟨_, ⟨es, hsees₂, rfl⟩, nofun, fun e' _ => ?_⟩
        rw [hiff, hvolume]
        exact iff_of_true rfl hfails
    · rw [mapError_crash hcommit] at hrun
      obtain ⟨rfl, rfl⟩ := Prod.mk.inj hrun
      exact ⟨_, ⟨es', hsees', rfl⟩, nofun, nofun⟩
  · rw [hbatch] at hkept
    have hkept₁ : Kept s s₁ := hkept
    rw [bind_error hbatch] at hrun
    obtain ⟨rfl, rfl⟩ := Prod.mk.inj hrun
    refine ⟨_, ⟨es, hkept₁.sees hsees, rfl⟩, nofun, fun e' _ => ?_⟩
    rw [hkept₁.volume]
    refine iff_of_true rfl ?_
    rintro ⟨batch, s₂, hbatch', -⟩
    exact absurd (congrArg Prod.fst (hbatch.symm.trans hbatch')) nofun
  · rw [hbatch] at hkept
    rw [bind_crash hbatch] at hrun
    obtain ⟨rfl, rfl⟩ := Prod.mk.inj hrun
    exact ⟨_, ⟨es, Kept.sees hkept hsees, rfl⟩, nofun, nofun⟩

/-- **The partition table and the volume**, for any host that may fail but reads what is there.

When the call returns, nothing behind the first sector has changed, the first sector can be read
back, and its table describes the volume exactly when this has at least 16450560 and at most `2 ^
32` sectors: the second triple is that of the sector behind the partition.  When it fails, the disk
is what it was exactly when it is no sync behind the commit that fails.  An address that has a
cylinder can be read back from its triple, and the others have the largest triple. -/
theorem partition_table_iff [LawfulCrypto] {o : Outcome MbrError Unit} {disk : Bytes}
    (hs : Shows master s disk) (hd : ¬s.file.MayDamage) (hrun : initializeMbr s = (o, s')) :
    (∃ disk', Shows master s' disk' ∧
      (o = .ok () → disk'.drop 512 = disk.drop 512 ∧
        (∃ s'', readBytes 0 (List.replicate 512 0) (s'.script []) = (.ok (disk'.take 512), s'')) ∧
        (Describes (disk'.take 512) (s.volume.bootstrap.logicalCapacity.toNat / 4096) ↔
          16450560 ≤ s.volume.bootstrap.logicalCapacity.toNat / 4096 ∧
            s.volume.bootstrap.logicalCapacity.toNat / 4096 ≤ 2 ^ 32)) ∧
      ∀ e, o = .error e → (disk' = disk ↔ ¬LateSyncFails s)) ∧
    ∀ lba : UInt32, (lba.toNat / 16065 ≤ 1023 → chsToLba (lbaToChs lba) = lba.toNat) ∧
      (1023 < lba.toNat / 16065 → lbaToChs lba = [254, 255, 255]) := by
  refine ⟨?_, fun lba => ⟨chsToLba_lbaToChs, lbaToChs_of_gt⟩⟩
  obtain ⟨disk', hshows, hok, herror⟩ := initializeMbr_spec hs hd hrun
  refine ⟨disk', hshows, fun h => ?_, herror⟩
  obtain ⟨hrest, hread, -, hdescribes⟩ := hok h
  exact ⟨hrest, hread, hdescribes⟩

end Crypto

/-! ## The smallest volume that gets a table -/

/-- A new volume of 4096 sectors, and the call on it. -/
def smallest [Crypto] : Option (Session × Outcome MbrError Unit × Session) :=
  (createSession [7] ⟨16777216, 4096⟩ (.of 32 [1]) (.of 32 [2]) absentFile).map fun s =>
    (s, initializeMbr s)

theorem smallest_runs :
    let _ := tableCrypto []
    ∃ s s', createSession [7] ⟨16777216, 4096⟩ (.of 32 [1]) (.of 32 [2]) absentFile = some s ∧
      ¬s.file.MayDamage ∧ s.volume.bootstrap.logicalCapacity.toNat / 4096 = 4096 ∧
      initializeMbr s = (.ok (), s') := by
  let _ := tableCrypto []
  have hexec : smallest.map (fun r => (r.2.1, r.1.volume.bootstrap.logicalCapacity.toNat / 4096,
      r.1.file.faults)) = some (.ok (), 4096, []) := by
    decide +kernel
  obtain ⟨⟨s, o, s'⟩, hsmallest, hends⟩ := Option.map_eq_some_iff.mp hexec
  obtain ⟨s₀, hcreate, hruns⟩ := Option.map_eq_some_iff.mp hsmallest
  obtain ⟨rfl, hrun⟩ := Prod.mk.inj hruns
  obtain ⟨rfl, hends⟩ := Prod.mk.inj hends
  obtain ⟨hsectors, hfaults⟩ := Prod.mk.inj hends
  refine ⟨s₀, s', hcreate, ?_, hsectors, hrun⟩
  rintro ⟨bs, hbs⟩
  have hnil : s₀.file.faults = [] := hfaults
  rw [hnil] at hbs
  exact absurd hbs List.not_mem_nil

/-- The call returns, and the second triple of the table it wrote is that of the sector 4096, which
the volume does not have. -/
theorem table_ends_behind_volume :
    let _ := tableCrypto []
    ∃ s s' s'' out, createSession [7] ⟨16777216, 4096⟩ (.of 32 [1])
      (.of 32 [2]) absentFile = some s ∧ initializeMbr s = (.ok (), s') ∧
      readBytes 0 (List.replicate 512 0) (s'.script []) = (.ok out, s'') ∧
      slice out 451 3 = lbaToChs 4096 ∧
      ¬Describes out (s.volume.bootstrap.logicalCapacity.toNat / 4096) := by
  let _ := tableCrypto []
  have _ := tableCrypto_lawful []
  obtain ⟨s, s', hcreate, hd, hsectors, hrun⟩ := smallest_runs
  obtain ⟨-, hs⟩ := hosted_of_created (createSession_eq_some.mp hcreate)
  have hzero : Shows [7] s (flat s.volume.bootstrap (served [])) := ⟨[], hs, rfl⟩
  obtain ⟨disk', -, hok, -⟩ := initializeMbr_spec hzero hd hrun
  obtain ⟨-, ⟨s'', hread⟩, hlast, -⟩ := hok rfl
  rw [hsectors] at hlast
  refine ⟨s, s', s'', _, hcreate, hrun, hread, hlast, fun hdescribes => ?_⟩
  rw [hdescribes.last, hsectors] at hlast
  exact absurd hlast (by decide)

/-- The iff at the same volume. -/
theorem partition_table_iff_smallest :
    let _ := tableCrypto []
    ∃ s s' disk', initializeMbr s = (.ok (), s') ∧ Shows [7] s' disk' ∧
      ¬Describes (disk'.take 512) (s.volume.bootstrap.logicalCapacity.toNat / 4096) := by
  let _ := tableCrypto []
  have _ := tableCrypto_lawful []
  obtain ⟨s, s', hcreate, hd, hsectors, hrun⟩ := smallest_runs
  obtain ⟨-, hs⟩ := hosted_of_created (createSession_eq_some.mp hcreate)
  have hzero : Shows [7] s (flat s.volume.bootstrap (served [])) := ⟨[], hs, rfl⟩
  obtain ⟨⟨disk', hshows, hok, -⟩, -⟩ := partition_table_iff hzero hd hrun
  obtain ⟨-, -, hdescribes⟩ := hok rfl
  refine ⟨s, s', disk', hrun, hshows, fun h => ?_⟩
  obtain ⟨hmany, -⟩ := hdescribes.mp h
  omega

end OrIsyVra.Mount
