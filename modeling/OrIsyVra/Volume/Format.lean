import OrIsyVra.Library.DurableFile
import OrIsyVra.Library.MachineWord
import OrIsyVra.Crypto

/-!
# The volume file format

The fixed-layout pieces of a volume file: the bootstrap, the state a superblock seals, and the
header in front of every block record.  Each is a structure that carries the checks its decoder
makes, so a `Bootstrap` or a `RecordHeader` that exists is one the decoder would return; the two
places where the source keeps a field that its own checks determine (the version, the ciphertext
length) are fields with a proof.

`decode_encode` is proved for all three.  The layouts are written as the list of their fields, and
every field is read back with `ByteString.slice_flatten`.
-/

namespace OrIsyVra.Volume

open ByteString MachineWord DurableFile

/-! ## Constants -/

def volumeMagic : Bytes := ascii "OYVVOL1\x00"
def volumeVersion : UInt16 := 1
def bootstrapSize : ℕ := 256
def superSlotSize : ℕ := 512
def superAOffset : ℕ := bootstrapSize
def superBOffset : ℕ := superAOffset + superSlotSize
def logStart : UInt64 := 4096
def superPlaintextSize : ℕ := 64
def superMagic : Bytes := ascii "OYVSB1\x00\x00"
def recordMagic : Bytes := ascii "OYVB"
def recordHeaderSize : ℕ := 32
def minBlockSize : UInt32 := 4096
def maxBlockSize : UInt32 := 16 * 1024 * 1024

/-! ## Errors -/

inductive VolumeError where
  | io (failure : IoFailure)
  | invalidFormat (message : String)
  | invalidInput (message : String)
  | authenticationFailed
  | corrupt (message : String)
  | blockOutOfRange
  deriving DecidableEq, Repr

instance : IoError VolumeError := ⟨.io⟩

/-! ## Options -/

structure VolumeOptions where
  logicalCapacity : UInt64
  blockSize : UInt32
  deriving DecidableEq, Repr

/-- Exactly one bit is set. -/
def isPowerOfTwo (x : UInt32) : Bool := x != 0 && x &&& (x - 1) == 0

def validateOptions (options : VolumeOptions) : Except VolumeError Unit :=
  if options.logicalCapacity = 0 then
    .error (.invalidInput "logical capacity must be greater than zero")
  else if ¬(minBlockSize ≤ options.blockSize ∧ options.blockSize ≤ maxBlockSize) ∨
      ¬isPowerOfTwo options.blockSize then
    .error (.invalidInput ("block size must be a power of two between " ++
      toString minBlockSize ++ " and " ++ toString maxBlockSize))
  else .ok ()

theorem validateOptions_ok {options : VolumeOptions} (h : validateOptions options = .ok ()) :
    0 < options.logicalCapacity.toNat ∧ 4096 ≤ options.blockSize.toNat ∧
      options.blockSize.toNat ≤ 2 ^ 24 := by
  unfold validateOptions at h
  split at h
  · exact absurd h (by simp)
  · next hcap =>
    split at h
    · exact absurd h (by simp)
    · next hsize =>
      rw [not_or, not_not] at hsize
      obtain ⟨⟨hmin, hmax⟩, -⟩ := hsize
      refine ⟨?_, UInt32.le_iff_toNat_le.mp hmin, UInt32.le_iff_toNat_le.mp hmax⟩
      exact Nat.pos_of_ne_zero fun hzero => hcap (UInt64.toNat_inj.mp hzero)

/-! ## Bootstrap -/

/-- The public first bytes of a volume, valid by construction. -/
structure Bootstrap where
  version : UInt16
  logicalCapacity : UInt64
  blockSize : UInt32
  volumeId : FixedBytes 32
  salt : FixedBytes 32
  version_eq : version = volumeVersion
  valid : validateOptions ⟨logicalCapacity, blockSize⟩ = .ok ()
  deriving DecidableEq

namespace Bootstrap

/-- `volumeId` and `salt` are what the random generator filled in. -/
def new (options : VolumeOptions) (volumeId salt : FixedBytes 32) : Except VolumeError Bootstrap :=
  match h : validateOptions options with
  | .error e => .error e
  | .ok () => .ok ⟨volumeVersion, options.logicalCapacity, options.blockSize,
      volumeId, salt, rfl, h⟩

def fields (b : Bootstrap) : List Bytes :=
  [volumeMagic, le16 b.version, le32 b.blockSize, le64 b.logicalCapacity, b.volumeId.val,
    b.salt.val, le64 logStart, List.replicate 162 0]

def encode (b : Bootstrap) : Bytes := b.fields.flatten

@[simp] theorem length_encode (b : Bootstrap) : b.encode.length = bootstrapSize := by
  rw [encode, List.length_flatten]
  simp only [fields, List.map_cons, List.map_nil, length_le16, length_le32, length_le64,
    FixedBytes.length_val, List.length_replicate]
  rfl

def decode (bytes : Bytes) : Except VolumeError Bootstrap :=
  if slice bytes 0 8 ≠ volumeMagic then .error (.invalidFormat "not an OrIsyVra volume")
  else if hv : ofLe16 (slice bytes 8 2) ≠ volumeVersion then
    .error (.invalidFormat "unsupported volume version")
  else if ofLe64 (slice bytes 86 8) ≠ logStart then
    .error (.invalidFormat "unexpected volume log offset")
  else
    match h : validateOptions ⟨ofLe64 (slice bytes 14 8), ofLe32 (slice bytes 10 4)⟩ with
    | .error e => .error e
    | .ok () => .ok ⟨ofLe16 (slice bytes 8 2), ofLe64 (slice bytes 14 8), ofLe32 (slice bytes 10 4),
        .of 32 (slice bytes 22 32), .of 32 (slice bytes 54 32), not_not.mp hv, h⟩

theorem decode_encode (b : Bootstrap) : decode b.encode = .ok b := by
  have hmagic : slice b.encode 0 8 = volumeMagic := slice_flatten 0 rfl rfl rfl
  have hversion : slice b.encode 8 2 = le16 b.version :=
    slice_flatten 1 rfl (by simp [fields]; rfl) (length_le16 _)
  have hsize : slice b.encode 10 4 = le32 b.blockSize :=
    slice_flatten 2 rfl (by simp [fields]; rfl) (length_le32 _)
  have hcapacity : slice b.encode 14 8 = le64 b.logicalCapacity :=
    slice_flatten 3 rfl (by simp [fields]; rfl) (length_le64 _)
  have hid : slice b.encode 22 32 = b.volumeId.val :=
    slice_flatten 4 rfl (by simp [fields]; rfl) (by simp)
  have hsalt : slice b.encode 54 32 = b.salt.val :=
    slice_flatten 5 rfl (by simp [fields]; rfl) (by simp)
  have hlog : slice b.encode 86 8 = le64 logStart :=
    slice_flatten 6 rfl (by simp [fields]; rfl) (length_le64 _)
  have hvalid := b.valid
  unfold decode
  simp only [hmagic, hversion, hsize, hcapacity, hid, hsalt, hlog, ofLe16_le16, ofLe32_le32,
    ofLe64_le64, FixedBytes.of_val, b.version_eq, ne_eq, not_true_eq_false, if_false, dite_false]
  split
  · next e he =>
    rw [hcapacity, hsize, ofLe64_le64, ofLe32_le32, hvalid] at he
    exact absurd he (by simp)
  · rcases b with ⟨version, logicalCapacity, blockSize, volumeId, salt, hv, hb⟩
    simp only [hv]

/-- How many logical blocks there are; the last one may be partial. -/
def blockCount (b : Bootstrap) : UInt64 :=
  let block := b.blockSize.toUInt64
  b.logicalCapacity / block + if b.logicalCapacity % block ≠ 0 then 1 else 0

theorem blockSize_pos (b : Bootstrap) : 0 < b.blockSize.toNat :=
  lt_of_lt_of_le (by norm_num) (validateOptions_ok b.valid).2.1

theorem blockSize_le (b : Bootstrap) : b.blockSize.toNat ≤ 2 ^ 24 :=
  (validateOptions_ok b.valid).2.2

end Bootstrap

/-! ## Superblock state -/

structure SuperState where
  generation : UInt64
  committedEnd : UInt64
  recordCount : UInt64
  clean : Bool
  deriving DecidableEq, Repr

namespace SuperState

def fields (s : SuperState) : List Bytes :=
  [superMagic, le64 s.generation, le64 s.committedEnd, le64 s.recordCount,
    [if s.clean then 1 else 0], List.replicate 31 0]

def encode (s : SuperState) : Bytes := s.fields.flatten

@[simp] theorem length_encode (s : SuperState) : s.encode.length = superPlaintextSize := by
  rw [encode, List.length_flatten]
  simp only [fields, List.map_cons, List.map_nil, length_le64, List.length_replicate]
  rfl

def decode (bytes : Bytes) : Except VolumeError SuperState :=
  if bytes.length ≠ superPlaintextSize ∨ slice bytes 0 8 ≠ superMagic then
    .error (.corrupt "invalid superblock payload")
  else
    let generation := ofLe64 (slice bytes 8 8)
    let committedEnd := ofLe64 (slice bytes 16 8)
    let recordCount := ofLe64 (slice bytes 24 8)
    let flag : Except VolumeError Bool :=
      match slice bytes 32 1 with
      | [0] => .ok false
      | [1] => .ok true
      | _ => .error (.corrupt "invalid superblock clean flag")
    match flag with
    | .error e => .error e
    | .ok clean =>
      if committedEnd < logStart then .error (.corrupt "superblock points before the data log")
      else .ok ⟨generation, committedEnd, recordCount, clean⟩

theorem decode_encode {s : SuperState} (h : logStart ≤ s.committedEnd) :
    decode s.encode = .ok s := by
  have hmagic : slice s.encode 0 8 = superMagic := slice_flatten 0 rfl rfl rfl
  have hgeneration : slice s.encode 8 8 = le64 s.generation :=
    slice_flatten 1 rfl rfl (length_le64 _)
  have hend : slice s.encode 16 8 = le64 s.committedEnd :=
    slice_flatten 2 rfl (by simp [fields]; rfl) (length_le64 _)
  have hcount : slice s.encode 24 8 = le64 s.recordCount :=
    slice_flatten 3 rfl (by simp [fields]; rfl) (length_le64 _)
  have hclean : slice s.encode 32 1 = [if s.clean then 1 else 0] :=
    slice_flatten 4 rfl (by simp [fields]; rfl) rfl
  have hbound : ¬s.committedEnd < logStart := UInt64.not_lt.mpr h
  unfold decode
  simp only [hmagic, hgeneration, hend, hcount, hclean, length_encode, ofLe64_le64, ne_eq,
    not_true_eq_false, or_self, if_false, hbound]
  rcases s with ⟨generation, committedEnd, recordCount, clean⟩
  cases clean <;> rfl

end SuperState

/-! ## Record headers -/

/-- The header of a block record; its ciphertext is one tag longer than its plaintext. -/
structure RecordHeader where
  blockIndex : UInt64
  generation : UInt64
  plaintextLen : UInt32
  ciphertextLen : UInt32
  ciphertextLen_eq : ciphertextLen.toNat = plaintextLen.toNat + aeadTagSize
  deriving DecidableEq

namespace RecordHeader

def fields (h : RecordHeader) : List Bytes :=
  [recordMagic, le64 h.blockIndex, le64 h.generation, le32 h.plaintextLen, le32 h.ciphertextLen,
    List.replicate 4 0]

def encode (h : RecordHeader) : Bytes := h.fields.flatten

@[simp] theorem length_encode (h : RecordHeader) : h.encode.length = recordHeaderSize := by
  rw [encode, List.length_flatten]
  simp only [fields, List.map_cons, List.map_nil, length_le32, length_le64, List.length_replicate]
  rfl

def decode (bytes : Bytes) : Except VolumeError RecordHeader :=
  if slice bytes 0 4 ≠ recordMagic then .error (.corrupt "invalid block-record magic")
  else if slice bytes 28 4 ≠ List.replicate 4 0 then
    .error (.corrupt "unsupported block-record flags")
  else
    if h : (ofLe32 (slice bytes 24 4)).toNat = (ofLe32 (slice bytes 20 4)).toNat + aeadTagSize then
      .ok ⟨ofLe64 (slice bytes 4 8), ofLe64 (slice bytes 12 8), ofLe32 (slice bytes 20 4),
        ofLe32 (slice bytes 24 4), h⟩
    else .error (.corrupt "invalid encrypted block length")

theorem decode_encode (h : RecordHeader) : decode h.encode = .ok h := by
  have hmagic : slice h.encode 0 4 = recordMagic := slice_flatten 0 rfl rfl rfl
  have hblock : slice h.encode 4 8 = le64 h.blockIndex := slice_flatten 1 rfl rfl (length_le64 _)
  have hgeneration : slice h.encode 12 8 = le64 h.generation :=
    slice_flatten 2 rfl (by simp [fields]; rfl) (length_le64 _)
  have hplain : slice h.encode 20 4 = le32 h.plaintextLen :=
    slice_flatten 3 rfl (by simp [fields]; rfl) (length_le32 _)
  have hcipher : slice h.encode 24 4 = le32 h.ciphertextLen :=
    slice_flatten 4 rfl (by simp [fields]; rfl) (length_le32 _)
  have hflags : slice h.encode 28 4 = List.replicate 4 0 :=
    slice_flatten 5 rfl (by simp [fields]; rfl) rfl
  have hlen := h.ciphertextLen_eq
  unfold decode
  simp only [hmagic, hblock, hgeneration, hplain, hcipher, hflags, ofLe32_le32, ofLe64_le64, ne_eq,
    not_true_eq_false, if_false, hlen, dite_true]

/-- The bytes of the record the header announces. -/
def recordLen (h : RecordHeader) : ℕ := recordHeaderSize + h.ciphertextLen.toNat

theorem recordLen_pos (h : RecordHeader) : 0 < h.recordLen := Nat.add_pos_left (by decide) _

end RecordHeader

end OrIsyVra.Volume
