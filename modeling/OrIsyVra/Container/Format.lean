import OrIsyVra.Core.Prf
import OrIsyVra.Crypto
import OrIsyVra.Files.Keyfile

/-!
# The pieces of an encrypted file

The header, the keys derived from it, the frames in front of records and manifest, and the two
layers of encryption: the native one, whose synthetic IV is a MAC of the plaintext, and the guard
around it, in guarded mode.  A `Header` that exists is one the decoder would return.

Each piece can be taken apart again, in both directions: what was encoded is decoded, and what
decodes is the encoding of the result (`Header.decode_encode`, `Header.encode_decode`,
`openNative_iff`).
-/

namespace OrIsyVra
namespace Container

open ByteString MachineWord

/-! ## Constants -/

def fileMagic : Bytes := ascii "OYVFILE1"
def fileVersion : UInt16 := 1
def headerSize : ℕ := 80
def dataRecord : UInt8 := 1
def manifestRecord : UInt8 := 255
def minChunkSize : ℕ := 4 * 1024
def maxChunkSize : ℕ := 16 * 1024 * 1024
def maxRecords : ℕ := 2 ^ 20
def nativeTagSize : ℕ := 32
def guardTagSize : ℕ := 16
def manifestPayloadSize : ℕ := 64
def manifestInnerSize : ℕ := manifestPayloadSize + nativeTagSize

/-! ## The header -/

inductive Mode where
  | nativeResearch
  | guarded
  deriving DecidableEq, Repr

namespace Mode

def byte : Mode → UInt8
  | nativeResearch => 0
  | guarded => 1

def fromByte (value : UInt8) : Except Error Mode :=
  if value = 0 then .ok nativeResearch
  else if value = 1 then .ok guarded
  else .error (.invalidFormat "unsupported encryption mode")

theorem fromByte_byte (mode : Mode) : fromByte mode.byte = .ok mode := by
  cases mode <;> rfl

theorem byte_of_fromByte {value : UInt8} {mode : Mode} (h : fromByte value = .ok mode) :
    mode.byte = value := by
  unfold fromByte at h
  split at h
  · next hvalue =>
    obtain rfl := Except.ok.inj h
    exact hvalue.symm
  split at h
  · next hvalue =>
    obtain rfl := Except.ok.inj h
    exact hvalue.symm
  · exact absurd h (by simp)

end Mode

def validateChunkSize (chunkSize : ℕ) : Except Error Unit :=
  if minChunkSize ≤ chunkSize ∧ chunkSize ≤ maxChunkSize then .ok ()
  else .error (.invalidInput ("chunk size must be between " ++ toString minChunkSize ++ " and " ++
    toString maxChunkSize ++ " bytes"))

theorem validateChunkSize_ok {chunkSize : ℕ} (h : validateChunkSize chunkSize = .ok ()) :
    4096 ≤ chunkSize ∧ chunkSize ≤ 2 ^ 24 := by
  unfold validateChunkSize at h
  split at h
  · next hsize => exact hsize
  · exact absurd h (by simp)

/-- The public first bytes of an encrypted file, valid by construction. -/
structure Header where
  version : UInt16
  mode : Mode
  flags : UInt8
  chunkSize : UInt32
  salt : FixedBytes 32
  fileId : FixedBytes 32
  version_eq : version = fileVersion
  flags_eq : flags = 0
  valid : validateChunkSize chunkSize.toNat = .ok ()
  deriving DecidableEq

namespace Header

/-- `salt` and `fileId` are what the random generator filled in. -/
def new (mode : Mode) (chunkSize : ℕ) (salt fileId : FixedBytes 32) : Except Error Header :=
  match h : validateChunkSize chunkSize with
  | .error e => .error e
  | .ok () => .ok ⟨fileVersion, mode, 0, UInt32.ofNat chunkSize, salt, fileId, rfl, rfl, by
      have hsize := validateChunkSize_ok h
      rw [UInt32.toNat_ofNat_of_lt' (show chunkSize < 2 ^ 32 by omega), h]⟩

/-- Creation succeeds with any chunk size that is accepted, and keeps it. -/
theorem new_eq_ok (mode : Mode) {chunkSize : ℕ} (salt fileId : FixedBytes 32)
    (h : validateChunkSize chunkSize = .ok ()) :
    ∃ header, new mode chunkSize salt fileId = .ok header ∧ header.mode = mode ∧
      header.chunkSize.toNat = chunkSize ∧ header.salt = salt ∧ header.fileId = fileId := by
  have hsize := validateChunkSize_ok h
  unfold new
  split
  · next e he =>
    rw [h] at he
    exact absurd he (by simp)
  · exact ⟨_, rfl, rfl, UInt32.toNat_ofNat_of_lt' (show chunkSize < 2 ^ 32 by omega), rfl, rfl⟩

def fields (h : Header) : List Bytes :=
  [fileMagic, le16 h.version, [h.mode.byte], [h.flags], le32 h.chunkSize, h.salt.val, h.fileId.val]

def encode (h : Header) : Bytes := h.fields.flatten

@[simp] theorem length_encode (h : Header) : h.encode.length = headerSize := by
  rw [encode, List.length_flatten]
  simp only [fields, List.map_cons, List.map_nil, length_le16, length_le32, FixedBytes.length_val]
  rfl

def decode (bytes : Bytes) : Except Error Header :=
  if slice bytes 0 8 ≠ fileMagic then .error (.invalidFormat "not an OrIsyVra file")
  else if hv : ofLe16 (slice bytes 8 2) ≠ fileVersion then
    .error (.invalidFormat "unsupported file version")
  else
    match Mode.fromByte (bytes.getD 10 0) with
    | .error e => .error e
    | .ok mode =>
      if hf : bytes.getD 11 0 ≠ 0 then .error (.invalidFormat "unsupported critical file flags")
      else
        match h : validateChunkSize (ofLe32 (slice bytes 12 4)).toNat with
        | .error e => .error e
        | .ok () => .ok ⟨ofLe16 (slice bytes 8 2), mode, bytes.getD 11 0, ofLe32 (slice bytes 12 4),
            .of 32 (slice bytes 16 32), .of 32 (slice bytes 48 32), not_not.mp hv, not_not.mp hf, h⟩

theorem getD_eq_of_slice {bytes : Bytes} {i : ℕ} {b : UInt8} (h : slice bytes i 1 = [b]) :
    bytes.getD i 0 = b := by
  have hget := congrArg (fun bs : Bytes => bs[0]?) h
  simp only [getElem?_slice, if_pos (show 0 < 1 by omega), Nat.add_zero, List.getElem?_cons_zero]
    at hget
  rw [List.getD_eq_getElem?_getD, hget, Option.getD_some]

theorem decode_encode (h : Header) : decode h.encode = .ok h := by
  have hmagic : slice h.encode 0 8 = fileMagic := slice_flatten 0 rfl rfl rfl
  have hversion : slice h.encode 8 2 = le16 h.version :=
    slice_flatten 1 rfl (by simp [fields]; rfl) (length_le16 _)
  have hmode : h.encode.getD 10 0 = h.mode.byte :=
    getD_eq_of_slice (slice_flatten 2 rfl (by simp [fields]; rfl) rfl)
  have hflags : h.encode.getD 11 0 = h.flags :=
    getD_eq_of_slice (slice_flatten 3 rfl (by simp [fields]; rfl) rfl)
  have hsize : slice h.encode 12 4 = le32 h.chunkSize :=
    slice_flatten 4 rfl (by simp [fields]; rfl) (length_le32 _)
  have hsalt : slice h.encode 16 32 = h.salt.val :=
    slice_flatten 5 rfl (by simp [fields]; rfl) (by simp)
  have hid : slice h.encode 48 32 = h.fileId.val :=
    slice_flatten 6 rfl (by simp [fields]; rfl) (by simp)
  unfold decode
  simp only [hmagic, hversion, hmode, hflags, hsize, hsalt, hid, ofLe16_le16, ofLe32_le32,
    FixedBytes.of_val, h.version_eq, h.flags_eq, Mode.fromByte_byte, ne_eq, not_true_eq_false,
    if_false, dif_neg, not_false_eq_true]
  split
  · next e he =>
    rw [hsize, ofLe32_le32, h.valid] at he
    exact absurd he (by simp)
  · rcases h with ⟨version, mode, flags, chunkSize, salt, fileId, hv, hf, hvalid⟩
    simp only [hv, hf]

theorem slice_one {bytes : Bytes} {i : ℕ} (h : i < bytes.length) :
    slice bytes i 1 = [bytes.getD i 0] := by
  apply List.ext_getElem?
  intro j
  rw [getElem?_slice]
  rcases j with _ | j
  · rw [if_pos Nat.one_pos, Nat.add_zero, List.getElem?_cons_zero, List.getD_eq_getElem?_getD,
      List.getElem?_eq_getElem h, Option.getD_some]
  · rw [if_neg (by omega), List.getElem?_cons_succ, List.getElem?_nil]

/-- **No byte of a header is ignored**: what decodes is the encoding of the result. -/
theorem encode_of_decode {bytes : Bytes} {h : Header} (hlen : bytes.length = headerSize)
    (hdecode : decode bytes = .ok h) : h.encode = bytes := by
  unfold decode at hdecode
  split at hdecode
  · exact absurd hdecode (by simp)
  next hmagic =>
  split at hdecode
  · exact absurd hdecode (by simp)
  next hversion =>
  split at hdecode
  · exact absurd hdecode (by simp)
  next mode hmode =>
  split at hdecode
  · exact absurd hdecode (by simp)
  next hflags =>
  split at hdecode
  · exact absurd hdecode (by simp)
  obtain rfl := Except.ok.inj hdecode
  have hsize : bytes.length = 80 := hlen
  have hfield : ∀ off n, off + n ≤ 80 → (slice bytes off n).length = n := fun off n hn =>
    length_slice (hsize ▸ hn)
  have hsplit : bytes = slice bytes 0 8 ++ (slice bytes 8 2 ++ (slice bytes 10 1 ++
      (slice bytes 11 1 ++ (slice bytes 12 4 ++ (slice bytes 16 32 ++ slice bytes 48 32))))) := by
    have hall : slice bytes 0 80 = bytes := by
      rw [slice, List.drop_zero, List.take_of_length_le (by omega)]
    have h0 : slice bytes 0 80 = slice bytes 0 8 ++ slice bytes 8 72 := slice_add bytes 0 8 72
    have h8 : slice bytes 8 72 = slice bytes 8 2 ++ slice bytes 10 70 := slice_add bytes 8 2 70
    have h10 : slice bytes 10 70 = slice bytes 10 1 ++ slice bytes 11 69 := slice_add bytes 10 1 69
    have h11 : slice bytes 11 69 = slice bytes 11 1 ++ slice bytes 12 68 := slice_add bytes 11 1 68
    have h12 : slice bytes 12 68 = slice bytes 12 4 ++ slice bytes 16 64 := slice_add bytes 12 4 64
    have h16 : slice bytes 16 64 = slice bytes 16 32 ++ slice bytes 48 32 :=
      slice_add bytes 16 32 32
    rw [← h16, ← h12, ← h11, ← h10, ← h8, ← h0, hall]
  have hmodeByte : slice bytes 10 1 = [mode.byte] := by
    rw [slice_one (by omega), Mode.byte_of_fromByte hmode]
  refine Eq.trans ?_ hsplit.symm
  simp only [encode, fields, List.flatten_cons, List.flatten_nil, List.append_nil]
  rw [le16_ofLe16 (hfield 8 2 (by omega)), le32_ofLe32 (hfield 12 4 (by omega)),
    FixedBytes.val_of (hfield 16 32 (by omega)), FixedBytes.val_of (hfield 48 32 (by omega)),
    not_not.mp hmagic, hmodeByte, slice_one (show 11 < bytes.length by omega)]

end Header

end Container
end OrIsyVra
