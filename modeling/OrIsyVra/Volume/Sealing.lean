import OrIsyVra.Volume.Format

/-!
# Keys, nonces and the two authenticated objects of a volume

A volume seals two kinds of object: the state of a superblock, into one of the two slots, and the
payload of a block, into a record of the log.  Both take their nonce from a keyed hash of a domain
and two numbers (`deriveNonce`), and both bind the bootstrap and their own position as associated
data.  `nonceInput_injective` is why two nonces can only coincide when domain and numbers do.

The checks `read_superblock` and `read_record_at` make on the bytes they have read are the pure
functions `decodeSuperblock` and `parseRecord`; the second takes the file image and an offset, and
depends on the bytes of its own record only (`RecordAt.congr`).  Both objects read back what was
sealed into them (`decodeSuperblock_slotBytes`, `RecordAt.of_sealed`).
-/

namespace OrIsyVra.Volume

open ByteString MachineWord DurableFile

/-! ## Nonce inputs -/

/-- The message whose keyed hash becomes a nonce. -/
def nonceInput (b : Bootstrap) (domain : Bytes) (first second : UInt64) : Bytes :=
  ascii "OrIsyVra/volume/nonce/v1" ++ (b.volumeId.val ++ (le64 (UInt64.ofNat domain.length) ++
    (domain ++ (le64 first ++ le64 second))))

/-- **The nonce input is injective** in the domain and the two numbers. -/
theorem nonceInput_injective {b : Bootstrap} {domain domain' : Bytes}
    {first first' second second' : UInt64}
    (h : nonceInput b domain first second = nonceInput b domain' first' second') :
    domain = domain' ∧ first = first' ∧ second = second' := by
  have hlen := congrArg List.length h
  simp only [nonceInput, List.length_append, length_le64] at hlen
  have hdomain : domain.length = domain'.length := by omega
  unfold nonceInput at h
  rw [hdomain] at h
  have htail := List.append_cancel_left (List.append_cancel_left (List.append_cancel_left h))
  obtain ⟨rfl, hnumbers⟩ := List.append_inj htail hdomain
  obtain ⟨hfirst, hsecond⟩ := List.append_inj hnumbers (by rw [length_le64, length_le64])
  exact ⟨rfl, le64_injective hfirst, le64_injective hsecond⟩

/-! ## Superblock slots -/

/-- The two superblock slots, 0 and 1 in the source. -/
inductive Slot where
  | a
  | b
  deriving DecidableEq, Repr

namespace Slot

def byte : Slot → UInt8
  | a => 0
  | b => 1

def offset : Slot → ℕ
  | a => superAOffset
  | b => superBOffset

/-- `1 - slot` of the source. -/
def other : Slot → Slot
  | a => b
  | b => a

@[simp] theorem other_other (s : Slot) : s.other.other = s := by cases s <;> rfl

theorem other_ne (s : Slot) : s.other ≠ s := by cases s <;> decide

theorem eq_or_eq_other (s t : Slot) : t = s ∨ t = s.other := by cases s <;> cases t <;> decide

/-- The slots lie between the bootstrap and the log. -/
theorem offset_bounds (s : Slot) :
    bootstrapSize ≤ s.offset ∧ s.offset + superSlotSize ≤ logStart.toNat := by
  cases s <;> decide

/-- The slots do not overlap. -/
theorem offset_disjoint (s : Slot) :
    s.offset + superSlotSize ≤ s.other.offset ∨ s.other.offset + superSlotSize ≤ s.offset := by
  cases s <;> decide

end Slot

def superAad (b : Bootstrap) (slot : Slot) (generation : UInt64) : Bytes :=
  b.encode ++ (ascii "super" ++ (slot.byte :: le64 generation))

def slotFields (generation : UInt64) (ciphertext : Bytes) : List Bytes :=
  [le64 generation, le32 (UInt32.ofNat ciphertext.length), List.replicate 4 0, ciphertext,
    List.replicate (superSlotSize - (16 + ciphertext.length)) 0]

/-- The bytes of a slot around its ciphertext. -/
def slotBytes (generation : UInt64) (ciphertext : Bytes) : Bytes :=
  (slotFields generation ciphertext).flatten

theorem length_slotBytes {generation : UInt64} {ciphertext : Bytes}
    (h : ciphertext.length + 16 ≤ superSlotSize) :
    (slotBytes generation ciphertext).length = superSlotSize := by
  rw [slotBytes, List.length_flatten]
  simp only [slotFields, List.map_cons, List.map_nil, length_le64, length_le32,
    List.length_replicate, List.sum_cons, List.sum_nil]
  omega

/-- A slot that holds a ciphertext is not blank. -/
theorem slotBytes_not_blank {generation : UInt64} {ciphertext : Bytes} (hpos : ciphertext ≠ [])
    (h : ciphertext.length + 16 ≤ superSlotSize) :
    (slotBytes generation ciphertext).all (· == 0) = false := by
  by_contra hall
  rw [Bool.not_eq_false, List.all_eq_true] at hall
  have hzero : ∀ x ∈ le32 (UInt32.ofNat ciphertext.length), x = 0 := fun x hx =>
    beq_iff_eq.mp (hall x (List.mem_flatten.mpr ⟨_, List.mem_of_getElem? (i := 1) rfl, hx⟩))
  have hreplicate : le32 (UInt32.ofNat ciphertext.length) = List.replicate 4 0 :=
    List.eq_replicate_iff.mpr ⟨length_le32 _, hzero⟩
  have hword := ofLe32_le32 (UInt32.ofNat ciphertext.length)
  rw [hreplicate] at hword
  have hlen := congrArg UInt32.toNat hword
  have hlt : ciphertext.length < UInt32.size :=
    lt_of_le_of_lt (Nat.le_of_add_right_le h) (by decide)
  rw [UInt32.toNat_ofNat_of_lt' hlt] at hlen
  exact hpos (List.length_eq_zero_iff.mp hlen.symm)

def recordAad (b : Bootstrap) (header : Bytes) : Bytes := b.encode ++ (ascii "data" ++ header)

/-- The checks on a record header against the volume it is in. -/
def checkHeader (b : Bootstrap) (header : RecordHeader) : Except VolumeError Unit :=
  if header.blockIndex ≥ b.blockCount then .error (.corrupt "block index exceeds logical capacity")
  else if header.plaintextLen > b.blockSize then
    .error (.corrupt "block plaintext exceeds configured block size")
  else .ok ()

variable [Crypto]

/-! ## Keys and nonces -/

structure VolumeKeys where
  key : Bytes
  nonceKey : Bytes
  deriving DecidableEq, Repr

def deriveKeys (master : Bytes) (b : Bootstrap) : Except VolumeError VolumeKeys :=
  match Crypto.hkdfSha384 b.salt.val master
      (ascii "OrIsyVra/volume/guarded/v1" ++ b.volumeId.val) with
  | none => .error .authenticationFailed
  | some output => .ok ⟨output.val.take 32, output.val.drop 32⟩

def deriveNonce (keys : VolumeKeys) (b : Bootstrap) (domain : Bytes) (first second : UInt64) :
    Bytes :=
  (Crypto.hmacSha256 keys.nonceKey (nonceInput b domain first second)).val.take 24

/-! ## Superblocks -/

def superNonce (keys : VolumeKeys) (b : Bootstrap) (slot : Slot) (generation : UInt64) : Bytes :=
  deriveNonce keys b (ascii "super") slot.byte.toUInt64 generation

/-- What `read_superblock` makes of the bytes of a slot. -/
def decodeSuperblock (keys : VolumeKeys) (b : Bootstrap) (slot : Slot) (bytes : Bytes) :
    Except VolumeError (Option SuperState) :=
  if bytes.all (· == 0) then .ok none
  else
    let generation := ofLe64 (slice bytes 0 8)
    let ciphertextLen := (ofLe32 (slice bytes 8 4)).toNat
    if ciphertextLen = 0 ∨ ciphertextLen + 16 > superSlotSize then
      .error (.corrupt "invalid superblock slot length")
    else
      match Crypto.decrypt keys.key (superNonce keys b slot generation) (superAad b slot generation)
          (slice bytes 16 ciphertextLen) with
      | none => .error .authenticationFailed
      | some plaintext =>
        match SuperState.decode plaintext with
        | .error e => .error e
        | .ok state =>
          if state.generation ≠ generation then .error (.corrupt "superblock generation mismatch")
          else .ok (some state)

/-- **A slot reads back**: the bytes written for a state decode to that state. -/
theorem decodeSuperblock_slotBytes [LawfulCrypto] {keys : VolumeKeys} {b : Bootstrap} {slot : Slot}
    {state : SuperState} {ciphertext : Bytes} (hend : logStart ≤ state.committedEnd)
    (hseal : Crypto.encrypt keys.key (superNonce keys b slot state.generation)
      (superAad b slot state.generation) state.encode = some ciphertext) :
    decodeSuperblock keys b slot (slotBytes state.generation ciphertext) = .ok (some state) := by
  have hlen : ciphertext.length = 80 := by
    rw [LawfulCrypto.length_encrypt _ _ _ _ _ hseal, SuperState.length_encode]
    rfl
  have hne : ciphertext ≠ [] := List.ne_nil_of_length_pos (by omega)
  have hfit : ciphertext.length + 16 ≤ superSlotSize := hlen.symm ▸ by decide
  have hword : (UInt32.ofNat ciphertext.length).toNat = ciphertext.length := by
    rw [hlen]
    rfl
  have hgeneration : slice (slotBytes state.generation ciphertext) 0 8 = le64 state.generation :=
    slice_flatten 0 rfl rfl (length_le64 _)
  have hlength : slice (slotBytes state.generation ciphertext) 8 4 =
      le32 (UInt32.ofNat ciphertext.length) := slice_flatten 1 rfl rfl (length_le32 _)
  have hbody : slice (slotBytes state.generation ciphertext) 16 ciphertext.length = ciphertext :=
    slice_flatten 3 rfl rfl rfl
  have hguard : ¬(ciphertext.length = 0 ∨ ciphertext.length + 16 > superSlotSize) :=
    not_or.mpr ⟨by omega, not_lt.mpr hfit⟩
  unfold decodeSuperblock
  simp only [slotBytes_not_blank hne hfit, hgeneration, hlength, ofLe64_le64, ofLe32_le32, hword,
    hbody, if_neg hguard, LawfulCrypto.decrypt_encrypt _ _ _ _ _ hseal,
    SuperState.decode_encode hend, Bool.false_eq_true, if_false, ne_eq, not_true_eq_false]

/-- Only a ciphertext that opens makes a slot decode. -/
theorem decodeSuperblock_inv {keys : VolumeKeys} {b : Bootstrap} {slot : Slot} {bytes : Bytes}
    {state : SuperState} (h : decodeSuperblock keys b slot bytes = .ok (some state)) :
    ∃ n plaintext, n + 16 ≤ superSlotSize ∧
      Crypto.decrypt keys.key (superNonce keys b slot state.generation)
        (superAad b slot state.generation) (slice bytes 16 n) = some plaintext ∧
      SuperState.decode plaintext = .ok state := by
  unfold decodeSuperblock at h
  split at h
  · exact absurd h (by simp)
  dsimp only at h
  split at h
  · exact absurd h (by simp)
  next hguard =>
  split at h
  · exact absurd h (by simp)
  next plaintext hopen =>
  split at h
  · exact absurd h (by simp)
  next state' hdecode =>
  split at h
  · exact absurd h (by simp)
  next hgeneration =>
  obtain rfl : state' = state := by simpa using h
  rw [ne_eq, not_not] at hgeneration
  rw [not_or, not_lt] at hguard
  rw [← hgeneration] at hopen
  exact ⟨_, plaintext, hguard.2, hopen, hdecode⟩

/-! ## Records -/

def recordNonce (keys : VolumeKeys) (b : Bootstrap) (blockIndex generation : UInt64) : Bytes :=
  deriveNonce keys b (ascii "data") blockIndex generation

/-- Decryption of a record's ciphertext under its header. -/
def openRecord (keys : VolumeKeys) (b : Bootstrap) (header : RecordHeader) (headerBytes : Bytes)
    (ciphertext : Bytes) : Except VolumeError (RecordHeader × Bytes) :=
  match Crypto.decrypt keys.key (recordNonce keys b header.blockIndex header.generation)
      (recordAad b headerBytes) ciphertext with
  | none => .error .authenticationFailed
  | some plaintext =>
    if plaintext.length ≠ header.plaintextLen.toNat then
      .error (.corrupt "decrypted block length mismatch")
    else .ok (header, plaintext)

/-- What `read_record_at` returns on a file image when every read succeeds. -/
def parseRecord (keys : VolumeKeys) (b : Bootstrap) (img : Bytes) (offset : ℕ) :
    Except VolumeError (RecordHeader × Bytes) :=
  if offset + recordHeaderSize ≤ img.length then do
    let header ← RecordHeader.decode (slice img offset recordHeaderSize)
    checkHeader b header
    if offset + header.recordLen ≤ img.length then
      openRecord keys b header (slice img offset recordHeaderSize)
        (slice img (offset + recordHeaderSize) header.ciphertextLen.toNat)
    else .error (.io .unexpectedEof)
  else .error (.io .unexpectedEof)

/-- What a record that parses looks like. -/
structure RecordAt (keys : VolumeKeys) (b : Bootstrap) (img : Bytes) (offset : ℕ)
    (header : RecordHeader) (payload : Bytes) : Prop where
  fits : offset + header.recordLen ≤ img.length
  decode : RecordHeader.decode (slice img offset recordHeaderSize) = .ok header
  check : checkHeader b header = .ok ()
  opens : Crypto.decrypt keys.key (recordNonce keys b header.blockIndex header.generation)
    (recordAad b (slice img offset recordHeaderSize))
    (slice img (offset + recordHeaderSize) header.ciphertextLen.toNat) = some payload
  length : payload.length = header.plaintextLen.toNat

variable {keys : VolumeKeys} {b : Bootstrap} {img img' : Bytes} {offset : ℕ} {header : RecordHeader}
  {payload : Bytes}

/-- A record parses exactly when it looks like one. -/
theorem parseRecord_eq_ok :
    parseRecord keys b img offset = .ok (header, payload) ↔
      RecordAt keys b img offset header payload := by
  constructor
  · intro h
    unfold parseRecord at h
    split at h
    · next hfits =>
      cases hdecode : RecordHeader.decode (slice img offset recordHeaderSize) with
      | error e =>
        rw [hdecode] at h
        exact absurd h (by simp [bind, Except.bind])
      | ok header' =>
        rw [hdecode] at h
        cases hcheck : checkHeader b header' with
        | error e => exact absurd h (by simp [bind, Except.bind, hcheck])
        | ok _ =>
          simp only [bind, Except.bind, hcheck] at h
          split at h
          · next hlen =>
            unfold openRecord at h
            split at h
            · exact absurd h (by simp)
            · next plaintext hopen =>
              split at h
              · exact absurd h (by simp)
              · next hpayload =>
                obtain ⟨rfl, rfl⟩ : header' = header ∧ plaintext = payload := by simpa using h
                exact ⟨hlen, hdecode, hcheck, hopen, not_not.mp hpayload⟩
          · exact absurd h (by simp)
    · exact absurd h (by simp)
  · rintro ⟨hfits, hdecode, hcheck, hopen, hpayload⟩
    have hheader : offset + recordHeaderSize ≤ img.length := by
      rw [RecordHeader.recordLen] at hfits
      omega
    unfold parseRecord
    rw [if_pos hheader, hdecode]
    simp only [bind, Except.bind, hcheck, if_pos hfits, openRecord, hopen, hpayload, ne_eq,
      not_true_eq_false, if_false]

/-- A record depends on its own bytes only. -/
theorem RecordAt.congr (h : RecordAt keys b img offset header payload)
    (hs : slice img' offset header.recordLen = slice img offset header.recordLen)
    (hlen : offset + header.recordLen ≤ img'.length) :
    RecordAt keys b img' offset header payload := by
  have hheader : slice img' offset recordHeaderSize = slice img offset recordHeaderSize :=
    slice_eq_of_slice_eq hs le_rfl (by rw [RecordHeader.recordLen]; omega)
  have hbody : slice img' (offset + recordHeaderSize) header.ciphertextLen.toNat =
      slice img (offset + recordHeaderSize) header.ciphertextLen.toNat :=
    slice_eq_of_slice_eq hs (by omega) (by rw [RecordHeader.recordLen]; omega)
  exact ⟨hlen, hheader.symm ▸ h.decode, h.check, by rw [hheader, hbody]; exact h.opens, h.length⟩

/-- **A record reads back**: a header and the ciphertext sealed under it, side by side in an image,
are a record. -/
theorem RecordAt.of_sealed [LawfulCrypto] {ciphertext : Bytes}
    (hcheck : checkHeader b header = .ok ()) (hlen : payload.length = header.plaintextLen.toNat)
    (hseal : Crypto.encrypt keys.key (recordNonce keys b header.blockIndex header.generation)
      (recordAad b header.encode) payload = some ciphertext)
    (hheader : slice img offset recordHeaderSize = header.encode)
    (hbody : slice img (offset + recordHeaderSize) ciphertext.length = ciphertext)
    (hfits : offset + recordHeaderSize + ciphertext.length ≤ img.length) :
    ciphertext.length = header.ciphertextLen.toNat ∧ RecordAt keys b img offset header payload := by
  have hct : ciphertext.length = header.ciphertextLen.toNat := by
    rw [LawfulCrypto.length_encrypt _ _ _ _ _ hseal, header.ciphertextLen_eq, hlen]
  refine ⟨hct, ?_, hheader ▸ RecordHeader.decode_encode header, hcheck, ?_, hlen⟩
  · rw [RecordHeader.recordLen]
    omega
  · rw [hheader, ← hct, hbody]
    exact LawfulCrypto.decrypt_encrypt _ _ _ _ _ hseal

end OrIsyVra.Volume
