import OrIsyVra.Container.Format

/-!
# Sealing and opening the records of a container

A `Suite` holds what both `encrypt_file` and `decrypt_file` derive from the master key and the
header before they touch a record: the native keys, the binding of the header and, in guarded mode,
the guard keys.  A record is its plaintext under the native layer, inside the guard where there is
one; the manifest is a MAC over the total length, the record count and the digest of everything
before it, inside the guard in the same way.

Opening is the inverse of sealing in one direction by construction of the native layer
(`openNative_eq_ok_iff`), and for the guard as far as the AEAD is.  `GuardFaithful` is what the
reverse direction needs of it: what decrypts is what encrypting the result gives.
-/

namespace OrIsyVra
namespace Container

open ByteString MachineWord OrIsyVra.Core

/-! ## Keys -/

structure NativeKeys where
  siv : FixedBytes 48
  stream : FixedBytes 48
  manifest : FixedBytes 48
  header : FixedBytes 48

structure GuardKeys where
  key : FixedBytes 32
  nonceKey : FixedBytes 32

def deriveNativeKeys (master : MasterKey) (header : Header) : NativeKeys where
  siv := deriveKey master (ascii "OrIsyVra/native/siv/v1") header.encode
  stream := deriveKey master (ascii "OrIsyVra/native/stream/v1") header.encode
  manifest := deriveKey master (ascii "OrIsyVra/native/manifest/v1") header.encode
  header := deriveKey master (ascii "OrIsyVra/native/header/v1") header.encode

def deriveGuardKeys [Crypto] (master : MasterKey) (header : Header) : Except Error GuardKeys :=
  match Crypto.hkdfSha384 header.salt.val master.val
      (ascii "OrIsyVra/guarded/XChaCha20Poly1305/v1" ++ header.fileId.val) with
  | none => .error (.crypto "guard-key derivation failed")
  | some output => .ok ⟨.of 32 (output.val.take 32), .of 32 (output.val.drop 32)⟩

def headerBinding (keys : NativeKeys) (header : Header) : FixedBytes 32 :=
  mac32 keys.header .headerBinding [header.encode]

/-! ## Frames -/

def recordFrame (index : UInt64) (plaintextLength bodyLength : UInt32) : Bytes :=
  dataRecord :: (le64 index ++ (le32 plaintextLength ++ le32 bodyLength))

def manifestFrame (bodyLength : UInt32) : Bytes := manifestRecord :: le32 bodyLength

def recordContext (binding : FixedBytes 32) (index : UInt64) (plaintextLength : UInt32) : Bytes :=
  binding.val ++ (le64 index ++ le32 plaintextLength)

/-! ## The native layer -/

/-- The exclusive or of two byte strings of one length. -/
def xorBytes (xs ys : Bytes) : Bytes := List.zipWith (· ^^^ ·) xs ys

theorem length_xorBytes {xs ys : Bytes} (h : xs.length = ys.length) :
    (xorBytes xs ys).length = xs.length := by
  rw [xorBytes, List.length_zipWith, h, min_self]

theorem xorBytes_cancel {xs ys : Bytes} (h : xs.length = ys.length) :
    xorBytes (xorBytes xs ys) ys = xs := by
  induction xs generalizing ys with
  | nil => rfl
  | cons x xs ih =>
    cases ys with
    | nil => exact absurd h (by simp)
    | cons y ys =>
      show (x ^^^ y ^^^ y) :: xorBytes (xorBytes xs ys) ys = x :: xs
      rw [ih (Nat.succ.inj h), UInt8.xor_assoc, UInt8.xor_self, UInt8.xor_zero]

/-- The keystream of a record. -/
def recordStream (keys : NativeKeys) (context siv : Bytes) (length : ℕ) : Bytes :=
  prfParts keys.stream .stream [context, siv] (List.replicate length 0)

@[simp] theorem length_recordStream (keys : NativeKeys) (context siv : Bytes) (length : ℕ) :
    (recordStream keys context siv length).length = length := by
  rw [recordStream, length_prfParts, List.length_replicate]

def sealNative (keys : NativeKeys) (binding : FixedBytes 32) (index : UInt64) (plaintext : Bytes) :
    Except Error Bytes :=
  if 2 ^ 32 ≤ plaintext.length then .error (.limitExceeded "record larger than u32")
  else
    let context := recordContext binding index (UInt32.ofNat plaintext.length)
    let siv := mac32 keys.siv .recordSiv [context, plaintext]
    .ok (siv.val ++ xorBytes plaintext (recordStream keys context siv.val plaintext.length))

def openNative (keys : NativeKeys) (binding : FixedBytes 32) (index : UInt64)
    (plaintextLength : UInt32) (body : Bytes) : Except Error Bytes :=
  if body.length ≠ nativeTagSize + plaintextLength.toNat then
    .error (.invalidFormat "native record length mismatch")
  else
    let storedSiv := body.take nativeTagSize
    let ciphertext := body.drop nativeTagSize
    let context := recordContext binding index plaintextLength
    let plaintext := xorBytes ciphertext (recordStream keys context storedSiv ciphertext.length)
    if (mac32 keys.siv .recordSiv [context, plaintext]).val ≠ storedSiv then
      .error .authenticationFailed
    else .ok plaintext

section

variable {keys : NativeKeys} {binding : FixedBytes 32} {index : UInt64} {plaintextLength : UInt32}
  {body plaintext : Bytes}

theorem length_of_sealNative (h : sealNative keys binding index plaintext = .ok body) :
    body.length = nativeTagSize + plaintext.length := by
  unfold sealNative at h
  split at h
  · exact absurd h (by simp)
  obtain rfl := Except.ok.inj h
  rw [List.length_append, FixedBytes.length_val, length_xorBytes (length_recordStream ..).symm]
  rfl

theorem sealNative_isOk (h : plaintext.length < 2 ^ 32) :
    ∃ body, sealNative keys binding index plaintext = .ok body := by
  unfold sealNative
  rw [if_neg (by omega)]
  exact ⟨_, rfl⟩

/-- **The native layer is a bijection**: a body opens to a plaintext exactly when the plaintext has
the announced length and seals to the body. -/
theorem openNative_eq_ok_iff : openNative keys binding index plaintextLength body = .ok plaintext ↔
    plaintext.length = plaintextLength.toNat ∧
    sealNative keys binding index plaintext = .ok body := by
  have hword : plaintextLength.toNat < 2 ^ 32 := plaintextLength.toNat_lt
  constructor
  · intro h
    unfold openNative at h
    split at h
    · exact absurd h (by simp)
    next hlen =>
    rw [ne_eq, not_not] at hlen
    dsimp only at h
    split at h
    · exact absurd h (by simp)
    next hsiv =>
    rw [ne_eq, not_not] at hsiv
    obtain rfl := Except.ok.inj h
    have hciphertext : (body.drop nativeTagSize).length = plaintextLength.toNat := by
      rw [List.length_drop, hlen, Nat.add_sub_cancel_left]
    have hplaintext := length_xorBytes
      (length_recordStream keys (recordContext binding index plaintextLength)
        (body.take nativeTagSize) (body.drop nativeTagSize).length).symm
    refine ⟨hplaintext.trans hciphertext, ?_⟩
    unfold sealNative
    rw [if_neg (by omega)]
    dsimp only
    rw [hplaintext, hciphertext, UInt32.ofNat_toNat, ← hciphertext, hsiv,
      xorBytes_cancel (length_recordStream ..).symm, List.take_append_drop]
  · rintro ⟨hlen, h⟩
    have hbody := length_of_sealNative h
    unfold sealNative at h
    rw [if_neg (by omega)] at h
    dsimp only at h
    rw [hlen, UInt32.ofNat_toNat] at h
    generalize hsiv :
      mac32 keys.siv .recordSiv [recordContext binding index plaintextLength, plaintext]
      = siv at h
    have hstream :
      plaintext.length = (recordStream keys (recordContext binding index plaintextLength)
        siv.val plaintextLength.toNat).length := by rw [length_recordStream, hlen]
    obtain rfl := Except.ok.inj h
    have hsize : siv.val.length = nativeTagSize := siv.property
    unfold openNative
    rw [if_neg (by rw [hbody, hlen, ne_eq, not_not])]
    dsimp only
    rw [List.take_left' hsize, List.drop_left' hsize, length_xorBytes hstream, hlen,
      xorBytes_cancel hstream, hsiv, if_neg (by rw [ne_eq, not_not])]

end

/-! ## The guard -/

section

variable [Crypto]

def guardNonce (keys : GuardKeys) (header : Header) (index : UInt64) (kind : UInt8) : Bytes :=
  (Crypto.hmacSha256 keys.nonceKey.val
    (ascii "OrIsyVra/guarded/nonce/v1" ++ (header.fileId.val ++ ([kind] ++ le64 index)))).val.take
      24

def guardSeal (keys : GuardKeys) (header : Header) (index : UInt64) (kind : UInt8)
    (aad plaintext : Bytes) : Except Error Bytes :=
  match Crypto.encrypt keys.key.val (guardNonce keys header index kind) aad plaintext with
  | none => .error (.crypto "guarded encryption failed")
  | some ciphertext => .ok ciphertext

def guardOpen (keys : GuardKeys) (header : Header) (index : UInt64) (kind : UInt8)
    (aad ciphertext : Bytes) : Except Error Bytes :=
  match Crypto.decrypt keys.key.val (guardNonce keys header index kind) aad ciphertext with
  | none => .error .authenticationFailed
  | some plaintext => .ok plaintext

/-- What decrypts to a message is the encryption of the message. -/
def GuardFaithful : Prop := ∀ key nonce aad message ciphertext : Bytes,
  Crypto.decrypt key nonce aad ciphertext = some message →
    Crypto.encrypt key nonce aad message = some ciphertext

omit [Crypto] in
/-- The cipher of a table is faithful. -/
theorem tableCrypto_faithful (table : List Sealing) : @GuardFaithful (tableCrypto table) := by
  intro key nonce aad message ciphertext h
  exact congrArg some (tableCrypto_opens h)

theorem guardSeal_of_guardOpen (hfaithful : GuardFaithful) {keys : GuardKeys} {header : Header}
    {index : UInt64} {kind : UInt8} {aad plaintext ciphertext : Bytes}
    (h : guardOpen keys header index kind aad ciphertext = .ok plaintext) :
    guardSeal keys header index kind aad plaintext = .ok ciphertext := by
  unfold guardOpen at h
  split at h
  · exact absurd h (by simp)
  next hdecrypt =>
  obtain rfl := Except.ok.inj h
  rw [guardSeal, hfaithful _ _ _ _ _ hdecrypt]

theorem guardSeal_eq_ok [LawfulCrypto] {keys : GuardKeys} {header : Header} {index : UInt64}
    {kind : UInt8} {aad plaintext ciphertext : Bytes}
    (h : guardSeal keys header index kind aad plaintext = .ok ciphertext) :
    ciphertext.length = plaintext.length + guardTagSize ∧
      guardOpen keys header index kind aad ciphertext = .ok plaintext := by
  unfold guardSeal at h
  split at h
  · exact absurd h (by simp)
  next hencrypt =>
  obtain rfl := Except.ok.inj h
  refine ⟨LawfulCrypto.length_encrypt _ _ _ _ _ hencrypt, ?_⟩
  rw [guardOpen, LawfulCrypto.decrypt_encrypt _ _ _ _ _ hencrypt]

theorem guardSeal_isOk [LawfulCrypto] (keys : GuardKeys) (header : Header) (index : UInt64)
    (kind : UInt8) (aad : Bytes) {plaintext : Bytes} (h : plaintext.length < 2 ^ 32) :
    ∃ ciphertext, guardSeal keys header index kind aad plaintext = .ok ciphertext := by
  obtain ⟨ciphertext, hencrypt⟩ :=
    Option.isSome_iff_exists.mp (LawfulCrypto.encrypt_isSome keys.key.val
    (guardNonce keys header index kind) aad plaintext h)
  exact ⟨ciphertext, by rw [guardSeal, hencrypt]⟩

end

/-! ## The manifest -/

def manifestPayload (totalLength recordCount : UInt64) (digest : FixedBytes 48) : Bytes :=
  le64 totalLength ++ (le64 recordCount ++ digest.val)

def nativeManifestInner (keys : NativeKeys) (binding : FixedBytes 32)
    (totalLength recordCount : UInt64) (digest : FixedBytes 48) : Bytes :=
  let payload := manifestPayload totalLength recordCount digest
  payload ++ (mac32 keys.manifest .manifest [binding.val, payload]).val

def verifyManifestInner (keys : NativeKeys) (binding : FixedBytes 32) (inner : Bytes)
    (expectedTotal expectedCount : UInt64) (expectedDigest : FixedBytes 48) : Except Error Unit :=
  if inner.length ≠ manifestInnerSize then .error (.invalidFormat "manifest length mismatch")
  else
    let payload := inner.take manifestPayloadSize
    let storedTag := inner.drop manifestPayloadSize
    if (mac32 keys.manifest .manifest [binding.val, payload]).val ≠ storedTag then
      .error .authenticationFailed
    else if ofLe64 (slice payload 0 8) ≠ expectedTotal ∨
      ofLe64 (slice payload 8 8) ≠ expectedCount ∨
        expectedDigest.val ≠ slice payload 16 48 then .error .authenticationFailed
    else .ok ()

section

variable {keys : NativeKeys} {binding : FixedBytes 32} {totalLength recordCount : UInt64}
  {digest : FixedBytes 48} {inner : Bytes}

theorem length_manifestPayload :
    (manifestPayload totalLength recordCount digest).length = manifestPayloadSize := by
  rw [manifestPayload, List.length_append, List.length_append, length_le64, length_le64,
    FixedBytes.length_val]
  rfl

theorem length_nativeManifestInner :
    (nativeManifestInner keys binding totalLength recordCount digest).length =
      manifestInnerSize := by
  rw [nativeManifestInner, List.length_append, length_manifestPayload, FixedBytes.length_val]
  rfl

/-- **Exactly one manifest is accepted**: the one that is written. -/
theorem verifyManifestInner_iff :
    verifyManifestInner keys binding inner totalLength recordCount digest = .ok () ↔
      inner = nativeManifestInner keys binding totalLength recordCount digest := by
  constructor
  · intro h
    unfold verifyManifestInner at h
    split at h
    · exact absurd h (by simp)
    next hlen =>
    rw [ne_eq, not_not] at hlen
    dsimp only at h
    split at h
    · exact absurd h (by simp)
    next htag =>
    split at h
    · exact absurd h (by simp)
    next hpayload =>
    rw [ne_eq, not_not] at htag
    rw [not_or, not_or, ne_eq, not_not, ne_eq, not_not, ne_eq, not_not] at hpayload
    obtain ⟨htotal, hcount, hdigest⟩ := hpayload
    have hsize : inner.length = 96 := hlen
    have hfield : ∀ off n, off + n ≤ 64 → slice (inner.take manifestPayloadSize) off n =
        slice inner off n := by
      intro off n hn
      have hhead : inner.take manifestPayloadSize = slice inner 0 64 := by
        rw [slice, List.drop_zero]
        rfl
      rw [hhead, slice_slice hn, Nat.zero_add]
    have hpayload : manifestPayload totalLength recordCount digest =
      inner.take manifestPayloadSize := by
      rw [hfield 0 8 (by omega)] at htotal
      rw [hfield 8 8 (by omega)] at hcount
      rw [hfield 16 48 (by omega)] at hdigest
      rw [manifestPayload, ← htotal, ← hcount, hdigest, le64_ofLe64 (length_slice (by omega)),
        le64_ofLe64 (length_slice (by omega))]
      have h8 : slice inner 8 56 = slice inner 8 8 ++ slice inner 16 48 := slice_add inner 8 8 48
      have h0 : slice inner 0 64 = slice inner 0 8 ++ slice inner 8 56 := slice_add inner 0 8 56
      rw [← h8, ← h0, slice, List.drop_zero]
      rfl
    rw [nativeManifestInner, hpayload, htag, List.take_append_drop]
  · rintro rfl
    have hpayload : (manifestPayload totalLength recordCount digest).length = manifestPayloadSize :=
      length_manifestPayload
    have hshape : manifestPayload totalLength recordCount digest =
        [le64 totalLength, le64 recordCount, digest.val].flatten := by
      simp only [manifestPayload, List.flatten_cons, List.flatten_nil, List.append_nil]
    have htotal : slice (manifestPayload totalLength recordCount digest) 0 8 =
      le64 totalLength := by
      rw [hshape]
      exact slice_flatten 0 rfl rfl (length_le64 _)
    have hcount : slice (manifestPayload totalLength recordCount digest) 8 8 =
      le64 recordCount := by
      rw [hshape]
      exact slice_flatten 1 rfl (by simp) (length_le64 _)
    have hdigest : slice (manifestPayload totalLength recordCount digest) 16 48 = digest.val := by
      rw [hshape]
      exact slice_flatten 2 rfl (by simp) (FixedBytes.length_val _)
    unfold verifyManifestInner
    rw [if_neg (by rw [length_nativeManifestInner, ne_eq, not_not])]
    dsimp only [nativeManifestInner]
    rw [List.take_left' hpayload, List.drop_left' hpayload, if_neg (by rw [ne_eq, not_not]), htotal,
      hcount, hdigest, ofLe64_le64, ofLe64_le64, if_neg]
    rintro (hbad | hbad | hbad)
    · exact hbad rfl
    · exact hbad rfl
    · exact hbad rfl

end

end Container
end OrIsyVra
