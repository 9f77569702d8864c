import OrIsyVra.Library.ByteString

/-!
# The cryptographic primitives

The primitives come from other crates, so a development about the formats built on them takes them
as a parameter: `Crypto` has one function for each, with the error cases of the calls the formats
make.  `LawfulCrypto` states what every volume and container relies on to read back what it wrote:
the AEAD accepts any message that fits a block or a chunk, appends a 16-byte tag, and decryption
under the same key, nonce and associated data undoes encryption.  What an attacker cannot do is not
stated here; it is a hypothesis of the results that need it.
-/

namespace OrIsyVra

open ByteString

/-- The primitives of the `chacha20poly1305`, `hkdf`, `hmac` and `sha2` crates. -/
class Crypto where
  /-- HKDF-SHA-384 with a 64-byte output. -/
  hkdfSha384 : (salt ikm info : Bytes) → Option (FixedBytes 64)
  hmacSha256 : (key message : Bytes) → FixedBytes 32
  sha384 : Bytes → FixedBytes 48
  /-- XChaCha20-Poly1305, the tag at the end of the ciphertext. -/
  encrypt : (key nonce aad message : Bytes) → Option Bytes
  decrypt : (key nonce aad ciphertext : Bytes) → Option Bytes

/-- The bytes an AEAD ciphertext is longer than its message. -/
def aeadTagSize : ℕ := 16

/-- What the formats rely on to read back what they wrote. -/
class LawfulCrypto [Crypto] : Prop where
  encrypt_isSome : ∀ key nonce aad message : Bytes, message.length < 2 ^ 32 →
    (Crypto.encrypt key nonce aad message).isSome
  length_encrypt : ∀ key nonce aad message ciphertext : Bytes,
    Crypto.encrypt key nonce aad message = some ciphertext →
    ciphertext.length = message.length + aeadTagSize
  decrypt_encrypt : ∀ key nonce aad message ciphertext : Bytes,
    Crypto.encrypt key nonce aad message = some ciphertext →
    Crypto.decrypt key nonce aad ciphertext = some message

/-! ## A cipher that meets the laws -/

/-- A message with everything it is sealed under: key, nonce, associated data, message. -/
abbrev Sealing := Bytes × Bytes × Bytes × Bytes

/-- The tag of a sealing that the table lists is its number; every other one has the same tag. -/
def tableTag (table : List Sealing) (x : Sealing) : Bytes :=
  match table.idxOf? x with
  | some i => toLE aeadTagSize i
  | none => List.replicate aeadTagSize 0xff

theorem length_tableTag (table : List Sealing) (x : Sealing) :
    (tableTag table x).length = aeadTagSize := by
  unfold tableTag
  split
  · exact length_toLE _ _
  · exact List.length_replicate

/-- **The laws can be met.**  Messages are not hidden, and a ciphertext opens exactly when its tag
is the one the table gives; so a ciphertext with a listed tag was sealed as listed. -/
@[reducible] def tableCrypto (table : List Sealing) : Crypto where
  hkdfSha384 _ ikm _ := some (.of 64 ikm)
  hmacSha256 _ message := .of 32 message.reverse
  sha384 message := .of 48 message.reverse
  encrypt key nonce aad message := some (message ++ tableTag table (key, nonce, aad, message))
  decrypt key nonce aad ciphertext :=
    let message := ciphertext.take (ciphertext.length - aeadTagSize)
    if message ++ tableTag table (key, nonce, aad, message) = ciphertext then some message else none

theorem tableCrypto_lawful (table : List Sealing) : @LawfulCrypto (tableCrypto table) := by
  let _ := tableCrypto table
  refine ⟨fun key nonce aad message _ => rfl, fun key nonce aad message ciphertext h => ?_,
    fun key nonce aad message ciphertext h => ?_⟩
  · obtain rfl := Option.some.inj h
    rw [List.length_append, length_tableTag]
  · obtain rfl := Option.some.inj h
    have htake : (message ++ tableTag table (key, nonce, aad, message)).take
        ((message ++ tableTag table (key, nonce, aad, message)).length - aeadTagSize) =
          message := by
      rw [List.length_append, length_tableTag, Nat.add_sub_cancel, List.take_left]
    show (if _ then _ else _) = _
    rw [htake, if_pos rfl]

/-- One tag for every sealing, so that no more than the tag is looked at: for runs over whole
sectors. -/
@[reducible] def tagCrypto : Crypto where
  hkdfSha384 _ ikm _ := some (.of 64 ikm)
  hmacSha256 _ message := .of 32 message.reverse
  sha384 message := .of 48 message.reverse
  encrypt _ _ _ message := some (message ++ List.replicate aeadTagSize 0xff)
  decrypt _ _ _ ciphertext :=
    if ciphertext.drop (ciphertext.length - aeadTagSize) = List.replicate aeadTagSize 0xff then
      some (ciphertext.take (ciphertext.length - aeadTagSize))
    else none

theorem tagCrypto_lawful : @LawfulCrypto tagCrypto := by
  let _ := tagCrypto
  refine ⟨fun key nonce aad message _ => rfl, fun key nonce aad message ciphertext h => ?_,
    fun key nonce aad message ciphertext h => ?_⟩
  · obtain rfl := Option.some.inj h
    rw [List.length_append, List.length_replicate]
  · obtain rfl := Option.some.inj h
    have hlen : (message ++ List.replicate aeadTagSize (0xff : UInt8)).length - aeadTagSize =
        message.length := by
      rw [List.length_append, List.length_replicate, Nat.add_sub_cancel]
    show (if _ then _ else _) = _
    rw [hlen, List.drop_left, List.take_left, if_pos rfl]

/-- What opens is the message with its tag. -/
theorem tableCrypto_opens {table : List Sealing} {key nonce aad message ciphertext : Bytes}
    (h : (tableCrypto table).decrypt key nonce aad ciphertext = some message) :
    message ++ tableTag table (key, nonce, aad, message) = ciphertext := by
  have hopen :
    (if ciphertext.take (ciphertext.length - aeadTagSize) ++ tableTag table (key, nonce, aad,
      ciphertext.take (ciphertext.length - aeadTagSize)) = ciphertext
      then some (ciphertext.take (ciphertext.length - aeadTagSize)) else none) = some message := h
  split at hopen
  · next htag =>
    obtain rfl := Option.some.inj hopen
    exact htag
  · exact absurd hopen (by simp)

/-- Where no byte is that of an unlisted tag, what opens is in the table. -/
theorem tableCrypto_mem {table : List Sealing} {key nonce aad message ciphertext : Bytes}
    (h : (tableCrypto table).decrypt key nonce aad ciphertext = some message)
    (hlisted : 0xff ∉ ciphertext) : (key, nonce, aad, message) ∈ table := by
  have htag := tableCrypto_opens h
  unfold tableTag at htag
  split at htag
  · next i hfound =>
    obtain ⟨hi, hrow, -⟩ := List.idxOf?_eq_some_iff.mp hfound
    rw [← hrow]
    exact List.getElem_mem hi
  · have hmem : (0xff : UInt8) ∈ ciphertext := by
      rw [← htag]
      exact List.mem_append_right _ (List.mem_replicate.mpr ⟨by decide, rfl⟩)
    exact absurd hmem hlisted

end OrIsyVra
