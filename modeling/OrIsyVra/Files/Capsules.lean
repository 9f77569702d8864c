import OrIsyVra.Files.Keyfile

/-!
# What a key capsule is

A capsule that `validate_keyfile_bytes` accepts is the header of accepted parameters, a salt and a
nonce, with the sealed key behind it (`validateKeyfileBytes_iff`), and the header is the only
encoding of its fields.  So `unlock_keyfile_bytes` opens the sealed key under exactly the bytes that
stand in front of it (`unlockKeyfileBytes_iff`).

From the two follows that a capsule opens under the password it was made with, and, where the AEAD
opens only what was sealed, that it does not once a byte of it is changed (`keyfile_round_trip`).
-/

namespace OrIsyVra

open ByteString MachineWord

/-! ## The header -/

theorem validateParams_of_decode {bytes : Bytes} {params : KeyfileParams} {salt : FixedBytes 16}
    {nonce : FixedBytes 24} (h : decodeKeyfileHeader bytes = .ok (params, salt, nonce)) :
    validateParams params = .ok () := by
  unfold decodeKeyfileHeader at h
  split at h
  · exact absurd h (by simp)
  split at h
  · exact absurd h (by simp)
  simp only [bind, Except.bind] at h
  split at h
  · exact absurd h (by simp)
  next hvalid =>
  split at h
  · exact absurd h (by simp)
  obtain ⟨rfl, -⟩ := Prod.mk.inj (Except.ok.inj h)
  exact hvalid

/-- **A header is the encoding of what it decodes to.** -/
theorem encodeKeyfileHeader_of_decode {bytes : Bytes} (hlen : bytes.length = keyfileHeaderSize)
    {params : KeyfileParams} {salt : FixedBytes 16} {nonce : FixedBytes 24}
    (h : decodeKeyfileHeader bytes = .ok (params, salt, nonce)) :
    encodeKeyfileHeader params salt nonce = bytes := by
  have hsize : bytes.length = 64 := hlen
  unfold decodeKeyfileHeader at h
  split at h
  · exact absurd h (by simp)
  next hmagic =>
  split at h
  · exact absurd h (by simp)
  next hversion =>
  simp only [bind, Except.bind] at h
  split at h
  · exact absurd h (by simp)
  split at h
  · exact absurd h (by simp)
  next hwrapped =>
  obtain ⟨rfl, hrest⟩ := Prod.mk.inj (Except.ok.inj h)
  obtain ⟨rfl, rfl⟩ := Prod.mk.inj hrest
  have hfield : ∀ off n, off + n ≤ 64 → (slice bytes off n).length = n := fun off n hn =>
    length_slice (hsize ▸ hn)
  have hall : (slices bytes 0 [8, 2, 4, 4, 4, 16, 24, 2]).flatten = bytes := by
    rw [flatten_slices]
    exact slice_zero_of_length hlen
  have hlast : UInt16.ofNat wrappedKeySize = ofLe16 (slice bytes 62 2) := by
    rw [← not_not.mp hwrapped, UInt16.ofNat_toNat]
  refine Eq.trans ?_ hall
  simp only [encodeKeyfileHeader, keyfileHeaderFields, slices, List.flatten_cons, List.flatten_nil,
    List.append_nil]
  rw [hlast, ← not_not.mp hversion, le16_ofLe16 (hfield 8 2 (by omega)),
    le32_ofLe32 (hfield 10 4 (by omega)), le32_ofLe32 (hfield 14 4 (by omega)),
    le32_ofLe32 (hfield 18 4 (by omega)), FixedBytes.val_of (hfield 22 16 (by omega)),
    FixedBytes.val_of (hfield 38 24 (by omega)), le16_ofLe16 (hfield 62 2 (by omega)),
    not_not.mp hmagic]

/-! ## Capsules -/

/-- The parts of a capsule. -/
structure CapsuleOf (bytes : Bytes) (params : KeyfileParams) (salt : FixedBytes 16)
    (nonce : FixedBytes 24) (wrapped : Bytes) : Prop where
  parts : bytes = encodeKeyfileHeader params salt nonce ++ wrapped
  params : validateParams params = .ok ()
  length : wrapped.length = wrappedKeySize

section

variable {bytes wrapped : Bytes} {params : KeyfileParams} {salt : FixedBytes 16}
  {nonce : FixedBytes 24}

namespace CapsuleOf

theorem take (h : CapsuleOf bytes params salt nonce wrapped) :
    bytes.take keyfileHeaderSize = encodeKeyfileHeader params salt nonce := by
  rw [h.parts, List.take_left' (length_encodeKeyfileHeader params salt nonce)]

theorem drop (h : CapsuleOf bytes params salt nonce wrapped) :
    bytes.drop keyfileHeaderSize = wrapped := by
  rw [h.parts, List.drop_left' (length_encodeKeyfileHeader params salt nonce)]

theorem decode (h : CapsuleOf bytes params salt nonce wrapped) :
    decodeKeyfileHeader (bytes.take keyfileHeaderSize) = .ok (params, salt, nonce) := by
  rw [h.take]
  exact decodeKeyfileHeader_encode h.params salt nonce

theorem validate (h : CapsuleOf bytes params salt nonce wrapped) :
    validateKeyfileBytes bytes = .ok () := by
  have hlen : bytes.length = keyfileSize := by
    rw [h.parts, List.length_append, length_encodeKeyfileHeader, h.length]
    rfl
  unfold validateKeyfileBytes
  rw [if_neg (not_not.mpr hlen), h.decode]
  rfl

end CapsuleOf

/-- **What is accepted**: the header of accepted parameters, and a sealed key of its length. -/
theorem validateKeyfileBytes_iff : validateKeyfileBytes bytes = .ok () ↔
    ∃ params salt nonce wrapped, CapsuleOf bytes params salt nonce wrapped := by
  constructor
  · intro h
    unfold validateKeyfileBytes at h
    split at h
    · exact absurd h (by simp)
    next hlen =>
    rw [ne_eq, not_not] at hlen
    rcases hdecode : decodeKeyfileHeader (bytes.take keyfileHeaderSize) with e |
      ⟨params, salt, nonce⟩
    · rw [hdecode] at h
      exact absurd h (by simp [bind, Except.bind])
    have htake : (bytes.take keyfileHeaderSize).length = keyfileHeaderSize := by
      rw [List.length_take, hlen]
      rfl
    refine ⟨params, salt, nonce, bytes.drop keyfileHeaderSize,
      ⟨?_, validateParams_of_decode hdecode, ?_⟩⟩
    · rw [encodeKeyfileHeader_of_decode htake hdecode, List.take_append_drop]
    · rw [List.length_drop, hlen]
      rfl
  · rintro ⟨params, salt, nonce, wrapped, h⟩
    exact h.validate

variable [Crypto] [KeyCrypto] {password : Bytes} {master : MasterKey}

/-- **What unlocks**: a capsule whose sealed key opens, under the key of the password and its own
header, to a key of the right length. -/
theorem unlockKeyfileBytes_iff : unlockKeyfileBytes bytes password = .ok master ↔
    ∃ params salt nonce wrapped key, CapsuleOf bytes params salt nonce wrapped ∧
      deriveWrappingKey password salt params = .ok key ∧
      Crypto.decrypt key.val nonce.val (encodeKeyfileHeader params salt nonce) wrapped =
        some master.val := by
  constructor
  · intro h
    unfold unlockKeyfileBytes at h
    rcases hvalid : validateKeyfileBytes bytes with e | _
    · rw [hvalid] at h
      exact absurd h (by simp [bind, Except.bind])
    obtain ⟨params, salt, nonce, wrapped, hcapsule⟩ := validateKeyfileBytes_iff.mp hvalid
    rcases hkey : deriveWrappingKey password salt params with e | key <;>
      simp only [hvalid, hcapsule.decode, bind, Except.bind, hkey] at h
    · exact absurd h (by simp)
    rw [hcapsule.take, hcapsule.drop] at h
    split at h
    · exact absurd h (by simp)
    next plaintext hopen =>
    split at h
    · exact absurd h (by simp)
    next hlen =>
    refine ⟨params, salt, nonce, wrapped, key, hcapsule, hkey, ?_⟩
    rw [hopen, ← Except.ok.inj h,
      FixedBytes.val_of (show plaintext.length = 48 from not_not.mp hlen)]
  · rintro ⟨params, salt, nonce, wrapped, key, hcapsule, hkey, hopen⟩
    have hlen : ¬master.val.length ≠ Core.keySize := not_not.mpr master.length_val
    unfold unlockKeyfileBytes
    simp only [hcapsule.validate, hcapsule.decode, bind, Except.bind, hkey]
    rw [hcapsule.take, hcapsule.drop, hopen]
    show (if _ then _ else _) = _
    rw [if_neg hlen, FixedBytes.of_val]

/-! ## Making and opening -/

/-- Argon2id derives a key from the password, under all accepted parameters and salts. -/
def DerivesKeys (password : Bytes) : Prop :=
  ∀ (params : KeyfileParams) (salt : FixedBytes 16), validateParams params = .ok () →
    KeyCrypto.argon2idAccepts params = true ∧
      (KeyCrypto.argon2id params password salt.val).isSome = true

omit [Crypto] in
theorem DerivesKeys.derive (h : DerivesKeys password) (hparams : validateParams params = .ok ())
    (salt : FixedBytes 16) : ∃ key, deriveWrappingKey password salt params = .ok key := by
  obtain ⟨haccepts, hsome⟩ := h params salt hparams
  obtain ⟨key, hkey⟩ := Option.isSome_iff_exists.mp hsome
  refine ⟨key, ?_⟩
  unfold deriveWrappingKey
  simp only [hparams, bind, Except.bind, haccepts, Bool.not_true,
    Bool.false_eq_true, if_false, hkey]

/-- **What was made opens**, whatever the password is. -/
theorem unlock_of_encode [LawfulCrypto] {salt : FixedBytes 16} {nonce : FixedBytes 24}
    (h : encodeKeyfileBytes master password params salt nonce = .ok bytes) :
    unlockKeyfileBytes bytes password = .ok master := by
  obtain ⟨-, hparams, key, wrapped, hkey, hwrapped, hlen, rfl⟩ := encodeKeyfileBytes_eq_ok.mp h
  exact unlockKeyfileBytes_iff.mpr ⟨params, salt, nonce, wrapped, key, ⟨rfl, hparams, hlen⟩, hkey,
    LawfulCrypto.decrypt_encrypt _ _ _ _ _ hwrapped⟩

/-- **A capsule can be made**, and it opens under its password. -/
theorem unlock_encodeKeyfileBytes [LawfulCrypto] (hargon : DerivesKeys password)
    (hpassword : 12 ≤ password.length) (hparams : validateParams params = .ok ())
    (master : MasterKey) (salt : FixedBytes 16) (nonce : FixedBytes 24) :
    ∃ bytes, encodeKeyfileBytes master password params salt nonce = .ok bytes ∧
      unlockKeyfileBytes bytes password = .ok master := by
  obtain ⟨key, hkey⟩ := hargon.derive hparams salt
  have hsize : master.val.length < 2 ^ 32 := by
    rw [FixedBytes.length_val]
    decide
  obtain ⟨wrapped, hwrapped⟩ := Option.isSome_iff_exists.mp (LawfulCrypto.encrypt_isSome key.val
    nonce.val (encodeKeyfileHeader params salt nonce) master.val hsize)
  have hlen : wrapped.length = wrappedKeySize := by
    rw [LawfulCrypto.length_encrypt _ _ _ _ _ hwrapped, FixedBytes.length_val]
    rfl
  have hvalid : validatePassword password = .ok () := if_neg (not_lt.mpr hpassword)
  have hmade : encodeKeyfileBytes master password params salt nonce =
      .ok (encodeKeyfileHeader params salt nonce ++ wrapped) :=
    encodeKeyfileBytes_eq_ok.mpr ⟨hvalid, hparams, key, wrapped, hkey, hwrapped, hlen, rfl⟩
  exact ⟨_, hmade, unlock_of_encode hmade⟩

/-! ## Changed capsules -/

/-- No two of the sealings have the same nonce or the same ciphertext. -/
def Apart (log : List Sealing) : Prop :=
  ∀ x ∈ log, ∀ y ∈ log, x.2.1 = y.2.1 ∨
    Crypto.encrypt x.1 x.2.1 x.2.2.1 x.2.2.2 = Crypto.encrypt y.1 y.2.1 y.2.2.1 y.2.2.2 → x = y

/-- The sealed key of the capsule opens only under what it was sealed under. -/
def OpensAsSealed (log : List Sealing) (bytes : Bytes) : Prop :=
  ∀ key nonce aad message : Bytes,
    Crypto.decrypt key nonce aad (bytes.drop keyfileHeaderSize) = some message →
    (key, nonce, aad, message) ∈ log ∧
      Crypto.encrypt key nonce aad message = some (bytes.drop keyfileHeaderSize)

/-- A capsule that unlocks was sealed as a whole. -/
theorem exists_sealing {log : List Sealing} (hsealed : OpensAsSealed log bytes)
    (h : unlockKeyfileBytes bytes password = .ok master) :
    ∃ x ∈ log, Crypto.encrypt x.1 x.2.1 x.2.2.1 x.2.2.2 = some (bytes.drop keyfileHeaderSize) ∧
      x.2.2.1 = bytes.take keyfileHeaderSize ∧
        x.2.1 = slice (bytes.take keyfileHeaderSize) 38 24 := by
  obtain ⟨params, salt, nonce, wrapped, key, hcapsule, -, hopen⟩ := unlockKeyfileBytes_iff.mp h
  rw [← hcapsule.drop] at hopen
  obtain ⟨hmem, hencrypt⟩ := hsealed _ _ _ _ hopen
  refine ⟨_, hmem, hencrypt, hcapsule.take.symm, ?_⟩
  have hnonce : slice (encodeKeyfileHeader params salt nonce) 38 24 = nonce.val :=
    slice_flatten 6 rfl (by simp [keyfileHeaderFields]; rfl) (by simp)
  rw [hcapsule.take, hnonce]

/-- **A changed byte is noticed.** -/
theorem unlock_set {log : List Sealing} (hapart : Apart log) (hsealed : OpensAsSealed log bytes)
    (h : unlockKeyfileBytes bytes password = .ok master) {i : ℕ} {b : UInt8} (hi : i < bytes.length)
    (hb : bytes[i]? ≠ some b) (hsealed' : OpensAsSealed log (bytes.set i b)) (master' : MasterKey) :
    unlockKeyfileBytes (bytes.set i b) password ≠ .ok master' := by
  intro h'
  obtain ⟨x, hx, hencrypt, hhead, hnonce⟩ := exists_sealing hsealed h
  obtain ⟨y, hy, hencrypt', hhead', hnonce'⟩ := exists_sealing hsealed' h'
  have hsame : x = y := by
    refine hapart x hx y hy ?_
    by_cases hheader : i < keyfileHeaderSize
    · -- the sealed key is as it was
      right
      rw [hencrypt, hencrypt', List.drop_set_of_lt hheader]
    · -- the header is as it was, and the nonce in it
      left
      rw [hnonce, hnonce', List.take_set_of_le (not_lt.mp hheader)]
  subst hsame
  have hdrop := Option.some.inj (hencrypt.symm.trans hencrypt')
  have hset : bytes = bytes.set i b := calc
    bytes = bytes.take keyfileHeaderSize ++ bytes.drop keyfileHeaderSize :=
      (List.take_append_drop _ _).symm
    _ = (bytes.set i b).take keyfileHeaderSize ++ (bytes.set i b).drop keyfileHeaderSize := by
      rw [← hhead, ← hhead', hdrop]
    _ = bytes.set i b := List.take_append_drop _ _
  refine hb ?_
  rw [hset, List.getElem?_set_self hi]

/-- **Key capsules.**  A capsule opens under the password it was made with; the header of an
accepted one is the encoding of its fields; and one that opens does not once a byte of it is
changed, when nothing opens but what was sealed. -/
theorem keyfile_round_trip [LawfulCrypto] (hargon : DerivesKeys password) :
    (∀ (master : MasterKey) (params : KeyfileParams) (salt : FixedBytes 16) (nonce : FixedBytes 24),
      12 ≤ password.length → validateParams params = .ok () →
      ∃ bytes, encodeKeyfileBytes master password params salt nonce = .ok bytes ∧
        validateKeyfileBytes bytes = .ok () ∧ unlockKeyfileBytes bytes password = .ok master) ∧
    (∀ bytes, validateKeyfileBytes bytes = .ok () → ∃ params salt nonce,
      decodeKeyfileHeader (bytes.take keyfileHeaderSize) = .ok (params, salt, nonce) ∧
        encodeKeyfileHeader params salt nonce = bytes.take 64) ∧
    ∀ (log : List Sealing) (bytes : Bytes) (master : MasterKey), Apart log →
    OpensAsSealed log bytes →
      unlockKeyfileBytes bytes password = .ok master → bytes.length = 128 ∧
        ∀ (i : ℕ) (b : UInt8), i < 128 → bytes[i]? ≠ some b → OpensAsSealed log (bytes.set i b) →
          ∀ master', unlockKeyfileBytes (bytes.set i b) password ≠ .ok master' := by
  refine ⟨fun master params salt nonce hpassword hparams => ?_, fun bytes hvalid => ?_,
    fun log bytes master hapart hsealed hopen => ?_⟩
  · obtain ⟨bytes, hmade, hopen⟩ :=
      unlock_encodeKeyfileBytes hargon hpassword hparams master salt nonce
    exact ⟨bytes, hmade, validate_encodeKeyfileBytes hmade, hopen⟩
  · obtain ⟨params, salt, nonce, wrapped, hcapsule⟩ := validateKeyfileBytes_iff.mp hvalid
    exact ⟨params, salt, nonce, hcapsule.decode, hcapsule.take.symm⟩
  · obtain ⟨params, salt, nonce, wrapped, key, hcapsule, -⟩ := unlockKeyfileBytes_iff.mp hopen
    have hlen : bytes.length = 128 := by
      rw [hcapsule.parts, List.length_append, length_encodeKeyfileHeader, hcapsule.length]
      rfl
    exact ⟨hlen, fun i b hi hb hsealed' => unlock_set hapart hsealed hopen (hlen ▸ hi) hb hsealed'⟩

end

/-! ## A capsule -/

/-- A key derivation that takes the password and the salt as they are. -/
@[reducible] def plainKeyCrypto : KeyCrypto where
  argon2idAccepts _ := true
  argon2id _ password salt := some (.of 32 (password ++ salt))
  sha256 message := .of 32 message.reverse

/-- The sealing of a capsule under the default parameters, with the sealed key in front of its
tag. -/
def sampleSealing : Sealing :=
  ((FixedBytes.of 32 (ascii "a passphrase" ++ (FixedBytes.of 16 [1]).val)).val,
    (FixedBytes.of 24 [2]).val, encodeKeyfileHeader default (.of 16 [1]) (.of 24 [2]),
    (FixedBytes.of 48 [3]).val)

def sampleCapsule : Bytes :=
  encodeKeyfileHeader default (.of 16 [1]) (.of 24 [2]) ++
    ((FixedBytes.of 48 [3]).val ++ List.replicate aeadTagSize 0)

theorem opensAsSealed_sample {bytes : Bytes} (h : 0xff ∉ bytes) :
    @OpensAsSealed (tableCrypto [sampleSealing]) [sampleSealing] bytes := by
  let _ := tableCrypto [sampleSealing]
  intro key nonce aad message hopen
  have hlisted : 0xff ∉ bytes.drop keyfileHeaderSize := fun hmem => h (List.mem_of_mem_drop hmem)
  exact ⟨tableCrypto_mem hopen hlisted, congrArg some (tableCrypto_opens hopen)⟩

/-- It is made, it opens, and with another first byte of the sealed key it does not. -/
theorem keyfile_round_trip_sample :
    let _ := tableCrypto [sampleSealing]
    let _ := plainKeyCrypto
    (∃ bytes, encodeKeyfileBytes (.of 48 [3]) (ascii "a passphrase") default (.of 16 [1])
        (.of 24 [2]) = .ok bytes ∧ validateKeyfileBytes bytes = .ok () ∧
        unlockKeyfileBytes bytes (ascii "a passphrase") = .ok (.of 48 [3])) ∧
      unlockKeyfileBytes sampleCapsule (ascii "a passphrase") = .ok (.of 48 [3]) ∧
      ∀ master, unlockKeyfileBytes (sampleCapsule.set 64 9)
        (ascii "a passphrase") ≠ .ok master := by
  let _ := tableCrypto [sampleSealing]
  let _ := plainKeyCrypto
  have _ := tableCrypto_lawful [sampleSealing]
  have hargon : DerivesKeys (ascii "a passphrase") := fun _ _ _ => ⟨rfl, rfl⟩
  obtain ⟨hmade, -, hchanged⟩ := keyfile_round_trip hargon
  have hapart : Apart [sampleSealing] := by
    intro x hx y hy _
    rw [List.mem_singleton.mp hx, List.mem_singleton.mp hy]
  have hopen : unlockKeyfileBytes sampleCapsule (ascii "a passphrase") = .ok (.of 48 [3]) := by
    decide +kernel
  obtain ⟨-, hnoticed⟩ := hchanged [sampleSealing] sampleCapsule (.of 48 [3]) hapart
    (opensAsSealed_sample (by decide)) hopen
  exact ⟨hmade (.of 48 [3]) default (.of 16 [1]) (.of 24 [2]) (by decide) validateParams_default,
    hopen, hnoticed 64 9 (by decide) (by decide) (opensAsSealed_sample (by decide))⟩

end OrIsyVra
