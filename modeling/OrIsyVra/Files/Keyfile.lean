import OrIsyVra.Core.Prf
import OrIsyVra.Crypto
import OrIsyVra.Files.Output
import OrIsyVra.Library.MachineWord

/-!
# The key capsule

A key capsule is a master key sealed under a password: a header with the Argon2id parameters, a salt
and a nonce, and the sealed key.  `validate_keyfile_bytes` is all a program may ask of a capsule it
cannot open; everything that writes a capsule, or a card with one in it, asks it first.

Argon2id and SHA-256 come from other crates and are parameters (`KeyCrypto`).
-/

namespace OrIsyVra

open ByteString MachineWord FaultProgram FileSystem

/-! ## Constants -/

def keyMagic : Bytes := ascii "OYVKEY1\x00"
def keyVersion : UInt16 := 1
def wrappedKeySize : ℕ := Core.keySize + 16
def keyfileHeaderSize : ℕ := 64
def keyfileSize : ℕ := keyfileHeaderSize + wrappedKeySize

/-- A master key. -/
abbrev MasterKey := FixedBytes 48

/-! ## Parameters -/

structure KeyfileParams where
  memoryKib : UInt32
  iterations : UInt32
  parallelism : UInt32
  deriving DecidableEq, Repr

instance : Inhabited KeyfileParams := ⟨64 * 1024, 3, 1⟩

/-- The primitives of the `argon2` and `sha2` crates that only the key files use. -/
class KeyCrypto where
  /-- The parameters are ones the crate accepts. -/
  argon2idAccepts : KeyfileParams → Bool
  /-- Argon2id with a 32-byte output. -/
  argon2id : (params : KeyfileParams) → (password salt : Bytes) → Option (FixedBytes 32)
  sha256 : Bytes → FixedBytes 32

def validatePassword (password : Bytes) : Except Error Unit :=
  if password.length < 12 then .error (.invalidInput "passphrase must contain at least 12 bytes")
  else .ok ()

def validateParams (params : KeyfileParams) : Except Error Unit :=
  if params.memoryKib < 8 * 1024 ∨ params.memoryKib > 1024 * 1024 then
    .error (.invalidInput "Argon2 memory must be between 8192 KiB and 1048576 KiB")
  else if params.iterations = 0 ∨ params.iterations > 32 then
    .error (.invalidInput "Argon2 iterations must be between 1 and 32")
  else if params.parallelism = 0 ∨ params.parallelism > 16 then
    .error (.invalidInput "Argon2 parallelism must be between 1 and 16")
  else .ok ()

theorem validateParams_default : validateParams default = .ok () := by decide

/-! ## The header -/

def keyfileHeaderFields (params : KeyfileParams) (salt : FixedBytes 16) (nonce : FixedBytes 24) :
    List Bytes :=
  [keyMagic, le16 keyVersion, le32 params.memoryKib, le32 params.iterations,
    le32 params.parallelism, salt.val, nonce.val, le16 (UInt16.ofNat wrappedKeySize)]

def encodeKeyfileHeader (params : KeyfileParams) (salt : FixedBytes 16) (nonce : FixedBytes 24) :
    Bytes :=
  (keyfileHeaderFields params salt nonce).flatten

theorem length_encodeKeyfileHeader (params : KeyfileParams) (salt : FixedBytes 16)
    (nonce : FixedBytes 24) :
    (encodeKeyfileHeader params salt nonce).length = keyfileHeaderSize := by
  rw [encodeKeyfileHeader, List.length_flatten]
  simp only [keyfileHeaderFields, List.map_cons, List.map_nil, length_le16, length_le32,
    FixedBytes.length_val]
  rfl

def decodeKeyfileHeader (bytes : Bytes) :
    Except Error (KeyfileParams × FixedBytes 16 × FixedBytes 24) := do
  if slice bytes 0 8 ≠ keyMagic then .error (.invalidFormat "not an OrIsyVra key capsule")
  else if ofLe16 (slice bytes 8 2) ≠ keyVersion then
    .error (.invalidFormat "unsupported key capsule version")
  else
    let params : KeyfileParams :=
      ⟨ofLe32 (slice bytes 10 4), ofLe32 (slice bytes 14 4), ofLe32 (slice bytes 18 4)⟩
    validateParams params
    if (ofLe16 (slice bytes 62 2)).toNat ≠ wrappedKeySize then
      .error (.invalidFormat "unexpected wrapped-key length")
    else .ok (params, .of 16 (slice bytes 22 16), .of 24 (slice bytes 38 24))

def validateKeyfileBytes (bytes : Bytes) : Except Error Unit :=
  if bytes.length ≠ keyfileSize then .error (.invalidFormat "unexpected key capsule size")
  else do
    let _ ← decodeKeyfileHeader (bytes.take keyfileHeaderSize)
    pure ()

/-- The decoder takes a header with accepted parameters back apart, whatever comes behind it. -/
theorem decodeKeyfileHeader_encode {params : KeyfileParams}
    (hparams : validateParams params = .ok ())
    (salt : FixedBytes 16) (nonce : FixedBytes 24) :
    decodeKeyfileHeader (encodeKeyfileHeader params salt nonce) = .ok (params, salt, nonce) := by
  have hmagic : slice (encodeKeyfileHeader params salt nonce) 0 8 = keyMagic :=
    slice_flatten 0 rfl rfl rfl
  have hversion : slice (encodeKeyfileHeader params salt nonce) 8 2 = le16 keyVersion :=
    slice_flatten 1 rfl (by simp [keyfileHeaderFields]; rfl) (length_le16 _)
  have hmemory : slice (encodeKeyfileHeader params salt nonce) 10 4 = le32 params.memoryKib :=
    slice_flatten 2 rfl (by simp [keyfileHeaderFields]; rfl) (length_le32 _)
  have hiterations : slice (encodeKeyfileHeader params salt nonce) 14 4 = le32 params.iterations :=
    slice_flatten 3 rfl (by simp [keyfileHeaderFields]; rfl) (length_le32 _)
  have hparallelism : slice (encodeKeyfileHeader params salt nonce) 18 4 =
    le32 params.parallelism :=
    slice_flatten 4 rfl (by simp [keyfileHeaderFields]; rfl) (length_le32 _)
  have hsalt : slice (encodeKeyfileHeader params salt nonce) 22 16 = salt.val :=
    slice_flatten 5 rfl (by simp [keyfileHeaderFields]; rfl) (by simp)
  have hnonce : slice (encodeKeyfileHeader params salt nonce) 38 24 = nonce.val :=
    slice_flatten 6 rfl (by simp [keyfileHeaderFields]; rfl) (by simp)
  have hsize : slice (encodeKeyfileHeader params salt nonce) 62 2 =
      le16 (UInt16.ofNat wrappedKeySize) :=
    slice_flatten 7 rfl (by simp [keyfileHeaderFields]; rfl) (length_le16 _)
  unfold decodeKeyfileHeader
  rw [hmagic, hversion, hmemory, hiterations, hparallelism, hsalt, hnonce, hsize]
  simp only [ofLe16_le16, ofLe32_le32, ne_eq, not_true_eq_false, if_false, FixedBytes.of_val]
  show (do validateParams params; _) = _
  rw [hparams]
  rfl

/-! ## Capsules -/

section

variable [Crypto] [KeyCrypto]

def deriveWrappingKey (password : Bytes) (salt : FixedBytes 16) (params : KeyfileParams) :
    Except Error (FixedBytes 32) := do
  validateParams params
  if !KeyCrypto.argon2idAccepts params then .error (.crypto "invalid Argon2id parameters")
  else
    match KeyCrypto.argon2id params password salt.val with
    | none => .error (.crypto "Argon2id key derivation failed")
    | some key => .ok key

/-- `salt` and `nonce` are what the random generator filled in. -/
def encodeKeyfileBytes (master : MasterKey) (password : Bytes) (params : KeyfileParams)
    (salt : FixedBytes 16) (nonce : FixedBytes 24) : Except Error Bytes := do
  validatePassword password
  validateParams params
  let header := encodeKeyfileHeader params salt nonce
  let wrappingKey ← deriveWrappingKey password salt params
  match Crypto.encrypt wrappingKey.val nonce.val header master.val with
  | none => .error (.crypto "key capsule encryption failed")
  | some wrapped =>
    if wrapped.length ≠ wrappedKeySize then .error (.crypto "unexpected key capsule size")
    else .ok (header ++ wrapped)

def unlockKeyfileBytes (bytes password : Bytes) : Except Error MasterKey := do
  validateKeyfileBytes bytes
  let header := bytes.take keyfileHeaderSize
  let (params, salt, nonce) ← decodeKeyfileHeader header
  let wrappingKey ← deriveWrappingKey password salt params
  match Crypto.decrypt wrappingKey.val nonce.val header (bytes.drop keyfileHeaderSize) with
  | none => .error .authenticationFailed
  | some plaintext =>
    if plaintext.length ≠ Core.keySize then .error (.invalidFormat "unexpected master-key size")
    else .ok (.of 48 plaintext)

/-- When a capsule is made, and what it is. -/
theorem encodeKeyfileBytes_eq_ok {master : MasterKey} {password : Bytes} {params : KeyfileParams}
    {salt : FixedBytes 16} {nonce : FixedBytes 24} {bytes : Bytes} :
    encodeKeyfileBytes master password params salt nonce = .ok bytes ↔
      validatePassword password = .ok () ∧ validateParams params = .ok () ∧ ∃ key wrapped,
        deriveWrappingKey password salt params = .ok key ∧
        Crypto.encrypt key.val nonce.val (encodeKeyfileHeader params salt nonce) master.val =
          some wrapped ∧
        wrapped.length = wrappedKeySize ∧
        bytes = encodeKeyfileHeader params salt nonce ++ wrapped := by
  constructor
  · intro h
    obtain ⟨_, hpassword, h⟩ := except_bind_eq_ok.mp h
    obtain ⟨_, hparams, h⟩ := except_bind_eq_ok.mp h
    obtain ⟨key, hkey, h⟩ := except_bind_eq_ok.mp h
    refine ⟨hpassword, hparams, key, ?_⟩
    split at h
    · exact absurd h (by simp)
    next wrapped hwrapped =>
    split at h
    · exact absurd h (by simp)
    next hlen => exact ⟨wrapped, hkey, hwrapped, not_not.mp hlen, (Except.ok.inj h).symm⟩
  · rintro ⟨hpassword, hparams, key, wrapped, hkey, hwrapped, hlen, rfl⟩
    refine except_bind_eq_ok.mpr ⟨(), hpassword, except_bind_eq_ok.mpr ⟨(), hparams, ?_⟩⟩
    refine except_bind_eq_ok.mpr ⟨key, hkey, ?_⟩
    rw [hwrapped]
    exact if_neg (not_not.mpr hlen)

/-- Nothing is sealed that could not be read back. -/
theorem validate_encodeKeyfileBytes {master : MasterKey} {password : Bytes} {params : KeyfileParams}
    {salt : FixedBytes 16} {nonce : FixedBytes 24} {bytes : Bytes}
    (h : encodeKeyfileBytes master password params salt nonce = .ok bytes) :
    validateKeyfileBytes bytes = .ok () := by
  obtain ⟨-, hparams, key, wrapped, -, -, hlen, rfl⟩ := encodeKeyfileBytes_eq_ok.mp h
  have htake : (encodeKeyfileHeader params salt nonce ++ wrapped).take keyfileHeaderSize =
      encodeKeyfileHeader params salt nonce :=
    List.take_left' (length_encodeKeyfileHeader params salt nonce)
  rw [validateKeyfileBytes, if_neg, htake, decodeKeyfileHeader_encode hparams]
  · rfl
  · rw [List.length_append, length_encodeKeyfileHeader, hlen, keyfileSize, not_not]

end

/-! ## Writing a capsule -/

def writeKeyfileBytes (name : String) (path : Path) (bytes : Bytes) (overwrite : Bool) :
    FileProg Unit := do
  Prog.ofExcept (validateKeyfileBytes bytes)
  writeThroughTemporary (.outputExists path.display) name bytes path overwrite

theorem writeKeyfileBytes_valid {bytes : Bytes} (h : validateKeyfileBytes bytes = .ok ())
    (name : String)
    (path : Path) (overwrite : Bool) : writeKeyfileBytes name path bytes overwrite =
      writeThroughTemporary (.outputExists path.display) name bytes path overwrite := by
  unfold writeKeyfileBytes
  rw [h]
  rfl

theorem writeKeyfileBytes_invalid {bytes : Bytes} {e : Error}
    (h : validateKeyfileBytes bytes = .error e)
    (name : String) (path : Path) (overwrite : Bool) :
    writeKeyfileBytes name path bytes overwrite = Prog.fail e := by
  unfold writeKeyfileBytes
  rw [h]
  rfl

/-- `master`, `salt` and `nonce` are what the random generator filled in. -/
def createKeyfile [Crypto] [KeyCrypto] (name : String) (path : Path) (password : Bytes)
    (params : KeyfileParams) (master : MasterKey) (salt : FixedBytes 16) (nonce : FixedBytes 24)
    (overwrite : Bool) : FileProg Unit := do
  Prog.ofExcept (validatePassword password)
  Prog.ofExcept (validateParams params)
  let bytes ← Prog.ofExcept (encodeKeyfileBytes master password params salt nonce)
  writeKeyfileBytes name path bytes overwrite

end OrIsyVra
