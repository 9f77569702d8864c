import OrIsyVra.Files.Keycard

/-!
# The PIN card

A PIN card is a key card whose password is a random secret and a PIN, with a marker chunk in the
PNG.  The secret is kept in a binding, protected for the Windows user, under the fingerprint of the
card.

The errors of the source are texts; `PinError` keeps what a text is made from.  What the operating
system is asked for is in `Platform`: whether it is Windows, where the bindings are, and the
protection of data for the current user.
-/

namespace OrIsyVra

open ByteString MachineWord FaultProgram FileSystem
open DurableFile (IoFailure IoError)

namespace PinCard

/-! ## Errors and platform -/

inductive PinError where
  | text (message : String)
  | io (failure : IoFailure)
  | core (error : Error)
  deriving DecidableEq, Repr

instance : IoError PinError := ⟨.io⟩

abbrev PinProg := Prog (Host Path) PinError

structure Platform where
  windows : Bool
  appdata : Option Path
  /-- `protect_current_user`; the error is the number of the API error. -/
  protect : Bytes → Except UInt32 Bytes

/-! ## Constants -/

def bindingMagic : Bytes := ascii "OYVPIN1\x00"
def pinChunkType : Bytes := ascii "orPn"
def pinChunkData : Bytes := ascii "OYVPIN1\x00\x01\x00\x00\x00"

/-! ## PINs and fingerprints -/

def pinIsValid (pin : String) : Bool :=
  (ascii pin).length == 4 && (ascii pin).all fun value => 0x30 ≤ value && value ≤ 0x39

def validatePin (pin : String) : Except PinError Unit :=
  if pinIsValid pin then .ok () else .error (.text "PIN must contain exactly four digits")

def isHexDigit (value : UInt8) : Bool :=
  0x30 ≤ value && value ≤ 0x39 || 0x41 ≤ value && value ≤ 0x46 || 0x61 ≤ value && value ≤ 0x66

def validateCardId (cardId : String) : Except PinError Unit :=
  if (ascii cardId).length == 16 && (ascii cardId).all isHexDigit then .ok ()
  else .error (.text "invalid visual-key fingerprint")

def bindingRoot (platform : Platform) : Except PinError Path :=
  if platform.windows then
    match platform.appdata with
    | none => .error (.text "APPDATA is unavailable for PIN-card storage")
    | some base => .ok ((base.join "OrIsyVra").join "pin-cards")
  else .error (.text "device-bound PIN cards are currently available on Windows only")

def bindingPath (platform : Platform) (cardId : String) : Except PinError Path := do
  validateCardId cardId
  let root ← bindingRoot platform
  .ok (root.join (cardId.toUpper ++ ".dpapi"))

def credential (deviceSecret : FixedBytes 32) (pin : String) : Bytes :=
  ascii "OrIsyVra/device-pin/v1\x00" ++ (deviceSecret.val ++ ascii pin)

/-! ## Writing -/

def hexLower : List Char := "0123456789abcdef".toList

/-- Sixteen hexadecimal digits. -/
def hex16 (value : UInt64) : String :=
  String.ofList ((List.range 16).reverse.map fun i => hexLower.getD (value.toNat / 16 ^ i % 16) '0')

/-- The name an attempt tries, with the number drawn for it. -/
def temporaryPath (parent : Path) (draws : ℕ → UInt64) (attempt : ℕ) : Path :=
  parent.join (".orisyvra-pin-" ++ hex16 (draws attempt ^^^ UInt64.ofNat attempt) ++ ".tmp")

/-- The attempts that are left. -/
def tempfileAttempts (parent : Path) (draws : ℕ → UInt64) : ℕ → ℕ → PinProg Path
  | 0, _ => Prog.fail (.text "could not create temporary PIN-card file")
  | left + 1, attempt => do
    let path := temporaryPath parent draws attempt
    match ← (Prog.attempt (createNew path) : PinProg (Except PinError Unit)) with
    | .ok () => pure path
    | .error (.io .alreadyExists) => tempfileAttempts parent draws left (attempt + 1)
    | .error e => Prog.fail e

def tempfilePath (parent : Path) (draws : ℕ → UInt64) : PinProg Path :=
  tempfileAttempts parent draws 128 0

/-- Only a rename that fails takes the temporary with it. -/
def writeAtomic (draws : ℕ → UInt64) (bytes : Bytes) (output : Path) (overwrite : Bool) :
    PinProg Unit := do
  refuseExisting (.text ("output already exists: " ++ output.display)) output overwrite
  makeDirs
  let temporary ← tempfilePath output.parent draws
  write temporary bytes
  sync temporary
  clearOutput output overwrite
  dropping temporary (rename temporary output)

/-! ## The marker -/

def markerPresent (png : Bytes) : Bool :=
  Png.startsWith png Png.signature &&
    match Png.findChunk png pinChunkType with
    | .found cursor =>
      Png.chunkData png cursor == pinChunkData &&
        Png.chunkCrc png cursor == Png.crc32 (pinChunkType ++ Png.chunkData png cursor)
    | _ => false

def addPinMarker (png : Bytes) : Except PinError Bytes :=
  if markerPresent png then .ok png
  else if !Png.startsWith png Png.signature then .error (.text "PIN visual key is not a PNG")
  else
    match Png.insertChunk png (Png.chunk pinChunkType pinChunkData) with
    | .truncated => .error (.text "truncated PNG")
    | .noEnd => .error (.text "PNG IEND chunk was not found")
    | .done output => .ok output

/-- **A marked card carries the marker**, when it had no chunk of that type before. -/
theorem markerPresent_addPinMarker {png output : Bytes} (h : addPinMarker png = .ok output)
    (habsent : Png.findChunk png pinChunkType = .absent) : markerPresent output = true := by
  unfold addPinMarker at h
  split at h
  · next hpresent =>
    rw [markerPresent, habsent, Bool.and_false] at hpresent
    exact absurd hpresent Bool.false_ne_true
  split at h
  · exact absurd h (by simp)
  next hsignature =>
  split at h
  · exact absurd h (by simp)
  · exact absurd h (by simp)
  next hdone =>
  obtain rfl := Except.ok.inj h
  have hstarts : Png.startsWith png Png.signature = true := by
    simpa using hsignature
  obtain ⟨hstarts', cursor, hfound, hdata, hcrc⟩ :=
    Png.findChunk_insertChunk hstarts (by decide) (by decide) habsent hdone
  rw [markerPresent, hstarts', hfound, Bool.true_and]
  dsimp only
  rw [hdata, hcrc, beq_self_eq_true, beq_self_eq_true, Bool.and_self]

def markPinCard (draws : ℕ → UInt64) (path : Path) : PinProg Unit := do
  let original ← readFile path
  let marked ← Prog.ofExcept (addPinMarker original)
  writeAtomic draws marked path true

/-! ## The binding -/

def storeBinding (platform : Platform) (draws : ℕ → UInt64) (cardId : String)
    (deviceSecret : FixedBytes 32) : PinProg Unit := do
  let path ← Prog.ofExcept (bindingPath platform cardId)
  makeDirs
  match platform.protect (bindingMagic ++ deviceSecret.val) with
  | .error code => Prog.fail (.text ("Windows API error " ++ toString code))
  | .ok bytes => writeAtomic draws bytes path true

/-! ## Creating a PIN card -/

/-- What both ways to create a PIN card draw. -/
structure PinDraws where
  deviceSecret : FixedBytes 32
  markTemporary : ℕ → UInt64
  bindingTemporary : ℕ → UInt64

section

variable [KeyCrypto] [CardImaging]

/-- The five steps, the first of which exports a key card under the given password. -/
def cardSteps (exportCard : (password : Bytes) → FileProg Keycard.KeyCardInfo) (platform : Platform)
    (draws : PinDraws) (output : Path) (pin : String) : PinProg Keycard.KeyCardInfo := do
  let _ ← Prog.mapError .core (exportCard (credential draws.deviceSecret pin))
  markPinCard draws.markTemporary output
  let info ← Prog.mapError .core (Keycard.keySourceInfo output)
  storeBinding platform draws.bindingTemporary info.cardId draws.deviceSecret
  pure info

/-- The frame of both: the checks before anything is done, the steps, and what is done about an
error. -/
def createCard (exportCard : (password : Bytes) → FileProg Keycard.KeyCardInfo)
    (platform : Platform) (draws : PinDraws) (output : Path) (pin : String) :
    PinProg Keycard.KeyCardInfo := do
  Prog.ofExcept (validatePin pin)
  if !platform.windows then
    Prog.fail (.text "device-bound PIN cards are currently available on Windows only")
  else do
    let result ← (Prog.attempt (cardSteps exportCard platform draws output pin) :
      PinProg (Except PinError _))
    match result with
    | .ok info => pure info
    | .error e => do
      let _ ← (Prog.attempt (remove output) : PinProg (Except PinError Unit))
      Prog.fail e

variable [Crypto]

def createPinCard (platform : Platform) (draws : PinDraws) (capsule : Keycard.CapsuleDraws)
    (output : Path) (pin : String) (params : KeyfileParams) (overwrite : Bool) :
    PinProg Keycard.KeyCardInfo :=
  createCard (fun password => Keycard.createKeycard capsule output password params overwrite)
    platform draws output pin

def createPinCardFromMaster (platform : Platform) (draws : PinDraws) (cardTemporary : String)
    (salt : FixedBytes 16) (nonce : FixedBytes 24) (master : MasterKey) (output : Path)
    (pin : String) (params : KeyfileParams) (overwrite : Bool) : PinProg Keycard.KeyCardInfo :=
  createCard (fun password => Keycard.exportRecoveryKeycardFromMaster cardTemporary master password
    params salt nonce output overwrite) platform draws output pin

end

end PinCard
end OrIsyVra
