import OrIsyVra.Files.Keyfile
import OrIsyVra.Files.Png

/-!
# The visual key card

A key card is a PNG with a key capsule in a private chunk, or, on request, a PDF with the capsule in
a QR code.  The drawing, the image formats and the QR codes come from other crates (`CardImaging`);
what is put into the PNG and what is taken out of it is here.
-/

namespace OrIsyVra

open ByteString MachineWord FaultProgram FileSystem

/-- The image crates, as far as a card depends on them. -/
class CardImaging where
  /-- The card drawn for a capsule, encoded as a PNG. -/
  encodePng : Bytes → Except Error Bytes
  /-- What follows the first line of the PDF drawn for a capsule. -/
  pdfBody : Bytes → Except Error Bytes
  /-- The texts of the QR codes found in an image, in order. -/
  qrContents : Bytes → Except Error (List String)
  /-- URL-safe base64 without padding. -/
  base64Decode : String → Option Bytes

namespace Keycard

/-! ## Fingerprints -/

structure KeyCardInfo where
  cardId : String
  deriving DecidableEq, Repr

def hexUpper : List Char := "0123456789ABCDEF".toList

def hexByte (byte : UInt8) : List Char :=
  [hexUpper.getD (byte.toNat / 16) '0', hexUpper.getD (byte.toNat % 16) '0']

def cardId [KeyCrypto] (bytes : Bytes) : String :=
  String.ofList (((KeyCrypto.sha256 bytes).val.take 8).flatMap hexByte)

/-! ## The private chunk -/

def cardPrefix : String := "ORISYVRA-CARD1:"
def keyChunkType : Bytes := ascii "orKY"
def keyChunkMagic : Bytes := ascii "OYVPKY1\x00"

def buildKeyChunk [KeyCrypto] (keyfile : Bytes) : Except Error Bytes := do
  validateKeyfileBytes keyfile
  if 2 ^ 16 ≤ keyfile.length then .error (.invalidInput "protected key capsule is too large")
  else
    .ok (keyChunkMagic ++
      (le16 (UInt16.ofNat keyfile.length) ++ (keyfile ++ (KeyCrypto.sha256 keyfile).val)))

def injectKeyChunk [KeyCrypto] (png keyfile : Bytes) : Except Error Bytes :=
  if !Png.startsWith png Png.signature then
    .error (.image "encoder did not produce a PNG image")
  else do
    let data ← buildKeyChunk keyfile
    match Png.insertChunk png (Png.chunk keyChunkType data) with
    | .truncated => .error .keyCardDecode
    | .noEnd => .error (.image "PNG IEND chunk was not found")
    | .done output => .ok output

/-- The capsule in the data of a key chunk. -/
def parseKeyChunk [KeyCrypto] (data : Bytes) : Except Error Bytes :=
  if data.length < keyChunkMagic.length + 2 + 32 ∨
    data.take keyChunkMagic.length ≠ keyChunkMagic then
    .error .keyCardDecode
  else
    let keyLength := (ofLe16 (slice data keyChunkMagic.length 2)).toNat
    let keyStart := keyChunkMagic.length + 2
    let keyEnd := keyStart + keyLength
    if keyEnd + 32 ≠ data.length then .error .keyCardDecode
    else
      let keyfile := slice data keyStart keyLength
      if (KeyCrypto.sha256 keyfile).val ≠ data.drop keyEnd then .error .keyCardDecode
      else do
        validateKeyfileBytes keyfile
        .ok keyfile

def extractKeyChunk [KeyCrypto] (png : Bytes) : Except Error (Option Bytes) :=
  if !Png.startsWith png Png.signature then .ok none
  else
    match Png.findChunk png keyChunkType with
    | .truncated => .error .keyCardDecode
    | .absent => .ok none
    | .found cursor => do
      let keyfile ← parseKeyChunk (Png.chunkData png cursor)
      .ok (some keyfile)

/-! ## Reading a card -/

section

variable [KeyCrypto] [CardImaging]

def decodeQrKeycard (image : Bytes) : Except Error Bytes := do
  let contents ← CardImaging.qrContents image
  match contents.find? (fun content => cardPrefix.toList.isPrefixOf content.toList) with
  | none => .error .keyCardDecode
  | some content =>
    match CardImaging.base64Decode (content.drop cardPrefix.length).toString with
    | none => .error .keyCardDecode
    | some decoded => do
      validateKeyfileBytes decoded
      .ok decoded

def decodeKeycardImage (image : Bytes) : Except Error Bytes := do
  match ← extractKeyChunk image with
  | some keyfile => .ok keyfile
  | none => decodeQrKeycard image

/-- The capsule in the bytes of a key source, a card or a capsule itself. -/
def capsuleOf (bytes : Bytes) : Except Error Bytes :=
  if Png.startsWith bytes Png.signature then decodeKeycardImage bytes
  else do
    validateKeyfileBytes bytes
    .ok bytes

def sourceBytes (source : Path) : FileProg Bytes := do
  let bytes ← readFile source
  Prog.ofExcept (capsuleOf bytes)

def keySourceInfo (source : Path) : FileProg KeyCardInfo := do
  let bytes ← sourceBytes source
  pure ⟨cardId bytes⟩

/-! ## Writing a card -/

omit [KeyCrypto] [CardImaging] in
def writeAtomic (name : String) (bytes : Bytes) (output : Path) (overwrite : Bool) :
    FileProg Unit :=
  writeThroughTemporary (.outputExists output.display) name bytes output overwrite

def renderPngCard (keyfile : Bytes) : Except Error (Bytes × KeyCardInfo) := do
  validateKeyfileBytes keyfile
  let png ← CardImaging.encodePng keyfile
  let card ← injectKeyChunk png keyfile
  .ok (card, ⟨cardId keyfile⟩)

def renderPdfCard (keyfile : Bytes) : Except Error (Bytes × KeyCardInfo) := do
  validateKeyfileBytes keyfile
  let body ← CardImaging.pdfBody keyfile
  .ok (ascii "%PDF-1.4\n" ++ body, ⟨cardId keyfile⟩)

/-- The characters behind the last dot of a file name that has one behind its first character. -/
def extension (name : String) : Option (List Char) :=
  let backwards := name.toList.reverse
  match backwards.dropWhile (· != '.') with
  | [] => none
  | [_] => none
  | _ => if name = ".." then none else some (backwards.takeWhile (· != '.')).reverse

def isPdf (output : Path) : Bool :=
  (output.getLast?.bind extension).map (·.map Char.toLower) == some ['p', 'd', 'f']

def exportBytes (name : String) (keyfile : Bytes) (output : Path) (overwrite : Bool) :
    FileProg KeyCardInfo := do
  let (card, info) ←
    Prog.ofExcept (if isPdf output then renderPdfCard keyfile else renderPngCard keyfile)
  writeAtomic name card output overwrite
  pure info

def exportKeycard (name : String) (source output : Path) (overwrite : Bool) :
    FileProg KeyCardInfo := do
  let keyfile ← sourceBytes source
  exportBytes name keyfile output overwrite

omit [KeyCrypto] [CardImaging] in
/-- The directory goes with everything in it. -/
def removeTree (directory : Path) : FileProg Unit :=
  change fun files => .ok fun p => if directory.isPrefixOf p then none else files p

/-- What `create_keycard` draws: the temporary directory, the names of two temporaries, and a
capsule. -/
structure CapsuleDraws where
  directory : Path
  capsuleTemporary : String
  cardTemporary : String
  master : MasterKey
  salt : FixedBytes 16
  nonce : FixedBytes 24

variable [Crypto]

def createKeycard (draws : CapsuleDraws) (output : Path) (password : Bytes) (params : KeyfileParams)
    (overwrite : Bool) : FileProg KeyCardInfo := do
  makeDirs
  let key := draws.directory.join "visual-key.orisyvra-key"
  let body : FileProg KeyCardInfo := do
    createKeyfile draws.capsuleTemporary key password params draws.master
      draws.salt draws.nonce false
    exportKeycard draws.cardTemporary key output overwrite
  let result ← (Prog.attempt body : FileProg (Except Error KeyCardInfo))
  let _ ← (Prog.attempt (removeTree draws.directory) : FileProg (Except Error Unit))
  Prog.ofExcept result

def exportRecoveryKeycardFromMaster (name : String) (master : MasterKey) (recoveryPassword : Bytes)
    (params : KeyfileParams) (salt : FixedBytes 16) (nonce : FixedBytes 24) (output : Path)
    (overwrite : Bool) : FileProg KeyCardInfo := do
  let bytes ← Prog.ofExcept (encodeKeyfileBytes master recoveryPassword params salt nonce)
  exportBytes name bytes output overwrite

def exportRecoveryKeycard (name : String) (source : Path) (currentPassword recoveryPassword : Bytes)
    (params : KeyfileParams) (salt : FixedBytes 16) (nonce : FixedBytes 24) (output : Path)
    (overwrite : Bool) : FileProg KeyCardInfo := do
  let bytes ← sourceBytes source
  let master ← Prog.ofExcept (unlockKeyfileBytes bytes currentPassword)
  exportRecoveryKeycardFromMaster name master recoveryPassword params salt nonce output overwrite

omit [Crypto] in
def importKeycard (name : String) (input outputKeyfile : Path) (overwrite : Bool) :
    FileProg KeyCardInfo := do
  let image ← readFile input
  let keyfile ← Prog.ofExcept (decodeKeycardImage image)
  writeKeyfileBytes name outputKeyfile keyfile overwrite
  pure ⟨cardId keyfile⟩

end

end Keycard
end OrIsyVra
