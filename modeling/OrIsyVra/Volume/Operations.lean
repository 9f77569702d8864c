import Mathlib.Data.Finmap
import Mathlib.Data.List.Sort
import OrIsyVra.Volume.Sealing

/-!
# The operations of an open volume

`create`, `open`, `read_block`, `write_blocks`, `mark_clean`/`mark_dirty` and `sync`, call by call.
The free functions of the source run on the file alone (`VolumeIO`); the methods run on a `Session`,
the in-memory `Volume` together with its file, so that what a method has changed in memory when it
fails is part of the model.  Every encryption notes what it sealed on the trace of the file.

The log scan is the `while` loop of the source with one unit of fuel for each byte of the committed
log.  A record takes more than one byte, so the fuel never decides where the loop stops
(`scanLoop_fuel`).
-/

namespace OrIsyVra

open ByteString MachineWord DurableFile FaultProgram

namespace Volume

/-! ## State -/

structure RecordIndex where
  offset : UInt64
  generation : UInt64
  plaintextLen : UInt32
  ciphertextLen : UInt32
  deriving DecidableEq, Repr

/-- Where the newest record of each block is. -/
abbrev Index := Finmap fun _ : UInt64 => RecordIndex

/-- One encryption: the three nonce inputs and everything handed to the cipher. -/
structure Sealed where
  domain : Bytes
  first : UInt64
  second : UInt64
  key : Bytes
  nonce : Bytes
  aad : Bytes
  message : Bytes
  deriving DecidableEq, Repr

end Volume

/-- A volume in memory. -/
structure Volume where
  bootstrap : Volume.Bootstrap
  keys : Volume.VolumeKeys
  state : Volume.SuperState
  activeSuper : Volume.Slot
  index : Volume.Index
  deriving DecidableEq

namespace Volume

/-- Programs on the volume file. -/
abbrev VolumeIO := Prog (Device Sealed) VolumeError

/-- An open volume and its file. -/
structure Session where
  volume : Volume
  file : Device Sealed

/-- Run a program on the file of a session. -/
def Session.onFile {α : Type} (p : VolumeIO α) : Prog Session VolumeError α :=
  Prog.zoom Session.file (fun s file => { s with file := file }) p

variable [Crypto]

/-! ## Superblocks and records on the file -/

/-- Encrypt under the nonce of the given inputs. -/
def sealWith (keys : VolumeKeys) (b : Bootstrap) (domain : Bytes) (first second : UInt64)
    (aad message : Bytes) : VolumeIO Bytes :=
  let nonce := deriveNonce keys b domain first second
  match Crypto.encrypt keys.key nonce aad message with
  | none => Prog.fail .authenticationFailed
  | some ciphertext => do
    note ⟨domain, first, second, keys.key, nonce, aad, message⟩
    pure ciphertext

def writeSuperblock (keys : VolumeKeys) (b : Bootstrap) (slot : Slot) (state : SuperState) :
    VolumeIO Unit := do
  let ciphertext ← sealWith keys b (ascii "super") slot.byte.toUInt64 state.generation
    (superAad b slot state.generation) state.encode
  if ciphertext.length + 16 > superSlotSize then
    Prog.fail (.invalidInput "superblock payload exceeds its slot")
  else do
    seek slot.offset
    writeAll (slotBytes state.generation ciphertext)

def readSuperblock (keys : VolumeKeys) (b : Bootstrap) (slot : Slot) :
    VolumeIO (Option SuperState) := do
  seek slot.offset
  let bytes ← readExact superSlotSize
  Prog.ofExcept (decodeSuperblock keys b slot bytes)

def readRecordAt (keys : VolumeKeys) (b : Bootstrap) (offset : UInt64) :
    VolumeIO (RecordHeader × Bytes) := do
  seek offset.toNat
  let headerBytes ← readExact recordHeaderSize
  let header ← Prog.ofExcept (RecordHeader.decode headerBytes)
  Prog.ofExcept (checkHeader b header)
  let ciphertext ← readExact header.ciphertextLen.toNat
  Prog.ofExcept (openRecord keys b header headerBytes ciphertext)

/-! ## The log scan -/

structure ScanState where
  index : Index
  offset : UInt64
  count : UInt64
  deriving DecidableEq

def ScanState.start : ScanState := ⟨∅, logStart, 0⟩

omit [Crypto] in
/-- The generation checks of the scan. -/
def checkGeneration (index : Index) (header : RecordHeader) : Except VolumeError Unit :=
  match index.lookup header.blockIndex with
  | some previous =>
    if header.generation ≤ previous.generation then
      .error (.corrupt "block generation did not increase")
    else .ok ()
  | none =>
    if header.generation = 0 then .error (.corrupt "block generation zero is invalid") else .ok ()

/-- What the scan does with the header of one record. -/
def scanStep (committedEnd : UInt64) (s : ScanState) (header : RecordHeader) :
    Except VolumeError ScanState := do
  checkGeneration s.index header
  match checkedAdd (UInt64.ofNat recordHeaderSize) header.ciphertextLen.toUInt64 with
  | none => .error (.corrupt "block record length overflow")
  | some recordLen =>
    match checkedAdd s.offset recordLen with
    | none => .error (.corrupt "block record offset overflow")
    | some next =>
      if next > committedEnd then .error (.corrupt "block record extends past committed log")
      else .ok {
        index := s.index.insert header.blockIndex
          ⟨s.offset, header.generation, header.plaintextLen, header.ciphertextLen⟩
        offset := next
        count := saturatingAdd s.count 1 }

def scanLoop (keys : VolumeKeys) (b : Bootstrap) (committedEnd : UInt64) :
    ℕ → ScanState → VolumeIO ScanState
  | 0, s => pure s
  | fuel + 1, s =>
    if s.offset < committedEnd then do
      let (header, _) ← readRecordAt keys b s.offset
      let s' ← Prog.ofExcept (scanStep committedEnd s header)
      scanLoop keys b committedEnd fuel s'
    else pure s

def scanLog (keys : VolumeKeys) (b : Bootstrap) (state : SuperState) : VolumeIO Index := do
  let s ← scanLoop keys b state.committedEnd (state.committedEnd.toNat - logStart.toNat) .start
  if s.offset ≠ state.committedEnd ∨ s.count ≠ state.recordCount then
    Prog.fail (.corrupt "committed log accounting mismatch")
  else pure s.index

/-! ## Create and open -/

/-- `volumeId` and `salt` are what the random generator fills in. -/
def createVolume (master : Bytes) (options : VolumeOptions) (volumeId salt : FixedBytes 32) :
    VolumeIO Volume := do
  let b ← Prog.ofExcept (Bootstrap.new options volumeId salt)
  let keys ← Prog.ofExcept (deriveKeys master b)
  openFile true
  writeAll b.encode
  setLen logStart.toNat
  let primary : SuperState := ⟨1, logStart, 0, true⟩
  let backup : SuperState := ⟨0, logStart, 0, true⟩
  writeSuperblock keys b .a primary
  writeSuperblock keys b .b backup
  syncAll
  pure ⟨b, keys, primary, .a, ∅⟩

/-- The superblock of a slot, if it can be read and authenticates. -/
def readCandidate (keys : VolumeKeys) (b : Bootstrap) (slot : Slot) :
    VolumeIO (List (Slot × SuperState)) := do
  match ← Prog.attempt (readSuperblock keys b slot) with
  | .ok (some state) => pure [(slot, state)]
  | _ => pure []

/-- Try the candidates in order; the first whose log scans is opened, and the bytes behind its end
are cut off. -/
def selectCandidate (keys : VolumeKeys) (b : Bootstrap) (fileLen : ℕ) :
    List (Slot × SuperState) → VolumeIO Volume
  | [] => Prog.fail (.corrupt "no authenticated superblock has a valid committed log")
  | (slot, state) :: rest =>
    if state.committedEnd.toNat > fileLen then selectCandidate keys b fileLen rest
    else do
      match ← Prog.attempt (scanLog keys b state) with
      | .error _ => selectCandidate keys b fileLen rest
      | .ok index =>
        if fileLen > state.committedEnd.toNat then do
          setLen state.committedEnd.toNat
          syncAll
          pure ⟨b, keys, state, slot, index⟩
        else pure ⟨b, keys, state, slot, index⟩

/-- Descending by generation; equal generations keep their order. -/
def sortCandidates (candidates : List (Slot × SuperState)) : List (Slot × SuperState) :=
  candidates.insertionSort fun left right => right.2.generation ≤ left.2.generation

def openVolume (master : Bytes) : VolumeIO Volume := do
  openFile false
  let bytes ← readExact bootstrapSize
  let b ← Prog.ofExcept (Bootstrap.decode bytes)
  let keys ← Prog.ofExcept (deriveKeys master b)
  let first ← readCandidate keys b .a
  let second ← readCandidate keys b .b
  let candidates := first ++ second
  if candidates.isEmpty then Prog.fail .authenticationFailed
  else do
    let len ← fileLen
    selectCandidate keys b len (sortCandidates candidates)

/-! ## Reading -/

omit [Crypto] in
def validateBlockIndex (b : Bootstrap) (blockIndex : UInt64) : Except VolumeError Unit :=
  if blockIndex ≥ b.blockCount then .error .blockOutOfRange else .ok ()

def readBlock (blockIndex : UInt64) : Prog Session VolumeError (Option Bytes) := do
  let s ← Prog.get
  Prog.ofExcept (validateBlockIndex s.volume.bootstrap blockIndex)
  match s.volume.index.lookup blockIndex with
  | none => pure none
  | some record => do
    let (header, plaintext) ←
      Session.onFile (readRecordAt s.volume.keys s.volume.bootstrap record.offset)
    if header.blockIndex ≠ blockIndex ∨ header.generation ≠ record.generation ∨
        header.plaintextLen ≠ record.plaintextLen ∨ header.ciphertextLen ≠ record.ciphertextLen then
      Prog.fail (.corrupt "block index metadata mismatch")
    else pure (some plaintext)

omit [Crypto] in
def blockGeneration (blockIndex : UInt64) : Prog Session VolumeError (Option UInt64) := do
  let s ← Prog.get
  Prog.ofExcept (validateBlockIndex s.volume.bootstrap blockIndex)
  pure ((s.volume.index.lookup blockIndex).map RecordIndex.generation)

structure VolumeInfo where
  version : UInt16
  logicalCapacity : UInt64
  blockSize : UInt32
  volumeId : FixedBytes 32
  generation : UInt64
  clean : Bool
  recordCount : UInt64
  allocatedBlocks : ℕ
  deriving DecidableEq

def info (v : Volume) : VolumeInfo :=
  ⟨v.bootstrap.version, v.bootstrap.logicalCapacity, v.bootstrap.blockSize, v.bootstrap.volumeId,
    v.state.generation, v.state.clean, v.state.recordCount, v.index.keys.card⟩

/-! ## Writing -/

/-- The checks on a batch, in order; `seen` holds the blocks already met. -/
def validateBatch (b : Bootstrap) : List UInt64 → List (UInt64 × Bytes) → Except VolumeError Unit
  | _, [] => .ok ()
  | seen, (blockIndex, plaintext) :: rest => do
    validateBlockIndex b blockIndex
    if blockIndex ∈ seen then .error (.invalidInput "duplicate block in one transaction")
    else if plaintext.length > b.blockSize.toNat then
      .error (.invalidInput ("block payload exceeds " ++ toString b.blockSize ++ " bytes"))
    else validateBatch b (blockIndex :: seen) rest

def blockGenerationExhausted : VolumeError := .invalidInput "block generation exhausted"
def superGenerationExhausted : VolumeError := .invalidInput "superblock generation exhausted"
def recordCountExhausted : VolumeError := .invalidInput "record count exhausted"

/-- The generation of the next record of a block. -/
def nextGeneration (index : Index) (blockIndex : UInt64) : Except VolumeError UInt64 :=
  match index.lookup blockIndex with
  | some previous =>
    match checkedAdd previous.generation 1 with
    | none => .error blockGenerationExhausted
    | some generation => .ok generation
  | none => .ok 1

/-- The header of the next record of a block. -/
def recordHeader (blockIndex generation : UInt64) (plaintext : Bytes) :
    Except VolumeError RecordHeader :=
  if plaintext.length < 2 ^ 32 then
    if h : plaintext.length + aeadTagSize < 2 ^ 32 then
      .ok ⟨blockIndex, generation, UInt32.ofNat plaintext.length,
        UInt32.ofNat (plaintext.length + aeadTagSize), by
          rw [UInt32.toNat_ofNat_of_lt' h,
            UInt32.toNat_ofNat_of_lt' (lt_of_le_of_lt (Nat.le_add_right _ _) h)]⟩
    else .error (.invalidInput "block length overflow")
  else .error (.invalidInput "block payload is too large")

/-- The file calls that write one sealed record. -/
def writeRecord (offset : UInt64) (header : RecordHeader) (ciphertext : Bytes) : VolumeIO Unit := do
  seek offset.toNat
  writeAll header.encode
  writeAll ciphertext

/-- Seal and write the records of a batch from `nextOffset` on. -/
def appendRecords (v : Volume) :
    UInt64 → List (UInt64 × Bytes) → VolumeIO (List (UInt64 × RecordIndex) × UInt64)
  | nextOffset, [] => pure ([], nextOffset)
  | nextOffset, (blockIndex, plaintext) :: rest => do
    let generation ← Prog.ofExcept (nextGeneration v.index blockIndex)
    let header ← Prog.ofExcept (recordHeader blockIndex generation plaintext)
    let ciphertext ← sealWith v.keys v.bootstrap (ascii "data") blockIndex generation
      (recordAad v.bootstrap header.encode) plaintext
    writeRecord nextOffset header ciphertext
    let next ← Prog.ofExcept <|
      match (checkedAdd nextOffset (UInt64.ofNat recordHeaderSize)).bind
          (checkedAdd · (UInt64.ofNat ciphertext.length)) with
      | none => .error (.invalidInput "volume offset overflow")
      | some next => .ok next
    let (records, last) ← appendRecords v next rest
    pure ((blockIndex, ⟨nextOffset, generation, header.plaintextLen, header.ciphertextLen⟩) ::
      records, last)

/-- The superblock state that commits `added` records up to `committedEnd`. -/
def commitState (state : SuperState) (added : ℕ) (committedEnd : UInt64) :
    Except VolumeError SuperState :=
  if added < 2 ^ 64 then
    match checkedAdd state.generation 1 with
    | none => .error superGenerationExhausted
    | some generation =>
      match checkedAdd state.recordCount (UInt64.ofNat added) with
      | none => .error recordCountExhausted
      | some recordCount => .ok ⟨generation, committedEnd, recordCount, false⟩
  else .error (.invalidInput "too many block updates")

/-- The index with the records of a batch inserted. -/
def insertRecords (index : Index) (records : List (UInt64 × RecordIndex)) : Index :=
  records.foldl (fun index record => index.insert record.1 record.2) index

/-- Commit a batch of blocks with one superblock transition. -/
def writeBlocks (blocks : List (UInt64 × Bytes)) : Prog Session VolumeError (List UInt64) :=
  if blocks.isEmpty then pure []
  else do
    let s ← Prog.get
    let v := s.volume
    Prog.ofExcept (validateBatch v.bootstrap [] blocks)
    let (records, nextOffset) ← Session.onFile (appendRecords v v.state.committedEnd blocks)
    Session.onFile syncData
    let nextState ← Prog.ofExcept (commitState v.state records.length nextOffset)
    Session.onFile (writeSuperblock v.keys v.bootstrap v.activeSuper.other nextState)
    -- memory moves to the new state before the last sync
    Prog.modify fun s => { s with
      volume := { v with
        index := insertRecords v.index records
        state := nextState
        activeSuper := v.activeSuper.other } }
    Session.onFile syncAll
    pure (records.map fun record => record.2.generation)

def writeBlock (blockIndex : UInt64) (plaintext : Bytes) : Prog Session VolumeError UInt64 := do
  match ← writeBlocks [(blockIndex, plaintext)] with
  | generation :: _ => pure generation
  | [] => Prog.fail (.invalidInput "empty block transaction")

/-! ## The clean flag -/

def setCleanState (clean : Bool) : Prog Session VolumeError Unit := do
  let s ← Prog.get
  let v := s.volume
  if v.state.clean = clean then pure ()
  else do
    let nextState : SuperState :=
      { v.state with generation := saturatingAdd v.state.generation 1, clean := clean }
    if nextState.generation = 0 then Prog.fail superGenerationExhausted
    else do
      Session.onFile (writeSuperblock v.keys v.bootstrap v.activeSuper.other nextState)
      Session.onFile syncAll
      Prog.modify fun s => { s with
        volume := { v with state := nextState, activeSuper := v.activeSuper.other } }

def markClean : Prog Session VolumeError Unit := setCleanState true

def markDirty : Prog Session VolumeError Unit := setCleanState false

def sync : Prog Session VolumeError Unit := Session.onFile syncAll

end Volume
end OrIsyVra
