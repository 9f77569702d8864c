import OrIsyVra.Files.CardChunks
import OrIsyVra.Library.CheckedWalk

/-!
# The chunk walkers in machine words

`Keycard` and `PinCard` compute offsets in a PNG on natural numbers.  Here the four functions that
walk the chunks, `extract_key_chunk`, `inject_key_chunk`, `marker_present` and `add_pin_marker`, are
once more, each with its own sums and slices as the source writes them, on a machine whose words
have 32 or 64 bits: a plain `+` may overflow, a `checked_add` answers `None`, and a slice may be out
of range.

A chunk has a length field of 32 bits, so what is added to the cursor is any number below `2 ^ 32`.
Two functions add it by checked sums only.  The other two put a plain `8 +` or `12 +` into the
argument of the checked sum, and on 32 bits that overflows for a length within the last twelve.  So
`chunk_walkers_safe_iff` says when all four are safe: always on 64 bits; and on 32 bits unless the
decomposition of a PNG ends at such a chunk, and no marker stands before it.
-/

namespace OrIsyVra
namespace ChunkWalkers

open ByteString CheckedWalk
open Png (signature endType startsWith chunkLength chunkType chunkData chunkCrc chunkEnd)

/-! ## Machines -/

/-- The bits of a `usize`. -/
inductive Width where
  | thirtyTwo
  | sixtyFour
  deriving DecidableEq, Repr

namespace Width

def bits : Width → ℕ
  | thirtyTwo => 32
  | sixtyFour => 64

/-- The first number that is no word. -/
def top (w : Width) : ℕ := 2 ^ w.bits

end Width

/-- A byte string in memory; no allocation is larger than half the words. -/
structure Buffer (w : Width) where
  bytes : Bytes
  fits : bytes.length < 2 ^ (w.bits - 1)

/-- Half of the words are left behind the end of a string. -/
theorem Buffer.length_add {w : Width} (b : Buffer w) : b.bytes.length + 2 ^ 31 ≤ w.top := by
  have hfits := b.fits
  cases w with
  | thirtyTwo =>
    have htop : Width.top .thirtyTwo = 2 ^ 31 + 2 ^ 31 := rfl
    have hhalf : 2 ^ (Width.bits .thirtyTwo - 1) = 2 ^ 31 := rfl
    omega
  | sixtyFour =>
    have htop : Width.top .sixtyFour = 2 ^ 63 + 2 ^ 63 := rfl
    have hhalf : 2 ^ (Width.bits .sixtyFour - 1) = 2 ^ 63 := rfl
    omega

/-! ## The walkers -/

section

variable (w : Width)

/-- `u32::from_be_bytes(png[cursor..cursor + 4])`. -/
def lengthField (png : Bytes) (cursor : ℕ) : Except Fault ℕ := do
  let field ← sliceAt png cursor (← add w.top cursor 4)
  .ok (Png.ofBe32 field).toNat

/-- `&png[cursor + 4..cursor + 8]`. -/
def typeField (png : Bytes) (cursor : ℕ) : Except Fault Bytes := do
  let start ← add w.top cursor 4
  sliceAt png start (← add w.top cursor 8)

/-- A loop over the chunks. -/
def walker {σ α : Type} (png : Bytes) (body : ℕ → σ → Except Fault (Pass σ α)) (finish : σ → α) :
    Loop σ α :=
  ⟨w.top, png.length, 12, body, finish⟩

/-! ### `extract_key_chunk` -/

/-- The capsule in the data of a key chunk. -/
def parseKeyChunk [KeyCrypto] (data : Bytes) : Except Fault (Except Error Bytes) := do
  let lengthOffset := Keycard.keyChunkMagic.length
  let smallest ← add w.top (← add w.top lengthOffset 2) 32
  if data.length < smallest then .ok (.error .keyCardDecode)
  else do
    let magic ← sliceAt data 0 lengthOffset
    if magic ≠ Keycard.keyChunkMagic then .ok (.error .keyCardDecode)
    else do
      let field ← sliceAt data lengthOffset (← add w.top lengthOffset 2)
      let keyLength := (MachineWord.ofLe16 field).toNat
      let keyStart ← add w.top lengthOffset 2
      match checkedAdd w.top keyStart keyLength with
      | none => .ok (.error .keyCardDecode)
      | some keyEnd => do
        let size ← add w.top keyEnd 32
        if size ≠ data.length then .ok (.error .keyCardDecode)
        else do
          let keyfile ← sliceAt data keyStart keyEnd
          let expected ← sliceAt data keyEnd data.length
          if (KeyCrypto.sha256 keyfile).val ≠ expected then .ok (.error .keyCardDecode)
          else .ok (do
            validateKeyfileBytes keyfile
            .ok keyfile)

def extractBody [KeyCrypto] (png : Bytes) (cursor : ℕ) (_ : Unit) :
    Except Fault (Pass Unit (Except Error (Option Bytes))) := do
  let length ← lengthField w png cursor
  let dataStart ← add w.top cursor 8
  match checkedAdd w.top dataStart length with
  | none => .ok (.stop (.error .keyCardDecode))
  | some dataEnd =>
    match checkedAdd w.top dataEnd 4 with
    | none => .ok (.stop (.error .keyCardDecode))
    | some stop =>
      if png.length < stop then .ok (.stop (.error .keyCardDecode))
      else do
        let type ← typeField w png cursor
        if type = Keycard.keyChunkType then do
          let data ← sliceAt png dataStart dataEnd
          let keyfile ← parseKeyChunk w data
          .ok (.stop (keyfile.map some))
        else if type = endType then .ok (.leave stop ())
        else .ok (.next stop ())

def extractKeyChunk [KeyCrypto] (png : Bytes) : Trace (Except Error (Option Bytes)) :=
  if !startsWith png signature then .still (.ok (.ok none))
  else (walker w png (extractBody w png) fun _ => .ok none).run png.length signature.length ()

/-! ### `marker_present` -/

def markerBody (png : Bytes) (cursor : ℕ) (_ : Unit) : Except Fault (Pass Unit Bool) := do
  let length ← lengthField w png cursor
  let size ← add w.top 8 length
  match checkedAdd w.top cursor size with
  | none => .ok (.stop false)
  | some dataEnd =>
    match checkedAdd w.top dataEnd 4 with
    | none => .ok (.stop false)
    | some stop =>
      if png.length < stop then .ok (.stop false)
      else do
        let type ← typeField w png cursor
        if type = PinCard.pinChunkType then do
          let data ← sliceAt png (← add w.top cursor 8) dataEnd
          if data ≠ PinCard.pinChunkData then .ok (.stop false)
          else do
            let _capacity ← add w.top 4 data.length
            let stored ← sliceAt png dataEnd stop
            .ok (.stop (Png.ofBe32 stored == Png.crc32 (PinCard.pinChunkType ++ data)))
        else if type = endType then .ok (.leave stop ())
        else .ok (.next stop ())

def markerPresent (png : Bytes) : Trace Bool :=
  if !startsWith png signature then .still (.ok false)
  else (walker w png (markerBody w png) fun _ => false).run png.length signature.length ()

/-! ### `inject_key_chunk` -/

/-- What the copying loops keep. -/
structure Copy where
  output : Bytes
  inserted : Bool

/-- The end of a pass of both copying loops: a new chunk goes in front of `IEND`. -/
def copyChunk {α : Type} (png new : Bytes) (cursor stop : ℕ) (s : Copy) :
    Except Fault (Pass Copy α) := do
  let type ← typeField w png cursor
  let s : Copy := if type = endType ∧ !s.inserted then ⟨s.output ++ new, true⟩ else s
  let copied ← sliceAt png cursor stop
  let s : Copy := ⟨s.output ++ copied, s.inserted⟩
  if type = endType then .ok (.leave stop s) else .ok (.next stop s)

def buildKeyChunk [KeyCrypto] (keyfile : Bytes) : Except Fault (Except Error Bytes) :=
  match validateKeyfileBytes keyfile with
  | .error e => .ok (.error e)
  | .ok () =>
    if 2 ^ 16 ≤ keyfile.length then
      .ok (.error (.invalidInput "protected key capsule is too large"))
    else do
      let digest := (KeyCrypto.sha256 keyfile).val
      let fixed ← add w.top Keycard.keyChunkMagic.length 2
      let _capacity ← add w.top (← add w.top fixed keyfile.length) digest.length
      .ok (.ok (Keycard.keyChunkMagic ++
        (MachineWord.le16 (UInt16.ofNat keyfile.length) ++ (keyfile ++ digest))))

def injectBody (png data : Bytes) (cursor : ℕ) (s : Copy) :
    Except Fault (Pass Copy (Except Error Bytes)) := do
  let length ← lengthField w png cursor
  match (checkedAdd w.top cursor 12).bind fun value => checkedAdd w.top value length with
  | none => .ok (.stop (.error .keyCardDecode))
  | some stop =>
    if png.length < stop then .ok (.stop (.error .keyCardDecode))
    else copyChunk w png (Png.chunk Keycard.keyChunkType data) cursor stop s

def injectFinish (s : Copy) : Except Error Bytes :=
  if !s.inserted then .error (.image "PNG IEND chunk was not found") else .ok s.output

/-- The capacities of the checksum's input and of the output. -/
def injectCapacities (png data : Bytes) : Except Fault Unit := do
  let _checksum ← add w.top 4 data.length
  let _output ← add w.top (← add w.top png.length 12) data.length
  .ok ()

def injectKeyChunk [KeyCrypto] (png keyfile : Bytes) : Trace (Except Error Bytes) :=
  if !startsWith png signature then
    .still (.ok (.error (.image "encoder did not produce a PNG image")))
  else
    .beginning (buildKeyChunk w keyfile) fun built =>
      match built with
      | .error e => .still (.ok (.error e))
      | .ok data =>
        .beginning (injectCapacities w png data) fun _ =>
          (walker w png (injectBody w png data) injectFinish).run png.length signature.length
            ⟨signature, false⟩

/-! ### `add_pin_marker` -/

def addBody (png : Bytes) (cursor : ℕ) (s : Copy) :
    Except Fault (Pass Copy (Except PinCard.PinError Bytes)) := do
  let length ← lengthField w png cursor
  let size ← add w.top 12 length
  match checkedAdd w.top cursor size with
  | none => .ok (.stop (.error (.text "invalid PNG chunk length")))
  | some stop =>
    if png.length < stop then .ok (.stop (.error (.text "truncated PNG")))
    else copyChunk w png (Png.chunk PinCard.pinChunkType PinCard.pinChunkData) cursor stop s

def addFinish (s : Copy) : Except PinCard.PinError Bytes :=
  if !s.inserted then .error (.text "PNG IEND chunk was not found") else .ok s.output

def addCapacities (png : Bytes) : Except Fault Unit := do
  let _checksum ← add w.top 4 PinCard.pinChunkData.length
  let _output ← add w.top (← add w.top png.length PinCard.pinChunkData.length) 12
  .ok ()

def addPinMarker (png : Bytes) : Trace (Except PinCard.PinError Bytes) :=
  .beginning (markerPresent w png).result fun present =>
    if present then .still (.ok (.ok png))
    else if !startsWith png signature then .still
      (.ok (.error (.text "PIN visual key is not a PNG")))
    else
      .beginning (addCapacities w png) fun _ =>
        (walker w png (addBody w png) addFinish).run png.length signature.length ⟨signature, false⟩

end

/-! ## The decomposition of a PNG -/

/-- Where the next chunk starts, behind a chunk that is whole and not `IEND`. -/
def nextChunk (png : Bytes) (cursor : ℕ) : Option ℕ :=
  if chunkEnd png cursor ≤ png.length ∧
    chunkType png cursor ≠ endType then some (chunkEnd png cursor)
  else none

/-- The places where chunks start, behind the signature. -/
def boundaries (png : Bytes) : List ℕ :=
  positions png.length 12 (nextChunk png) png.length signature.length

/-- Some chunk has a length within the last twelve. -/
def Overlong (png : Bytes) : Prop := ∃ c ∈ boundaries png, 2 ^ 32 - 12 ≤ chunkLength png c

/-- The first chunk of the marker's type is whole, with the marker's data and checksum. -/
def Marked (png : Bytes) : Prop :=
  ∃ c, (boundaries png).find? (fun b => chunkType png b = PinCard.pinChunkType) = some c ∧
    chunkEnd png c ≤ png.length ∧ chunkData png c = PinCard.pinChunkData ∧
    chunkCrc png c = Png.crc32 (PinCard.pinChunkType ++ PinCard.pinChunkData)

/-- All four walkers are safe on a string, whatever capsule is to be injected. -/
structure WalkersSafe [KeyCrypto] {w : Width} (png keyfile : Buffer w) : Prop where
  extract : Safe 12 (boundaries png.bytes) (extractKeyChunk w png.bytes)
  inject : Safe 12 (boundaries png.bytes) (injectKeyChunk w png.bytes keyfile.bytes)
  marker : Safe 12 (boundaries png.bytes) (markerPresent w png.bytes)
  add : Safe 12 (boundaries png.bytes) (addPinMarker w png.bytes)

section

variable {w : Width} {png : Bytes} {cursor stop : ℕ}

theorem nextChunk_eq_some : nextChunk png cursor = some stop ↔
    stop = chunkEnd png cursor ∧ chunkEnd png cursor ≤ png.length ∧
    chunkType png cursor ≠ endType := by
  unfold nextChunk
  split
  · next h => exact ⟨fun he => ⟨(Option.some.inj he).symm, h⟩, fun he => by rw [he.1]⟩
  · next h => exact ⟨fun he => absurd he (by simp), fun he => absurd he.2 h⟩

theorem forward_nextChunk (png : Bytes) : Forward png.length 12 (nextChunk png) := by
  intro cursor stop h
  obtain ⟨rfl, hwhole, -⟩ := nextChunk_eq_some.mp h
  exact ⟨by rw [chunkEnd]; omega, hwhole⟩

/-- The fuel is no part of the decomposition. -/
theorem boundaries_fuel (png : Bytes) (extra : ℕ) :
    positions png.length 12 (nextChunk png)
      (png.length + extra) signature.length = boundaries png := by
  induction extra with
  | zero => rfl
  | succ extra ih =>
    have hpos : 0 < signature.length := by decide
    rw [← Nat.add_assoc, positions_fuel (forward_nextChunk png) (by decide) (by omega), ih]

theorem chunkLength_lt (png : Bytes) (cursor : ℕ) : chunkLength png cursor < 2 ^ 32 :=
  UInt32.toNat_lt _

/-- There is a word for every length. -/
theorem Width.le_top (w : Width) : 2 ^ 32 ≤ w.top := by
  cases w
  · exact le_rfl
  · exact Nat.pow_le_pow_right Nat.two_pos (by decide)

/-! ## What one pass does -/

theorem sliceAt_eq_slice {n : ℕ} (h : cursor + n ≤ png.length) :
    sliceAt png cursor (cursor + n) = .ok (slice png cursor n) := by
  rw [sliceAt_eq_ok (Nat.le_add_right _ _) h, Nat.add_sub_cancel_left]
  rfl

variable (hfits : png.length + 2 ^ 31 ≤ w.top) (hroom : cursor + 12 ≤ png.length)

include hfits hroom

theorem lengthField_eq : lengthField w png cursor = .ok (chunkLength png cursor) := by
  rw [lengthField, add_eq_ok (by omega), ok_bind, sliceAt_eq_slice (by omega), ok_bind]
  rfl

theorem typeField_eq : typeField w png cursor = .ok (chunkType png cursor) := by
  have htype : sliceAt png (cursor + 4) (cursor + 4 + 4) = .ok (chunkType png cursor) :=
    sliceAt_eq_slice (by omega)
  rw [typeField, add_eq_ok (by omega), ok_bind, add_eq_ok (by omega), ok_bind]
  exact htype

omit hfits hroom

/-- What a pass of a search does. -/
def searchPass {α : Type} (png wanted : Bytes) (truncated : α) (found : ℕ → α) (cursor : ℕ) :
    Pass Unit α :=
  if png.length < chunkEnd png cursor then .stop truncated
  else if chunkType png cursor = wanted then .stop (found cursor)
  else if chunkType png cursor = endType then .leave (chunkEnd png cursor) ()
  else .next (chunkEnd png cursor) ()

/-- What a pass of an insertion does. -/
def copyPass {α : Type} (png new : Bytes) (truncated : α) (cursor : ℕ) (s : Copy) : Pass Copy α :=
  let copied := slice png cursor (chunkEnd png cursor - cursor)
  if png.length < chunkEnd png cursor then .stop truncated
  else if chunkType png cursor = endType then
    .leave (chunkEnd png cursor)
      ⟨(if s.inserted then s.output else s.output ++ new) ++ copied, true⟩
  else .next (chunkEnd png cursor) ⟨s.output ++ copied, s.inserted⟩

theorem follows_searchPass {α : Type} (wanted : Bytes) (truncated : α) (found : ℕ → α) :
    (searchPass png wanted truncated found cursor).Follows 12 (nextChunk png) cursor := by
  unfold searchPass
  split
  · trivial
  next hwhole =>
  split
  · trivial
  split
  · show cursor + 12 ≤ chunkEnd png cursor
    rw [chunkEnd]
    omega
  next htype => exact nextChunk_eq_some.mpr ⟨rfl, not_lt.mp hwhole, htype⟩

theorem follows_copyPass {α : Type} (new : Bytes) (truncated : α) (s : Copy) :
    (copyPass png new truncated cursor s).Follows 12 (nextChunk png) cursor := by
  unfold copyPass
  dsimp only
  split
  · trivial
  next hwhole =>
  split
  · show cursor + 12 ≤ chunkEnd png cursor
    rw [chunkEnd]
    omega
  next htype => exact nextChunk_eq_some.mpr ⟨rfl, not_lt.mp hwhole, htype⟩

include hfits hroom

theorem copyChunk_eq {α : Type} (new : Bytes) (truncated : α) (s : Copy)
    (hwhole : chunkEnd png cursor ≤ png.length) :
    copyChunk w png new cursor (chunkEnd png cursor) s =
      .ok (copyPass png new truncated cursor s) := by
  have hle : cursor ≤ chunkEnd png cursor := by
    rw [chunkEnd]
    omega
  have hcopied : sliceAt png cursor (chunkEnd png cursor) =
      .ok (slice png cursor (chunkEnd png cursor - cursor)) := sliceAt_eq_ok hle hwhole
  unfold copyChunk copyPass
  rw [typeField_eq hfits hroom, hcopied, ok_bind, ok_bind]
  dsimp only
  rw [if_neg (not_lt.mpr hwhole)]
  by_cases htype : chunkType png cursor = endType
  · cases hinserted : s.inserted <;> simp [htype, hinserted]
  · simp [htype]

/-- The chunk is copied, or it runs past the end. -/
theorem copyChunk_or_cut {α : Type} (new : Bytes) (truncated : α) (s : Copy) :
    (if png.length < chunkEnd png cursor then .ok (.stop truncated)
      else copyChunk w png new cursor (chunkEnd png cursor) s) =
      .ok (copyPass png new truncated cursor s) := by
  rcases lt_or_ge png.length (chunkEnd png cursor) with hcut | hwhole
  · rw [copyPass, if_pos hcut, if_pos hcut]
  · rw [if_neg (not_lt.mpr hwhole), copyChunk_eq hfits hroom _ _ s hwhole]

theorem injectBody_eq (data : Bytes) (s : Copy) : injectBody w png data cursor s =
    .ok (copyPass png (Png.chunk Keycard.keyChunkType data) (.error .keyCardDecode) cursor s) := by
  unfold injectBody
  rw [lengthField_eq hfits hroom, ok_bind, checkedAdd_eq_some (by omega), Option.bind_some]
  change (match checkedAdd w.top (cursor + 12) (chunkLength png cursor) with
    | none => _
    | some stop => _) = _
  rcases lt_or_ge (chunkEnd png cursor) w.top with hend | hend
  swap
  · rw [checkedAdd_eq_none hend, copyPass, if_pos (by omega)]
  rw [checkedAdd_eq_some hend]
  exact copyChunk_or_cut hfits hroom _ _ s

/-- The text of the error tells whether the sum had a word. -/
theorem addBody_eq (hsum : 12 + chunkLength png cursor < w.top) (s : Copy) :
    addBody w png cursor s =
      .ok (copyPass png (Png.chunk PinCard.pinChunkType PinCard.pinChunkData)
        (.error (.text (if chunkEnd png cursor < w.top then "truncated PNG" else
          "invalid PNG chunk length"))) cursor s) := by
  have hassoc : cursor + (12 + chunkLength png cursor) = chunkEnd png cursor :=
    (Nat.add_assoc _ _ _).symm
  unfold addBody
  rw [lengthField_eq hfits hroom, ok_bind, add_eq_ok hsum, ok_bind]
  rcases lt_or_ge (chunkEnd png cursor) w.top with hend | hend
  swap
  · rw [checkedAdd_eq_none (by omega), if_neg (by omega), copyPass, if_pos (by omega)]
  rw [checkedAdd_eq_some (by omega), if_pos hend, hassoc]
  exact copyChunk_or_cut hfits hroom _ _ s

/-- **The plain sum of `add_pin_marker` overflows.** -/
theorem addBody_eq_error (hsum : w.top ≤ 12 + chunkLength png cursor) (s : Copy) :
    addBody w png cursor s = .error .overflow := by
  unfold addBody
  rw [lengthField_eq hfits hroom, ok_bind, add_eq_error hsum, error_bind]

/-- What a search for the marker comes to at a chunk of its type. -/
def isMarker (png : Bytes) (cursor : ℕ) : Bool :=
  chunkData png cursor == PinCard.pinChunkData &&
    chunkCrc png cursor == Png.crc32 (PinCard.pinChunkType ++ chunkData png cursor)

theorem markerBody_eq (hsum : 8 + chunkLength png cursor < w.top) :
    markerBody w png cursor () =
      .ok (searchPass png PinCard.pinChunkType false (isMarker png) cursor) := by
  have hassoc : cursor + (8 + chunkLength png cursor) = cursor + 8 + chunkLength png cursor :=
    (Nat.add_assoc _ _ _).symm
  have hstop : cursor + 8 + chunkLength png cursor + 4 = chunkEnd png cursor := by
    rw [chunkEnd]
    omega
  unfold markerBody
  rw [lengthField_eq hfits hroom, ok_bind, add_eq_ok hsum, ok_bind]
  rcases lt_or_ge (cursor + (8 + chunkLength png cursor)) w.top with hdata | hdata
  swap
  · rw [checkedAdd_eq_none hdata, searchPass, if_pos (by omega)]
  rw [checkedAdd_eq_some hdata, hassoc]
  dsimp only
  rcases lt_or_ge (chunkEnd png cursor) w.top with hend | hend
  swap
  · rw [checkedAdd_eq_none (by omega), searchPass, if_pos (by omega)]
  rw [checkedAdd_eq_some (by omega), hstop]
  dsimp only
  rcases lt_or_ge png.length (chunkEnd png cursor) with hcut | hwhole
  · rw [searchPass, if_pos hcut, if_pos hcut]
  rw [searchPass, if_neg (not_lt.mpr hwhole), if_neg (not_lt.mpr hwhole), typeField_eq hfits hroom,
    ok_bind]
  by_cases htype : chunkType png cursor = PinCard.pinChunkType
  swap
  · rw [if_neg htype, if_neg htype]
    split <;> rfl
  rw [if_pos htype, if_pos htype, add_eq_ok (by omega), ok_bind,
    sliceAt_eq_slice (by omega), ok_bind]
  change (if chunkData png cursor ≠ PinCard.pinChunkData then _ else _) = _
  unfold isMarker
  by_cases hmarker : chunkData png cursor = PinCard.pinChunkData
  swap
  · rw [if_pos hmarker, beq_eq_false_iff_ne.mpr hmarker, Bool.false_and]
  have hcapacity : 4 + PinCard.pinChunkData.length < w.top := by
    have hlen : PinCard.pinChunkData.length = 12 := rfl
    omega
  have hcrc : sliceAt png (cursor + 8 + chunkLength png cursor) (chunkEnd png cursor) =
      .ok (slice png (cursor + 8 + chunkLength png cursor) 4) := by
    rw [← hstop]
    exact sliceAt_eq_slice (by omega)
  have hdata : slice png (cursor + 8) (chunkLength png cursor) = PinCard.pinChunkData := hmarker
  rw [if_neg (not_not.mpr hmarker), hdata, add_eq_ok hcapacity, ok_bind, hcrc, ok_bind, hmarker,
    beq_self_eq_true, Bool.true_and]
  rfl

omit hfits hroom

/-- A capsule is read as `Keycard` reads it: what is added to its places is below `2 ^ 16`. -/
theorem parseKeyChunk_eq [KeyCrypto] (data : Bytes) :
    parseKeyChunk w data = .ok (Keycard.parseKeyChunk data) := by
  have htop := w.le_top
  have hmagic : Keycard.keyChunkMagic.length = 8 := rfl
  unfold parseKeyChunk Keycard.parseKeyChunk
  rw [hmagic]
  dsimp only
  rw [add_eq_ok (by omega), ok_bind, add_eq_ok (by omega), ok_bind]
  rcases lt_or_ge data.length (8 + 2 + 32) with hshort | hlong
  · rw [if_pos hshort, if_pos (Or.inl hshort)]
  have htake : sliceAt data 0 8 = .ok (data.take 8) := sliceAt_eq_ok (Nat.zero_le _) (by omega)
  rw [if_neg (not_lt.mpr hlong), htake, ok_bind]
  by_cases hfirst : data.take 8 = Keycard.keyChunkMagic
  swap
  · rw [if_pos hfirst, if_pos (Or.inr hfirst)]
  have hnot : ¬(data.length < 8 + 2 + 32 ∨ data.take 8 ≠ Keycard.keyChunkMagic) := by
    rw [not_or, not_not]
    exact ⟨not_lt.mpr hlong, hfirst⟩
  have hlength : (MachineWord.ofLe16 (slice data 8 2)).toNat < 2 ^ 16 := UInt16.toNat_lt _
  rw [if_neg (not_not.mpr hfirst), if_neg hnot, ok_bind, sliceAt_eq_slice (by omega),
    ok_bind, ok_bind]
  generalize (MachineWord.ofLe16 (slice data 8 2)).toNat = keyLength at hlength ⊢
  rw [checkedAdd_eq_some (by omega)]
  dsimp only
  rw [add_eq_ok (by omega), ok_bind]
  by_cases hsize : 8 + 2 + keyLength + 32 = data.length
  swap
  · rw [if_pos hsize, if_pos hsize]
  have hdigest : sliceAt data (8 + 2 + keyLength) data.length =
    .ok (data.drop (8 + 2 + keyLength)) := by
    rw [sliceAt_eq_ok (by omega) le_rfl, List.take_of_length_le (by rw [List.length_drop])]
  rw [if_neg (not_not.mpr hsize), if_neg (not_not.mpr hsize), sliceAt_eq_slice (by omega), ok_bind,
    hdigest, ok_bind]
  split <;> rfl

theorem buildKeyChunk_eq [KeyCrypto] (keyfile : Bytes) :
    buildKeyChunk w keyfile = .ok (Keycard.buildKeyChunk keyfile) := by
  have htop := w.le_top
  have hmagic : Keycard.keyChunkMagic.length = 8 := rfl
  unfold buildKeyChunk Keycard.buildKeyChunk
  rcases validateKeyfileBytes keyfile with e | ⟨⟩
  · rfl
  dsimp only [bind, Except.bind]
  split
  · rfl
  · rw [hmagic, FixedBytes.length_val, add_eq_ok (by omega)]
    dsimp only
    rw [add_eq_ok (by omega)]
    dsimp only
    rw [add_eq_ok (by omega)]

include hfits hroom in
theorem extractBody_eq [KeyCrypto] : extractBody w png cursor () =
    .ok (searchPass png Keycard.keyChunkType (.error .keyCardDecode)
      (fun c => (Keycard.parseKeyChunk (chunkData png c)).map some) cursor) := by
  have hstop : cursor + 8 + chunkLength png cursor + 4 = chunkEnd png cursor := by
    rw [chunkEnd]
    omega
  unfold extractBody
  rw [lengthField_eq hfits hroom, ok_bind, add_eq_ok (by omega), ok_bind]
  rcases lt_or_ge (cursor + 8 + chunkLength png cursor) w.top with hdata | hdata
  swap
  · rw [checkedAdd_eq_none hdata, searchPass, if_pos (by omega)]
  rw [checkedAdd_eq_some hdata]
  dsimp only
  rcases lt_or_ge (chunkEnd png cursor) w.top with hend | hend
  swap
  · rw [checkedAdd_eq_none (by omega), searchPass, if_pos (by omega)]
  rw [checkedAdd_eq_some (by omega), hstop]
  dsimp only
  rcases lt_or_ge png.length (chunkEnd png cursor) with hcut | hwhole
  · rw [searchPass, if_pos hcut, if_pos hcut]
  rw [searchPass, if_neg (not_lt.mpr hwhole), if_neg (not_lt.mpr hwhole), typeField_eq hfits hroom,
    ok_bind]
  by_cases htype : chunkType png cursor = Keycard.keyChunkType
  · rw [if_pos htype, if_pos htype, sliceAt_eq_slice (by omega), ok_bind, parseKeyChunk_eq, ok_bind]
    rfl
  · rw [if_neg htype, if_neg htype]
    split <;> rfl

/-! ## What a run returns -/

def ofSearch {α : Type} (truncated absent : α) (found : ℕ → α) : Png.Search → α
  | .truncated => truncated
  | .absent => absent
  | .found c => found c

def ofInsertion {α : Type} (truncated noEnd : α) (done : Bytes → α) : Png.Insertion → α
  | .truncated => truncated
  | .noEnd => noEnd
  | .done output => done output

/-- A search that returns comes to what the loop on natural numbers comes to. -/
theorem result_search {α : Type} {wanted : Bytes} {body : ℕ → Unit → Except Fault (Pass Unit α)}
    {truncated absent result : α} {found : ℕ → α} {fuel : ℕ} (hfits : png.length + 2 ^ 31 ≤ w.top)
    (hbody : ∀ c flow, c + 12 ≤ png.length → body c () = .ok flow →
      flow = searchPass png wanted truncated found c) (hcursor : cursor ≤ png.length)
    (h : ((walker w png body fun _ => absent).run fuel cursor ()).result = .ok result) :
    result = ofSearch truncated absent found (Png.findLoop png wanted fuel cursor) := by
  induction fuel generalizing cursor with
  | zero => exact absurd h (by simp [Loop.run, Trace.still])
  | succ fuel ih =>
    have htop : cursor + 12 < w.top := by omega
    by_cases hroom : cursor + 12 ≤ png.length
    swap
    · rw [Loop.run_of_full htop (not_le.mp hroom)] at h
      rw [Png.findLoop, if_neg hroom]
      exact (Except.ok.inj h).symm
    rw [Loop.run_of_room htop hroom] at h
    rcases hflow : (walker w png body fun _ => absent).body cursor () with fault |
      flow <;> rw [hflow] at h
    · exact absurd h (by simp)
    obtain rfl := hbody cursor flow hroom hflow
    rw [Png.findLoop, if_pos hroom]
    unfold searchPass at h
    rcases lt_or_ge png.length (chunkEnd png cursor) with hcut | hwhole
    · rw [if_pos hcut] at h ⊢
      exact (Except.ok.inj h).symm
    rw [if_neg (not_lt.mpr hwhole)] at h ⊢
    by_cases hwanted : chunkType png cursor = wanted
    · rw [if_pos hwanted] at h ⊢
      exact (Except.ok.inj h).symm
    rw [if_neg hwanted] at h ⊢
    by_cases hend : chunkType png cursor = endType
    · rw [if_pos hend] at h ⊢
      exact (Except.ok.inj h).symm
    rw [if_neg hend] at h ⊢
    exact ih hwhole h

/-- So does an insertion. -/
theorem result_insertion {α : Type} {new output : Bytes}
    {body : ℕ → Copy → Except Fault (Pass Copy α)}
    {truncated noEnd result : α} {finish : Copy → α} {fuel : ℕ}
    (hfits : png.length + 2 ^ 31 ≤ w.top)
    (hbody : ∀ c s flow, c + 12 ≤ png.length → body c s = .ok flow →
      flow = copyPass png new truncated c s)
    (hfinish : ∀ output, finish ⟨output, false⟩ = noEnd) (hcursor : cursor ≤ png.length)
    (h : ((walker w png body finish).run fuel cursor ⟨output, false⟩).result = .ok result) :
    result = ofInsertion truncated noEnd (fun output => finish ⟨output, true⟩)
      (Png.insertLoop png new fuel cursor output) := by
  induction fuel generalizing cursor output with
  | zero => exact absurd h (by simp [Loop.run, Trace.still])
  | succ fuel ih =>
    have htop : cursor + 12 < w.top := by omega
    by_cases hroom : cursor + 12 ≤ png.length
    swap
    · rw [Loop.run_of_full htop (not_le.mp hroom)] at h
      rw [Png.insertLoop, if_neg hroom]
      exact (Except.ok.inj h).symm.trans (hfinish output)
    rw [Loop.run_of_room htop hroom] at h
    rcases hflow : (walker w png body finish).body cursor ⟨output, false⟩ with fault | flow <;>
      rw [hflow] at h
    · exact absurd h (by simp)
    obtain rfl := hbody cursor ⟨output, false⟩ flow hroom hflow
    rw [Png.insertLoop, if_pos hroom]
    unfold copyPass at h
    dsimp only at h ⊢
    rcases lt_or_ge png.length (chunkEnd png cursor) with hcut | hwhole
    · rw [if_pos hcut] at h ⊢
      exact (Except.ok.inj h).symm
    rw [if_neg (not_lt.mpr hwhole)] at h ⊢
    by_cases hend : chunkType png cursor = endType
    · rw [if_pos hend, if_neg Bool.false_ne_true, List.append_assoc] at h
      rw [if_pos hend]
      exact (Except.ok.inj h).symm
    rw [if_neg hend] at h ⊢
    exact ih hwhole h

/-- **What a search finds** is the first of the places with a chunk of its type, if that is
whole. -/
theorem findLoop_eq_found {wanted : Bytes} {fuel c : ℕ} :
    Png.findLoop png wanted fuel cursor = .found c ↔
      (positions png.length 12 (nextChunk png) fuel cursor).find?
        (fun b => chunkType png b = wanted) = some c ∧ chunkEnd png c ≤ png.length := by
  induction fuel generalizing cursor with
  | zero => exact ⟨fun h => absurd h (by simp [Png.findLoop]), fun h =>
    absurd h.1 (by simp [positions])⟩
  | succ fuel ih =>
    by_cases hroom : cursor + 12 ≤ png.length
    swap
    · rw [Png.findLoop, if_neg hroom, positions_eq_nil (not_le.mp hroom)]
      exact ⟨fun h => absurd h (by simp), fun h => absurd h.1 (by simp)⟩
    rw [Png.findLoop, if_pos hroom, positions, if_pos hroom]
    by_cases hwanted : chunkType png cursor = wanted
    · rw [List.find?_cons_of_pos (by simpa using hwanted), if_pos hwanted]
      split
      · next hcut =>
        refine ⟨fun h => absurd h (by simp), fun h => ?_⟩
        rw [← Option.some.inj h.1] at h
        exact absurd h.2 (not_le.mpr hcut)
      · next hwhole =>
        refine ⟨fun h => ?_, fun h => by rw [Option.some.inj h.1]⟩
        obtain rfl := Png.Search.found.inj h
        exact ⟨rfl, not_lt.mp hwhole⟩
    rw [List.find?_cons_of_neg (by simpa using hwanted), if_neg hwanted]
    rcases hnext : nextChunk png cursor with _ | stop
    · rw [Option.elim_none]
      refine ⟨fun h => ?_, fun h => absurd h.1 (by simp)⟩
      split at h
      · exact absurd h (by simp)
      split at h
      · exact absurd h (by simp)
      next hwhole hend =>
      rw [nextChunk_eq_some.mpr ⟨rfl, not_lt.mp hwhole, hend⟩] at hnext
      exact absurd hnext (by simp)
    · obtain ⟨rfl, hwhole, hend⟩ := nextChunk_eq_some.mp hnext
      rw [if_neg (not_lt.mpr hwhole), if_neg hend, Option.elim_some]
      exact ih

/-- The marker is seen on natural numbers exactly when the decomposition has it. -/
theorem markerPresent_iff (hsignature : startsWith png signature = true) :
    PinCard.markerPresent png = true ↔ Marked png := by
  have hfound : ∀ c, Png.findChunk png PinCard.pinChunkType = .found c ↔
      (boundaries png).find? (fun b => chunkType png b = PinCard.pinChunkType) = some c ∧
        chunkEnd png c ≤ png.length := fun c => findLoop_eq_found
  unfold PinCard.markerPresent
  rw [hsignature, Bool.true_and]
  constructor
  · intro h
    rcases hfind : Png.findChunk png PinCard.pinChunkType with _ | _ | c <;> rw [hfind] at h
    · exact absurd h Bool.false_ne_true
    · exact absurd h Bool.false_ne_true
    · obtain ⟨hfirst, hwhole⟩ := (hfound c).mp hfind
      rw [Bool.and_eq_true, beq_iff_eq, beq_iff_eq] at h
      exact ⟨c, hfirst, hwhole, h.1, by rw [h.2, h.1]⟩
  · rintro ⟨c, hfirst, hwhole, hdata, hcrc⟩
    rw [(hfound c).mpr ⟨hfirst, hwhole⟩]
    dsimp only
    rw [hdata, hcrc, beq_self_eq_true, beq_self_eq_true, Bool.and_self]

end

/-! ## Safety -/

section

variable {w : Width}

theorem length_signature_le {png : Bytes} (h : startsWith png signature = true) :
    signature.length ≤ png.length := by
  have hlen := congrArg List.length (eq_of_beq h)
  rw [List.length_take] at hlen
  omega

/-- A walker is safe when its passes follow the decomposition. -/
theorem safe_walker {α σ : Type} {png : Bytes} {body : ℕ → σ → Except Fault (Pass σ α)}
    {finish : σ → α} {s : σ} (hfits : png.length + 2 ^ 31 ≤ w.top)
    (hsignature : startsWith png signature = true)
    (hbody : ∀ c ∈ boundaries png, c + 12 ≤ png.length →
      (∀ b ∈ boundaries png, b < c → (walker w png body finish).Passes b) →
      ∀ s, ∃ flow, body c s = .ok flow ∧ flow.Follows 12 (nextChunk png) c) :
    Safe 12 (boundaries png) ((walker w png body finish).run png.length signature.length s) := by
  have hsize := length_signature_le hsignature
  have hpos : 0 < signature.length := by decide
  exact Loop.run_safe (l := walker w png body finish) (forward_nextChunk png) (by decide : 0 < 12)
    (show png.length + 12 < w.top by omega)
    (fun c hc hearlier => hbody c hc (room_of_mem_positions hc) hearlier) hsize
    (show png.length < signature.length + png.length by omega)

/-- Only a length within the last twelve, on 32 bits, has no sum. -/
theorem sum_lt_top {length : ℕ} (hlength : length < 2 ^ 32)
    (h : w = .thirtyTwo → length < 2 ^ 32 - 12) : 12 + length < w.top := by
  cases w with
  | thirtyTwo =>
    have htop : Width.top .thirtyTwo = 2 ^ 32 := rfl
    have hsmall := h rfl
    omega
  | sixtyFour =>
    have htop : Width.top .sixtyFour = 2 ^ 64 := rfl
    omega

theorem extract_safe [KeyCrypto] (png : Buffer w) :
    Safe 12 (boundaries png.bytes) (extractKeyChunk w png.bytes) := by
  unfold extractKeyChunk
  rcases hsignature : startsWith png.bytes signature with _ | _
  · exact safe_still _
  · exact safe_walker png.length_add hsignature fun c _ hroom _ s =>
      ⟨_, extractBody_eq png.length_add hroom, follows_searchPass _ _ _⟩

/-- A capsule that is accepted is small. -/
theorem length_buildKeyChunk [KeyCrypto] {keyfile data : Bytes}
    (h : Keycard.buildKeyChunk keyfile = .ok data) : data.length < 2 ^ 17 := by
  unfold Keycard.buildKeyChunk at h
  rcases hvalid : validateKeyfileBytes keyfile with e | ⟨⟩ <;>
    simp only [hvalid, bind, Except.bind] at h
  · exact absurd h (by simp)
  split at h
  · exact absurd h (by simp)
  next hshort =>
  have hmagic : Keycard.keyChunkMagic.length = 8 := rfl
  rw [← Except.ok.inj h, List.length_append, List.length_append, List.length_append,
    MachineWord.length_le16, FixedBytes.length_val]
  omega

theorem injectCapacities_eq [KeyCrypto] (png : Buffer w) {keyfile data : Bytes}
    (h : Keycard.buildKeyChunk keyfile = .ok data) :
    injectCapacities w png.bytes data = .ok () := by
  have hbuffer := png.length_add
  have htop := w.le_top
  have hlength := length_buildKeyChunk h
  unfold injectCapacities
  rw [add_eq_ok (by omega), ok_bind, add_eq_ok (by omega), ok_bind, add_eq_ok (by omega), ok_bind]

theorem inject_safe [KeyCrypto] (png keyfile : Buffer w) :
    Safe 12 (boundaries png.bytes) (injectKeyChunk w png.bytes keyfile.bytes) := by
  unfold injectKeyChunk
  rcases hsignature : startsWith png.bytes signature with _ | _
  · exact safe_still _
  rw [buildKeyChunk_eq]
  rcases hbuilt : Keycard.buildKeyChunk keyfile.bytes with e | data
  · exact safe_still _
  show Safe 12 _ (.beginning (injectCapacities w png.bytes data) _)
  rw [injectCapacities_eq png hbuilt]
  exact safe_walker png.length_add hsignature fun c _ hroom _ s =>
    ⟨_, injectBody_eq png.length_add hroom data s, follows_copyPass _ _ _⟩

/-- A length with no sum is that of a chunk that runs past the end. -/
theorem chunkEnd_of_overlong (png : Buffer w) {c : ℕ}
    (h : w.top ≤ 12 + chunkLength png.bytes c) : png.bytes.length < chunkEnd png.bytes c := by
  have hbuffer := png.length_add
  rw [chunkEnd]
  omega

/-- **The search for the marker** does not come to an overlong chunk behind a marker. -/
theorem marker_safe (png : Buffer w)
    (h : w = .thirtyTwo → startsWith png.bytes signature = true → Overlong png.bytes →
      Marked png.bytes) :
    Safe 12 (boundaries png.bytes) (markerPresent w png.bytes) := by
  unfold markerPresent
  rcases hsignature : startsWith png.bytes signature with _ | _
  · exact safe_still _
  refine safe_walker png.length_add hsignature fun c hc hroom hearlier s => ?_
  have hsum : 8 + chunkLength png.bytes c < w.top := by
    by_contra hover
    have hpast := chunkEnd_of_overlong png (c := c) (by omega)
    have hlong : w = .thirtyTwo ∧ 2 ^ 32 - 12 ≤ chunkLength png.bytes c := by
      by_contra hshort
      have hlt := sum_lt_top (w := w) (chunkLength_lt png.bytes c) fun hw => by
        by_contra hge
        exact hshort ⟨hw, not_lt.mp hge⟩
      omega
    obtain ⟨first, hfirst, hwhole, -, -⟩ := h hlong.1 hsignature ⟨c, hc, hlong.2⟩
    have hmem := List.mem_of_find?_eq_some hfirst
    have htype : chunkType png.bytes first = PinCard.pinChunkType := by
      simpa using List.find?_some hfirst
    rcases lt_trichotomy first c with hlt | rfl | hgt
    · -- the search ends at the chunk of the marker's type, so it does not pass
      obtain ⟨s, stop, s', hpass⟩ := hearlier first hmem hlt
      have hends : markerBody w png.bytes first () = .ok (.next stop s') := hpass
      have hbuffer := png.length_add
      have hsmall : 8 + chunkLength png.bytes first < w.top := by
        rw [chunkEnd] at hwhole
        omega
      rw [markerBody_eq png.length_add (room_of_mem_positions hmem) hsmall, searchPass,
        if_neg (not_lt.mpr hwhole), if_pos htype] at hends
      exact absurd (Except.ok.inj hends) (by simp)
    · omega
    · obtain ⟨stop, hstop⟩ := next_of_lt (forward_nextChunk png.bytes) hc hmem hgt
      exact absurd (nextChunk_eq_some.mp hstop).2.1 (not_le.mpr hpast)
  exact ⟨_, markerBody_eq png.length_add hroom hsum, follows_searchPass _ _ _⟩

/-- A pass of the search for the marker faults, or does what a search does. -/
theorem markerBody_ok (png : Buffer w) {c : ℕ} {flow : Pass Unit Bool}
    (hroom : c + 12 ≤ png.bytes.length) (h : markerBody w png.bytes c () = .ok flow) :
    flow = searchPass png.bytes PinCard.pinChunkType false (isMarker png.bytes) c := by
  by_cases hsum : 8 + chunkLength png.bytes c < w.top
  · rw [markerBody_eq png.length_add hroom hsum] at h
    exact (Except.ok.inj h).symm
  · unfold markerBody at h
    rw [lengthField_eq png.length_add hroom, ok_bind, add_eq_error (not_lt.mp hsum),
      error_bind] at h
    exact absurd h (by simp)

/-- What the search for the marker returns. -/
theorem markerPresent_result (png : Buffer w) {present : Bool}
    (h : (markerPresent w png.bytes).result = .ok present) :
    present = PinCard.markerPresent png.bytes := by
  unfold markerPresent at h
  unfold PinCard.markerPresent
  rcases hsignature : startsWith png.bytes signature with _ | _ <;> rw [hsignature] at h
  · exact (Except.ok.inj h).symm
  rw [result_search png.length_add
    (fun c flow => markerBody_ok png) (length_signature_le hsignature) h,
    Bool.true_and]
  show ofSearch false false (isMarker png.bytes) (Png.findChunk png.bytes PinCard.pinChunkType) = _
  rcases Png.findChunk png.bytes PinCard.pinChunkType with _ | _ | c <;> rfl

theorem addCapacities_eq (png : Buffer w) : addCapacities w png.bytes = .ok () := by
  have hbuffer := png.length_add
  have hmarker : PinCard.pinChunkData.length = 12 := rfl
  unfold addCapacities
  rw [hmarker, add_eq_ok (by omega), ok_bind, add_eq_ok (by omega), ok_bind, add_eq_ok (by omega),
    ok_bind]

/-- The loop of `add_pin_marker` is come to when there is no marker. -/
theorem addPinMarker_eq (png : Buffer w) (hsignature : startsWith png.bytes signature = true)
    (habsent : (markerPresent w png.bytes).result = .ok false) : addPinMarker w png.bytes =
      (walker w png.bytes (addBody w png.bytes) addFinish).run png.bytes.length signature.length
        ⟨signature, false⟩ := by
  unfold addPinMarker
  rw [habsent, addCapacities_eq, hsignature]
  rfl

theorem add_safe (png : Buffer w)
    (h : w = .thirtyTwo → startsWith png.bytes signature = true → Overlong png.bytes →
      Marked png.bytes) :
    Safe 12 (boundaries png.bytes) (addPinMarker w png.bytes) := by
  obtain ⟨present, hpresent⟩ := (marker_safe png h).returns
  rcases hsignature : startsWith png.bytes signature with _ | _
  · unfold addPinMarker
    rw [hpresent, hsignature]
    cases present <;> exact safe_still _
  cases present with
  | true =>
    unfold addPinMarker
    rw [hpresent]
    exact safe_still _
  | false =>
    have hnot : ¬Marked png.bytes := by
      rw [← markerPresent_iff hsignature, ← markerPresent_result png hpresent]
      exact Bool.false_ne_true
    rw [addPinMarker_eq png hsignature hpresent]
    refine safe_walker png.length_add hsignature fun c hc hroom _ s => ?_
    have hsum : 12 + chunkLength png.bytes c < w.top := sum_lt_top (chunkLength_lt _ _) fun hw => by
      by_contra hlong
      exact hnot (h hw hsignature ⟨c, hc, not_lt.mp hlong⟩)
    exact ⟨_, addBody_eq png.length_add hroom hsum s, follows_copyPass _ _ _⟩

/-! ## The models on natural numbers -/

/-- **The key chunk is read** as `Keycard` reads it, on both machines. -/
theorem extractKeyChunk_result [KeyCrypto] (png : Buffer w) :
    (extractKeyChunk w png.bytes).result = .ok (Keycard.extractKeyChunk png.bytes) := by
  obtain ⟨result, hresult⟩ := (extract_safe png).returns
  rw [hresult]
  unfold extractKeyChunk at hresult
  unfold Keycard.extractKeyChunk
  rcases hsignature : startsWith png.bytes signature with _ | _ <;> rw [hsignature] at hresult
  · exact hresult.symm
  have hbody : ∀ c flow, c + 12 ≤ png.bytes.length → extractBody w png.bytes c () = .ok flow →
      flow = searchPass png.bytes Keycard.keyChunkType (.error .keyCardDecode)
        (fun c => (Keycard.parseKeyChunk (chunkData png.bytes c)).map some) c := by
    intro c flow hroom hflow
    rw [extractBody_eq png.length_add hroom] at hflow
    exact (Except.ok.inj hflow).symm
  rw [result_search png.length_add hbody (length_signature_le hsignature) hresult]
  show Except.ok (ofSearch _ _ _ (Png.findChunk png.bytes Keycard.keyChunkType)) = _
  rcases Png.findChunk png.bytes Keycard.keyChunkType with _ | _ | c
  · rfl
  · rfl
  · show Except.ok ((Keycard.parseKeyChunk (chunkData png.bytes c)).map some) = _
    rcases hparse : Keycard.parseKeyChunk (chunkData png.bytes c) with e | keyfile <;>
      simp [bind, Except.bind, Except.map, hparse]

/-- **The key chunk is put in** as `Keycard` puts it in. -/
theorem injectKeyChunk_result [KeyCrypto] (png keyfile : Buffer w) :
    (injectKeyChunk w png.bytes keyfile.bytes).result =
      .ok (Keycard.injectKeyChunk png.bytes keyfile.bytes) := by
  obtain ⟨result, hresult⟩ := (inject_safe png keyfile).returns
  rw [hresult]
  unfold injectKeyChunk at hresult
  unfold Keycard.injectKeyChunk
  rcases hsignature : startsWith png.bytes signature with _ | _ <;> rw [hsignature] at hresult
  · exact hresult.symm
  rw [buildKeyChunk_eq] at hresult
  rcases hbuilt : Keycard.buildKeyChunk keyfile.bytes with e | data <;> rw [hbuilt] at hresult
  · exact hresult.symm
  have hrun : ((walker w png.bytes (injectBody w png.bytes data) injectFinish).run png.bytes.length
      signature.length ⟨signature, false⟩).result = .ok result := by
    rw [← hresult]
    show _ = (Trace.beginning (injectCapacities w png.bytes data) _).result
    rw [injectCapacities_eq png hbuilt]
    rfl
  have hbody : ∀ c s flow, c + 12 ≤ png.bytes.length → injectBody w png.bytes data c s = .ok flow →
      flow = copyPass png.bytes (Png.chunk Keycard.keyChunkType data)
        (.error .keyCardDecode) c s := by
    intro c s flow hroom hflow
    rw [injectBody_eq png.length_add hroom] at hflow
    exact (Except.ok.inj hflow).symm
  rw [result_insertion png.length_add hbody (fun _ => rfl) (length_signature_le hsignature) hrun]
  show Except.ok (ofInsertion _ _ _
    (Png.insertChunk png.bytes (Png.chunk Keycard.keyChunkType data))) = _
  simp only [bind, Except.bind]
  rcases Png.insertChunk png.bytes (Png.chunk Keycard.keyChunkType data) with _ | _ | output <;> rfl

/-- **The marker is put in** as `PinCard` puts it in, on 64 bits. -/
theorem addPinMarker_result (png : Buffer .sixtyFour) :
    (addPinMarker .sixtyFour png.bytes).result = .ok (PinCard.addPinMarker png.bytes) := by
  have hwidth : Width.sixtyFour = .thirtyTwo → startsWith png.bytes signature = true →
      Overlong png.bytes → Marked png.bytes := fun h => absurd h (by decide)
  obtain ⟨present, hpresent⟩ := (marker_safe png hwidth).returns
  obtain ⟨result, hresult⟩ := (add_safe png hwidth).returns
  have hmarker := markerPresent_result png hpresent
  unfold PinCard.addPinMarker
  rw [← hmarker]
  cases present with
  | true =>
    unfold addPinMarker
    rw [hpresent]
    rfl
  | false =>
    rcases hsignature : startsWith png.bytes signature with _ | _
    · unfold addPinMarker
      rw [hpresent, hsignature]
      rfl
    have hbuffer := png.fits
    have htop : Width.top .sixtyFour = 2 ^ 64 := rfl
    have hhalf : 2 ^ (Width.bits .sixtyFour - 1) = 2 ^ 63 := rfl
    have hbody : ∀ c s flow, c + 12 ≤ png.bytes.length →
        addBody .sixtyFour png.bytes c s = .ok flow → flow = copyPass png.bytes
          (Png.chunk PinCard.pinChunkType PinCard.pinChunkData)
          (.error (.text "truncated PNG")) c s := by
      intro c s flow hroom hflow
      have hlength := chunkLength_lt png.bytes c
      have hend : chunkEnd png.bytes c < Width.top .sixtyFour := by
        rw [chunkEnd]
        omega
      rw [addBody_eq png.length_add hroom (by omega), if_pos hend] at hflow
      exact (Except.ok.inj hflow).symm
    rw [addPinMarker_eq png hsignature hpresent] at hresult ⊢
    rw [hresult, result_insertion png.length_add hbody
      (fun _ => rfl) (length_signature_le hsignature)
      hresult]
    show Except.ok (ofInsertion _ _ _ (Png.insertChunk png.bytes
      (Png.chunk PinCard.pinChunkType PinCard.pinChunkData))) = _
    simp only [Bool.false_eq_true, if_false, Bool.not_true]
    rcases Png.insertChunk png.bytes (Png.chunk PinCard.pinChunkType PinCard.pinChunkData) with
      _ | _ | output <;> rfl

/-! ## When all four are safe -/

/-- **The loop that adds a marker fails** when it comes to an overlong chunk. -/
theorem add_error (png : Buffer .thirtyTwo) {s : Copy}
    (hsignature : startsWith png.bytes signature = true)
    (hlong : Overlong png.bytes) :
    ((walker .thirtyTwo png.bytes (addBody .thirtyTwo png.bytes) addFinish).run png.bytes.length
      signature.length s).result = .error .overflow := by
  obtain ⟨c, hc, hlength⟩ := hlong
  have hbuffer := png.length_add
  have htop : Width.top .thirtyTwo = 2 ^ 32 := rfl
  refine Loop.run_error (forward_nextChunk png.bytes)
    (show png.bytes.length + 12 < Width.top .thirtyTwo by omega) hc (fun b stop s hstop => ?_)
    (fun s => addBody_eq_error hbuffer (room_of_mem_positions hc) (by omega) s)
    (length_signature_le hsignature)
  obtain ⟨rfl, hwhole, hend⟩ := nextChunk_eq_some.mp hstop
  have hsize : chunkEnd png.bytes b = b + 12 + chunkLength png.bytes b := rfl
  refine ⟨⟨s.output ++ slice png.bytes b (chunkEnd png.bytes b - b), s.inserted⟩, ?_⟩
  show addBody .thirtyTwo png.bytes b s = _
  rw [addBody_eq hbuffer (by omega) (by omega) s, copyPass, if_neg (not_lt.mpr hwhole), if_neg hend]

/-- **When the walkers are safe.**  On 64 bits always; on 32 bits, if it is a PNG and one of its
chunks is overlong, exactly when a marker stands before it. -/
theorem chunk_walkers_safe_iff [KeyCrypto] (png keyfile : Buffer w) :
    WalkersSafe png keyfile ↔ (w = .thirtyTwo → startsWith png.bytes signature = true →
      Overlong png.bytes → Marked png.bytes) := by
  constructor
  · rintro hsafe rfl hsignature hlong
    obtain ⟨present, hpresent⟩ := hsafe.marker.returns
    cases present with
    | true =>
      rw [← markerPresent_iff hsignature]
      exact (markerPresent_result png hpresent).symm
    | false =>
      obtain ⟨result, hresult⟩ := hsafe.add.returns
      rw [addPinMarker_eq png hsignature hpresent, add_error png hsignature hlong] at hresult
      exact absurd hresult (by simp)
  · intro h
    exact ⟨extract_safe png, inject_safe png keyfile, marker_safe png h, add_safe png h⟩

end

/-- The signature, and a chunk whose length field is the largest number of 32 bits. -/
def overlongPng : Buffer .thirtyTwo :=
  ⟨signature ++ ([0xff, 0xff, 0xff, 0xff] ++ List.replicate 8 0), by decide⟩

/-- On 32 bits the search for the marker overflows there. -/
theorem overlong_length :
    let _ := plainKeyCrypto
    (markerPresent .thirtyTwo overlongPng.bytes).result = .error .overflow ∧
      ¬∀ keyfile : Buffer .thirtyTwo, WalkersSafe overlongPng keyfile := by
  let _ := plainKeyCrypto
  have hfault : (markerPresent .thirtyTwo overlongPng.bytes).result = .error .overflow := by
    decide +kernel
  refine ⟨hfault, fun h => ?_⟩
  obtain ⟨present, hpresent⟩ := (h ⟨[], by decide⟩).marker.returns
  rw [hfault] at hpresent
  exact absurd hpresent (by simp)

end ChunkWalkers
end OrIsyVra
