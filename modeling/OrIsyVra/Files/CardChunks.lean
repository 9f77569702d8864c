import OrIsyVra.Files.Capsules
import OrIsyVra.Files.PinCard

/-!
# The chunks of a key card

Four loops walk the chunks of a card: two that look for a chunk, two that put one in front of
`IEND`.  They agree on where chunks start and end: on a string that is the signature and encoded
chunks each of them steps from boundary to boundary (`At`), so a search stops at the first chunk of
its type (`findChunk_encoded`), and an insertion gives the encoding of the list with the new chunk
in front of the last one (`insertChunk_encoded`).

So a capsule and the marker survive each other (`card_chunks`), and taking the two chunks out leaves
those of the original; the chunks of a string are determined by it (`bytesOf_injective`).
-/

namespace OrIsyVra
namespace Png

open ByteString MachineWord

/-! ## Chunks as values -/

/-- A chunk, with any checksum. -/
structure Chunk where
  type : FixedBytes 4
  data : Bytes
  crc : FixedBytes 4
  size : data.length < 2 ^ 32

namespace Chunk

def fields (c : Chunk) : List Bytes :=
  [be32 (UInt32.ofNat c.data.length), c.type.val, c.data, c.crc.val]

def encode (c : Chunk) : Bytes := c.fields.flatten

/-- The chunk of a type and its data, with their checksum. -/
def of (type : FixedBytes 4) (data : Bytes) (size : data.length < 2 ^ 32) : Chunk :=
  ⟨type, data, ⟨be32 (crc32 (type.val ++ data)), length_be32 _⟩, size⟩

theorem encode_of (type : FixedBytes 4) (data : Bytes) (size : data.length < 2 ^ 32) :
    (of type data size).encode = chunk type.val data := by
  simp only [encode, fields, of, chunk, List.flatten_cons, List.flatten_nil, List.append_nil]

theorem length_encode (c : Chunk) : c.encode.length = c.data.length + 12 := by
  rw [encode, List.length_flatten]
  simp only [fields, List.map_cons, List.map_nil, List.sum_cons, List.sum_nil, length_be32,
    FixedBytes.length_val]
  omega

end Chunk

/-- The chunks one behind the other. -/
def bytesOf (cs : List Chunk) : Bytes := (cs.map Chunk.encode).flatten

@[simp] theorem bytesOf_nil : bytesOf [] = [] := rfl

@[simp] theorem bytesOf_cons (c : Chunk) (cs : List Chunk) :
    bytesOf (c :: cs) = c.encode ++ bytesOf cs := rfl

theorem bytesOf_append (cs cs' : List Chunk) : bytesOf (cs ++ cs') = bytesOf cs ++ bytesOf cs' := by
  rw [bytesOf, List.map_append, List.flatten_append]
  rfl

/-- There are at most as many chunks as bytes. -/
theorem length_le_bytesOf (cs : List Chunk) : cs.length ≤ (bytesOf cs).length := by
  induction cs with
  | nil => exact le_rfl
  | cons c cs ih =>
    rw [bytesOf_cons, List.length_append, List.length_cons, c.length_encode]
    omega

/-! ## At a boundary -/

/-- The chunk stands at the cursor, and is all there. -/
structure At (png : Bytes) (cursor : ℕ) (c : Chunk) : Prop where
  type : chunkType png cursor = c.type.val
  data : chunkData png cursor = c.data
  crc : chunkCrc png cursor = ofBe32 c.crc.val
  stop : chunkEnd png cursor = cursor + c.encode.length
  copied : slice png cursor c.encode.length = c.encode
  whole : cursor + c.encode.length ≤ png.length

/-- **What is read at a boundary** is the chunk that was written there. -/
theorem at_append (before tail : Bytes) (c : Chunk) :
    At (before ++ (c.encode ++ tail)) before.length c := by
  have hfield : ∀ off n, slice (before ++ (c.encode ++ tail)) (before.length + off) n =
      slice (c.encode ++ tail) off n := by
    intro off n
    rw [slice, slice, ← List.drop_drop, List.drop_left]
  have hshape : c.encode ++ tail = (c.fields ++ [tail]).flatten := by
    rw [List.flatten_append, List.flatten_singleton]
    rfl
  have hlengthField : slice (c.encode ++ tail) 0 4 = be32 (UInt32.ofNat c.data.length) := by
    rw [hshape]
    exact slice_flatten 0 rfl rfl (length_be32 _)
  have htype : slice (c.encode ++ tail) 4 4 = c.type.val := by
    rw [hshape]
    exact slice_flatten 1 rfl (by simp [Chunk.fields]) (by simp)
  have hdata : slice (c.encode ++ tail) 8 c.data.length = c.data := by
    rw [hshape]
    exact slice_flatten 2 rfl (by simp [Chunk.fields]) rfl
  have hcrc : slice (c.encode ++ tail) (8 + c.data.length) 4 = c.crc.val := by
    rw [hshape]
    exact slice_flatten 3 rfl (by simp [Chunk.fields]; omega) (by simp)
  have hlength : chunkLength (before ++ (c.encode ++ tail)) before.length = c.data.length := by
    have hslice := hfield 0 4
    rw [Nat.add_zero, hlengthField] at hslice
    rw [chunkLength, hslice, ofBe32_be32, UInt32.toNat_ofNat_of_lt' c.size]
  refine ⟨(hfield 4 4).trans htype, ?_, ?_, ?_, ?_, ?_⟩
  · rw [chunkData, hlength, hfield, hdata]
  · rw [chunkCrc, hlength, Nat.add_assoc, hfield, hcrc]
  · rw [chunkEnd, hlength, c.length_encode]
    omega
  · have hself := hfield 0 c.encode.length
    rw [Nat.add_zero] at hself
    rw [hself, slice, List.drop_zero, List.take_left]
  · rw [List.length_append, List.length_append]
    omega

/-! ## The loops on encoded chunks -/

section

variable {wanted new output before tail : Bytes} {body : List Chunk} {c : Chunk} {fuel : ℕ}

/-- A search passes by the chunks of other types. -/
theorem findLoop_skip (hbody : ∀ c ∈ body, c.type.val ≠ wanted ∧ c.type.val ≠ endType)
    (hfuel : body.length ≤ fuel) :
    findLoop (before ++ (bytesOf body ++ tail)) wanted fuel before.length =
      findLoop (before ++ (bytesOf body ++ tail)) wanted (fuel - body.length)
        (before ++ bytesOf body).length := by
  induction body generalizing before fuel with
  | nil => rw [bytesOf_nil, List.append_nil, List.length_nil, Nat.sub_zero]
  | cons c body ih =>
    obtain ⟨⟨hwanted, hend⟩, hrest⟩ := List.forall_mem_cons.mp hbody
    have hat := at_append before (bytesOf body ++ tail) c
    have hsize := c.length_encode
    have hwhole := hat.whole
    have hnext : before ++ (c.encode ++ (bytesOf body ++ tail)) =
        (before ++ c.encode) ++ (bytesOf body ++ tail) := (List.append_assoc _ _ _).symm
    cases fuel with
    | zero => exact absurd hfuel (by simp)
    | succ fuel =>
      rw [List.length_cons, Nat.add_le_add_iff_right] at hfuel
      rw [bytesOf_cons, List.append_assoc, findLoop, if_pos (by omega), hat.stop,
        if_neg (not_lt.mpr hwhole), hat.type, if_neg hwanted, if_neg hend, hnext,
        ← List.length_append, ih hrest hfuel, List.length_cons, Nat.add_sub_add_right, ← hnext,
        List.append_assoc before]

/-- An insertion copies them. -/
theorem insertLoop_skip (hbody : ∀ c ∈ body, c.type.val ≠ endType) (hfuel : body.length ≤ fuel) :
    insertLoop (before ++ (bytesOf body ++ tail)) new fuel before.length output =
      insertLoop (before ++ (bytesOf body ++ tail)) new (fuel - body.length)
        (before ++ bytesOf body).length (output ++ bytesOf body) := by
  induction body generalizing before fuel output with
  | nil => rw [bytesOf_nil, List.append_nil, List.append_nil, List.length_nil, Nat.sub_zero]
  | cons c body ih =>
    obtain ⟨hend, hrest⟩ := List.forall_mem_cons.mp hbody
    have hat := at_append before (bytesOf body ++ tail) c
    have hsize := c.length_encode
    have hwhole := hat.whole
    have hcopied := hat.copied
    have hnext : before ++ (c.encode ++ (bytesOf body ++ tail)) =
        (before ++ c.encode) ++ (bytesOf body ++ tail) := (List.append_assoc _ _ _).symm
    cases fuel with
    | zero => exact absurd hfuel (by simp)
    | succ fuel =>
      rw [List.length_cons, Nat.add_le_add_iff_right] at hfuel
      rw [bytesOf_cons, List.append_assoc, insertLoop, if_pos (by omega), hat.stop,
        if_neg (not_lt.mpr hwhole), hat.type, Nat.add_sub_cancel_left, hcopied]
      dsimp only
      rw [if_neg hend, hnext, ← List.length_append, ih hrest hfuel, List.length_cons,
        Nat.add_sub_add_right, ← hnext, List.append_assoc before, List.append_assoc output]

/-- The fuel of both loops is more than the chunks there are. -/
theorem length_lt_fuel (body : List Chunk) (c : Chunk) (before tail : Bytes) :
    ∃ fuel, (before ++ (bytesOf body ++ (c.encode ++ tail))).length - body.length = fuel + 1 ∧
      body.length ≤ (before ++ (bytesOf body ++ (c.encode ++ tail))).length := by
  have hbody := length_le_bytesOf body
  have hsize := c.length_encode
  refine ⟨(before ++ (bytesOf body ++ (c.encode ++ tail))).length - body.length - 1, ?_, ?_⟩ <;>
    rw [List.length_append, List.length_append, List.length_append] <;> omega

/-- **A search stops at the first chunk of its type.** -/
theorem findChunk_encoded (hbody : ∀ c ∈ body, c.type.val ≠ wanted ∧ c.type.val ≠ endType)
    (htype : c.type.val = wanted) :
    findChunk (signature ++ (bytesOf body ++ (c.encode ++ tail))) wanted =
      .found (signature ++ bytesOf body).length := by
  obtain ⟨fuel, hfuel, hle⟩ := length_lt_fuel body c signature tail
  have hat := at_append (signature ++ bytesOf body) tail c
  have hsize := c.length_encode
  have hwhole := hat.whole
  rw [findChunk, findLoop_skip hbody hle, hfuel, ← List.append_assoc, findLoop, if_pos (by omega),
    hat.stop, if_neg (not_lt.mpr hwhole), hat.type, if_pos htype]

/-- Or at the end. -/
theorem findChunk_encoded_absent
    (hbody : ∀ c ∈ body, c.type.val ≠ wanted ∧ c.type.val ≠ endType) (htype : c.type.val = endType)
    (hwanted : endType ≠ wanted) :
    findChunk (signature ++ (bytesOf body ++ (c.encode ++ tail))) wanted = .absent := by
  obtain ⟨fuel, hfuel, hle⟩ := length_lt_fuel body c signature tail
  have hat := at_append (signature ++ bytesOf body) tail c
  have hsize := c.length_encode
  have hwhole := hat.whole
  rw [findChunk, findLoop_skip hbody hle, hfuel, ← List.append_assoc, findLoop, if_pos (by omega),
    hat.stop, if_neg (not_lt.mpr hwhole), hat.type, htype, if_neg hwanted, if_pos rfl]

/-- **An insertion puts the new bytes in front of the last chunk**, and drops what comes behind
it. -/
theorem insertChunk_encoded (hbody : ∀ c ∈ body, c.type.val ≠ endType)
    (htype : c.type.val = endType) :
    insertChunk (signature ++ (bytesOf body ++ (c.encode ++ tail))) new =
      .done (signature ++ (bytesOf body ++ (new ++ c.encode))) := by
  obtain ⟨fuel, hfuel, hle⟩ := length_lt_fuel body c signature tail
  have hat := at_append (signature ++ bytesOf body) tail c
  have hsize := c.length_encode
  have hwhole := hat.whole
  rw [insertChunk, insertLoop_skip hbody hle, hfuel, ← List.append_assoc, insertLoop,
    if_pos (by omega), hat.stop, if_neg (not_lt.mpr hwhole), Nat.add_sub_cancel_left, hat.copied,
    hat.type, if_pos htype, List.append_assoc]

end

/-! ## The chunks of a string -/

/-- **The chunks are determined by their bytes.** -/
theorem bytesOf_injective {cs cs' : List Chunk} (h : bytesOf cs = bytesOf cs') : cs = cs' := by
  have hpositive : ∀ (c : Chunk) (rest : Bytes), c.encode ++ rest ≠ [] := by
    intro c rest hnil
    have hlen := congrArg List.length hnil
    rw [List.length_append, c.length_encode, List.length_nil] at hlen
    omega
  induction cs generalizing cs' with
  | nil =>
    cases cs' with
    | nil => rfl
    | cons c' cs' => exact absurd h.symm (hpositive c' _)
  | cons c cs ih =>
    cases cs' with
    | nil => exact absurd h (hpositive c _)
    | cons c' cs' =>
      rw [bytesOf_cons, bytesOf_cons] at h
      -- the same bytes, read at the first boundary
      have hat := at_append [] (bytesOf cs) c
      have hat' := at_append [] (bytesOf cs') c'
      rw [List.nil_append] at hat hat'
      rw [h] at hat
      have hdata : c.data = c'.data := hat.data.symm.trans hat'.data
      have hsize : c.encode.length = c'.encode.length := by
        rw [c.length_encode, c'.length_encode, hdata]
      obtain ⟨hencode, hrest⟩ := List.append_inj h hsize
      have htype : c.type = c'.type := Subtype.ext (hat.type.symm.trans hat'.type)
      have hcrc : c.crc = c'.crc := by
        refine Subtype.ext ?_
        have hfields : ∀ c : Chunk, c.encode.drop (c.data.length + 8) = c.crc.val := by
          intro c
          have hsplit : c.encode = (be32 (UInt32.ofNat c.data.length) ++ (c.type.val ++ c.data)) ++
              c.crc.val := by
            simp only [Chunk.encode, Chunk.fields, List.flatten_cons, List.flatten_nil,
              List.append_nil, List.append_assoc]
          rw [hsplit, List.drop_left']
          rw [List.length_append, List.length_append, length_be32, FixedBytes.length_val]
          omega
        rw [← hfields c, ← hfields c', hencode, hdata]
      obtain ⟨type, data, crc, size⟩ := c
      obtain ⟨type', data', crc', size'⟩ := c'
      simp only at hdata htype hcrc
      subst hdata htype hcrc
      rw [ih hrest]

end Png

open ByteString MachineWord Png

variable [KeyCrypto]

/-! ## The key chunk -/

def keyData (keyfile : Bytes) : Bytes :=
  Keycard.keyChunkMagic ++
    (le16 (UInt16.ofNat keyfile.length) ++ (keyfile ++ (KeyCrypto.sha256 keyfile).val))

omit [KeyCrypto] in
theorem length_of_validate {keyfile : Bytes} (h : validateKeyfileBytes keyfile = .ok ()) :
    keyfile.length = 128 := by
  obtain ⟨params, salt, nonce, wrapped, hcapsule⟩ := validateKeyfileBytes_iff.mp h
  rw [hcapsule.parts, List.length_append, length_encodeKeyfileHeader, hcapsule.length]
  rfl

theorem buildKeyChunk_eq {keyfile : Bytes} (h : validateKeyfileBytes keyfile = .ok ()) :
    Keycard.buildKeyChunk keyfile = .ok (keyData keyfile) := by
  have hlen := length_of_validate h
  unfold Keycard.buildKeyChunk
  rw [h]
  exact if_neg (show ¬2 ^ 16 ≤ keyfile.length by omega)

theorem length_keyData {keyfile : Bytes} (h : keyfile.length = 128) :
    (keyData keyfile).length = 170 := by
  rw [keyData, List.length_append, List.length_append, List.length_append, length_le16, h,
    FixedBytes.length_val]
  rfl

/-- **The capsule comes out of its chunk.** -/
theorem parseKeyChunk_keyData {keyfile : Bytes} (h : validateKeyfileBytes keyfile = .ok ()) :
    Keycard.parseKeyChunk (keyData keyfile) = .ok keyfile := by
  have hlen := length_of_validate h
  have hsize := length_keyData hlen
  have hmagic : (keyData keyfile).take Keycard.keyChunkMagic.length = Keycard.keyChunkMagic :=
    List.take_left
  have hshape :
    keyData keyfile = [Keycard.keyChunkMagic, le16 (UInt16.ofNat keyfile.length), keyfile,
      (KeyCrypto.sha256 keyfile).val].flatten := by
    simp only [keyData, List.flatten_cons, List.flatten_nil, List.append_nil]
  have hlength : slice (keyData keyfile) 8 2 = le16 (UInt16.ofNat keyfile.length) := by
    rw [hshape]
    exact slice_flatten 1 rfl rfl (length_le16 _)
  have hkey : slice (keyData keyfile) 10 128 = keyfile := by
    rw [hshape]
    exact slice_flatten 2 rfl (by simp; rfl) hlen
  have hdigest : (keyData keyfile).drop 138 = (KeyCrypto.sha256 keyfile).val := by
    have hsplit : keyData keyfile = (Keycard.keyChunkMagic ++
        (le16 (UInt16.ofNat keyfile.length) ++ keyfile)) ++ (KeyCrypto.sha256 keyfile).val := by
      simp only [keyData, List.append_assoc]
    rw [hsplit]
    refine List.drop_left' ?_
    rw [List.length_append, List.length_append, length_le16, hlen]
    rfl
  have hnumber : (ofLe16 (le16 (UInt16.ofNat keyfile.length))).toNat = 128 := by
    rw [ofLe16_le16, hlen]
    rfl
  have hmagicSize : Keycard.keyChunkMagic.length = 8 := rfl
  unfold Keycard.parseKeyChunk
  rw [hmagic, hsize, hmagicSize, hlength, hnumber]
  rw [if_neg (show ¬(170 < 8 + 2 + 32 ∨ Keycard.keyChunkMagic ≠ Keycard.keyChunkMagic) by decide)]
  dsimp only
  rw [if_neg (show ¬8 + 2 + 128 + 32 ≠ 170 by decide), hkey, hdigest, if_neg (not_not.mpr rfl), h]
  rfl

/-! ## Cards -/

omit [KeyCrypto] in
/-- The chunks of a card without those of the key and of the marker. -/
def withoutCard (cs : List Chunk) : List Chunk :=
  cs.filter fun c => decide (c.type.val ∉ [Keycard.keyChunkType, PinCard.pinChunkType])

omit [KeyCrypto] in
theorem startsWith_signature (rest : Bytes) : startsWith (signature ++ rest) signature = true := by
  rw [startsWith, List.take_left]
  exact beq_self_eq_true _

section

variable {body : List Chunk} {last : Chunk} {keyfile : Bytes}

/-- The chunk with a capsule. -/
def keyChunk (keyfile : Bytes) (h : keyfile.length = 128) : Chunk :=
  .of ⟨Keycard.keyChunkType, rfl⟩ (keyData keyfile) (by rw [length_keyData h]; decide)

/-- The chunk of the marker. -/
def pinChunk : Chunk := .of ⟨PinCard.pinChunkType, rfl⟩ PinCard.pinChunkData (by decide)

omit [KeyCrypto] in
/-- A list with one more chunk in front of the last. -/
theorem bytesOf_insert (c : Chunk) :
    bytesOf (body ++ [c, last]) = bytesOf body ++ (c.encode ++ last.encode) := by
  rw [bytesOf_append, bytesOf_cons, bytesOf_cons, bytesOf_nil, List.append_nil]

/-- **A capsule is put in front of the end.** -/
theorem injectKeyChunk_encoded (hbody : ∀ c ∈ body, c.type.val ≠ endType)
    (hlast : last.type.val = endType) (hvalid : validateKeyfileBytes keyfile = .ok ())
    (rest : Bytes) :
    Keycard.injectKeyChunk (signature ++ (bytesOf body ++ (last.encode ++ rest))) keyfile =
      .ok (signature ++
        bytesOf (body ++ [keyChunk keyfile (length_of_validate hvalid), last])) := by
  unfold Keycard.injectKeyChunk
  rw [startsWith_signature, buildKeyChunk_eq hvalid]
  simp only [Bool.not_true, Bool.false_eq_true, if_false, bind, Except.bind]
  rw [insertChunk_encoded hbody hlast, bytesOf_insert, keyChunk, Chunk.encode_of]

omit [KeyCrypto] in
/-- So is the marker, where there is none. -/
theorem addPinMarker_encoded (hbody : ∀ c ∈ body, c.type.val ≠ endType)
    (hlast : last.type.val = endType) (rest : Bytes)
    (habsent : PinCard.markerPresent (signature ++ (bytesOf body ++ (last.encode ++ rest))) =
      false) :
    PinCard.addPinMarker (signature ++ (bytesOf body ++ (last.encode ++ rest))) =
      .ok (signature ++ bytesOf (body ++ [pinChunk, last])) := by
  unfold PinCard.addPinMarker
  rw [habsent, startsWith_signature]
  simp only [Bool.not_true, Bool.false_eq_true, if_false]
  rw [insertChunk_encoded hbody hlast, bytesOf_insert, pinChunk, Chunk.encode_of]

/-- **The capsule is read** behind chunks of other types. -/
theorem extractKeyChunk_encoded
    (hbody : ∀ c ∈ body, c.type.val ≠ Keycard.keyChunkType ∧ c.type.val ≠ endType)
    (hvalid : validateKeyfileBytes keyfile = .ok ()) (rest : Bytes) :
    Keycard.extractKeyChunk (signature ++ (bytesOf body ++
      ((keyChunk keyfile (length_of_validate hvalid)).encode ++ rest))) = .ok (some keyfile) := by
  have hat := at_append (signature ++ bytesOf body) rest
    (keyChunk keyfile (length_of_validate hvalid))
  rw [List.append_assoc] at hat
  unfold Keycard.extractKeyChunk
  rw [startsWith_signature, findChunk_encoded hbody rfl]
  simp only [Bool.not_true, Bool.false_eq_true, if_false]
  rw [hat.data]
  show (do let keyfile ← Keycard.parseKeyChunk (keyData keyfile); Except.ok (some keyfile)) = _
  rw [parseKeyChunk_keyData hvalid]
  rfl

/-- The types of the chunks of a PNG without the two private ones. -/
def PlainChunks (body : List Chunk) : Prop :=
  ∀ c ∈ body, c.type.val ∉ [Keycard.keyChunkType, PinCard.pinChunkType, endType]

omit [KeyCrypto] in
theorem PlainChunks.ne (h : PlainChunks body) {c : Chunk} (hc : c ∈ body) :
    c.type.val ≠ Keycard.keyChunkType ∧ c.type.val ≠ PinCard.pinChunkType ∧
    c.type.val ≠ endType := by
  have hnot := h c hc
  simp only [List.mem_cons, List.not_mem_nil, or_false, not_or] at hnot
  exact hnot

/-- **The capsule and the marker survive each other**: the card with the capsule, and the card with
both. -/
theorem marked_encoded (rest : Bytes) (hbody : PlainChunks body) (hlast : last.type.val = endType)
    (hvalid : validateKeyfileBytes keyfile = .ok ()) :
    ∃ card marked, Keycard.injectKeyChunk
      (signature ++ (bytesOf (body ++ [last]) ++ rest)) keyfile =
        .ok card ∧ PinCard.addPinMarker card = .ok marked ∧
      Keycard.extractKeyChunk card = .ok (some keyfile) ∧
      Keycard.extractKeyChunk marked = .ok (some keyfile) ∧
      PinCard.markerPresent card = false ∧ PinCard.markerPresent marked = true ∧
      marked = signature ++ bytesOf ((body ++ [keyChunk keyfile (length_of_validate hvalid)]) ++
        [pinChunk, last]) := by
  let key := keyChunk keyfile (length_of_validate hvalid)
  have hkeyType : key.type.val = Keycard.keyChunkType := rfl
  -- the card, the key chunk counted as one of its body
  have hwithKey : ∀ c ∈ body ++ [key], c.type.val ≠ PinCard.pinChunkType ∧
    c.type.val ≠ endType := by
    intro c hc
    rcases List.mem_append.mp hc with hc | hc
    · exact ⟨(hbody.ne hc).2.1, (hbody.ne hc).2.2⟩
    · rw [List.mem_singleton.mp hc, hkeyType]
      decide
  have hcard : signature ++ bytesOf (body ++ [key, last]) =
      signature ++ (bytesOf (body ++ [key]) ++ (last.encode ++ [])) := by
    rw [bytesOf_insert, bytesOf_append, bytesOf_cons, bytesOf_nil, List.append_nil, List.append_nil,
      List.append_assoc]
  have hmarked : signature ++ bytesOf ((body ++ [key]) ++ [pinChunk, last]) =
      signature ++ (bytesOf (body ++ [key]) ++ (pinChunk.encode ++ last.encode)) := by
    rw [bytesOf_insert]
  have hpng : signature ++ (bytesOf (body ++ [last]) ++ rest) =
      signature ++ (bytesOf body ++ (last.encode ++ rest)) := by
    rw [bytesOf_append, bytesOf_cons, bytesOf_nil, List.append_nil, List.append_assoc]
  have habsent : findChunk (signature ++ bytesOf (body ++ [key, last])) PinCard.pinChunkType =
      .absent := by
    rw [hcard]
    exact findChunk_encoded_absent hwithKey hlast (by decide)
  have hplain : PinCard.markerPresent (signature ++ bytesOf (body ++ [key, last])) = false := by
    unfold PinCard.markerPresent
    rw [habsent, Bool.and_false]
  have hadd : PinCard.addPinMarker (signature ++ bytesOf (body ++ [key, last])) =
      .ok (signature ++ bytesOf ((body ++ [key]) ++ [pinChunk, last])) := by
    rw [hcard] at hplain ⊢
    exact addPinMarker_encoded (fun c hc => (hwithKey c hc).2) hlast [] hplain
  refine ⟨signature ++ bytesOf (body ++ [key, last]),
    signature ++ bytesOf ((body ++ [key]) ++ [pinChunk, last]), ?_, hadd, ?_, ?_, hplain,
    PinCard.markerPresent_addPinMarker hadd habsent, rfl⟩
  · rw [hpng]
    exact injectKeyChunk_encoded (fun c hc => (hbody.ne hc).2.2) hlast hvalid rest
  · rw [bytesOf_insert]
    exact extractKeyChunk_encoded
      (fun c hc => ⟨(hbody.ne hc).1, (hbody.ne hc).2.2⟩) hvalid last.encode
  · rw [hmarked, bytesOf_append, bytesOf_cons, bytesOf_nil, List.append_nil, List.append_assoc]
    exact extractKeyChunk_encoded (fun c hc => ⟨(hbody.ne hc).1, (hbody.ne hc).2.2⟩) hvalid _

/-- **Cards.**  Into a PNG without the two private chunks a capsule can be put, and the marker
behind it; both are found in what comes out, marking again changes nothing, and without the two
chunks it has the chunks of the PNG up to its end. -/
theorem card_chunks (rest : Bytes)
    (hbody : ∀ c ∈ body, c.type.val ∉ [Keycard.keyChunkType, PinCard.pinChunkType, endType])
    (hlast : last.type.val = endType) (hvalid : validateKeyfileBytes keyfile = .ok ()) :
    ∃ card marked, Keycard.injectKeyChunk
      (signature ++ (bytesOf (body ++ [last]) ++ rest)) keyfile =
        .ok card ∧ PinCard.addPinMarker card = .ok marked ∧
      Keycard.extractKeyChunk card = .ok (some keyfile) ∧
      Keycard.extractKeyChunk marked = .ok (some keyfile) ∧
      PinCard.markerPresent card = false ∧ PinCard.markerPresent marked = true ∧
      PinCard.addPinMarker marked = .ok marked ∧
      (∃ cs, marked = signature ++ bytesOf cs) ∧ ∀ cs, marked = signature ++ bytesOf cs →
        cs.length = body.length + 3 ∧ withoutCard cs = body ++ [last] := by
  have hplain : PlainChunks body := hbody
  obtain ⟨card, marked, hcard, hmarked, hkey, hkey', habsent, hpresent, hvalue⟩ :=
    marked_encoded rest hplain hlast hvalid
  refine ⟨card, marked, hcard, hmarked, hkey, hkey', habsent, hpresent, ?_,
    ⟨_, hvalue⟩, fun cs hcs => ?_⟩
  · unfold PinCard.addPinMarker
    rw [hpresent, if_pos rfl]
  · obtain rfl := bytesOf_injective (List.append_cancel_left (hvalue.symm.trans hcs))
    refine ⟨by simp only [List.length_append, List.length_cons, List.length_nil], ?_⟩
    have hkept : withoutCard body = body := by
      refine List.filter_eq_self.mpr fun c hc => ?_
      simp only [List.mem_cons, List.not_mem_nil, or_false, not_or, decide_eq_true_eq]
      exact ⟨(hplain.ne hc).1, (hplain.ne hc).2.1⟩
    have hkeyGone : withoutCard [keyChunk keyfile (length_of_validate hvalid)] = [] := rfl
    have hend : withoutCard [pinChunk, last] = [last] := by
      have hother : last.type.val ∉ [Keycard.keyChunkType, PinCard.pinChunkType] := by
        rw [hlast]
        decide
      rw [withoutCard, List.filter_cons_of_neg (by decide),
        List.filter_cons_of_pos (by simpa using hother),
        List.filter_nil]
    rw [withoutCard, List.filter_append, List.filter_append]
    show (withoutCard body ++ withoutCard [keyChunk keyfile _]) ++ withoutCard [pinChunk, last] = _
    rw [hkept, hkeyGone, hend, List.append_nil]

end

omit [KeyCrypto] in
/-- A PNG of one chunk and its end, with bytes behind it. -/
theorem card_chunks_sample :
    let _ := plainKeyCrypto
    let png := signature ++ (bytesOf [.of ⟨ascii "IHDR", rfl⟩ [1, 2, 3] (by decide),
      .of ⟨endType, rfl⟩ [] (by decide)] ++ [0xff])
    ∃ card marked, Keycard.injectKeyChunk png sampleCapsule = .ok card ∧
      PinCard.addPinMarker card = .ok marked ∧
      Keycard.extractKeyChunk marked = .ok (some sampleCapsule) ∧
      PinCard.markerPresent marked = true := by
  let _ := plainKeyCrypto
  let header : Chunk := .of ⟨ascii "IHDR", rfl⟩ [1, 2, 3] (by decide)
  have hbody :
    ∀ c ∈ [header], c.type.val ∉ [Keycard.keyChunkType, PinCard.pinChunkType, endType] := by
    intro c hc
    rw [List.mem_singleton.mp hc]
    decide
  have hlast : (Chunk.of ⟨endType, rfl⟩ [] (by decide)).type.val = endType := rfl
  have hvalid : validateKeyfileBytes sampleCapsule = .ok () := by decide +kernel
  obtain ⟨card, marked, hcard, hmarked, -, hkey, -, hpresent, -⟩ :=
    card_chunks [0xff] hbody hlast hvalid
  exact ⟨card, marked, hcard, hmarked, hkey, hpresent⟩

end OrIsyVra
